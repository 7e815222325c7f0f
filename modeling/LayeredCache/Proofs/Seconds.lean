import LayeredCache.Entry

/-!
# Time in two words

A clock keeps an instant, and a duration its length, in two words: whole seconds, and the
nanoseconds beyond them. Seconds are compared first; a sum carries a second when the nanoseconds
fill one, a difference borrows one when they do not suffice. There are two differences, one of
instants and one of durations, and they find out in different ways that they have to stop at zero.

Results:
* `before_iff`: the order is that of the nanoseconds in all.
* `add?_eq_some_iff`: sums are exact, and refused just when the seconds do not fit.
* `toNanos_since`, `toNanos_sub`: both differences are that of the nanoseconds in all, or zero.
* `exists_toNanos_eq`: what can be written in two words.
-/

namespace LayeredCache

/-- An instant or a length of time in two words: whole seconds, and the nanoseconds beyond them. -/
@[ext]
structure Split where
  secs : UInt64
  nanos : UInt32
  nanos_lt : nanos < 1_000_000_000
  deriving DecidableEq

namespace Split

def zero : Split := ⟨0, 0, by decide⟩

def isZero (a : Split) : Bool := a.secs == 0 && a.nanos == 0

/-- Fewer seconds, or as many and fewer nanoseconds. -/
def before (a b : Split) : Bool :=
  decide (a.secs < b.secs) || a.secs == b.secs && decide (a.nanos < b.nanos)

/-- The sum where the nanoseconds do not fill a second. -/
def addLevel (a b : Split) (h : a.nanos + b.nanos < 1_000_000_000) : Split :=
  ⟨a.secs + b.secs, a.nanos + b.nanos, h⟩

/-- The sum where they do, and the second is carried. -/
def addCarry (a b : Split) (h : ¬ a.nanos + b.nanos < 1_000_000_000) : Split :=
  ⟨a.secs + b.secs + 1, a.nanos + b.nanos - 1_000_000_000, by
    have := a.nanos_lt
    have := b.nanos_lt
    grind⟩

/-- The sum, if its seconds fit their word. -/
def add? (a b : Split) : Option Split :=
  if a.secs + b.secs < a.secs then none
  else if h : a.nanos + b.nanos < 1_000_000_000 then some (addLevel a b h)
  else if a.secs + b.secs + 1 = 0 then none
  else some (addCarry a b h)

/-- The difference where the nanoseconds suffice. -/
def subLevel (a b : Split) (h : b.nanos ≤ a.nanos) : Split :=
  ⟨a.secs - b.secs, a.nanos - b.nanos, by
    have := a.nanos_lt
    grind⟩

/-- The difference where they do not, and a second is borrowed. -/
def subBorrow (a b : Split) (h : ¬ b.nanos ≤ a.nanos) : Split :=
  ⟨a.secs - b.secs - 1, a.nanos + 1_000_000_000 - b.nanos, by
    have := b.nanos_lt
    grind⟩

/-- How long after the instant `b` the instant `a` comes; zero if it comes before. -/
def since (a b : Split) : Split :=
  if a.before b then zero
  else if h : b.nanos ≤ a.nanos then subLevel a b h
  else subBorrow a b h

/-- How much longer `a` lasts than `b`; zero when seconds are short, or the one to borrow. -/
def sub (a b : Split) : Split :=
  if a.secs < b.secs then zero
  else if h : b.nanos ≤ a.nanos then subLevel a b h
  else if a.secs - b.secs = 0 then zero
  else subBorrow a b h

/-! ## The count of nanoseconds -/

def toNanos (a : Split) : Nat := a.secs.toNat * 1_000_000_000 + a.nanos.toNat

variable {a b c : Split}

theorem toNat_nanos_lt (a : Split) : a.nanos.toNat < 1_000_000_000 :=
  UInt32.lt_iff_toNat_lt.mp a.nanos_lt

theorem toNanos_lt_limit (a : Split) :
    a.toNanos < 0x1_0000_0000_0000_0000 * 1_000_000_000 := by
  have hs := a.secs.toNat_lt
  have hn := a.toNat_nanos_lt
  unfold toNanos
  omega

def toDuration (a : Split) : Duration := ⟨a.toNanos, a.toNanos_lt_limit⟩

theorem toNanos_zero : zero.toNanos = 0 := rfl

theorem toNanos_inj : a.toNanos = b.toNanos ↔ a = b := by
  refine ⟨fun h => ?_, congrArg toNanos⟩
  have ha := a.toNat_nanos_lt
  have hb := b.toNat_nanos_lt
  rw [toNanos, toNanos] at h
  exact Split.ext (UInt64.toNat_inj.mp (by omega)) (UInt32.toNat_inj.mp (by omega))

/-- Every count below the limit can be written in two words. -/
theorem exists_toNanos_eq {n : Nat} (h : n < 0x1_0000_0000_0000_0000 * 1_000_000_000) :
    ∃ a : Split, a.toNanos = n := by
  have hnanos : (UInt32.ofNat (n % 1_000_000_000)).toNat = n % 1_000_000_000 :=
    UInt32.toNat_ofNat_of_lt' (by change _ < 0x1_0000_0000; omega)
  have hsecs : (UInt64.ofNat (n / 1_000_000_000)).toNat = n / 1_000_000_000 :=
    UInt64.toNat_ofNat_of_lt' (by change _ < 0x1_0000_0000_0000_0000; omega)
  refine ⟨⟨.ofNat (n / 1_000_000_000), .ofNat (n % 1_000_000_000), ?_⟩, ?_⟩
  · rw [UInt32.lt_iff_toNat_lt, hnanos]
    exact Nat.mod_lt _ (by decide)
  · rw [toNanos, hsecs, hnanos]
    omega

theorem isZero_iff : a.isZero = true ↔ a.toNanos = 0 := by
  rw [isZero, Bool.and_eq_true, beq_iff_eq, beq_iff_eq, ← UInt64.toNat_inj, ← UInt32.toNat_inj,
    UInt64.toNat_zero, UInt32.toNat_zero, toNanos]
  omega

/-- Comparing seconds first compares the counts. -/
theorem before_iff : a.before b = true ↔ a.toNanos < b.toNanos := by
  have ha := a.toNat_nanos_lt
  have hb := b.toNat_nanos_lt
  simp only [before, toNanos, Bool.or_eq_true, Bool.and_eq_true, decide_eq_true_eq, beq_iff_eq,
    UInt64.lt_iff_toNat_lt, UInt32.lt_iff_toNat_lt, ← UInt64.toNat_inj]
  omega

/-! ## Sums -/

/-- A sum of words that wraps around comes out below its first part. -/
theorem add_lt_iff {m n : UInt64} : m + n < m ↔ 0x1_0000_0000_0000_0000 ≤ m.toNat + n.toNat := by
  have hm := m.toNat_lt
  have hn := n.toNat_lt
  rw [UInt64.lt_iff_toNat_lt, UInt64.toNat_add]
  omega

theorem toNat_add_nanos (a b : Split) :
    (a.nanos + b.nanos).toNat = a.nanos.toNat + b.nanos.toNat := by
  have ha := a.toNat_nanos_lt
  have hb := b.toNat_nanos_lt
  rw [UInt32.toNat_add]
  exact Nat.mod_eq_of_lt (by omega)

/-- A sum of nanoseconds that is no part of a second fills one. -/
theorem le_of_fills (h : ¬ a.nanos + b.nanos < 1_000_000_000) :
    1_000_000_000 ≤ a.nanos.toNat + b.nanos.toNat := by
  rw [← toNat_add_nanos]
  exact UInt32.le_iff_toNat_le.mp (UInt32.not_lt.mp h)

theorem toNat_add_carry (m n : UInt64) :
    (m + n + 1).toNat = (m.toNat + n.toNat + 1) % 0x1_0000_0000_0000_0000 := by
  rw [UInt64.toNat_add, UInt64.toNat_add, UInt64.toNat_one]
  omega

theorem toNanos_addLevel (h : a.nanos + b.nanos < 1_000_000_000)
    (hs : a.secs.toNat + b.secs.toNat < 0x1_0000_0000_0000_0000) :
    (addLevel a b h).toNanos = a.toNanos + b.toNanos := by
  have hsecs : (a.secs + b.secs).toNat = a.secs.toNat + b.secs.toNat := by
    rw [UInt64.toNat_add]
    exact Nat.mod_eq_of_lt hs
  rw [toNanos, addLevel, hsecs, toNat_add_nanos, toNanos, toNanos]
  omega

theorem toNanos_addCarry (h : ¬ a.nanos + b.nanos < 1_000_000_000)
    (hs : a.secs.toNat + b.secs.toNat + 1 < 0x1_0000_0000_0000_0000) :
    (addCarry a b h).toNanos = a.toNanos + b.toNanos := by
  have hfill := le_of_fills h
  have hsecs : (a.secs + b.secs + 1).toNat = a.secs.toNat + b.secs.toNat + 1 := by
    rw [toNat_add_carry]
    exact Nat.mod_eq_of_lt hs
  have hnanos : (a.nanos + b.nanos - 1_000_000_000).toNat =
      a.nanos.toNat + b.nanos.toNat - 1_000_000_000 := by
    rw [UInt32.toNat_sub_of_le _ _ (UInt32.not_lt.mp h), toNat_add_nanos]
    rfl
  rw [toNanos, addCarry, hsecs, hnanos, toNanos, toNanos]
  omega

/-- A sum is the sum of the counts, and it is there just when that fits two words. -/
theorem add?_eq_some_iff : a.add? b = some c ↔ a.toNanos + b.toNanos = c.toNanos := by
  have hc := c.toNanos_lt_limit
  unfold add?
  split
  case isTrue hwrap =>
    rw [add_lt_iff] at hwrap
    refine ⟨nofun, fun hsum => ?_⟩
    rw [toNanos, toNanos] at hsum
    omega
  case isFalse hwrap =>
    rw [add_lt_iff, Nat.not_le] at hwrap
    split
    case isTrue h => rw [Option.some.injEq, ← toNanos_inj, toNanos_addLevel h hwrap]
    case isFalse h =>
      have hfill := le_of_fills h
      -- The carried second may be the one that no longer fits.
      split
      case isTrue hlast =>
        rw [← UInt64.toNat_inj, toNat_add_carry, UInt64.toNat_zero] at hlast
        refine ⟨nofun, fun hsum => ?_⟩
        rw [toNanos, toNanos] at hsum
        omega
      case isFalse hlast =>
        rw [← UInt64.toNat_inj, toNat_add_carry, UInt64.toNat_zero] at hlast
        rw [Option.some.injEq, ← toNanos_inj, toNanos_addCarry h (by omega)]

/-! ## Differences -/

theorem toNanos_subLevel (h : b.nanos ≤ a.nanos) (hs : b.secs ≤ a.secs) :
    (subLevel a b h).toNanos = a.toNanos - b.toNanos := by
  rw [toNanos, subLevel, UInt64.toNat_sub_of_le _ _ hs, UInt32.toNat_sub_of_le _ _ h]
  rw [UInt64.le_iff_toNat_le] at hs
  rw [UInt32.le_iff_toNat_le] at h
  rw [toNanos, toNanos]
  omega

theorem toNat_sub_borrow {m n : UInt64} (h : n < m) :
    (m - n - 1).toNat = m.toNat - n.toNat - 1 := by
  have hsub := UInt64.toNat_sub_of_le _ _ (UInt64.le_of_lt h)
  have hone : 1 ≤ m - n := by
    rw [UInt64.le_iff_toNat_le, hsub]
    exact Nat.sub_pos_of_lt (UInt64.lt_iff_toNat_lt.mp h)
  rw [UInt64.toNat_sub_of_le _ _ hone, hsub, UInt64.toNat_one]

/-- A second more makes room for any nanoseconds, and stays within its word. -/
theorem toNat_sub_nanos (a b : Split) : (a.nanos + 1_000_000_000 - b.nanos).toNat =
    a.nanos.toNat + 1_000_000_000 - b.nanos.toNat := by
  have ha := a.toNat_nanos_lt
  have hb := b.toNat_nanos_lt
  have hadd : (a.nanos + 1_000_000_000).toNat = a.nanos.toNat + 1_000_000_000 := by
    rw [UInt32.toNat_add]
    exact Nat.mod_eq_of_lt (by change a.nanos.toNat + 1_000_000_000 < _; omega)
  have hle : b.nanos ≤ a.nanos + 1_000_000_000 := by
    rw [UInt32.le_iff_toNat_le, hadd]
    omega
  rw [UInt32.toNat_sub_of_le _ _ hle, hadd]

theorem toNanos_subBorrow (h : ¬ b.nanos ≤ a.nanos) (hs : b.secs < a.secs) :
    (subBorrow a b h).toNanos = a.toNanos - b.toNanos := by
  have hb := b.toNat_nanos_lt
  rw [toNanos, subBorrow, toNat_sub_borrow hs, toNat_sub_nanos]
  rw [UInt64.lt_iff_toNat_lt] at hs
  rw [UInt32.le_iff_toNat_le] at h
  rw [toNanos, toNanos]
  omega

/-- The difference of instants stops at zero where a comparison in front says so. -/
theorem toNanos_since (a b : Split) : (a.since b).toNanos = a.toNanos - b.toNanos := by
  have ha := a.toNat_nanos_lt
  have hb := b.toNat_nanos_lt
  unfold since
  split
  case isTrue hlt => exact (Nat.sub_eq_zero_of_le (Nat.le_of_lt (before_iff.mp hlt))).symm
  case isFalse hle =>
    rw [before_iff, toNanos, toNanos] at hle
    split
    case isTrue h =>
      refine toNanos_subLevel h (UInt64.le_iff_toNat_le.mpr ?_)
      rw [UInt32.le_iff_toNat_le] at h
      omega
    case isFalse h =>
      refine toNanos_subBorrow h (UInt64.lt_iff_toNat_lt.mpr ?_)
      rw [UInt32.le_iff_toNat_le] at h
      omega

/-- The difference of durations stops at zero where it runs out of seconds. -/
theorem toNanos_sub (a b : Split) : (a.sub b).toNanos = a.toNanos - b.toNanos := by
  have ha := a.toNat_nanos_lt
  have hb := b.toNat_nanos_lt
  unfold sub
  -- Seconds run out at once, or with the one that the nanoseconds ask for.
  split
  case isTrue hlt =>
    rw [UInt64.lt_iff_toNat_lt] at hlt
    rw [toNanos_zero, toNanos, toNanos]
    omega
  case isFalse hle =>
    rw [UInt64.not_lt] at hle
    split
    case isTrue h => exact toNanos_subLevel h hle
    case isFalse h =>
      split
      case isTrue heq =>
        rw [← UInt64.toNat_inj, UInt64.toNat_sub_of_le _ _ hle, UInt64.toNat_zero] at heq
        rw [UInt32.le_iff_toNat_le] at h
        rw [toNanos_zero, toNanos, toNanos]
        omega
      case isFalse hne =>
        refine toNanos_subBorrow h (UInt64.lt_of_le_of_ne hle fun heq => hne ?_)
        rw [heq, UInt64.sub_self]

end Split
end LayeredCache

/-!
# Durations

A `Duration` is a length of time in whole nanoseconds, below 2^64 seconds. Sums stop at the
longest duration and differences stop at zero. It is one number here; that the arithmetic comes to
the same on seconds and nanoseconds in words of their own is proved in `Proofs/Seconds.lean`.

Results:
* `toNanos_add`, `toNanos_sub`: what the saturating operations compute.
* `sub?_eq_some_iff`: the checked difference answers exactly when it need not stop at zero.
-/

namespace LayeredCache

/-- Nanoseconds in a millisecond. -/
def nanosPerMilli : Nat := 1_000_000

/-- A length of time in whole nanoseconds, below 2^64 seconds. -/
structure Duration where
  toNanos : Nat
  lt_limit : toNanos < 0x1_0000_0000_0000_0000 * 1_000_000_000
  deriving DecidableEq

namespace Duration

/-- The longest duration in nanoseconds. -/
def maxNanos : Nat := 0x1_0000_0000_0000_0000 * 1_000_000_000 - 1

/-- The duration of `n` nanoseconds, or the longest one. -/
def ofNanos (n : Nat) : Duration :=
  ⟨min n maxNanos, by unfold maxNanos; omega⟩

/-- The duration of `n` seconds, or the longest one. -/
def ofSecs (n : Nat) : Duration := ofNanos (n * 1_000_000_000)

/-- The duration of `n` milliseconds, or the longest one. -/
def ofMillis (n : Nat) : Duration := ofNanos (n * 1_000_000)

/-- No time at all. -/
def zero : Duration := ⟨0, by decide⟩

instance : Inhabited Duration := ⟨zero⟩

/-- Whole seconds. -/
def secs (d : Duration) : Nat := d.toNanos / 1_000_000_000

/-- The nanoseconds beyond the whole seconds. -/
def subsecNanos (d : Duration) : Nat := d.toNanos % 1_000_000_000

def isZero (d : Duration) : Bool := d.toNanos == 0

instance : LE Duration := ⟨fun a b => a.toNanos ≤ b.toNanos⟩
instance : LT Duration := ⟨fun a b => a.toNanos < b.toNanos⟩

instance (a b : Duration) : Decidable (a ≤ b) := inferInstanceAs (Decidable (a.toNanos ≤ b.toNanos))
instance (a b : Duration) : Decidable (a < b) := inferInstanceAs (Decidable (a.toNanos < b.toNanos))

/-- The shorter of the two. -/
def shorter (a b : Duration) : Duration := if a ≤ b then a else b

/-- The sum, or the longest duration. -/
def add (a b : Duration) : Duration := ofNanos (a.toNanos + b.toNanos)

/-- The difference, or zero. -/
def sub (a b : Duration) : Duration :=
  ⟨a.toNanos - b.toNanos, Nat.lt_of_le_of_lt (Nat.sub_le _ _) a.lt_limit⟩

/-- The difference, if `b` is no longer than `a`. -/
def sub? (a b : Duration) : Option Duration := if b ≤ a then some (sub a b) else none

theorem le_iff {a b : Duration} : a ≤ b ↔ a.toNanos ≤ b.toNanos := Iff.rfl

theorem lt_iff {a b : Duration} : a < b ↔ a.toNanos < b.toNanos := Iff.rfl

theorem isZero_iff {d : Duration} : d.isZero = true ↔ d.toNanos = 0 := by simp [isZero]

theorem toNanos_ofNanos (n : Nat) : (ofNanos n).toNanos = min n maxNanos := rfl

theorem toNanos_add (a b : Duration) :
    (add a b).toNanos = min (a.toNanos + b.toNanos) maxNanos := rfl

theorem toNanos_sub (a b : Duration) : (sub a b).toNanos = a.toNanos - b.toNanos := rfl

theorem sub?_eq_some_iff {a b c : Duration} :
    sub? a b = some c ↔ a.toNanos = b.toNanos + c.toNanos := by
  obtain ⟨a, ha⟩ := a
  obtain ⟨b, hb⟩ := b
  obtain ⟨c, hc⟩ := c
  simp only [sub?, sub, LE.le]
  split <;> rename_i h <;> simp only [Option.some.injEq, mk.injEq, reduceCtorEq, false_iff] <;>
    simp only [Nat.le_eq] at h <;> omega

/-! ## Text -/

/-- The decimal fraction of `n` parts of `10 ^ places`, without trailing zeros and with its point;
nothing if it is zero. -/
def fractionText (places n : Nat) : String :=
  if n = 0 then "" else
    let digits := (Nat.toDigits 10 n)
    let padded := List.replicate (places - digits.length) '0' ++ digits
    String.ofList ('.' :: (padded.reverse.dropWhile (· == '0')).reverse)

/-- The duration in the largest unit of `s`, `ms`, `µs` and `ns` that gives a whole part of at
least one, then its fraction: `1.5s`, `999ns`. -/
def text (d : Duration) : String :=
  let n := d.toNanos
  let inUnit (size places : Nat) (unit : String) : String :=
    toString (n / size) ++ fractionText places (n % size) ++ unit
  if n ≥ 1_000_000_000 then inUnit 1_000_000_000 9 "s"
  else if n ≥ 1_000_000 then inUnit 1_000_000 6 "ms"
  else if n ≥ 1_000 then inUnit 1_000 3 "µs"
  else inUnit 1 0 "ns"

end Duration
end LayeredCache

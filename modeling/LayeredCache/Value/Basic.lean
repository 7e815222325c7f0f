import LayeredCache.Json.Basic

/-!
# Values

A cache holds whole numbers of eight fixed widths, truth values, texts, byte strings and JSON.
Whole numbers can be stepped up and down; a step beyond the range of the kind is refused. A whole
number carries the proof that it is in the range of its kind, so none is ever out of it.

Results:
* `BoundedInt.up?_eq_none_iff`, `BoundedInt.down?_eq_none_iff`: a step is refused exactly at the
  end of the range.
* `BoundedInt.up?_val`, `BoundedInt.down?_val`: an accepted step moves by one and keeps the kind.
-/

namespace LayeredCache

/-- The eight kinds of whole numbers. -/
inductive IntKind where
  | int8 | int16 | int32 | int64 | uint8 | uint16 | uint32 | uint64
  deriving DecidableEq, Repr

namespace IntKind

/-- How many numbers the kind has. -/
def count : IntKind → Int
  | .int8 | .uint8 => 0x100
  | .int16 | .uint16 => 0x1_0000
  | .int32 | .uint32 => 0x1_0000_0000
  | .int64 | .uint64 => 0x1_0000_0000_0000_0000

def isSigned : IntKind → Bool
  | .int8 | .int16 | .int32 | .int64 => true
  | _ => false

/-- The least number of the kind; half the numbers of a signed kind are negative. -/
def low (k : IntKind) : Int := if k.isSigned then -(k.count / 2) else 0

/-- The greatest number of the kind. -/
def high (k : IntKind) : Int := k.low + k.count - 1

theorem low_le_high (k : IntKind) : k.low ≤ k.high := by cases k <;> decide

end IntKind

/-- A whole number in the range of its kind. -/
structure BoundedInt where
  kind : IntKind
  val : Int
  inRange : kind.low ≤ val ∧ val ≤ kind.high
  deriving DecidableEq

namespace BoundedInt

/-- The number `n` of kind `k`, if it is in range. -/
def ofInt? (k : IntKind) (n : Int) : Option BoundedInt :=
  if h : k.low ≤ n ∧ n ≤ k.high then some ⟨k, n, h⟩ else none

/-- One more, unless that leaves the range. -/
def up? (b : BoundedInt) : Option BoundedInt := ofInt? b.kind (b.val + 1)

/-- One less, unless that leaves the range. -/
def down? (b : BoundedInt) : Option BoundedInt := ofInt? b.kind (b.val - 1)

theorem up?_eq_none_iff {b : BoundedInt} : b.up? = none ↔ b.val = b.kind.high := by
  obtain ⟨k, n, h⟩ := b
  simp only [up?, ofInt?, dite_eq_right_iff, reduceCtorEq, imp_false]
  omega

theorem down?_eq_none_iff {b : BoundedInt} : b.down? = none ↔ b.val = b.kind.low := by
  obtain ⟨k, n, h⟩ := b
  simp only [down?, ofInt?, dite_eq_right_iff, reduceCtorEq, imp_false]
  omega

theorem ofInt?_eq_some {k : IntKind} {n : Int} {b : BoundedInt} (h : ofInt? k n = some b) :
    b.kind = k ∧ b.val = n := by
  unfold ofInt? at h
  split at h
  · simp only [Option.some.injEq] at h
    subst h
    exact ⟨rfl, rfl⟩
  · simp at h

theorem up?_val {b c : BoundedInt} (h : b.up? = some c) : c.kind = b.kind ∧ c.val = b.val + 1 :=
  ofInt?_eq_some h

theorem down?_val {b c : BoundedInt} (h : b.down? = some c) :
    c.kind = b.kind ∧ c.val = b.val - 1 :=
  ofInt?_eq_some h

end BoundedInt

/-- A stored value. -/
inductive Value where
  | int (n : BoundedInt)
  | bool (b : Bool)
  | str (s : String)
  | bytes (bs : List UInt8)
  | json (j : Json)
  deriving Inhabited

namespace Value

/-- The value is a whole number of fixed width. -/
def isInteger : Value → Bool
  | .int _ => true
  | _ => false

/-- The signed 64-bit number `n`. -/
def ofInt64? (n : Int) : Option Value := (BoundedInt.ofInt? .int64 n).map .int

/-- The unsigned 64-bit number `n`. -/
def ofUInt64? (n : Int) : Option Value := (BoundedInt.ofInt? .uint64 n).map .int

end Value
end LayeredCache

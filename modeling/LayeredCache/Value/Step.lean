import LayeredCache.Error

/-!
# Stepping values

Counters move up and down by one. The key given with a step only labels its error.

Results:
* `step_eq_error_iff`: a whole number refuses a step exactly at the end of its range.
-/

namespace LayeredCache

/-- The direction of a step. -/
inductive Step where
  | up
  | down
  deriving DecidableEq, Repr

namespace Step

/-- The number one step on, if it is in range. -/
def next? : Step → BoundedInt → Option BoundedInt
  | .up, b => b.up?
  | .down, b => b.down?

/-- The error of a step beyond the range. -/
def overflow : Step → String → CacheError
  | .up, key => .incrementOverflow key
  | .down, key => .decrementOverflow key

/-- Where a step in this direction is refused. -/
def bound : Step → IntKind → Int
  | .up, k => k.high
  | .down, k => k.low

end Step

namespace Value

/-- The value one step on. -/
def step (key : String) (s : Step) : Value → Answer Value
  | .int n =>
    match s.next? n with
    | some n' => .ok (.int n')
    | none => .error (s.overflow key)
  | _ => .error (.notInteger key)

theorem step_eq_error_iff {key : String} {s : Step} {n : BoundedInt} :
    step key s (.int n) = .error (s.overflow key) ↔ n.val = s.bound n.kind := by
  cases s with
  | up =>
    rw [Step.bound, ← BoundedInt.up?_eq_none_iff]
    cases h : n.up? <;> simp [step, Step.next?, h]
  | down =>
    rw [Step.bound, ← BoundedInt.down?_eq_none_iff]
    cases h : n.down? <;> simp [step, Step.next?, h]

end Value
end LayeredCache

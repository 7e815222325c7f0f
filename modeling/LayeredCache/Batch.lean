import LayeredCache.Error

/-!
# Batch reads

A batch read has one slot for each key asked for, in order. It succeeds only if every slot is
filled; otherwise it fails with the slots and one text for each empty one. A key that is asked for
twice has two slots, and two texts if it fails twice.

Results:
* `length_slots`: there is a slot for each outcome.
* `collect_eq_ok_iff`: a batch succeeds exactly when every outcome does.
-/

namespace LayeredCache.Batch

/-- The slot that an outcome fills. -/
def slot : Answer Value → Option Value
  | .ok v => some v
  | .error _ => none

/-- The text of a failed outcome. -/
def failure? (key : String) : Answer Value → Option String
  | .ok _ => none
  | .error e => some ("key [" ++ key ++ "] error: " ++ e.message)

/-- A slot for each outcome. -/
def slots (outcomes : List (String × Answer Value)) : List (Option Value) :=
  outcomes.map fun o => slot o.2

/-- A text for each failed outcome. -/
def failures (outcomes : List (String × Answer Value)) : List String :=
  outcomes.filterMap fun o => failure? o.1 o.2

/-- The answer of a batch from the outcome for each key. -/
def collect (outcomes : List (String × Answer Value)) : Answer (List (Option Value)) :=
  if (failures outcomes).isEmpty then .ok (slots outcomes)
  else .error (.multiGetFailed (slots outcomes) (failures outcomes))

theorem length_slots (outcomes : List (String × Answer Value)) :
    (slots outcomes).length = outcomes.length := List.length_map _

theorem failures_eq_nil_iff {outcomes : List (String × Answer Value)} :
    failures outcomes = [] ↔ ∀ o ∈ outcomes, (slot o.2).isSome = true := by
  simp only [failures, List.filterMap_eq_nil_iff]
  refine forall_congr' fun o => forall_congr' fun _ => ?_
  cases o.2 <;> simp [failure?, slot]

theorem collect_eq_ok_iff {outcomes : List (String × Answer Value)} {vs : List (Option Value)} :
    collect outcomes = .ok vs ↔
      (∀ o ∈ outcomes, (slot o.2).isSome = true) ∧ vs = slots outcomes := by
  unfold collect
  rw [← failures_eq_nil_iff]
  cases h : failures outcomes <;> simp [eq_comm]

end LayeredCache.Batch

/-!
# Decimal numerals

Reading whole numbers written in ASCII digits, with an optional sign. The readers accept nothing
around the numeral and answer only values in the range asked for.

Results:
* `natural?_eq_none_iff`: a natural is refused exactly when it is empty or holds a non-digit.
-/

namespace LayeredCache.Text

/-- The value of a decimal digit. -/
def digit? (c : Char) : Option Nat :=
  if '0' ≤ c ∧ c ≤ '9' then some (c.toNat - '0'.toNat) else none

/-- The value of a string of digits, most significant first. -/
def ofDigits (ds : List Nat) : Nat := ds.foldl (fun n d => 10 * n + d) 0

/-- One or more ASCII digits. -/
def natural? (cs : List Char) : Option Nat :=
  if cs.isEmpty then none else (cs.mapM digit?).map ofDigits

/-- Digits after an optional `+`, with a value below `limit`. -/
def unsigned? (limit : Nat) (cs : List Char) : Option Nat :=
  let digits := match cs with
    | '+' :: r => r
    | _ => cs
  (natural? digits).filter (· < limit)

/-- Digits after an optional sign, with a value from `-bound` to just below `bound`. -/
def signed? (bound : Nat) (cs : List Char) : Option Int :=
  match cs with
  | '-' :: r => ((natural? r).filter (· ≤ bound)).map fun n : Nat => -(n : Int)
  | _ => (unsigned? bound cs).map fun n : Nat => (n : Int)

theorem mapM_digit?_eq_none_iff {cs : List Char} :
    cs.mapM digit? = none ↔ ∃ c ∈ cs, digit? c = none := by
  induction cs with
  | nil => simp
  | cons c cs ih =>
    rw [List.mapM_cons]
    cases hc : digit? c with
    | none => simp [hc]
    | some d =>
      cases ht : cs.mapM digit? with
      | none => simpa [hc] using ih.mp ht
      | some ds =>
        have := ht ▸ ih
        simp only [reduceCtorEq, false_iff, not_exists, not_and] at this
        simp only [Option.pure_def, Option.bind_eq_bind, Option.bind_some, reduceCtorEq,
          List.mem_cons, exists_eq_or_imp, hc, false_or, false_iff, not_exists, not_and]
        exact this

theorem natural?_eq_none_iff {cs : List Char} :
    natural? cs = none ↔ cs = [] ∨ ∃ c ∈ cs, digit? c = none := by
  unfold natural?
  cases cs with
  | nil => simp
  | cons c cs =>
    simp only [List.isEmpty_cons, Bool.false_eq_true, if_false, Option.map_eq_none_iff,
      reduceCtorEq, false_or]
    exact mapM_digit?_eq_none_iff

end LayeredCache.Text

import LayeredCache.Json.Form

/-!
# Reading JSON forms

Readers from a form to a typed value. A reader refuses in two ways: the text is `malformed`, or it
is JSON of the wrong kind (`mismatch`). It looks at the form in the order of the text and reports
the first problem. Kept content nests at most `maxDepth` deep and holds numbers and strings that
stand for something; skipped content only has to be complete.

Results:
* `readInt_eq_ok_iff`: whole numbers are read from integer literals in the range asked for, and
  from nothing else.
-/

namespace LayeredCache.Json

/-- Why a text was refused: it is no JSON, or JSON of the wrong kind. -/
inductive Reject where
  | malformed
  | mismatch
  deriving DecidableEq, Repr

/-- How deep kept arrays and objects may nest. -/
def maxDepth : Nat := 127

namespace Form

/-- The refusal of a form where another kind was asked for: a leaf is read before it is refused,
an array or object is refused at its opening. -/
def reject : Form → Reject
  | .broken => .malformed
  | .str none => .malformed
  | .num l => if l.number?.isSome then .mismatch else .malformed
  | _ => .mismatch

/-- Passes over content that is not kept. -/
def skip (f : Form) : Except Reject Unit :=
  if f.complete then .ok () else .error .malformed

/-- What an array or object still needs when its expected contents have been read. -/
def finish (closed : Bool) : Except Reject Unit :=
  if closed then .ok () else .error .malformed

/-- The refusal where contents end too early. -/
def missing (closed : Bool) : Reject := if closed then .mismatch else .malformed

def readNull : Form → Except Reject Unit
  | .null => .ok ()
  | f => .error f.reject

def readBool : Form → Except Reject Bool
  | .bool b => .ok b
  | f => .error f.reject

def readString : Form → Except Reject String
  | .str (some s) => .ok s
  | f => .error f.reject

/-- A whole number from `low` to `high`. -/
def readInt (low high : Int) (f : Form) : Except Reject { n : Int // low ≤ n ∧ n ≤ high } :=
  match f with
  | .num l =>
    match l.number? with
    | some (.whole n _) => if h : low ≤ n ∧ n ≤ high then .ok ⟨n, h⟩ else .error .mismatch
    | some (.float _) => .error .mismatch
    | none => .error .malformed
  | f => .error f.reject

/-- Reads each item in order, then needs the array closed. -/
def readEach {α : Type} (read : Form → Except Reject α) (closed : Bool) :
    List Form → Except Reject (List α)
  | [] => (finish closed).map fun _ => []
  | f :: r => do return (← read f) :: (← readEach read closed r)

/-- An array, each item read by `read`; `depth` is how deep arrays may still nest. -/
def readList {α : Type} (depth : Nat) (read : Form → Except Reject α) :
    Form → Except Reject (List α)
  | .arr items closed => if depth = 0 then .error .malformed else readEach read closed items
  | f => .error f.reject

mutual

/-- Any JSON value, nested at most `depth` deep. -/
def readJson : Form → Nat → Except Reject Json
  | .null, _ => .ok .null
  | .bool b, _ => .ok (.bool b)
  | .num l, _ =>
    match l.number? with
    | some n => .ok (.num n)
    | none => .error .malformed
  | .str (some s), _ => .ok (.str s)
  | .arr items closed, depth + 1 => (readItems items closed depth).map .arr
  | .obj members closed, depth + 1 => (readMembers members closed depth).map Json.object
  | _, _ => .error .malformed

/-- The items of an array, in order. -/
def readItems : List Form → Bool → Nat → Except Reject (List Json)
  | [], closed, _ => (finish closed).map fun _ => []
  | f :: r, closed, depth => do return (← readJson f depth) :: (← readItems r closed depth)

/-- The members of an object, in the order given. -/
def readMembers : List (Option String × Form) → Bool → Nat → Except Reject (List (String × Json))
  | [], closed, _ => (finish closed).map fun _ => []
  | (none, _) :: _, _, _ => .error .malformed
  | (some k, f) :: r, closed, depth => do
    return (k, ← readJson f depth) :: (← readMembers r closed depth)

end

theorem readInt_eq_ok_iff {low high n : Int} {h} {f : Form} :
    readInt low high f = .ok ⟨n, h⟩ ↔
      ∃ (l : Literal) (hn : Fits n), f = .num l ∧ l.number? = some (.whole n hn) := by
  constructor
  · intro hr
    cases f with
    | num l =>
      simp only [readInt] at hr
      split at hr
      · rename_i m hm he
        split at hr
        · simp only [Except.ok.injEq, Subtype.mk.injEq] at hr
          subst hr
          exact ⟨l, hm, rfl, he⟩
        · simp at hr
      · simp at hr
      · simp at hr
    | _ => simp [readInt] at hr
  · rintro ⟨l, hn, rfl, he⟩
    simp [readInt, he, h]

end Form

/-- Reads the whole document: its value, then the end of the text. -/
def Document.read {α : Type} (d : Document) (read : Form → Except Reject α) : Except Reject α := do
  let a ← read d.form
  if d.ended then return a else throw .malformed

end LayeredCache.Json

import LayeredCache.Error

/-!
# The source of truth

The rows behind every loader and store of a session, with a script of delays and failures for the
calls. A call waits its delay first and may fail then; a scripted failure can be limited to the
first few such calls of each key. The key's own entry in the script wins over the one for `*`.

Results:
* `row?_setRow`, `row?_eraseRow`: what a write does to the rows.
-/

namespace LayeredCache

/-- The two calls of the source. -/
inductive SourceCall where
  | load
  | store
  deriving DecidableEq, Repr

/-- A failure, for the first `times` calls or for all. -/
structure ScriptedFailure where
  cause : Cause
  times : Option Nat

/-- What calls come to, by call and key. -/
structure SourceScript where
  delays : List ((SourceCall × String) × Nat)
  failures : List ((SourceCall × String) × ScriptedFailure)
  deriving Inhabited

/-- The entry for a key, else the one for every key. -/
def SourceScript.find? {α : Type} (entries : List ((SourceCall × String) × α)) (call : SourceCall)
    (key : String) : Option α :=
  (entries.lookup (call, key)).orElse fun _ => entries.lookup (call, "*")

/-- The rows, the script, and the failures it has caused. -/
structure Source where
  rows : List (String × Value)
  script : SourceScript
  failed : List (SourceCall × String)
  deriving Inhabited

namespace Source

def row? (s : Source) (key : String) : Option Value := s.rows.lookup key

/-- Writes a row. -/
def setRow (key : String) (v : Value) (s : Source) : Source :=
  { s with rows := (key, v) :: s.rows.filter fun r => r.1 != key }

/-- Removes a row. -/
def eraseRow (key : String) (s : Source) : Source :=
  { s with rows := s.rows.filter fun r => r.1 != key }

/-- Puts another script in place and forgets the failures so far. -/
def rescript (script : SourceScript) (s : Source) : Source :=
  { s with script := script, failed := [] }

/-- The milliseconds that a call waits. -/
def delay (call : SourceCall) (key : String) (s : Source) : Nat :=
  (SourceScript.find? s.script.delays call key).getD 0

/-- The failure scripted for a call that has waited, if it still applies. -/
def failure (call : SourceCall) (key : String) (s : Source) : Option Cause × Source :=
  match SourceScript.find? s.script.failures call key with
  | none => (none, s)
  | some f =>
    if f.times.all fun n => s.failed.count (call, key) < n then
      (some f.cause, { s with failed := (call, key) :: s.failed })
    else (none, s)

/-- What a load comes to after its wait. -/
def load (key : String) (s : Source) : Except Cause Value × Source :=
  match s.failure .load key with
  | (some c, s') => (.error c, s')
  | (none, s') =>
    match s'.row? key with
    | some v => (.ok v, s')
    | none => (.error (.ofText ("no row for " ++ key)), s')

/-- What a store comes to after its wait. -/
def store (key : String) (v : Value) (s : Source) : Except Cause Unit × Source :=
  match s.failure .store key with
  | (some c, s') => (.error c, s')
  | (none, s') => (.ok (), s'.setRow key v)

theorem lookup_filter_ne (rows : List (String × Value)) (key k : String) :
    (rows.filter fun r => r.1 != key).lookup k = if k = key then none else rows.lookup k := by
  induction rows with
  | nil => simp
  | cons r rows ih =>
    obtain ⟨k', v⟩ := r
    by_cases h : k' = key
    · subst h
      by_cases h₂ : k = k'
      · subst h₂; simpa using ih
      · simpa [List.lookup_cons, beq_false_of_ne h₂, h₂] using ih
    · by_cases h₂ : k = k'
      · subst h₂; simp [h]
      · simpa [h, List.lookup_cons, beq_false_of_ne h₂] using ih

theorem row?_setRow (s : Source) (key k : String) (v : Value) :
    (s.setRow key v).row? k = if k = key then some v else s.row? k := by
  by_cases h : k = key
  · subst h; simp [row?, setRow]
  · simp [row?, setRow, List.lookup_cons, beq_false_of_ne h, lookup_filter_ne, h]

theorem row?_eraseRow (s : Source) (key k : String) :
    (s.eraseRow key).row? k = if k = key then none else s.row? k :=
  lookup_filter_ne s.rows key k

end Source
end LayeredCache

import LayeredCache.Cache

/-!
# Write delete

A value is written to the source of truth and the cached copy is dropped, so that the next read
goes to the source. A write that runs out of time may still have taken effect, so it is noted and
the copy is dropped all the same. The double variant drops the copy a second time after a while,
against readers that cached the source's old value in between. The second delete is a process of its
own, which runs whatever becomes of the caller; how it is started is a parameter.
-/

namespace LayeredCache.WriteDelete

variable {σ : Type} [Clock σ] [Journal σ]

/-- One call of the store, given up once `limit` is over, if there is a limit. -/
def persist (store : Store σ) (limit : Option Duration) (key : String) (v : Value) :
    Process σ (Except Cause Unit) :=
  match limit with
  | none => store key v
  | some d => do
    match ← (store key v).timeout d with
    | some r => return r
    | none => return .error .timer

/-- Writes to the source, then drops the cached copy. -/
def put (inner : Cache σ) (store : Store σ) (limit : Option Duration) (key : String) (v : Value) :
    Process σ (Answer Unit) := do
  match ← persist store limit key v with
  | .ok () => inner.delete key
  | .error c =>
    if c.isDeadline then
      Process.note .warning ("Store func for key " ++ key ++ " hit its deadline: " ++ c.text)
      inner.delete key
    else return .error (.persistFailed key c)

/-- Writes to the source and drops the copy. -/
def cache (inner : Cache σ) (store : Store σ) (limit : Option Duration) : Cache σ :=
  { inner with put := fun key v _ => put inner store limit key v }

/-- The second delete of a key: `interval` from now, and given up after `limit`. -/
def secondDelete (inner : Cache σ) (interval limit : Duration) (key : String) : Process σ Unit := do
  Process.sleep interval
  match ← (inner.delete key).timeout limit with
  | some (.ok ()) => return ()
  | some (.error e) =>
    Process.note .error ("Second delete of key " ++ key ++ " failed: " ++ e.message)
  | none =>
    Process.note .error ("Second delete of key " ++ key ++ " timed out after " ++ limit.text)

/-- Writes to the source and drops the copy; if that succeeds, `later` starts the second delete. -/
def doubleCache (inner : Cache σ) (store : Store σ) (limit : Option Duration)
    (later : String → σ → σ) : Cache σ :=
  { inner with
    put := fun key v _ => do
      match ← put inner store limit key v with
      | .ok () =>
        Process.change (later key)
        return .ok ()
      | .error e => return .error e }

end LayeredCache.WriteDelete

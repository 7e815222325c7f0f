import LayeredCache.Batch
import LayeredCache.Duration
import LayeredCache.Engine.Schedule
import LayeredCache.Process.Join
import LayeredCache.Value.Step

/-!
# The cache contract

A cache over a state is a set of operations, each a process that answers or fails. A layer is a
function from caches to caches: it keeps the operations it does not change.

Collaborators are processes too: a loader fetches the value of a key from the source of truth, a
store writes one to it. Of them nothing is said: they may take any steps, wait for anything, and
answer or fail as they like.

What a layer writes to its journal is kept from a warning on, with its text. What it writes below
that is left out: nothing can be told from it that the state does not show.
-/

namespace LayeredCache

/-- How grave a note in the journal is. -/
inductive Severity where
  | warning
  | error
  deriving DecidableEq, Repr

/-- How the journal writes a severity. -/
def Severity.word : Severity → String
  | .warning => "WARN"
  | .error => "ERROR"

/-- A state with a journal. -/
class Journal (σ : Type) where
  note : Severity → String → σ → σ

/-- The operations of a cache. -/
structure Cache (σ : Type) where
  /-- The value of a key that is there and not expired. -/
  get : String → Process σ (Answer Value)
  /-- The values of several keys, one slot for each. -/
  getMulti : List String → Process σ (Answer (List (Option Value)))
  /-- Stores a value for a time; a zero time means forever. -/
  put : String → Value → Duration → Process σ (Answer Unit)
  /-- Removes a key, whether or not it is there. -/
  delete : String → Process σ (Answer Unit)
  /-- Steps the whole number stored under a key. -/
  step : Step → String → Process σ (Answer Unit)
  /-- The key is there and not expired. -/
  isExist : String → Process σ (Answer Bool)
  /-- Removes every key. -/
  clearAll : Process σ (Answer Unit)
  /-- Reads a configuration payload and starts background reclamation where there is an engine. -/
  start : String → Process σ (Answer Unit)

/-- Fetches the value of a key from the source of truth. -/
abbrev Loader (σ : Type) := String → Process σ (Except Cause Value)

/-- Writes the value of a key to the source of truth. -/
abbrev Store (σ : Type) := String → Value → Process σ (Except Cause Unit)

namespace Process

variable {σ α : Type} [Clock σ]

/-- The millisecond at which a duration that begins now is over. -/
def deadlineAfter (d : Duration) (s : σ) : Nat := milliOf (deadline (Clock.instant s) d)

/-- Waits for a duration. -/
def sleep (d : Duration) : Process σ Unit := do
  let t ← ask (deadlineAfter d)
  sleepUntil t

/-- Gives the process up once a duration is over. -/
def timeout (d : Duration) (p : Process σ α) : Process σ (Option α) := do
  let t ← ask (deadlineAfter d)
  p.within t

omit [Clock σ] in
/-- Writes a note to the journal. -/
def note [Journal σ] (severity : Severity) (text : String) : Process σ Unit :=
  change (Journal.note severity text)

end Process

/-! ## Loading -/

section Loading

variable {σ : Type} [Journal σ]

/-- What a load answers once the cache was offered its value. A cache that refuses the value is only
noted, with the words `refused`. -/
def Loader.kept (refused key : String) (v : Value) : Answer Unit → Process σ (Answer Value)
  | .ok () => return .ok v
  | .error e => do
    Process.note .warning (refused ++ " " ++ key ++ ": " ++ e.message)
    return .ok v

/-- Offers what was loaded to a cache. A load that failed leaves the cache alone. -/
def Loader.keep (inner : Cache σ) (ttl : Duration) (refused key : String) :
    Except Cause Value → Process σ (Answer Value)
  | .error c => return .error (.loadFailed key c)
  | .ok v => do kept refused key v (← inner.put key v ttl)

/-- Loads the value of a key and offers it to a cache. -/
def Loader.fetch (load : Loader σ) (inner : Cache σ) (ttl : Duration) (refused key : String) :
    Process σ (Answer Value) := do
  keep inner ttl refused key (← load key)

end Loading

end LayeredCache

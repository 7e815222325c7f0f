import LayeredCache.Cache

/-!
# Calls

An operation of a cache as data: what is asked, and what is answered. Every cache makes every call.
So whatever is said of calls is said of all operations at once, and a run in which callers do
anything is one in which each of them makes some call.
-/

namespace LayeredCache

/-- An operation of the cache contract. -/
inductive Call where
  | get (key : String)
  | getMulti (keys : List String)
  | put (key : String) (v : Value) (ttl : Duration)
  | delete (key : String)
  | step (s : Step) (key : String)
  | isExist (key : String)
  | clearAll
  | start (payload : String)

/-- What an operation answers. -/
inductive Reply where
  | nothing
  | value (v : Value)
  | slots (vs : List (Option Value))
  | flag (b : Bool)
  | count (n : Nat)
  | pairs (ps : List (String × Value))

/-- Makes a call. -/
def Call.run {σ : Type} (cache : Cache σ) : Call → Process σ (Answer Reply)
  | .get key => do return (← cache.get key).map .value
  | .getMulti keys => do return (← cache.getMulti keys).map .slots
  | .put key v ttl => do return (← cache.put key v ttl).map fun _ => .nothing
  | .delete key => do return (← cache.delete key).map fun _ => .nothing
  | .step s key => do return (← cache.step s key).map fun _ => .nothing
  | .isExist key => do return (← cache.isExist key).map .flag
  | .clearAll => do return (← cache.clearAll).map fun _ => .nothing
  | .start payload => do return (← cache.start payload).map fun _ => .nothing

end LayeredCache

import LayeredCache.Cache
import LayeredCache.Slot

/-!
# Faulty caches

A layer that delays its operations and fails them for chosen keys, to see how the layers above
take it. What does not fail is forwarded.
-/

namespace LayeredCache.Faulty

/-- The operations that can be made to fail. -/
inductive Operation where
  | get | getMulti | put | delete | incr | decr | isExist | clearAll
  deriving DecidableEq, Repr

namespace Operation

def name : Operation → String
  | .get => "get"
  | .getMulti => "get_multi"
  | .put => "put"
  | .delete => "delete"
  | .incr => "incr"
  | .decr => "decr"
  | .isExist => "is_exist"
  | .clearAll => "clear_all"

def all : List Operation := [.get, .getMulti, .put, .delete, .incr, .decr, .isExist, .clearAll]

/-- The operation of this name. -/
def ofName? (s : String) : Option Operation := all.find? fun o => o.name = s

def ofStep : Step → Operation
  | .up => .incr
  | .down => .decr

end Operation

/-- Which operations fail for which keys, and how long each call of an operation waits. The key
`*` stands for every key; the last delay repeats. -/
structure Faults where
  failing : List (Operation × List String)
  delays : List (Operation × List Nat)

namespace Faults

/-- The operation fails for the key. -/
def fails (f : Faults) (op : Operation) (key : String) : Bool :=
  match f.failing.lookup op with
  | some keys => keys.contains "*" || keys.contains key
  | none => false

/-- The milliseconds that the call numbered `n` waits. -/
def delay (f : Faults) (op : Operation) (n : Nat) : Nat :=
  match f.delays.lookup op with
  | some ds => (ds[n]?).getD (ds.getLastD 0)
  | none => 0

end Faults

variable {σ α : Type} [Clock σ]

/-- Counts the call, waits, then fails or forwards it. -/
def call (faults : Faults) (calls : Slot σ (List Operation)) (op : Operation) (key : String)
    (forward : Process σ (Answer α)) : Process σ (Answer α) := do
  let n ← Process.step (calls.update fun l => (l.count op, op :: l))
  Process.sleep (.ofMillis (faults.delay op n))
  if faults.fails op key then
    return .error (.invalidRequest ("injected " ++ op.name ++ " failure for " ++ key))
  else forward

/-- The inner cache with faults. Starting is always forwarded. -/
def cache (inner : Cache σ) (faults : Faults) (calls : Slot σ (List Operation)) : Cache σ where
  get key := call faults calls .get key (inner.get key)
  getMulti keys := call faults calls .getMulti (",".intercalate keys) (inner.getMulti keys)
  put key v ttl := call faults calls .put key (inner.put key v ttl)
  delete key := call faults calls .delete key (inner.delete key)
  step s key := call faults calls (.ofStep s) key (inner.step s key)
  isExist key := call faults calls .isExist key (inner.isExist key)
  clearAll := call faults calls .clearAll "" inner.clearAll
  start payload := inner.start payload

end LayeredCache.Faulty

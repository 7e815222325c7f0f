import LayeredCache.Cache
import LayeredCache.Engine.Basic
import LayeredCache.Slot

/-!
# The memory cache

A memory engine as a cache. Each operation is one step at the instant of the clock.

A reclamation pass takes several steps, between which the table may change: the scan for expired
keys, the removal of those that are still expired, and handing what was removed to the receiver
one entry after the other, if a receiver is registered.

The lock on the table is not there: an operation that holds it is a step, and whoever waits for it
is one whose step comes later. The receiver is told in a step of its own and does not fail.
-/

namespace LayeredCache

/-- Where an engine lives in a state, and what the receiver of its evicted entries does. -/
structure Memory (σ : Type) where
  slot : Slot σ Engine
  evicted : String → Value → σ → σ

namespace Memory

variable {σ α : Type} [Clock σ] (m : Memory σ)

/-- What the table answers at the instant of the clock. -/
def asked (f : Nat → Table → α) : Process σ α :=
  .ask fun s => f (Clock.instant s) (m.slot.get s).table

/-- Changes the table at the instant of the clock. -/
def changed (f : Nat → Table → Table) : Process σ (Answer Unit) := do
  Process.change fun s =>
    m.slot.modify (fun e => { e with table := f (Clock.instant s) e.table }) s
  return .ok ()

/-- Changes the engine if that succeeds. -/
def attempt (f : Nat → Engine → Answer Engine) : Process σ (Answer Unit) :=
  .step fun s =>
    match f (Clock.instant s) (m.slot.get s) with
    | .ok e => (.ok (), m.slot.set e s)
    | .error e => (.error e, s)

/-- The engine as a cache. -/
def cache : Cache σ where
  get key := m.asked fun now t => t.read now key
  getMulti keys := m.asked fun now t => t.readEach now keys
  put key v ttl := m.changed fun now t => t.put now key v ttl
  delete key := m.changed fun _ t => t.erase key
  step s key := m.attempt fun now e => do return { e with table := ← e.table.step now key s }
  isExist key := m.asked fun now t => .ok (t.isLive now key)
  clearAll := m.changed fun _ _ => .empty
  start payload := m.attempt fun now e => e.startWith true now payload

/-- Starts the reclamation loop with a period. -/
def start (interval : Duration) : Process σ (Answer Unit) :=
  m.attempt fun now e => e.start true now interval

/-- Registers the receiver. -/
def watch : Process σ (Answer Unit) := m.attempt fun _ e => e.watch

/-- Takes out every live entry. -/
def drainLive : Process σ (List (String × Value)) :=
  .step fun s => m.slot.update (fun e => e.drainLive (Clock.instant s)) s

/-! ## Reclamation -/

omit [Clock σ] in
/-- Calls the receiver for one entry after the other. -/
def deliver : List (String × Value) → Process σ Unit
  | [] => return ()
  | x :: out => do
    Process.change (m.evicted x.1 x.2)
    deliver out

omit [Clock σ] in
/-- Hands entries to the receiver, if one is registered. -/
def hand (out : List (String × Value)) : Process σ Unit := do
  if ← Process.ask fun s => (m.slot.get s).watched then m.deliver out

/-- The scan of a pass. -/
def scan : Process σ (List String) := m.asked fun now t => t.expiredKeys now

/-- The removal of a pass, and what it removed. -/
def sweep (keys : List String) : Process σ (List (String × Value)) :=
  .step fun s => m.slot.update (fun e => e.sweep (Clock.instant s) keys) s

/-- What a pass does once it has found expired keys. -/
def evict (keys : List String) : Process σ Nat := do
  let out ← m.sweep keys
  m.hand out
  return out.length

/-- One reclamation pass; answers how many entries it removed. -/
def reclaim : Process σ Nat := do
  let keys ← m.scan
  if keys.isEmpty then return 0
  m.evict keys

/-- A tick of the reclamation loop: the next tick is set, then a pass is made. -/
def tick : Process σ Nat := do
  Process.change fun s => m.slot.modify (fun e => e.rearm (Clock.instant s)) s
  m.reclaim

/-- The state after a tick that nothing else comes between. -/
def ticked (s : σ) : σ := (m.tick.advance s).2

end Memory
end LayeredCache

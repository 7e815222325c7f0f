import LayeredCache.Engine.Config
import LayeredCache.Engine.Schedule
import LayeredCache.Engine.Table

/-!
# The memory engine

A table of entries with an optional reclamation loop. The engine is started once, with or without
a loop; one receiver may be registered for the entries that reclamation removes.

Whether a loop can be run at all is for whoever starts the engine to say (`scheduled`). The loop is
its schedule alone; who runs it, and the steps that a tick takes, come with the cache
(`Layer/Memory.lean`). What the receiver does is not the engine's either.

Results:
* `started_of_start`: starting uses up the one start.
-/

namespace LayeredCache

structure Engine where
  table : Table
  /-- A receiver for evicted entries is registered. -/
  watched : Bool
  started : Bool
  loop : Option Loop
  deriving Inhabited

namespace Engine

/-- An engine with no entries that was not started. -/
def empty : Engine := ⟨.empty, false, false, none⟩

/-- Registers the receiver for evicted entries; there is room for one. -/
def watch (e : Engine) : Answer Engine :=
  if e.watched then .error (.invalidMemoryConfig "eviction callback already registered")
  else .ok { e with watched := true }

/-- Starts the engine at `now`. A zero interval leaves it without a loop; a loop needs a scheduler,
and without one the engine stays as it was. -/
def start (scheduled : Bool) (now : Nat) (interval : Duration) (e : Engine) : Answer Engine :=
  if e.started then .error .alreadyStarted
  else if h : 0 < interval.toNanos then
    if scheduled then .ok { e with started := true, loop := some (.start now interval h) }
    else .error (.invalidMemoryConfig "reclamation loop needs a running tokio runtime")
  else .ok { e with started := true }

/-- Starts the engine as a payload says. -/
def startWith (scheduled : Bool) (now : Nat) (payload : String) (e : Engine) : Answer Engine := do
  let c ← EngineConfig.parse payload
  e.start scheduled now c.period

/-- The removal of a reclamation pass: takes out those of the keys that are expired by now. -/
def sweep (e : Engine) (now : Nat) (keys : List String) : List (String × Value) × Engine :=
  let (evicted, t) := Table.sweep now keys e.table
  (evicted, { e with table := t })

/-- Takes out every live entry. -/
def drainLive (e : Engine) (now : Nat) : List (String × Value) × Engine :=
  let (drained, t) := e.table.drainLive now
  (drained, { e with table := t })

/-- Sets the next tick of the loop. -/
def rearm (e : Engine) (now : Nat) : Engine := { e with loop := e.loop.map (·.advance now) }

theorem started_of_start {scheduled : Bool} {now : Nat} {interval : Duration} {e e' : Engine}
    (h : e.start scheduled now interval = .ok e') : e.started = false ∧ e'.started = true := by
  unfold start at h
  split at h
  · simp at h
  · rename_i hs
    refine ⟨by simpa using hs, ?_⟩
    split at h
    · split at h
      · simp only [Except.ok.injEq] at h
        rw [← h]
      · simp at h
    · simp only [Except.ok.injEq] at h
      rw [← h]

end Engine
end LayeredCache

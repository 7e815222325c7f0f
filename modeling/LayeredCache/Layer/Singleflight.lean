import LayeredCache.Cache
import LayeredCache.Flights
import LayeredCache.Slot

/-!
# Singleflight

Callers that miss the same key at the same time share one load. A caller that is given up leaves
its flight; if it was running the load, the next member in line runs its own.

How a caller leaves is a parameter. Where all callers run on one thread, nobody does anything
between a caller's look at its flight and its letting go, and `Flights.leave` does both at once: so
does the cache here. Where they run on several threads, leaving is the look alone (`Flights.part`),
and the caller lets go some time later.
-/

namespace LayeredCache.Singleflight

variable {σ : Type} [Journal σ]

/-- Settles the caller's flight. -/
def finish (flights : Slot σ Flights) (me : Nat) (o : Answer Value) : Process σ (Answer Value) := do
  Process.change (flights.modify (Flights.settle me o))
  return o

/-- Takes the outcome of the caller's flight, or runs the load and settles it. -/
def ride (inner : Cache σ) (load : Loader σ) (ttl : Duration) (flights : Slot σ Flights)
    (key : String) (me : Nat) : Process σ (Answer Value) := do
  match ← Process.ask fun s => (flights.get s).outcome? me with
  | some o => return o
  | none => finish flights me (← load.fetch inner ttl "Singleflight could not cache key" key)

/-- Joins the flight of a key and takes its outcome, running the load when it is this caller's
turn. -/
def share (leave : Nat → Flights → Flights) (inner : Cache σ) (load : Loader σ) (ttl : Duration)
    (flights : Slot σ Flights) (key : String) : Process σ (Answer Value) := do
  let me ← Process.step (flights.update (Flights.join key))
  Process.guarded (flights.modify (leave me)) do
    Process.change (flights.modify (Flights.lineUp me))
    Process.await fun s => (flights.get s).ready me
    ride inner load ttl flights key me

/-- The cached value, else the shared one. -/
def get (leave : Nat → Flights → Flights) (inner : Cache σ) (load : Loader σ) (ttl : Duration)
    (flights : Slot σ Flights) (key : String) : Process σ (Answer Value) := do
  match ← inner.get key with
  | .ok v => return .ok v
  | .error _ => share leave inner load ttl flights key

/-- Collapses concurrent loads of a key into one. -/
def cache (inner : Cache σ) (load : Loader σ) (ttl : Duration) (flights : Slot σ Flights) :
    Cache σ :=
  { inner with get := get Flights.leave inner load ttl flights }

end LayeredCache.Singleflight

import LayeredCache.Cache
import LayeredCache.Filter.Bits
import LayeredCache.Flights
import LayeredCache.Layer.Faulty
import LayeredCache.Layer.Guard
import LayeredCache.Layer.Memory
import LayeredCache.Layer.Preload
import LayeredCache.Layer.RandomExpire
import LayeredCache.Slot
import LayeredCache.Source

/-!
# The state of a session

Everything that a stack of layers works on: the clock, the private parts of each layer by its
number from the bottom, the source of truth behind all of them, the record of what happened, and
the background jobs.

A background job holds on to the caches below the layer that started it. When every handle has
been dropped, an engine lives on only as long as a job holds it.
-/

namespace LayeredCache.Session

/-- What is recorded of a session. -/
inductive EventKind where
  | load | store | evict | filterTest | filterAdd
  deriving DecidableEq, Repr

structure Event where
  time : Nat
  kind : EventKind
  key : String
  value : Option Value

/-- A note in the journal. -/
structure Note where
  time : Nat
  severity : Severity
  text : String

/-- Work that goes on by itself, started by the layer of a number. -/
inductive Job where
  | secondDelete (layer : Nat) (key : String)
  | refresh (layer : Nat) (key : String)
  deriving DecidableEq, Repr

def Job.layer : Job → Nat
  | .secondDelete i _ | .refresh i _ => i

/-- A membership filter: an array of bits, or the exact set of keys. -/
inductive Membership where
  | bits (f : Filter.Bits)
  | exact (keys : List String)
  deriving Inhabited

structure State where
  now : Nat
  engines : Bank Engine
  sentinels : Bank Engine
  /-- How many refreshes hold each sentinel engine. -/
  held : Bank Nat
  flights : Bank Flights
  filters : Bank Membership
  calls : Bank (List Faulty.Operation)
  closed : Bank Bool
  source : Source
  /-- How many standard offsets were drawn. -/
  draws : Nat
  events : List Event
  notes : List Note
  /-- Jobs that were started and have not run yet. -/
  started : List Job
  /-- Jobs that were started and have not ended. -/
  pending : List Job
  /-- Every handle was dropped. -/
  dropped : Bool
  deriving Inhabited

instance : Clock State := ⟨fun s => s.now * nanosPerMilli⟩

instance : Journal State :=
  ⟨fun severity text s => { s with notes := ⟨s.now, severity, text⟩ :: s.notes }⟩

namespace State

/-- Records an event at the present time. -/
def record (kind : EventKind) (key : String) (value : Option Value) (s : State) : State :=
  { s with events := ⟨s.now, kind, key, value⟩ :: s.events }

/-- Starts a job. -/
def launch (j : Job) (s : State) : State :=
  { s with started := s.started ++ [j], pending := j :: s.pending }

/-- Ends a job. -/
def retire (j : Job) (s : State) : State := { s with pending := s.pending.erase j }

/-! ## Parts -/

def engineSlot (i : Nat) : Slot State Engine :=
  Bank.slot ⟨State.engines, fun b s => { s with engines := b }, fun _ _ => rfl⟩ i

def sentinelSlot (i : Nat) : Slot State Engine :=
  Bank.slot ⟨State.sentinels, fun b s => { s with sentinels := b }, fun _ _ => rfl⟩ i

def heldSlot (i : Nat) : Slot State Nat :=
  Bank.slot ⟨State.held, fun b s => { s with held := b }, fun _ _ => rfl⟩ i

def flightsSlot (i : Nat) : Slot State Flights :=
  Bank.slot ⟨State.flights, fun b s => { s with flights := b }, fun _ _ => rfl⟩ i

def filterSlot (i : Nat) : Slot State Membership :=
  Bank.slot ⟨State.filters, fun b s => { s with filters := b }, fun _ _ => rfl⟩ i

def callsSlot (i : Nat) : Slot State (List Faulty.Operation) :=
  Bank.slot ⟨State.calls, fun b s => { s with calls := b }, fun _ _ => rfl⟩ i

def closedSlot (i : Nat) : Slot State Bool :=
  Bank.slot ⟨State.closed, fun b s => { s with closed := b }, fun _ _ => rfl⟩ i

def sourceSlot : Slot State Source :=
  ⟨State.source, fun x s => { s with source := x }, fun _ _ => rfl⟩

/-- The memory engine of layer `i`; its receiver records what was evicted. -/
def memory (i : Nat) : Memory State :=
  ⟨engineSlot i, fun k v => record .evict k (some v)⟩

/-- The sentinel engine of layer `i`; its receiver starts a refresh. -/
def sentinel (i : Nat) : Memory State :=
  ⟨sentinelSlot i, fun k _ => launch (.refresh i k)⟩

/-! ## What keeps engines alive -/

/-- Somebody holds the cache of layer `i`. -/
def layerAlive (i : Nat) (s : State) : Bool := !s.dropped || s.pending.any fun j => i < j.layer

/-- Somebody holds the sentinel engine of layer `i`. -/
def sentinelAlive (i : Nat) (s : State) : Bool :=
  s.layerAlive i || 0 < (heldSlot i).get s

/-- How a refresh of layer `i` holds the sentinel engine. -/
def grip (i : Nat) : Preload.Grip State where
  hold s := if s.sentinelAlive i then (true, (heldSlot i).modify (· + 1) s) else (false, s)
  release := (heldSlot i).modify (· - 1)

/-! ## Collaborators -/

/-- The loader over the source of truth. -/
def loader : Loader State := fun key => do
  Process.change (record .load key none)
  let ms ← Process.ask fun s => s.source.delay .load key
  Process.sleep (.ofMillis ms)
  Process.step (sourceSlot.update (Source.load key))

/-- The store over the source of truth. -/
def store : Store State := fun key v => do
  Process.change (record .store key (some v))
  let ms ← Process.ask fun s => s.source.delay .store key
  Process.sleep (.ofMillis ms)
  Process.step (sourceSlot.update (Source.store key v))

/-- The test of a filter; that of an exact filter is recorded. -/
def testFilter (i : Nat) (key : String) (s : State) : Bool × State :=
  match (filterSlot i).get s with
  | .bits f => (f.test .standard key, s)
  | .exact keys => (keys.contains key, s.record .filterTest key none)

/-- Adds a key to a filter; for an exact filter this is recorded. -/
def addFilter (i : Nat) (key : String) (s : State) : State :=
  match (filterSlot i).get s with
  | .bits f => (filterSlot i).set (.bits (f.add .standard key)) s
  | .exact keys =>
    (filterSlot i).set (.exact (if keys.contains key then keys else key :: keys)) s
      |>.record .filterAdd key none

/-- Empties a filter. -/
def resetFilter (i : Nat) (s : State) : State :=
  match (filterSlot i).get s with
  | .bits f => (filterSlot i).set (.bits f.reset) s
  | .exact _ => (filterSlot i).set (.exact []) s

/-- The filter of layer `i`. -/
def membership (i : Nat) : Guard.Membership State := ⟨testFilter i, addFilter i⟩

/-- The next of the standard offsets. -/
def drawOffset (s : State) : Duration × State :=
  (RandomExpire.standardOffset s.draws, { s with draws := s.draws + 1 })

end State
end LayeredCache.Session

import LayeredCache.Call
import LayeredCache.Http.Server
import LayeredCache.Session.Scheduler

/-!
# Acting on a session

What can be asked of a session: the operations of its caches one at a time or side by side, the
private operations of its layers, time, the rows of the source, and HTTP requests. Each action is
answered with what it came to, and with everything that was recorded since the last one.
-/

namespace LayeredCache.Session

/-- A call to a layer that waits first and may be given up. -/
structure TimedCall where
  layer : Nat
  call : Call
  after : Nat
  timeout : Option Nat

/-- How a timed call ended, and when. -/
structure Ending where
  time : Nat
  /-- Nothing if the call was given up. -/
  reply : Option (Answer Reply)

/-- Makes a timed call. -/
def TimedCall.run (stack : Stack) (c : TimedCall) : Process State Ending := do
  Process.sleep (.ofMillis c.after)
  let call := c.call.run (stack.cacheAt c.layer)
  let reply ← match c.timeout with
    | some ms => call.timeout (.ofMillis ms)
    | none => some <$> call
  return ⟨← Process.ask Clock.now, reply⟩

/-- One line of calls among several side by side. -/
inductive Lane where
  | one (c : TimedCall)
  | line (cs : List TimedCall)

/-- What a lane came to. -/
inductive LaneEnd where
  | one (e : Ending)
  | line (es : List Ending)

def Lane.run (stack : Stack) : Lane → Process State LaneEnd
  | .one c => do return .one (← c.run stack)
  | .line cs => do return .line (← cs.mapM fun c => c.run stack)

inductive Action where
  | call (layer : Nat) (c : Call)
  /-- The number of entries of a memory layer. -/
  | size (layer : Nat)
  | isEmpty (layer : Nat)
  | reclaim (layer : Nat)
  | drainLive (layer : Nat)
  /-- Registers the recorder of evicted entries. -/
  | watch (layer : Nat)
  | startLoop (layer : Nat) (interval : Duration)
  /-- Closes a write-back layer. -/
  | close (layer : Nat)
  /-- The flights of a singleflight layer. -/
  | inFlight (layer : Nat)
  | filterTest (layer : Nat) (key : String)
  | filterAdd (layer : Nat) (key : String)
  | filterReset (layer : Nat)
  | sleep (ms : Nat)
  | stall (ms : Nat)
  | concurrent (lanes : List Lane)
  | rows
  | setRow (key : String) (v : Value)
  | eraseRow (key : String)
  | rescript (s : SourceScript)
  | drop
  | http (r : Http.Request)

/-- What an action came to. -/
inductive Outcome where
  | reply (r : Answer Reply)
  | lanes (es : List LaneEnd)
  | rows (rs : List (String × Value))
  | response (r : Http.Response)

/-- An action's outcome and what was recorded with it. -/
structure Report where
  time : Nat
  outcome : Outcome
  events : List Event
  notes : List Note
  /-- The entries of the lowest layer, if it is a memory engine that the session still holds. -/
  size : Option Nat

open State Process

/-- A process that always succeeds, with a count. -/
def counted (p : Process State Nat) : Process State Outcome := do return .reply (.ok (.count (← p)))

/-- Entries in the order of their keys. -/
def sortPairs (ps : List (String × Value)) : List (String × Value) :=
  ps.mergeSort fun a b => decide (a.1 ≤ b.1)

/-- What an action does to a session with a default time to live. -/
def Action.run (defaultTtl : Duration) (a : Action) (x : Session) : Outcome × Session :=
  let during (p : Process State Outcome) : Outcome × Session := x.finish p
  let nothing : Outcome := .reply (.ok .nothing)
  let change (f : State → State) : Process State Outcome := do
    Process.change f
    return nothing
  match a with
  | .call i c => during do return .reply (← c.run (x.stack.cacheAt i))
  | .size i => during <| counted <| ask fun s => ((engineSlot i).get s).table.size
  | .isEmpty i =>
    during do return .reply (.ok (.flag (← ask fun s => ((engineSlot i).get s).table.size == 0)))
  | .reclaim i => during <| counted (State.memory i).reclaim
  | .drainLive i =>
    during do return .reply (.ok (.pairs (sortPairs (← (State.memory i).drainLive))))
  | .watch i => during do return .reply ((← (State.memory i).watch).map fun _ => .nothing)
  | .startLoop i d => during do return .reply ((← (State.memory i).start d).map fun _ => .nothing)
  | .close i => during <| counted (WriteBack.close (State.memory (i - 1)) (closedSlot i))
  | .inFlight i => during <| counted <| ask fun s => ((flightsSlot i).get s).inFlight
  | .filterTest i key => during do return .reply (.ok (.flag (← step (testFilter i key))))
  | .filterAdd i key => during (change (addFilter i key))
  | .filterReset i => during (change (resetFilter i))
  | .sleep ms => during do
    Process.sleep (.ofMillis ms)
    return nothing
  | .stall ms => (nothing, x.stall ms)
  | .concurrent lanes => during do return .lanes (← Process.all (lanes.map (Lane.run x.stack)))
  | .rows => during do return .rows (← ask fun s => s.source.rows)
  | .setRow key v => during (change (sourceSlot.modify (Source.setRow key v)))
  | .eraseRow key => during do
    let there ← ask fun s => (s.source.row? key).isSome
    Process.change (sourceSlot.modify (Source.eraseRow key))
    return .reply (.ok (.flag there))
  | .rescript script => during (change (sourceSlot.modify (Source.rescript script)))
  | .drop => during (change fun s => { s with dropped := true })
  | .http r => during do return .response (← Http.serve x.stack.top defaultTtl r)

/-- Events in the order of their time, then their key, then as they happened. -/
def sortEvents (es : List Event) : List Event :=
  es.mergeSort fun a b => a.time < b.time || (a.time == b.time && decide (a.key ≤ b.key))

/-- Notes in the order of their time, then the word of their severity, then their text. -/
def sortNotes (ns : List Note) : List Note :=
  ns.mergeSort fun a b => a.time < b.time || (a.time == b.time &&
    (decide (a.severity.word < b.severity.word) ||
      (a.severity == b.severity && decide (a.text ≤ b.text))))

/-- Runs an action and reports it; what was recorded is taken out of the state. -/
def Action.report (defaultTtl : Duration) (a : Action) (x : Session) : Report × Session :=
  let (outcome, x) := a.run defaultTtl x
  let s := x.state
  let size := match x.stack.layers.head? with
    | some (.memory _) => if s.dropped then none else some ((engineSlot 0).get s).table.size
    | _ => none
  (⟨s.now, outcome, sortEvents s.events.reverse, sortNotes s.notes.reverse, size⟩,
    { x with state := { s with events := [], notes := [] } })

/-- Runs one action after the other. -/
def reports (defaultTtl : Duration) : List Action → Session → List Report
  | [], _ => []
  | a :: as, x =>
    let (r, x) := a.report defaultTtl x
    r :: reports defaultTtl as x

/-- The session of a stack over a source, once its layers are built. -/
def begin (stack : Stack) (source : Source) : Except (Nat × CacheError) Session := do
  let s ← stack.build 0 stack.layers { (default : State) with source := source }
  return ⟨stack, s, []⟩

end LayeredCache.Session

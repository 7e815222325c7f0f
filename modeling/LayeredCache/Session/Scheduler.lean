import LayeredCache.Session.Stack

/-!
# Scheduling a session

A session is a stack, its state, and the jobs that run beside whatever is asked of it. Time moves
only while something waits, and then to the next moment at which anything is due. At each moment
the due ticks of the engines run first, then the jobs, each until it waits; jobs started by jobs
run in the same moment.

A job works on the layers below the one that started it, so jobs can start each other at most as
many times as there are layers.

This is one order of steps among many, the one that a single thread takes. The theorems are about
pools of processes, in which the steps come in any order.
-/

namespace LayeredCache

/-- A job that has begun. -/
structure Session.Running where
  job : Job
  body : Process State Unit

/-- A stack at work: its state, and the jobs that run beside it. -/
structure Session where
  stack : Session.Stack
  state : Session.State
  running : List Session.Running

namespace Session

open State

/-- Lets each running job go on until it waits; jobs that end are retired. -/
def advanceJobs : List Running → State → List Running × State
  | [], s => ([], s)
  | r :: rs, s =>
    match r.body.advance s with
    | (.done _, s) => advanceJobs rs (s.retire r.job)
    | (body, s) =>
      let (rs, s) := advanceJobs rs s
      (⟨r.job, body⟩ :: rs, s)

/-- Lets the jobs go on, and those they start, up to `rounds` times. -/
def settleWithin : Nat → Session → Session
  | 0, x => x
  | rounds + 1, x =>
    let (running, s) := advanceJobs x.running x.state
    if s.started.isEmpty then { x with running := running, state := s }
    else settleWithin rounds
      { x with
        running := running ++ s.started.map fun j => ⟨j, x.stack.jobBody j⟩
        state := { s with started := [] } }

/-- Everything that the jobs can do at the present moment. -/
def settle (x : Session) : Session := settleWithin (x.stack.layers.length + 2) x

/-! ## Ticks -/

/-- The engines of layer `i` that somebody holds. -/
def liveEngines (s : State) (i : Nat) : List (Memory State) :=
  (if s.layerAlive i then [State.memory i] else []) ++
    (if s.sentinelAlive i then [State.sentinel i] else [])

/-- Runs the tick of an engine if it is due. -/
def tickIfDue (s : State) (m : Memory State) : State :=
  match (m.slot.get s).loop with
  | some l => if l.due ≤ s.now then m.ticked s else s
  | none => s

/-- Runs the due ticks of the engines of `n` layers. -/
def tickAll (n : Nat) (s : State) : State :=
  (List.range n).foldl (fun s i => (liveEngines s i).foldl tickIfDue s) s

/-- Everything that happens at the present moment. -/
def moment (x : Session) : Session :=
  ({ x with state := tickAll (x.stack.layers.length + 1) x.state }).settle

/-! ## Time -/

/-- The earlier of two moments. -/
def earlier : Option Nat → Option Nat → Option Nat
  | some a, some b => some (min a b)
  | some a, none => some a
  | none, b => b

/-- The next moment at which a tick or a job is due. -/
def nextDue (x : Session) : Option Nat :=
  let ticks := (List.range (x.stack.layers.length + 1)).flatMap fun i =>
    (liveEngines x.state i).map fun m => ((m.slot.get x.state).loop).map Loop.due
  let jobs := x.running.map fun r => r.body.due
  (ticks ++ jobs).foldl earlier none

/-- Moves the clock. -/
def setNow (t : Nat) (x : Session) : Session := { x with state := { x.state with now := t } }

/-- Lets time pass until `target` or until `stop` holds, one moment after the other. Each moment is
later than the last, so the time left bounds their number. -/
def elapseWithin (target : Nat) (stop : State → Bool) : Nat → Session → Session
  | 0, x => x
  | left + 1, x =>
    if target ≤ x.state.now || stop x.state then x
    else
      let next := match x.nextDue with
        | some t => min target (max t (x.state.now + 1))
        | none => target
      elapseWithin target stop left (setNow next x).moment

/-- Lets time pass until `target` or until `stop` holds. -/
def elapse (target : Nat) (stop : State → Bool) (x : Session) : Session :=
  elapseWithin target stop (target - x.state.now) x

/-- Runs a process to its end, letting time pass while it waits. A wait that time cannot end is
passed over: nothing else is left that could. -/
def finish {α : Type} : Process State α → Session → α × Session
  | .done a, x => (a, x.settle)
  | .act g k, x => finish (k x.state) { x with state := g x.state }
  | .wait w _ next, x =>
    if w.ready x.state then finish (next x.state) x
    else
      let x := x.settle
      let x := match w.due with
        | some t => x.elapse t fun s => w.ready s
        | none => x
      finish (next x.state) x

/-- Moves the clock at once, as if nothing could run meanwhile; what is overdue then runs late. -/
def stall (ms : Nat) (x : Session) : Session := (setNow (x.state.now + ms) x).moment

end Session
end LayeredCache

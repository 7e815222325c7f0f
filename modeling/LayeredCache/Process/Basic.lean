import LayeredCache.Duration

/-!
# Processes

A process over a state ends with an answer, takes an atomic step, or waits. It is a well-founded
tree, so it takes finitely many steps whatever the state answers; loops without end are not
processes.

A process is only ever given up while it waits, so each wait says what giving up does to the state.
Steps of different processes may happen between the steps of one; a process alone runs until it
waits for something that is not ready (`advance`).

A process that goes on from a wait sees the state in which the wait is over, in the same step. So a
process that waits for one of two things knows which of them it was: under a limit (`within`) it is
given up only if the limit is over and what it waits for itself is not.

Results:
* the monad laws (`LawfulMonad`), so that processes are written in `do` notation;
* `advance_blocked`: what `advance` leaves either ended or waits for something not ready.
-/

namespace LayeredCache

/-- A state with a clock. It counts nanoseconds. -/
class Clock (σ : Type) where
  instant : σ → Nat

/-- What the clock shows: whole milliseconds. -/
def Clock.now {σ : Type} [Clock σ] (s : σ) : Nat := Clock.instant s / nanosPerMilli

/-- What a process can wait for. -/
inductive Wait (σ : Type) where
  /-- The clock shows `t` or later. -/
  | time (t : Nat)
  /-- The state is ready. -/
  | event (ready : σ → Bool)
  /-- One of the two. -/
  | either (a b : Wait σ)

namespace Wait

variable {σ : Type}

/-- The wait is over. -/
def ready [Clock σ] (s : σ) : Wait σ → Bool
  | .time t => t ≤ Clock.now s
  | .event r => r s
  | .either a b => a.ready s || b.ready s

/-- The time at which the wait is over at the latest, if time alone can end it. -/
def due : Wait σ → Option Nat
  | .time t => some t
  | .event _ => none
  | .either a b =>
    match a.due, b.due with
    | some x, some y => some (min x y)
    | some x, none => some x
    | none, y => y

end Wait

inductive Process (σ α : Type) where
  /-- Ended with an answer. -/
  | done (a : α)
  /-- One atomic step: the state changes, and the state as it was decides how to go on. -/
  | act (change : σ → σ) (next : σ → Process σ α)
  /-- Waits, and goes on as the state in which the wait is over decides. If it is given up instead,
  `abandon` changes the state. -/
  | wait (w : Wait σ) (abandon : σ → σ) (next : σ → Process σ α)

namespace Process

variable {σ α β γ : Type}

def bind : Process σ α → (α → Process σ β) → Process σ β
  | .done a, f => f a
  | .act g k, f => .act g fun s => (k s).bind f
  | .wait w c k, f => .wait w c fun s => (k s).bind f

instance : Monad (Process σ) where
  pure := .done
  bind := bind

theorem bind_done (p : Process σ α) : p.bind .done = p := by
  induction p with
  | done a => rfl
  | act g k ih => simp only [bind, ih]
  | wait w c k ih => simp only [bind, ih]

theorem bind_assoc (p : Process σ α) (f : α → Process σ β) (g : β → Process σ γ) :
    (p.bind f).bind g = p.bind fun a => (f a).bind g := by
  induction p with
  | done a => rfl
  | act h k ih => simp only [bind, ih]
  | wait w c k ih => simp only [bind, ih]

instance : LawfulMonad (Process σ) :=
  LawfulMonad.mk' (Process σ) bind_done (fun _ _ => rfl) bind_assoc

/-! ## Steps -/

/-- Looks at the state and goes on. -/
def look (next : σ → Process σ α) : Process σ α := .act id next

/-- What `f` reads off the state. -/
def ask (f : σ → α) : Process σ α := look fun s => .done (f s)

/-- Changes the state. -/
def change (f : σ → σ) : Process σ Unit := .act f fun _ => .done ()

/-- Changes the state and answers, in one step. -/
def step (f : σ → α × σ) : Process σ α := .act (fun s => (f s).2) fun s => .done (f s).1

/-- Waits until the clock shows `t`. -/
def sleepUntil (t : Nat) : Process σ Unit := .wait (.time t) id fun _ => .done ()

/-- Waits until the state is ready. -/
def await (ready : σ → Bool) : Process σ Unit := .wait (.event ready) id fun _ => .done ()

/-! ## Running alone -/

variable [Clock σ]

/-- Runs a process until it ends or waits for something that is not ready. -/
def advance : Process σ α → σ → Process σ α × σ
  | .done a, s => (.done a, s)
  | .act g k, s => (k s).advance (g s)
  | .wait w c k, s => if w.ready s then (k s).advance s else (.wait w c k, s)

/-- The time at which a waiting process goes on at the latest. -/
def due : Process σ α → Option Nat
  | .wait w _ _ => w.due
  | _ => none

/-- The process ended, or waits for something that is not ready. -/
def Blocked (s : σ) : Process σ α → Prop
  | .done _ => True
  | .act _ _ => False
  | .wait w _ _ => w.ready s = false

theorem advance_blocked (p : Process σ α) (s : σ) :
    (p.advance s).1.Blocked (p.advance s).2 := by
  induction p generalizing s with
  | done a => trivial
  | act g k ih => exact ih s (g s)
  | wait w c k ih =>
    unfold advance
    split
    · exact ih s s
    · rename_i h
      simpa [Blocked] using h

/-! ## Bounds on a process -/

/-- Runs `leave` when the process ends, and also when it is given up. -/
def guarded (leave : σ → σ) : Process σ α → Process σ α
  | .done a => .act leave fun _ => .done a
  | .act g k => .act g fun s => (k s).guarded leave
  | .wait w c k => .wait w (fun s => leave (c s)) fun s => (k s).guarded leave

/-- Gives the process up when it still waits at `limit`. Whatever has become ready by then goes on
first. -/
def within (limit : Nat) : Process σ α → Process σ (Option α)
  | .done a => .done (some a)
  | .act g k => .act g fun s => (k s).within limit
  | .wait w c k =>
    .wait (.either w (.time limit)) c fun s =>
      if w.ready s then (k s).within limit else .act c fun _ => .done none

end Process
end LayeredCache

import LayeredCache.Proofs.Memory

/-!
# A memory cache by itself

A memory engine with its clock and with what its receiver was handed. Everything that can be done
to it is a task: a call of the cache contract, a drain, a reclamation pass asked for by hand, or a
tick of the loop. Any number of tasks run side by side in a pool; time passes between any two
steps.

Calls and drains are single steps. A pass takes a step for its scan, one for its removal and one
for each entry that it hands over, so whatever else happens may come between them.

Results:
* `steps_of_next?`: what one step of a task does.
* `turned_of_moved`: what one turn does to a pool of tasks.
-/

namespace LayeredCache

/-- A memory cache, its clock, and what its receiver was handed, oldest first. -/
structure Solo where
  instant : Nat
  engine : Engine
  received : List (String × Value)

namespace Solo

instance : Clock Solo := ⟨Solo.instant⟩

/-- The cache of the engine; its receiver keeps a record. -/
def memory : Memory Solo where
  slot := ⟨Solo.engine, fun e s => { s with engine := e }, fun _ _ => rfl⟩
  evicted k v s := { s with received := s.received ++ [(k, v)] }

/-- Time passes. -/
def elapse (nanos : Nat) (s : Solo) : Solo := { s with instant := s.instant + nanos }

/-- What can be done to a memory cache. -/
inductive Task where
  | call (c : Call)
  | drainLive
  /-- A reclamation pass. -/
  | pass
  /-- A tick of the loop, which makes a pass. -/
  | tick

namespace Task

/-- The task makes a reclamation pass. -/
def isPass : Task → Bool
  | .pass | .tick => true
  | _ => false

/-- Does a task. -/
def run : Task → Process Solo (Answer Reply)
  | .call c => c.run memory.cache
  | .drainLive => do return .ok (.pairs (← memory.drainLive))
  | .pass => Memory.counted memory.reclaim
  | .tick => Memory.counted memory.tick

end Task

/-- A pool of tasks on an engine, none of them begun. -/
def pool {ι : Type} (tasks : ι → Task) (engine : Engine) (now : Nat) :
    Pool ι Solo (Answer Reply) :=
  ⟨⟨now, engine, []⟩, fun i => some (tasks i).run⟩

/-! ## The steps of a task -/

/-- What may remain of a task. -/
inductive Remains : Task → Process Solo (Answer Reply) → Prop
  | call (c : Call) : Remains (.call c) (Task.call c).run
  | drainLive : Remains .drainLive Task.drainLive.run
  | pass {task : Task} (h : task.isPass = true) (stage : Memory.Stage) :
      Remains task (Memory.counted (stage.process memory))
  | ended {task : Task} (h : task.isPass = false) (r : Answer Reply) : Remains task (.done r)

/-- One step of a task. -/
inductive Steps (s : Solo) : Task → Process Solo (Answer Reply) → Process Solo (Answer Reply) →
    Solo → Prop
  | call {c : Call} {r : Answer Reply} {e : Engine} (hw : e.watched = s.engine.watched)
      (h : Memory.Does s.instant s.engine.table c r e.table) :
      Steps s (.call c) (Task.call c).run (.done r) { s with engine := e }
  | drainLive :
      Steps s .drainLive Task.drainLive.run
        (.done (.ok (.pairs (s.engine.table.drainLive s.instant).1)))
        { s with engine := { s.engine with table := (s.engine.table.drainLive s.instant).2 } }
  | pass {task : Task} {stage stage' : Memory.Stage} {s' : Solo} (ht : task.isPass = true)
      (h : memory.Passes s stage stage' s') :
      Steps s task (Memory.counted (stage.process memory))
        (Memory.counted (stage'.process memory)) s'

theorem remains_run (task : Task) : Remains task task.run := by
  cases task with
  | call c => exact .call c
  | drainLive => exact .drainLive
  | pass => exact .pass rfl .scan
  | tick => exact .pass rfl .rearm

theorem steps_of_next? {task : Task} {q q' : Process Solo (Answer Reply)} {s s' : Solo}
    (hr : Remains task q) (h : q.next? s = some (q', s')) : Steps s task q q' s' := by
  cases hr with
  | call c =>
    obtain ⟨r, rfl, ht, hd⟩ := memory.does_of_next? h
    rcases ht with rfl | ⟨e, rfl, hw⟩
    · exact .call rfl hd
    · exact .call hw hd
  | drainLive =>
    obtain ⟨rfl, rfl⟩ := Process.next?_act h
    exact .drainLive
  | pass ht stage =>
    obtain ⟨stage', rfl, hp⟩ := memory.passes_of_next?_counted h
    exact .pass ht hp
  | ended ht r => simp [Process.next?] at h

theorem remains_of_steps {task : Task} {q q' : Process Solo (Answer Reply)} {s s' : Solo}
    (h : Steps s task q q' s') : Remains task q' := by
  cases h with
  | call hw hd => exact .ended rfl _
  | drainLive => exact .ended rfl _
  | pass ht hp => exact .pass ht _

/-- A step of a pass takes no time. -/
theorem instant_of_passes {s s' : Solo} {stage stage' : Memory.Stage}
    (h : memory.Passes s stage stage' s') : s'.instant = s.instant := by cases h <;> rfl

/-- No task ever waits. -/
theorem not_wait {task : Task} {w : Wait Solo} {c : Solo → Solo}
    {k : Solo → Process Solo (Answer Reply)} : ¬ Remains task (.wait w c k) := by
  generalize hp : Process.wait w c k = p
  rintro (c | _ | ⟨ht, stage⟩ | ⟨ht, r⟩)
  · cases c <;> cases hp
  · cases hp
  · cases stage with
    | deliver rest removed => cases rest <;> cases hp
    | _ => cases hp
  · cases hp

/-! ## The turns of a pool -/

variable {ι : Type} [DecidableEq ι] {tasks : ι → Task}

/-- Every thread of the pool is what may remain of its task. -/
def Underway (tasks : ι → Task) (p : Pool ι Solo (Answer Reply)) : Prop :=
  ∀ i q, p.threads i = some q → Remains (tasks i) q

/-- What a turn can do to a pool of tasks. -/
inductive Turned (tasks : ι → Task) (p : Pool ι Solo (Answer Reply)) :
    Option (Pool.Event ι Solo (Answer Reply)) → Pool ι Solo (Answer Reply) → Prop
  | idle (nanos : Nat) : Turned tasks p none ⟨elapse nanos p.state, p.threads⟩
  | step {i : ι} {q q' : Process Solo (Answer Reply)} {s : Solo} (hq : p.threads i = some q)
      (hn : q.next? p.state = some (q', s)) (hs : Steps p.state (tasks i) q q' s) :
      Turned tasks p (some ⟨i, p.state, s, q'.answer?⟩)
        ⟨s, Function.update p.threads i (some q')⟩

omit [DecidableEq ι] in
theorem underway_pool (tasks : ι → Task) (engine : Engine) (now : Nat) :
    Underway tasks (pool tasks engine now) := by
  intro i q hq
  obtain rfl := Option.some.inj hq
  exact remains_run (tasks i)

theorem turned_of_moved {p p' : Pool ι Solo (Answer Reply)} {t : Turn ι Nat}
    {x : Option (Pool.Event ι Solo (Answer Reply))} (hp : Underway tasks p)
    (h : Pool.Moved elapse p t x p') : Turned tasks p x p' := by
  cases h with
  | still => exact .idle 0
  | step hq hs => exact .step hq hs (steps_of_next? (hp _ _ hq) hs)
  | gone hq => exact absurd (hp _ _ hq) not_wait
  | outside nanos => exact .idle nanos

theorem underway_turned {p p' : Pool ι Solo (Answer Reply)}
    {x : Option (Pool.Event ι Solo (Answer Reply))} (hp : Underway tasks p)
    (h : Turned tasks p x p') : Underway tasks p' := by
  cases h with
  | idle nanos => exact hp
  | @step i q q' s hq hn hs =>
    intro j r hr
    rcases Pool.update_eq_some hr with ⟨rfl, hq'⟩ | ⟨-, hr⟩
    · obtain rfl := Option.some.inj hq'
      exact remains_of_steps hs
    · exact hp j r hr

end Solo
end LayeredCache

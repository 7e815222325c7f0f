import LayeredCache.Layer.WriteBack
import LayeredCache.Proofs.Solo

/-!
# A cache that writes back

A memory cache that writes its evicted entries back, and the mark that says whether it was closed.
Whatever can be done to a memory cache can be done to it; besides, it can be closed, any number of
times and in the middle of anything else.

A close that finds the mark set ends there. Otherwise it sets the mark, goes through the stages of
a reclamation pass, takes out in one step what is live by then, and hands that over one entry after
the other.

Results:
* `steps_of_next?`: what one step of a task does, and the stage it leads to.
* `turned_of_moved`: what one turn does to a pool of tasks.
-/

namespace LayeredCache

/-- A memory cache with its clock and its receiver's record, and whether it was closed. -/
structure Deferred extends Solo where
  closed : Bool

namespace Deferred

instance : Clock Deferred := ⟨fun s => s.instant⟩

/-- The engine; its receiver keeps a record. -/
def memory : Memory Deferred where
  slot := ⟨fun s => s.engine, fun e s => { s with engine := e }, fun _ _ => rfl⟩
  evicted k v s := { s with received := s.received ++ [(k, v)] }

/-- The mark that the cache was closed. -/
def mark : Slot Deferred Bool :=
  ⟨Deferred.closed, fun b s => { s with closed := b }, fun _ _ => rfl⟩

/-- Time passes. -/
def elapse (nanos : Nat) (s : Deferred) : Deferred := { s with instant := s.instant + nanos }

/-- What can be done to a cache that writes back. -/
inductive Task where
  /-- What can be done to a memory cache. -/
  | work (task : Solo.Task)
  | close

/-- Does a task. -/
def Task.run : Task → Process Deferred (Answer Reply)
  | .work (.call c) => c.run memory.cache
  | .work .drainLive => do return .ok (.pairs (← memory.drainLive))
  | .work .pass => Memory.counted memory.reclaim
  | .work .tick => Memory.counted memory.tick
  | .close => Memory.counted (WriteBack.close memory mark)

/-- A pool of tasks on an engine without entries and with a receiver, none of them begun. -/
def pool {ι : Type} (tasks : ι → Task) (engine : Engine) (now : Nat) :
    Pool ι Deferred (Answer Reply) :=
  ⟨⟨⟨now, { engine with table := .empty, watched := true }, []⟩, false⟩,
    fun i => some (tasks i).run⟩

/-! ## The stages of a task -/

/-- How far a task has come. -/
inductive Stage where
  | call (c : Call)
  | drainLive
  | pass (stage : Memory.Stage)
  /-- A call or a drain has ended. -/
  | ended (r : Answer Reply)
  /-- A close has not begun. -/
  | close
  /-- A close found the mark set. -/
  | refused
  /-- A close has set the mark and makes its pass. -/
  | reclaim (stage : Memory.Stage)
  /-- A close whose pass removed so many entries has taken out the live ones. -/
  | flush (reclaimed : Nat) (stage : Memory.Stage)

namespace Stage

/-- What remains of the task. -/
def process : Stage → Process Deferred (Answer Reply)
  | .call c => c.run memory.cache
  | .drainLive => do return .ok (.pairs (← memory.drainLive))
  | .pass stage => Memory.counted (stage.process memory)
  | .ended r => .done r
  | .close => Memory.counted (WriteBack.close memory mark)
  | .refused => .done (.ok (.count 0))
  | .reclaim stage => Memory.counted ((stage.process memory).bind fun reclaimed =>
      (WriteBack.flush memory).bind fun flushed => .done (reclaimed + flushed))
  | .flush reclaimed stage =>
      Memory.counted ((stage.process memory).bind fun flushed => .done (reclaimed + flushed))

/-- A close has set the mark. -/
def Active : Stage → Prop
  | .reclaim _ | .flush _ _ => True
  | _ => False

/-- A close has looked at the mark. -/
def Begun : Stage → Prop
  | .refused | .reclaim _ | .flush _ _ => True
  | _ => False

/-- The stage is one of the task. -/
inductive Of : Task → Stage → Prop
  | call (c : Call) : Of (.work (.call c)) (.call c)
  | drainLive : Of (.work .drainLive) .drainLive
  | pass {task : Solo.Task} (h : task.isPass = true) (stage : Memory.Stage) :
      Of (.work task) (.pass stage)
  | ended {task : Solo.Task} (h : task.isPass = false) (r : Answer Reply) :
      Of (.work task) (.ended r)
  | close : Of .close .close
  | refused : Of .close .refused
  | reclaim (stage : Memory.Stage) : Of .close (.reclaim stage)
  | flush (reclaimed : Nat) (stage : Memory.Stage) : Of .close (.flush reclaimed stage)

end Stage

/-- One step of a task. -/
inductive Steps (s : Deferred) : Stage → Stage → Deferred → Prop
  | call {c : Call} {r : Answer Reply} {e : Engine} (hw : e.watched = s.engine.watched)
      (h : Memory.Does s.instant s.engine.table c r e.table) :
      Steps s (.call c) (.ended r) { s with engine := e }
  | drainLive :
      Steps s .drainLive (.ended (.ok (.pairs (s.engine.table.drainLive s.instant).1)))
        { s with engine := { s.engine with table := (s.engine.table.drainLive s.instant).2 } }
  | pass {stage stage' : Memory.Stage} {s' : Deferred} (h : memory.Passes s stage stage' s') :
      Steps s (.pass stage) (.pass stage') s'
  | refuse (h : s.closed = true) : Steps s .close .refused { s with closed := true }
  | begin (h : s.closed = false) : Steps s .close (.reclaim .scan) { s with closed := true }
  | reclaim {stage stage' : Memory.Stage} {s' : Deferred} (h : memory.Passes s stage stage' s') :
      Steps s (.reclaim stage) (.reclaim stage') s'
  | take (reclaimed : Nat) :
      Steps s (.reclaim (.deliver [] reclaimed))
        (.flush reclaimed (.hand (s.engine.table.drainLive s.instant).1))
        { s with engine := { s.engine with table := (s.engine.table.drainLive s.instant).2 } }
  | flush (reclaimed : Nat) {stage stage' : Memory.Stage} {s' : Deferred}
      (h : memory.Passes s stage stage' s') :
      Steps s (.flush reclaimed stage) (.flush reclaimed stage') s'

/-- The stage of a task that has not begun. -/
def Task.first : Task → Stage
  | .work (.call c) => .call c
  | .work .drainLive => .drainLive
  | .work .pass => .pass .scan
  | .work .tick => .pass .rearm
  | .close => .close

theorem run_eq (task : Task) : task.run = task.first.process := by
  cases task with
  | close => rfl
  | work task => cases task <;> rfl

theorem first_of (task : Task) : task.first.Of task ∧ ¬ task.first.Begun := by
  cases task with
  | close => exact ⟨.close, id⟩
  | work task =>
    cases task with
    | call c => exact ⟨.call c, id⟩
    | drainLive => exact ⟨.drainLive, id⟩
    | pass => exact ⟨.pass rfl .scan, id⟩
    | tick => exact ⟨.pass rfl .rearm, id⟩

/-- A pass that has ended has nothing left to hand over. -/
theorem stage_of_done {stage : Memory.Stage} {n : Nat}
    (h : stage.process memory = .done n) : stage = .deliver [] n := by
  cases stage with
  | deliver rest removed =>
    cases rest with
    | nil =>
      obtain rfl := Process.done.inj h
      rfl
    | cons y rest => cases h
  | _ => cases h

/-- **A task goes through its stages.** -/
theorem steps_of_next? {stage : Stage} {q : Process Deferred (Answer Reply)} {s s' : Deferred}
    (h : stage.process.next? s = some (q, s')) :
    ∃ stage' : Stage, q = stage'.process ∧ Steps s stage stage' s' := by
  cases stage with
  | call c =>
    obtain ⟨r, rfl, ht, hd⟩ := memory.does_of_next? h
    rcases ht with rfl | ⟨e, rfl, hw⟩
    · exact ⟨.ended r, rfl, .call rfl hd⟩
    · exact ⟨.ended r, rfl, .call hw hd⟩
  | drainLive =>
    obtain ⟨rfl, rfl⟩ := Process.next?_act h
    exact ⟨.ended _, rfl, .drainLive⟩
  | pass stage =>
    obtain ⟨stage', rfl, hp⟩ := memory.passes_of_next?_counted h
    exact ⟨.pass stage', rfl, .pass hp⟩
  | ended r => simp [Stage.process, Process.next?] at h
  | refused => simp [Stage.process, Process.next?] at h
  | close =>
    obtain ⟨rfl, rfl⟩ := Process.next?_act h
    cases hc : s.closed with
    | true =>
      refine ⟨.refused, ?_, .refuse hc⟩
      change ((if s.closed = true then _ else _ : Process Deferred Nat).bind _) = _
      rw [if_pos hc]
      rfl
    | false =>
      refine ⟨.reclaim .scan, ?_, .begin hc⟩
      change ((if s.closed = true then _ else _ : Process Deferred Nat).bind _) = _
      rw [if_neg (by simp [hc])]
      rfl
  | reclaim stage =>
    rw [Stage.process, Memory.counted, Process.bind_assoc] at h
    rcases Process.next?_bind_cases h with ⟨q, hq, rfl⟩ | ⟨n, hd, hn⟩
    · obtain ⟨stage', rfl, hp⟩ := memory.passes_of_next? hq
      refine ⟨.reclaim stage', ?_, .reclaim hp⟩
      rw [Stage.process, Memory.counted, Process.bind_assoc]
    · obtain rfl := stage_of_done hd
      obtain ⟨rfl, rfl⟩ := Process.next?_act hn
      exact ⟨.flush n (.hand _), rfl, .take n⟩
  | flush n stage =>
    rw [Stage.process, Memory.counted, Process.bind_assoc] at h
    rcases Process.next?_bind_cases h with ⟨q, hq, rfl⟩ | ⟨m, -, hm⟩
    · obtain ⟨stage', rfl, hp⟩ := memory.passes_of_next? hq
      refine ⟨.flush n stage', ?_, .flush n hp⟩
      rw [Stage.process, Memory.counted, Process.bind_assoc]
    · simp [Process.bind, Process.next?] at hm

/-- No task ever waits. -/
theorem not_wait {stage : Stage} {w : Wait Deferred} {c : Deferred → Deferred}
    {k : Deferred → Process Deferred (Answer Reply)} : stage.process ≠ .wait w c k := by
  intro hp
  cases stage with
  | call c => cases c <;> cases hp
  | pass stage | reclaim stage | flush _ stage =>
    cases stage with
    | deliver rest removed => cases rest <;> cases hp
    | _ => cases hp
  | _ => cases hp

/-! ## What a step does -/

section Steps

variable {s s' : Deferred} {stage stage' : Stage}

/-- A pass does to the cache what it does to a memory cache, and leaves the mark. -/
theorem solo_of_passes {stage stage' : Memory.Stage} (h : memory.Passes s stage stage' s') :
    Solo.memory.Passes s.toSolo stage stage' s'.toSolo ∧ s'.closed = s.closed := by
  cases h with
  | rearm => exact ⟨.rearm, rfl⟩
  | scan h hk => exact ⟨.scan h hk, rfl⟩
  | clean h => exact ⟨.clean h, rfl⟩
  | evict keys => exact ⟨.evict keys, rfl⟩
  | hand h => exact ⟨.hand h, rfl⟩
  | unwatched h => exact ⟨.unwatched h, rfl⟩
  | deliver x rest removed => exact ⟨.deliver x rest removed, rfl⟩

theorem stage_of_steps {task : Task} (ho : stage.Of task) (h : Steps s stage stage' s') :
    stage'.Of task := by
  cases h with
  | call hw hd =>
    cases ho
    exact .ended rfl _
  | drainLive =>
    cases ho
    exact .ended rfl _
  | pass hp =>
    cases ho with
    | pass ht _ => exact .pass ht _
  | refuse hc =>
    cases ho
    exact .refused
  | begin hc =>
    cases ho
    exact .reclaim _
  | reclaim hp =>
    cases ho
    exact .reclaim _
  | take n =>
    cases ho
    exact .flush _ _
  | flush n hp =>
    cases ho
    exact .flush _ _

theorem instant_of_passes {stage stage' : Memory.Stage} (h : memory.Passes s stage stage' s') :
    s'.instant = s.instant := by cases h <;> rfl

theorem instant_of_steps (h : Steps s stage stage' s') : s'.instant = s.instant := by
  cases h with
  | pass hp | reclaim hp | flush n hp => exact instant_of_passes hp
  | _ => rfl

/-- The mark is never taken off, and a close that has looked at it leaves it set. -/
theorem closed_of_steps (hb : stage.Begun → s.closed = true) (h : Steps s stage stage' s') :
    (s.closed = true → s'.closed = true) ∧ (stage'.Begun → s'.closed = true) := by
  cases h with
  | call hw hd => exact ⟨id, False.elim⟩
  | drainLive => exact ⟨id, False.elim⟩
  | pass hp => exact ⟨(solo_of_passes hp).2.trans, False.elim⟩
  | refuse hc => exact ⟨fun _ => rfl, fun _ => rfl⟩
  | begin hc => exact ⟨fun _ => rfl, fun _ => rfl⟩
  | reclaim hp =>
    exact ⟨(solo_of_passes hp).2.trans, fun _ => (solo_of_passes hp).2.trans (hb trivial)⟩
  | take n => exact ⟨id, fun _ => hb trivial⟩
  | flush n hp =>
    exact ⟨(solo_of_passes hp).2.trans, fun _ => (solo_of_passes hp).2.trans (hb trivial)⟩

/-- A close sets the mark only if it finds it off, and from then on it is the one that did. -/
theorem active_of_steps (h : Steps s stage stage' s') :
    (stage.Active → stage'.Active) ∧ (stage'.Active → stage.Active ∨ s.closed = false) := by
  cases h with
  | begin hc => exact ⟨fun _ => trivial, fun _ => .inr hc⟩
  | reclaim hp => exact ⟨id, fun _ => .inl trivial⟩
  | take n => exact ⟨id, fun _ => .inl trivial⟩
  | flush n hp => exact ⟨id, fun _ => .inl trivial⟩
  | _ => exact ⟨False.elim, False.elim⟩

end Steps

/-! ## The turns of a pool -/

variable {ι : Type} [DecidableEq ι]

/-- Every thread of the pool is at a stage of its task. -/
structure Underway (tasks : ι → Task) (p : Pool ι Deferred (Answer Reply)) (stages : ι → Stage) :
    Prop where
  threads : ∀ j, p.threads j = some (stages j).process
  stage : ∀ j, (stages j).Of (tasks j)

/-- What a turn can do to a pool of tasks. -/
inductive Turned (p : Pool ι Deferred (Answer Reply)) (stages : ι → Stage) :
    Option (Pool.Event ι Deferred (Answer Reply)) → Pool ι Deferred (Answer Reply) →
      (ι → Stage) → Prop
  | idle (nanos : Nat) : Turned p stages none ⟨elapse nanos p.state, p.threads⟩ stages
  | step {i : ι} {stage' : Stage} {s' : Deferred} (h : Steps p.state (stages i) stage' s') :
      Turned p stages (some ⟨i, p.state, s', stage'.process.answer?⟩)
        ⟨s', Function.update p.threads i (some stage'.process)⟩ (Function.update stages i stage')

omit [DecidableEq ι] in
theorem underway_pool (tasks : ι → Task) (engine : Engine) (now : Nat) :
    Underway tasks (pool tasks engine now) fun j => (tasks j).first :=
  ⟨fun j => congrArg some (run_eq (tasks j)), fun j => (first_of (tasks j)).1⟩

theorem underway_step {tasks : ι → Task} {p : Pool ι Deferred (Answer Reply)} {stages : ι → Stage}
    {i : ι} {stage' : Stage} {s' : Deferred} (hu : Underway tasks p stages)
    (hs : Steps p.state (stages i) stage' s') :
    Underway tasks ⟨s', Function.update p.threads i (some stage'.process)⟩
      (Function.update stages i stage') := by
  constructor
  case threads =>
    intro j
    change Function.update p.threads i (some stage'.process) j = _
    by_cases hj : j = i
    · subst hj
      rw [Function.update_self, Function.update_self]
    · rw [Function.update_of_ne hj, Function.update_of_ne hj]
      exact hu.threads j
  case stage =>
    intro j
    by_cases hj : j = i
    · subst hj
      rw [Function.update_self]
      exact stage_of_steps (hu.stage j) hs
    · rw [Function.update_of_ne hj]
      exact hu.stage j

theorem turned_of_moved {tasks : ι → Task} {p p' : Pool ι Deferred (Answer Reply)} {t : Turn ι Nat}
    {x : Option (Pool.Event ι Deferred (Answer Reply))} {stages : ι → Stage}
    (hu : Underway tasks p stages) (h : Pool.Moved elapse p t x p') :
    ∃ stages', Turned p stages x p' stages' ∧ Underway tasks p' stages' := by
  cases h with
  | still => exact ⟨stages, .idle 0, hu⟩
  | outside nanos => exact ⟨stages, .idle nanos, hu.threads, hu.stage⟩
  | gone hq => exact absurd (Option.some.inj ((hu.threads _).symm.trans hq)) not_wait
  | @step i q q' s hq hn =>
    obtain rfl := Option.some.inj ((hu.threads i).symm.trans hq)
    obtain ⟨stage', rfl, hs⟩ := steps_of_next? hn
    exact ⟨Function.update stages i stage', .step hs, underway_step hu hs⟩

end Deferred
end LayeredCache

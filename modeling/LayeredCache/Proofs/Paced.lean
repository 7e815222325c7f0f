import LayeredCache.Proofs.Ledger

/-!
# A memory cache and its loop

A memory cache with any tasks on it in any order of steps, and its reclamation loop beside them. The
loop waits for each tick, then looks whether somebody still refers to the cache, and then makes a
pass. When the last reference is dropped, the loop is given up at the next place where it waits.

Results:
* `Beat.steps_of_next?`: what one step of the loop does.
* `beside_of_steps`: what a step of a task leaves as it is.
* `turned_of_moved`: what a turn can do to the cache, its loop and the tasks.
-/

namespace LayeredCache

/-- A memory cache, and whether somebody refers to it. -/
structure Paced where
  solo : Solo
  referred : Bool

namespace Paced

instance : Clock Paced := ⟨fun s => s.solo.instant⟩

/-- The cache as a part of the state. -/
def whole : Slot Paced Solo := ⟨Paced.solo, fun r s => { s with solo := r }, fun _ _ => rfl⟩

/-- The table of the cache. -/
abbrev table (s : Paced) : Table := s.solo.engine.table

/-! ## What runs -/

/-- The next tick of the loop is due. -/
def isDue (s : Paced) : Bool := s.solo.engine.loop.any fun l => l.next ≤ s.solo.instant

/-- So many ticks of the loop, each when it is due, while somebody refers to the cache. -/
def ticks : Nat → Process Paced (Answer Reply)
  | 0 => return .ok .nothing
  | n + 1 => do
    Process.await isDue
    if ← Process.ask Paced.referred then
      let _ ← Solo.memory.tick.embed whole
      ticks n
    else return .ok .nothing

/-- Tasks on a memory cache, and its loop with `n` ticks, none of which has taken a step. -/
def pool {ι : Type} (tasks : ι → Solo.Task) (n : Nat) (s : Paced) :
    Pool (Option ι) Paced (Answer Reply) where
  state := s
  threads
    | some i => some ((tasks i).run.embed whole)
    | none => some (ticks n)

/-- What happens from outside. -/
inductive Outer where
  /-- Time passes. -/
  | elapse (nanos : Nat)
  /-- The last reference to the cache is dropped. -/
  | dropped

def happen : Outer → Paced → Paced
  | .elapse nanos, s => { s with solo := s.solo.elapse nanos }
  | .dropped, s => { s with referred := false }

theorem next?_of_embed {p : Process Solo (Answer Reply)} {q : Process Paced (Answer Reply)}
    {s s' : Paced} (h : (p.embed whole).next? s = some (q, s')) :
    ∃ p' r, q = p'.embed whole ∧ p.next? s.solo = some (p', r) ∧ s' = { s with solo := r } :=
  Process.next?_of_embed whole (fun _ => rfl) (fun _ => rfl) h

/-! ## The loop -/

/-- How far the loop has come; `n` more ticks follow. -/
inductive Beat where
  | awaiting (n : Nat)
  /-- A tick is due, and the loop is about to look whether there is a reference. -/
  | looking (n : Nat)
  | ticking (n : Nat) (stage : Memory.Stage)
  | ended

namespace Beat

/-- The loop after a step of a tick. -/
def after (n : Nat) : Memory.Stage → Beat
  | .deliver [] _ => .awaiting n
  | stage => .ticking n stage

/-- What remains of the loop. -/
def process : Beat → Process Paced (Answer Reply)
  | .awaiting n => ticks n
  | .looking n => do
    if ← Process.ask Paced.referred then
      let _ ← Solo.memory.tick.embed whole
      ticks n
    else return .ok .nothing
  | .ticking n stage => ((stage.process Solo.memory).embed whole).bind fun _ => ticks n
  | .ended => .done (.ok .nothing)

theorem process_after (n : Nat) (stage : Memory.Stage) :
    (after n stage).process = (ticking n stage).process := by
  cases stage with
  | deliver rest removed => cases rest <;> rfl
  | _ => rfl

/-- The loop waits for its next tick as soon as it has handed everything over. -/
def Tidy (y : Beat) : Prop := ∀ n removed, y ≠ .ticking n (.deliver [] removed)

theorem tidy_after (n : Nat) (stage : Memory.Stage) : (after n stage).Tidy := by
  intro m r
  cases stage with
  | deliver rest removed => cases rest <;> simp [after]
  | _ => simp [after]

/-- The loop is not in the middle of a tick. -/
def Between : Beat → Prop
  | .ticking _ _ => False
  | _ => True

/-- One step of the loop. -/
inductive Steps (s : Paced) : Beat → Beat → Paced → Prop
  | begin {n : Nat} (h : isDue s = true) : Steps s (.awaiting (n + 1)) (.looking n) s
  | look {n : Nat} (h : s.referred = true) : Steps s (.looking n) (.ticking n .rearm) s
  | quit {n : Nat} (h : s.referred = false) : Steps s (.looking n) .ended s
  | tick {n : Nat} {stage stage' : Memory.Stage} {r : Solo}
      (h : Solo.memory.Passes s.solo stage stage' r) :
      Steps s (.ticking n stage) (after n stage') { s with solo := r }

theorem tidy_of_steps {y y' : Beat} {s s' : Paced} (h : Steps s y y' s') : y'.Tidy := by
  cases h with
  | tick => exact tidy_after _ _
  | _ => exact fun n r => by simp

/-- **What one step of the loop does.** -/
theorem steps_of_next? {y : Beat} {s s' : Paced} {q : Process Paced (Answer Reply)} (hy : y.Tidy)
    (h : y.process.next? s = some (q, s')) : ∃ y' : Beat, q = y'.process ∧ Steps s y y' s' := by
  cases y with
  | awaiting n =>
    cases n with
    | zero => simp [process, ticks, Process.next?, pure] at h
    | succ n =>
      obtain ⟨hr, rfl, rfl⟩ := Process.next?_wait h
      exact ⟨.looking n, rfl, .begin hr⟩
  | looking n =>
    obtain ⟨rfl, rfl⟩ := Process.next?_act h
    cases ha : s.referred with
    | true =>
      refine ⟨.ticking n .rearm, ?_, .look ha⟩
      change (if s.referred = true then _ else _) = _
      rw [ha]
      rfl
    | false =>
      refine ⟨.ended, ?_, .quit ha⟩
      change (if s.referred = true then _ else _) = _
      rw [ha]
      rfl
  | ticking n stage =>
    rcases Process.next?_bind_cases h with ⟨q', hq, rfl⟩ | ⟨r, hr, -⟩
    · obtain ⟨p', r, rfl, hp, rfl⟩ :=
        Process.next?_of_embed whole (fun _ => rfl) (fun _ => rfl) hq
      obtain ⟨stage', rfl, hpass⟩ := Solo.memory.passes_of_next? hp
      exact ⟨after n stage', (process_after n stage').symm, .tick hpass⟩
    · have hr := Process.embed_eq_done hr
      cases stage with
      | deliver rest removed =>
        cases rest with
        | nil => exact absurd rfl (hy n removed)
        | cons x rest => cases hr
      | _ => cases hr
  | ended => simp [process, Process.next?] at h

/-- The loop waits for its ticks alone. -/
theorem awaiting_of_wait {y : Beat} {v : Wait Paced} {c : Paced → Paced}
    {k : Paced → Process Paced (Answer Reply)} (hy : y.Tidy) (h : y.process = .wait v c k) :
    (∃ n, y = .awaiting n) ∧ c = id := by
  cases y with
  | awaiting n =>
    cases n with
    | zero => cases h
    | succ n =>
      obtain ⟨-, rfl, -⟩ := Process.wait.inj h
      exact ⟨⟨_, rfl⟩, rfl⟩
  | ticking n stage =>
    cases stage with
    | deliver rest removed =>
      cases rest with
      | nil => exact absurd rfl (hy n removed)
      | cons x rest => cases h
    | _ => cases h
  | _ => cases h

end Beat

/-! ## Tasks -/

/-- Once the cache is started, its loop stays as it is. -/
def LoopKept (s s' : Solo) : Prop :=
  s.engine.started = true → s'.engine.started = true ∧ s'.engine.loop = s.engine.loop

/-- **No call changes the loop of a started cache.** -/
theorem keeps_call (c : Call) : (c.run Solo.memory.cache).Keeps LoopKept := by
  have refl (s : Solo) : LoopKept s s := fun hs => ⟨hs, rfl⟩
  cases c with
  | get | getMulti | isExist | put | delete | clearAll => exact .act refl fun _ => .done _
  | step d key =>
    refine Process.keeps_bind (Memory.keeps_attempt refl (fun now e => do
      return { e with table := ← e.table.step now key d }) fun s e h hs => ?_) fun _ => .done _
    change (do return { s.engine with table := ← s.engine.table.step s.instant key d }) =
      Except.ok e at h
    cases ht : s.engine.table.step s.instant key d with
    | ok t =>
      rw [ht] at h
      obtain rfl := Except.ok.inj h
      exact ⟨hs, rfl⟩
    | error x =>
      rw [ht] at h
      cases h
  | start payload =>
    refine Process.keeps_bind (Memory.keeps_attempt refl
      (fun now e => e.startWith true now payload) fun s e h hs => ?_) fun _ => .done _
    unfold Engine.startWith at h
    cases hc : EngineConfig.parse payload with
    | ok config =>
      rw [hc] at h
      exact absurd (hs.symm.trans (Engine.started_of_start h).1) (by simp)
    | error x =>
      rw [hc] at h
      cases h

theorem keeps_reclaim : Solo.memory.reclaim.Keeps LoopKept :=
  Memory.keeps_reclaim (fun _ hs => ⟨hs, rfl⟩) (fun _ _ _ hs => ⟨hs, rfl⟩)
    fun _ _ hs => ⟨hs, rfl⟩

theorem keeps_task {task : Solo.Task} (h : task ≠ .tick) : task.run.Keeps LoopKept := by
  cases task with
  | call c => exact keeps_call c
  | drainLive => exact .act (fun s hs => ⟨hs, rfl⟩) fun _ => .done _
  | pass => exact Process.keeps_bind keeps_reclaim fun _ => .done _
  | tick => exact absurd rfl h

/-- What a task other than a tick leaves as it is, and what becomes of each entry. -/
structure Beside (task : Solo.Task) (s s' : Solo) : Prop where
  instant : s'.instant = s.instant
  watched : s'.engine.watched = s.engine.watched
  loop : LoopKept s s'
  fate : ∀ key, Ledger.Fate s.instant task key (s.engine.table.find? key)
    (s'.engine.table.find? key)

/-- What may remain of a task other than a tick. -/
structure Rest (task : Solo.Task) (q : Process Solo (Answer Reply)) : Prop where
  remains : Solo.Remains task q
  keeps : q.Keeps LoopKept

/-- **A step of a task.** -/
theorem beside_of_next? {task : Solo.Task} {q q' : Process Solo (Answer Reply)} {s s' : Solo}
    (hq : Rest task q) (h : q.next? s = some (q', s')) : Rest task q' ∧ Beside task s s' := by
  have hs := Solo.steps_of_next? hq.remains h
  obtain ⟨hk, hl⟩ := Process.keeps_next? (fun hs => ⟨hs, rfl⟩) hq.keeps h
  refine ⟨⟨Solo.remains_of_steps hs, hk⟩, ?_, Ledger.watched_of_steps hs, hl,
    Ledger.fate_of_steps hs⟩
  cases hs with
  | call | drainLive => rfl
  | pass ht hp => exact Solo.instant_of_passes hp

/-! ## Turns -/

section Turns

variable {ι : Type} [DecidableEq ι] {tasks : ι → Solo.Task}

/-- The threads of a pool are a loop and what remains of the tasks. -/
structure Manned (tasks : ι → Solo.Task) (p : Pool (Option ι) Paced (Answer Reply))
    (beat : Option Beat) : Prop where
  loop : p.threads none = beat.map Beat.process
  tidy : ∀ y, beat = some y → y.Tidy
  tasks : ∀ i q, p.threads (some i) = some q → ∃ q', q = q'.embed whole ∧ Rest (tasks i) q'

/-- What a turn can do. -/
inductive Turned (tasks : ι → Solo.Task) (p : Pool (Option ι) Paced (Answer Reply)) :
    Option Beat → Turn (Option ι) Outer → Option (Pool.Event (Option ι) Paced (Answer Reply)) →
      Paced → Option Beat → Prop
  | still {beat : Option Beat} (t : Turn (Option ι) Outer) : Turned tasks p beat t none p.state beat
  | task {beat : Option Beat} {i : ι} {r : Solo} (a : Option (Answer Reply))
      (h : Beside (tasks i) p.state.solo r) :
      Turned tasks p beat (.go (some i)) (some ⟨some i, p.state, { p.state with solo := r }, a⟩)
        { p.state with solo := r } beat
  | loop {y y' : Beat} {s : Paced} (a : Option (Answer Reply)) (h : y.Steps p.state y' s) :
      Turned tasks p (some y) (.go none) (some ⟨none, p.state, s, a⟩) s (some y')
  | aborted {n : Nat} : Turned tasks p (some (.awaiting n)) (.drop none) none p.state none
  | outside {beat : Option Beat} (e : Outer) :
      Turned tasks p beat (.outside e) none (happen e p.state) beat

omit [DecidableEq ι] in
theorem manned_pool (h : ∀ i, tasks i ≠ .tick) (n : Nat) (s : Paced) :
    Manned tasks (pool tasks n s) (some (.awaiting n)) where
  loop := rfl
  tidy y hy := by
    obtain rfl := Option.some.inj hy
    exact fun m r => by simp
  tasks i q hq := by
    obtain rfl := Option.some.inj hq
    exact ⟨_, rfl, Solo.remains_run _, keeps_task (h i)⟩

/-- **What a turn can do to the cache, its loop and the tasks.** -/
theorem turned_of_moved {p p' : Pool (Option ι) Paced (Answer Reply)} {beat : Option Beat}
    {t : Turn (Option ι) Outer} {x : Option (Pool.Event (Option ι) Paced (Answer Reply))}
    (h : Manned tasks p beat) (hm : Pool.Moved happen p t x p') :
    ∃ beat', Manned tasks p' beat' ∧ Turned tasks p beat t x p'.state beat' := by
  have others (z : Option (Process Paced (Answer Reply))) (i : ι) :
      Function.update p.threads none z (some i) = p.threads (some i) :=
    Function.update_of_ne (Option.some_ne_none i) ..
  cases hm with
  | still => exact ⟨beat, h, .still t⟩
  | outside e => exact ⟨beat, ⟨h.loop, h.tidy, h.tasks⟩, .outside e⟩
  | @step who q q' s hq hn =>
    cases who with
    | none =>
      obtain ⟨y, rfl, hy⟩ := Option.map_eq_some_iff.mp (h.loop.symm.trans hq)
      subst hy
      obtain ⟨y', rfl, hs⟩ := Beat.steps_of_next? (h.tidy y rfl) hn
      refine ⟨some y', ⟨Function.update_self none (some y'.process) p.threads, fun z hz => ?_,
        fun i r hr => ?_⟩, .loop _ hs⟩
      · obtain rfl := Option.some.inj hz
        exact Beat.tidy_of_steps hs
      · exact h.tasks i r ((others (some y'.process) i).symm.trans hr)
    | some i =>
      obtain ⟨q₀, rfl, hq₀⟩ := h.tasks i q hq
      obtain ⟨q₁, r, rfl, hn₀, rfl⟩ := next?_of_embed hn
      obtain ⟨hrest, hb⟩ := beside_of_next? hq₀ hn₀
      refine ⟨beat, ⟨?_, h.tidy, fun j q₂ hj => ?_⟩, .task _ hb⟩
      · change Function.update p.threads (some i) (some (q₁.embed whole)) none = _
        rw [Function.update_of_ne (Option.some_ne_none i).symm]
        exact h.loop
      · rcases Pool.update_eq_some hj with ⟨hi, hq₂⟩ | ⟨-, hj⟩
        · obtain rfl := Option.some.inj hi
          obtain rfl := Option.some.inj hq₂
          exact ⟨q₁, rfl, hrest⟩
        · exact h.tasks j q₂ hj
  | @gone who w c k hq =>
    cases who with
    | none =>
      obtain ⟨y, rfl, hy⟩ := Option.map_eq_some_iff.mp (h.loop.symm.trans hq)
      obtain ⟨⟨n, rfl⟩, rfl⟩ := Beat.awaiting_of_wait (h.tidy y rfl) hy
      refine ⟨none, ⟨Function.update_self none none p.threads, fun z hz => ?_, fun i r hr => ?_⟩,
        .aborted⟩
      · cases hz
      · exact h.tasks i r ((others none i).symm.trans hr)
    | some i =>
      obtain ⟨q₀, hq₀, hrest⟩ := h.tasks i _ hq
      cases q₀ with
      | wait w' c' q' => exact absurd hrest.remains Solo.not_wait
      | done a => cases hq₀
      | act g k => cases hq₀

end Turns

end Paced
end LayeredCache

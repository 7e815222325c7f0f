import LayeredCache.Proofs.Deferred
import LayeredCache.Proofs.Ledger

/-!
# Closing a cache that writes back

The ledger of a memory cache, kept for a cache that writes back while it is closed, any number of
times, in the middle of calls, drains, passes and ticks, with the clock moving on between any two
steps.

The first close reads the clock twice for its choice of entries: at `t₁`, when its pass looks for
the expired ones, and at `t₂`, when it takes out the live ones. What the pass leaves behind was not
expired at `t₁`, and what is left after that was expired at `t₂`. An entry that expires between the
two is neither: it stays in the table, and the receiver is not handed it.

Results:
* `keeps_turned`: the books stay balanced while the cache is closed.
* `leaves_of_steps`: what a step of the first close says of the entries that are still there.
* `run_close`: what the first close hands over, answers and leaves behind, after every run.
* `Closes.nothing_left`: it leaves nothing behind if the clock stands still.
* `close_leaves_expiring`: an entry that it leaves behind.
-/

namespace LayeredCache

/-- The instance is expired, whatever its value has become. -/
def Birth.Lapsed (b : Birth) (now : Nat) : Prop :=
  ∀ v, Entry.isExpiredAt ⟨v, b.instant, b.lifespan⟩ now = true

theorem Birth.lapsed_iff {b : Birth} {now : Nat} (v : Value) :
    b.Lapsed now ↔ Entry.isExpiredAt ⟨v, b.instant, b.lifespan⟩ now = true :=
  ⟨fun h => h v, fun h _ => h⟩

/-- The instance is the entry of its key. -/
def Birth.Held (b : Birth) (t : Table) : Prop :=
  ∃ v, t.find? b.key = some ⟨v, b.instant, b.lifespan⟩

namespace Deferred

variable {ι : Type}

/-! ## The books of a cache that is closed -/

/-- What a task is in the books: a close is something that takes entries out, expired or not. -/
def account : Task → Solo.Task
  | .work task => task
  | .close => .call .clearAll

/-- A step, as one of a memory cache. -/
def event (x : Pool.Event ι Deferred (Answer Reply)) : Pool.Event ι Solo (Answer Reply) :=
  ⟨x.who, x.before.toSolo, x.after.toSolo, x.answer⟩

/-- The ledger after a step. -/
def note (tasks : ι → Task) (l : Ledger ι) (x : Pool.Event ι Deferred (Answer Reply)) : Ledger ι :=
  l.note (fun j => account (tasks j)) (event x)

/-- A task that is not at a call puts nothing. -/
theorem puts_account {task : Task} {stage : Stage} (ho : stage.Of task)
    (hc : ∀ c, stage ≠ .call c) (hr : ∀ r, stage ≠ .ended r) (key : String) :
    Ledger.puts key (account task) = false := by
  cases ho with
  | call c => exact absurd rfl (hc c)
  | ended ht r => exact absurd rfl (hr r)
  | pass ht stage => exact Ledger.puts_of_isPass ht key
  | _ => rfl

theorem takes_close (now : Nat) (key : String) (e : Entry) :
    Ledger.Takes now key e (account .close) := trivial

/-- **What a step may do to the entry of a key.** -/
theorem fate_of_steps {task : Task} {s s' : Deferred} {stage stage' : Stage} (ho : stage.Of task)
    (h : Steps s stage stage' s') (key : String) :
    Ledger.Fate s.instant (account task) key (s.engine.table.find? key)
      (s'.engine.table.find? key) := by
  cases h with
  | call hw hd =>
    cases ho
    exact Ledger.fate_of_does hd key
  | drainLive =>
    cases ho
    have ht (e : Entry) (he : e.isExpiredAt s.instant = false) :
      Ledger.Takes s.instant key e .drainLive := he
    exact Ledger.fate_drainLive rfl ht s.engine.table
  | pass hp =>
    cases ho with
    | pass ht stage =>
      exact Ledger.fate_of_passes (Ledger.puts_of_isPass ht key)
        (fun _ he => Ledger.takes_of_isPass ht he) (solo_of_passes hp).1
  | refuse hc =>
    cases ho
    exact Ledger.fate_same rfl _
  | begin hc =>
    cases ho
    exact Ledger.fate_same rfl _
  | reclaim hp =>
    cases ho
    exact Ledger.fate_of_passes rfl (fun e _ => takes_close s.instant key e) (solo_of_passes hp).1
  | take n =>
    cases ho
    exact Ledger.fate_drainLive rfl (fun e _ => takes_close s.instant key e) s.engine.table
  | flush n hp =>
    cases ho
    exact Ledger.fate_of_passes rfl (fun e _ => takes_close s.instant key e) (solo_of_passes hp).1

/-- What a task took and handed over by the time it has come to a stage. -/
def Settled (taken handed : List (String × Value)) : Stage → Prop
  | .call _ | .drainLive | .ended _ => handed = []
  | .close | .refused => taken = [] ∧ handed = []
  | .pass stage | .reclaim stage => Ledger.Settles true taken handed stage
  | .flush reclaimed stage => ∃ taken₁ taken₂ handed₁ handed₂,
      taken = taken₁ ++ taken₂ ∧ handed = handed₁ ++ handed₂ ∧ handed₁.Perm taken₁ ∧
        reclaimed = taken₁.length ∧ Ledger.Settles true taken₂ handed₂ stage

section Steps

variable {tasks : ι → Task} {i : ι} {s s' : Deferred} {a : Option (Answer Reply)}
  {taken handed : List (String × Value)}

theorem watched_of_passes {stage stage' : Memory.Stage} (h : memory.Passes s stage stage' s') :
    s'.engine.watched = s.engine.watched := by cases h <;> rfl

theorem watched_of_steps {stage stage' : Stage} (h : Steps s stage stage' s') :
    s'.engine.watched = s.engine.watched := by
  cases h with
  | call hw hd => exact hw
  | pass hp | reclaim hp | flush n hp => exact watched_of_passes hp
  | _ => rfl

/-- A step adds what it hands over to the receiver's record. -/
theorem received_of_steps {stage stage' : Stage} (h : Steps s stage stage' s') :
    s'.received = s.received ++ Ledger.news (event ⟨i, s, s', a⟩) := by
  have hp {stage stage' : Memory.Stage} (hp : memory.Passes s stage stage' s') :
      s'.received = s.received ++ Ledger.news (event ⟨i, s, s', a⟩) := by
    cases hp <;> simp [Ledger.news, event, memory, Slot.modify]
  cases h with
  | pass h | reclaim h | flush n h => exact hp h
  | _ => simp [Ledger.news, event]

theorem settles_of_passes {stage stage' : Memory.Stage}
    (ht : ∀ k, Ledger.puts k (account (tasks i)) = false) (hw : s.engine.watched = true)
    (hs : Ledger.Settles true taken handed stage) (h : memory.Passes s stage stage' s') :
    Ledger.Settles true
      (taken ++ (Ledger.leaving (fun j => account (tasks j)) (event ⟨i, s, s', a⟩)).map
        fun y => (y.1, y.2.value))
      (handed ++ Ledger.news (event ⟨i, s, s', a⟩)) stage' := by
  have hw' : s'.engine.watched = true := (watched_of_passes h).trans hw
  rw [← hw] at hs
  rw [← hw']
  exact Ledger.settles_of_passes ht (solo_of_passes h).1 hs

/-- **A task takes what it removes, and a close hands over all of it.** -/
theorem settled_of_steps {stage stage' : Stage} (ho : stage.Of (tasks i))
    (hw : s.engine.watched = true) (hs : Settled taken handed stage)
    (h : Steps s stage stage' s') :
    Settled (taken ++ (Ledger.leaving (fun j => account (tasks j)) (event ⟨i, s, s', a⟩)).map
        fun y => (y.1, y.2.value))
      (handed ++ Ledger.news (event ⟨i, s, s', a⟩)) stage' := by
  have quiet (hr : s'.received = s.received) : Ledger.news (event ⟨i, s, s', a⟩) = [] := by
    simp [Ledger.news, event, hr]
  have same (hp : ∀ k, Ledger.puts k (account (tasks i)) = false)
      (ht : s'.engine.table = s.engine.table) :
      Ledger.leaving (fun j => account (tasks j)) (event ⟨i, s, s', a⟩) = [] :=
    Ledger.leaving_eq_nil hp ht
  cases h with
  | call hw' hd =>
    rw [quiet rfl, List.append_nil]
    exact hs
  | drainLive =>
    rw [quiet rfl, List.append_nil]
    exact hs
  | pass hp => exact settles_of_passes (puts_account ho (by simp) (by simp)) hw hs hp
  | refuse hc =>
    rw [same (puts_account ho (by simp) (by simp)) rfl, quiet rfl, List.map_nil, List.append_nil,
      List.append_nil]
    exact hs
  | begin hc =>
    rw [same (puts_account ho (by simp) (by simp)) rfl, quiet rfl, List.map_nil, List.append_nil,
      List.append_nil]
    exact hs
  | reclaim hp => exact settles_of_passes (puts_account ho (by simp) (by simp)) hw hs hp
  | take n =>
    obtain ⟨hn, hp⟩ := hs
    rw [if_pos rfl, List.append_nil] at hp
    have hput := puts_account ho (by simp) (by simp)
    refine ⟨taken, _, handed, _, rfl, rfl, hp, hn, ?_, quiet rfl⟩
    exact Ledger.leaving_perm_drainLive (event ⟨i, s, _, a⟩) hput rfl
  | flush n hp =>
    obtain ⟨taken₁, taken₂, handed₁, handed₂, rfl, rfl, hp₁, hn, hs⟩ := hs
    have hs' := settles_of_passes (a := a) (puts_account ho (by simp) (by simp)) hw hs hp
    exact ⟨taken₁, _, handed₁, _, List.append_assoc .., List.append_assoc .., hp₁, hn, hs'⟩

end Steps

/-! ## What every turn keeps -/

section Run

variable [DecidableEq ι] {tasks : ι → Task}

/-- What every turn keeps. -/
structure Keeps (tasks : ι → Task) (p : Pool ι Deferred (Answer Reply)) (stages : ι → Stage)
    (l : Ledger ι) : Prop where
  underway : Underway tasks p stages
  accounts : Ledger.Accounts (fun j => account (tasks j)) p.state.engine.table l
  watched : p.state.engine.watched = true
  received : p.state.received = l.handed.map Prod.snd
  settled : ∀ j, Settled (l.takenBy j) (l.handedBy j) (stages j)
  /-- A close has looked at the mark only if it is set. -/
  closed : ∀ j, (stages j).Begun → p.state.closed = true
  /-- One close at most found the mark off. -/
  first : ∀ j k, (stages j).Active → (stages k).Active → j = k

theorem begun_of_active {stage : Stage} (h : stage.Active) : stage.Begun := by
  cases stage with
  | reclaim stage => trivial
  | flush n stage => trivial
  | _ => exact h.elim

theorem keeps_pool (tasks : ι → Task) (engine : Engine) (now : Nat) :
    Keeps tasks (pool tasks engine now) (fun j => (tasks j).first) Ledger.empty where
  underway := underway_pool tasks engine now
  accounts := Ledger.accounts_empty _
  watched := rfl
  received := rfl
  settled j := by
    cases hj : tasks j with
    | close => exact ⟨rfl, rfl⟩
    | work task =>
      cases task with
      | pass => exact ⟨rfl, rfl⟩
      | tick => exact ⟨rfl, rfl⟩
      | _ => rfl
  closed j hj := absurd hj (first_of (tasks j)).2
  first j k hj _ := absurd (begun_of_active hj) (first_of (tasks j)).2

/-- Whoever sets the mark finds it off, so no other close did before. -/
theorem first_update {stages : ι → Stage} {i : ι} {s s' : Deferred} {stage' : Stage}
    (hc : ∀ j, (stages j).Begun → s.closed = true)
    (hf : ∀ j k, (stages j).Active → (stages k).Active → j = k)
    (hs : Steps s (stages i) stage' s') (j k : ι) (hj : (Function.update stages i stage' j).Active)
    (hk : (Function.update stages i stage' k).Active) : j = k := by
  have alone (hi : stage'.Active) (n : ι) (hn : (stages n).Active) : n = i := by
    rcases (active_of_steps hs).2 hi with hi | hoff
    · exact hf n i hn hi
    · have hon := hc n (begun_of_active hn)
      rw [hoff] at hon
      exact absurd hon (by simp)
  by_cases hji : j = i
  · subst hji
    rw [Function.update_self] at hj
    by_cases hkj : k = j
    · exact hkj.symm
    · rw [Function.update_of_ne hkj] at hk
      exact (alone hj k hk).symm
  · rw [Function.update_of_ne hji] at hj
    by_cases hki : k = i
    · subst hki
      rw [Function.update_self] at hk
      exact alone hk j hj
    · rw [Function.update_of_ne hki] at hk
      exact hf j k hj hk

theorem keeps_turned {p p' : Pool ι Deferred (Answer Reply)} {stages stages' : ι → Stage}
    {l : Ledger ι} {x : Option (Pool.Event ι Deferred (Answer Reply))}
    (h : Keeps tasks p stages l) (ht : Turned p stages x p' stages')
    (hu : Underway tasks p' stages') :
    Keeps tasks p' stages' (x.toList.foldl (note tasks) l) := by
  cases ht with
  | idle nanos =>
    exact ⟨hu, h.accounts, h.watched, h.received, h.settled, h.closed, h.first⟩
  | @step i stage' s' hs =>
    change Keeps tasks _ _ (note tasks l ⟨i, p.state, s', stage'.process.answer?⟩)
    have ho := h.underway.stage i
    have hm := closed_of_steps (h.closed i) hs
    constructor
    case underway => exact hu
    case accounts =>
      exact Ledger.accounts_note
        (x := event ⟨i, p.state, s', stage'.process.answer?⟩) h.accounts (fate_of_steps ho hs)
    case watched => exact (watched_of_steps hs).trans h.watched
    case received =>
      have hr := received_of_steps (i := i) (a := stage'.process.answer?) hs
      change s'.received = (Ledger.note _ l _).handed.map Prod.snd
      rw [Ledger.note, List.map_append, List.map_map, ← h.received, hr]
      simp [Function.comp_def]
    case settled =>
      intro j
      rw [note, Ledger.takenBy_note, Ledger.handedBy_note]
      by_cases hij : i = j
      · subst hij
        have heq : (event ⟨i, p.state, s', stage'.process.answer?⟩).who = i := rfl
        rw [Function.update_self, if_pos heq, if_pos heq]
        exact settled_of_steps ho h.watched (h.settled i) hs
      · have hne : ¬ (event ⟨i, p.state, s', stage'.process.answer?⟩).who = j := hij
        rw [Function.update_of_ne (Ne.symm hij), if_neg hne, if_neg hne, List.append_nil,
          List.append_nil]
        exact h.settled j
    case closed =>
      intro j hj
      by_cases hij : j = i
      · subst hij
        rw [Function.update_self] at hj
        exact hm.2 hj
      · rw [Function.update_of_ne hij] at hj
        exact hm.1 (h.closed j hj)
    case first => exact first_update h.closed h.first hs

/-! ## What the first close leaves behind -/

/-- The second ledger has the instances of the first. -/
def Grows (l₀ l : Ledger ι) : Prop :=
  ∀ (n : Nat) (b : Birth), l₀.births[n]? = some b → l.births[n]? = some b

/-- The instance was put by the first ledger and has not left by the second. -/
def Stays (l₀ l : Ledger ι) (b : Birth) : Prop :=
  ∃ n : Nat, l₀.births[n]? = some b ∧ ∀ d ∈ l.departures, d.number ≠ some n

/-- What a close that has read the clock at these instants says of the instances that stay. -/
def Leaves (S : Birth → Prop) (readings : List Nat) (now : Nat) : Stage → Prop
  | .reclaim .rearm | .reclaim .scan => True
  | .reclaim (.evict keys) => ∃ t₁ ∈ readings, t₁ ≤ now ∧ ∀ b, S b → b.Lapsed t₁ → b.key ∈ keys
  | .reclaim _ => ∃ t₁ ∈ readings, t₁ ≤ now ∧ ∀ b, S b → ¬ b.Lapsed t₁
  | .flush _ _ => ∃ t₁ ∈ readings, ∃ t₂ ∈ readings, t₁ ≤ t₂ ∧
      ∀ b, S b → ¬ b.Lapsed t₁ ∧ b.Lapsed t₂
  | _ => True

theorem leaves_mono {S S' : Birth → Prop} {readings readings' : List Nat} {now now' : Nat}
    (hS : ∀ b, S' b → S b) (hr : ∀ t ∈ readings, t ∈ readings') (hn : now ≤ now') {stage : Stage}
    (h : Leaves S readings now stage) : Leaves S' readings' now' stage := by
  cases stage with
  | reclaim stage =>
    cases stage with
    | rearm => trivial
    | scan => trivial
    | evict keys | hand out | deliver rest removed =>
      obtain ⟨t₁, ht, hle, h⟩ := h
      exact ⟨t₁, hr t₁ ht, Nat.le_trans hle hn, fun b hb => h b (hS b hb)⟩
  | flush n stage =>
    obtain ⟨t₁, ht₁, t₂, ht₂, hle, h⟩ := h
    exact ⟨t₁, hr t₁ ht₁, t₂, hr t₂ ht₂, hle, fun b hb => h b (hS b hb)⟩
  | _ => trivial

/-- **What a step of a close says of the instances that stay.** The pass finds those that are
expired and removes them, since they are expired ever after; the drain takes out those that are
not. -/
theorem leaves_of_steps {S S' : Birth → Prop} {readings : List Nat} {s s' : Deferred}
    {stage stage' : Stage} (hS : ∀ b, S' b → S b) (hb : ∀ b, S b → b.Held s.engine.table)
    (ha : ∀ b, S' b → b.Held s'.engine.table) (hc : stage.Active) (h : Steps s stage stage' s')
    (hl : Leaves S readings s.instant stage) :
    Leaves S' (readings ++ [s.instant]) s'.instant stage' := by
  have hr (t : Nat) (ht : t ∈ readings) : t ∈ readings ++ [s.instant] := List.mem_append_left _ ht
  have hnow : s.instant ∈ readings ++ [s.instant] := List.mem_append_right _ List.mem_cons_self
  have hi : s.instant ≤ s'.instant := Nat.le_of_eq (instant_of_steps h).symm
  cases h with
  | flush n hp => exact leaves_mono hS hr hi hl
  | take n =>
    obtain ⟨t₁, ht, hle, hl⟩ := hl
    refine ⟨t₁, hr t₁ ht, s.instant, hnow, hle, fun b hb' => ⟨hl b (hS b hb'), ?_⟩⟩
    obtain ⟨v, hv⟩ := ha b hb'
    have hd := (Table.find?_drainLive s.instant s.engine.table b.key).symm.trans hv
    exact (Birth.lapsed_iff v).mpr (Option.filter_eq_some_iff.mp hd).2
  | reclaim hp =>
    cases hp with
    | rearm => trivial
    | scan hk hne =>
      refine ⟨s.instant, hnow, Nat.le_refl _, fun b hb' hlap => ?_⟩
      obtain ⟨v, hv⟩ := hb b (hS b hb')
      rw [← hk]
      exact Table.mem_expiredKeys_iff.mpr ⟨_, hv, hlap v⟩
    | clean hk =>
      refine ⟨s.instant, hnow, Nat.le_refl _, fun b hb' hlap => ?_⟩
      obtain ⟨v, hv⟩ := hb b (hS b hb')
      have hm := Table.mem_expiredKeys_iff.mpr ⟨_, hv, hlap v⟩
      have hm : b.key ∈ ([] : List String) := hk ▸ hm
      exact absurd hm List.not_mem_nil
    | evict keys =>
      obtain ⟨t₁, ht, hle, hl⟩ := hl
      refine ⟨t₁, hr t₁ ht, hle, fun b hb' hlap => ?_⟩
      obtain ⟨v, hv⟩ := ha b hb'
      have hs := (Table.find?_sweep s.instant keys s.engine.table b.key).symm.trans hv
      rw [if_pos (hl b (hS b hb') hlap)] at hs
      have hx := (Option.filter_eq_some_iff.mp hs).2
      rw [Entry.isExpiredAt_mono hle (hlap v)] at hx
      exact absurd hx (by simp)
    | hand hw => exact leaves_mono hS hr hi hl
    | unwatched hw => exact leaves_mono hS hr hi hl
    | deliver x rest removed => exact leaves_mono hS hr hi hl
  | _ => exact hc.elim

/-! ## Runs -/

/-- The instants at which a task took its steps. -/
def readings (i : ι) (history : List (Pool.Event ι Deferred (Answer Reply))) : List Nat :=
  (history.filter fun x => x.who = i).map fun x => x.before.instant

theorem readings_append (i : ι) (h h' : List (Pool.Event ι Deferred (Answer Reply))) :
    readings i (h ++ h') = readings i h ++ readings i h' := by
  unfold readings
  rw [List.filter_append, List.map_append]

/-- What every turn keeps once a close has set the mark, and the ledger then was `l₀`. -/
structure Since (i : ι) (l₀ : Ledger ι) (stages : ι → Stage) (l : Ledger ι) (now : Nat)
    (readings : List Nat) : Prop where
  grows : Grows l₀ l
  active : (stages i).Active
  leaves : Leaves (Stays l₀ l) readings now (stages i)

/-- An instance that stays is still in the table. -/
theorem held_of_stays {p : Pool ι Deferred (Answer Reply)} {stages : ι → Stage} {l₀ l : Ledger ι}
    (h : Keeps tasks p stages l) (hg : Grows l₀ l) {b : Birth} (hb : Stays l₀ l b) :
    b.Held p.state.engine.table := by
  obtain ⟨n, hn, hd⟩ := hb
  have ht := (Ledger.there_iff h.accounts (hg n b hn)).mp hd
  exact ht.2

theorem since_turned {i : ι} {p p' : Pool ι Deferred (Answer Reply)} {stages stages' : ι → Stage}
    {l₀ l : Ledger ι} {x : Option (Pool.Event ι Deferred (Answer Reply))}
    {h₀ : List (Pool.Event ι Deferred (Answer Reply))} (hk : Keeps tasks p stages l)
    (h : Since i l₀ stages l p.state.instant (readings i h₀)) (ht : Turned p stages x p' stages')
    (hu : Underway tasks p' stages') :
    Since i l₀ stages' (x.toList.foldl (note tasks) l) p'.state.instant
      (readings i (h₀ ++ x.toList)) := by
  have hk' := keeps_turned hk ht hu
  cases ht with
  | idle nanos =>
    have hle : p.state.instant ≤ p.state.instant + nanos := by omega
    have hr (t : Nat) (ht : t ∈ readings i h₀) : t ∈ readings i (h₀ ++ []) := by simpa using ht
    exact ⟨h.grows, h.active, leaves_mono (fun _ hb => hb) hr hle h.leaves⟩
  | @step j stage' s' hs =>
    have hg : Grows l₀ (note tasks l ⟨j, p.state, s', stage'.process.answer?⟩) :=
      fun n b hn => Ledger.births_note (h.grows n b hn)
    -- Who stays after the step has stayed before it.
    have hS (b : Birth) (hb : Stays l₀ (note tasks l ⟨j, p.state, s', stage'.process.answer?⟩) b) :
        Stays l₀ l b := by
      obtain ⟨n, hn, hd⟩ := hb
      exact ⟨n, hn, fun d hm => hd d (Ledger.mem_departures_note.mpr (.inl hm))⟩
    refine ⟨hg, ?_, ?_⟩
    · by_cases hij : i = j
      · subst hij
        rw [Function.update_self]
        exact (active_of_steps hs).1 h.active
      · rw [Function.update_of_ne hij]
        exact h.active
    · rw [readings_append]
      change Leaves _ (readings i h₀ ++ readings i [_]) s'.instant _
      by_cases hij : i = j
      · subst hij
        rw [Function.update_self]
        have hb (b : Birth) (hb : Stays l₀ l b) := held_of_stays hk h.grows hb
        have ha (b : Birth) (hb : Stays l₀ _ b) := held_of_stays hk' hg hb
        have hr : readings i [⟨i, p.state, s', stage'.process.answer?⟩] = [p.state.instant] := by
          simp [readings]
        rw [hr]
        exact leaves_of_steps hS hb ha h.active hs h.leaves
      · rw [Function.update_of_ne hij]
        have hi : p.state.instant ≤ s'.instant := Nat.le_of_eq (instant_of_steps hs).symm
        exact leaves_mono hS (fun t ht => List.mem_append_left _ ht) hi h.leaves

/-- The books of a run. -/
def books (tasks : ι → Task) (engine : Engine) (now : Nat) (turns : List (Turn ι Nat)) :
    Ledger ι :=
  (Pool.history elapse turns (pool tasks engine now)).foldl (note tasks) Ledger.empty

theorem keeps_run (tasks : ι → Task) (engine : Engine) (now : Nat) (turns : List (Turn ι Nat)) :
    ∃ stages, Keeps tasks ((pool tasks engine now).run elapse turns) stages
      (books tasks engine now turns) := by
  refine Pool.fold_induction (I := fun p l => ∃ stages, Keeps tasks p stages l) ?_ turns ?_
  · rintro p t x p' l ⟨stages, hk⟩ hm
    obtain ⟨stages', ht, hu⟩ := turned_of_moved hk.underway hm
    exact ⟨stages', keeps_turned hk ht hu⟩
  · exact ⟨_, keeps_pool tasks engine now⟩

/-- While the mark is off, no close has begun. -/
theorem stage_of_unmarked {i : ι} {p : Pool ι Deferred (Answer Reply)} {stages : ι → Stage}
    {l : Ledger ι} (hk : Keeps tasks p stages l) (hi : tasks i = .close)
    (hc : p.state.closed = false) : stages i = .close := by
  have ho := hk.underway.stage i
  have hb (h : (stages i).Begun) : False := by
    have hc' := hk.closed i h
    rw [hc] at hc'
    exact absurd hc' (by simp)
  rw [hi] at ho
  generalize stages i = stage at ho hb ⊢
  cases ho with
  | close => rfl
  | refused => exact (hb trivial).elim
  | reclaim stage => exact (hb trivial).elim
  | flush n stage => exact (hb trivial).elim

/-- The first turn of a close that finds the mark off. -/
theorem turn_begin {i : ι} {p : Pool ι Deferred (Answer Reply)}
    (hq : p.threads i = some Stage.close.process) (hc : p.state.closed = false) :
    ∃ s', Steps p.state .close (.reclaim .scan) s' ∧
      p.turn elapse (.go i) =
        ⟨s', Function.update p.threads i (some (Stage.reclaim .scan).process)⟩ ∧
      p.event? (.go i : Turn ι Nat) =
        some ⟨i, p.state, s', (Stage.reclaim .scan).process.answer?⟩ := by
  obtain ⟨q, s', hn⟩ : ∃ q s', Stage.close.process.next? p.state = some (q, s') := ⟨_, _, rfl⟩
  obtain ⟨stage', rfl, hs⟩ := steps_of_next? hn
  cases hs with
  | refuse hc' => exact absurd (hc.symm.trans hc') (by simp)
  | begin hc' =>
    refine ⟨_, .begin hc', ?_, ?_⟩
    · simp [Pool.turn, hq, hn]
    · simp [Pool.event?, hq, hn]

/-- A close that finds the mark off sets it with its first step. -/
theorem since_begun {i : ι} {p : Pool ι Deferred (Answer Reply)} {stages : ι → Stage}
    {l : Ledger ι} (hk : Keeps tasks p stages l) (hi : tasks i = .close)
    (hc : p.state.closed = false) (past : List (Pool.Event ι Deferred (Answer Reply))) :
    ∃ stages',
      Keeps tasks (p.turn elapse (.go i)) stages'
        ((p.event? (.go i : Turn ι Nat)).toList.foldl (note tasks) l) ∧
      Since i l stages' ((p.event? (.go i : Turn ι Nat)).toList.foldl (note tasks) l)
        (p.turn elapse (.go i)).state.instant (readings i past) := by
  have hst := stage_of_unmarked hk hi hc
  have hq : p.threads i = some Stage.close.process := hst ▸ hk.underway.threads i
  obtain ⟨s', hs, hturn, hevent⟩ := turn_begin hq hc
  have hs' : Steps p.state (stages i) (.reclaim .scan) s' := hst ▸ hs
  have hk' := keeps_turned hk (.step hs') (underway_step hk.underway hs')
  rw [hturn, hevent]
  refine ⟨Function.update stages i (.reclaim .scan), hk', ?_, ?_, ?_⟩
  · change Grows l (note tasks l _)
    exact fun n b hn => Ledger.births_note hn
  · rw [Function.update_self]
    trivial
  · rw [Function.update_self]
    trivial

theorem since_run {i : ι} {l₀ l : Ledger ι} {p : Pool ι Deferred (Answer Reply)}
    {past : List (Pool.Event ι Deferred (Answer Reply))} (turns : List (Turn ι Nat))
    (h : ∃ stages, Keeps tasks p stages l ∧
      Since i l₀ stages l p.state.instant (readings i past)) :
    ∃ stages,
      Keeps tasks (p.run elapse turns) stages
        ((Pool.history elapse turns p).foldl (note tasks) l) ∧
      Since i l₀ stages ((Pool.history elapse turns p).foldl (note tasks) l)
        (p.run elapse turns).state.instant (readings i (past ++ Pool.history elapse turns p)) := by
  refine Pool.history_induction (I := fun p l past => ∃ stages, Keeps tasks p stages l ∧
    Since i l₀ stages l p.state.instant (readings i past)) ?_ turns h
  rintro p t x p' l past ⟨stages, hk, hs⟩ hm
  obtain ⟨stages', ht, hu⟩ := turned_of_moved hk.underway hm
  exact ⟨stages', keeps_turned hk ht hu, since_turned hk hs ht hu⟩

section Tasks

variable {i j : ι} {p : Pool ι Deferred (Answer Reply)} {stages : ι → Stage} {l : Ledger ι}

theorem nothing_of_other (hk : Keeps tasks p stages l) (hi : (stages i).Active)
    (hj : tasks j = .close) (hij : j ≠ i) : l.takenBy j = [] ∧ l.handedBy j = [] ∧
      ∀ r, p.threads j = some (.done r) → r = .ok (.count 0) := by
  have ho := hk.underway.stage j
  have hs := hk.settled j
  have hna (ha : (stages j).Active) : False := hij (hk.first j i ha hi)
  rw [hj] at ho
  rw [hk.underway.threads j]
  generalize stages j = stage at ho hs hna
  cases ho with
  | close => exact ⟨hs.1, hs.2, fun r hr => by cases hr⟩
  | refused => exact ⟨hs.1, hs.2, fun r hr => (Process.done.inj (Option.some.inj hr)).symm⟩
  | reclaim stage => exact (hna trivial).elim
  | flush n stage => exact (hna trivial).elim

theorem handed_of_pass {task : Solo.Task} (hk : Keeps tasks p stages l)
    (hj : tasks j = .work task) (hpass : task.isPass = true) :
    ∃ rest, (l.handedBy j ++ rest).Perm (l.takenBy j) := by
  have ho := hk.underway.stage j
  have hs := hk.settled j
  rw [hj] at ho
  generalize stages j = stage at ho hs
  cases ho with
  | call c => exact absurd hpass (by simp [Solo.Task.isPass])
  | drainLive => exact absurd hpass (by simp [Solo.Task.isPass])
  | pass ht stage => exact Ledger.handed_of_settles hs
  | ended ht r => exact absurd (hpass.symm.trans ht) (by simp)

theorem quiet_of_work {task : Solo.Task} (hk : Keeps tasks p stages l)
    (hj : tasks j = .work task) (hpass : task.isPass = false) : l.handedBy j = [] := by
  have ho := hk.underway.stage j
  have hs := hk.settled j
  rw [hj] at ho
  generalize stages j = stage at ho hs
  cases ho with
  | call c => exact hs
  | drainLive => exact hs
  | pass ht stage => exact absurd (hpass.symm.trans ht) (by simp)
  | ended ht r => exact hs

end Tasks

/-- **What the first close of a cache does**, if the ledger was `l₀` when it set the mark and is `l`
at a time when it has ended. -/
structure Closes (tasks : ι → Task) (i : ι) (r : Answer Reply) (p : Pool ι Deferred (Answer Reply))
    (l₀ l : Ledger ι) (readings : List Nat) : Prop where
  /-- It handed over what it took out, each entry once and with the value that it had then. -/
  handed : (l.handedBy i).Perm (l.takenBy i)
  /-- It answers how many entries it handed over. -/
  answered : r = .ok (.count (l.handedBy i).length)
  /-- It read the clock at `t₁` and then at `t₂`, and of the entries put before it set the mark
  those alone are still in the table that expired in between. -/
  left : ∃ t₁ ∈ readings, ∃ t₂ ∈ readings, t₁ ≤ t₂ ∧ ∀ (n : Nat) (b : Birth),
    l₀.births[n]? = some b → (∃ d ∈ l.departures, d.number = some n) ∨
      b.Held p.state.engine.table ∧ ¬ b.Lapsed t₁ ∧ b.Lapsed t₂
  /-- What left was an instance, with the key, the instant and the lifespan of its put. -/
  born : ∀ d ∈ l.departures, ∃ n, d.number = some n ∧
    l.births[n]? = some ⟨d.key, d.entry.created, d.entry.lifespan⟩
  /-- No instance leaves twice. -/
  once : (l.departures.map Departure.number).Nodup
  /-- What somebody else took out was overwritten, deleted, cleared, drained while live or evicted
  once expired. -/
  way : ∀ d ∈ l.departures, Ledger.Takes d.instant d.key d.entry (account (tasks d.who))
  /-- An instance has left, or it is the entry of its key. -/
  there : ∀ (n : Nat) (b : Birth), l.births[n]? = some b →
    ((∀ d ∈ l.departures, d.number ≠ some n) ↔
      l.last b.key = some n ∧ b.Held p.state.engine.table)
  /-- The receiver's record is what the tasks handed over. -/
  received : p.state.received = l.handed.map Prod.snd
  /-- Every other close takes nothing, hands over nothing and answers zero. -/
  others : ∀ j, tasks j = .close → j ≠ i → l.takenBy j = [] ∧ l.handedBy j = [] ∧
    ∀ r', p.threads j = some (.done r') → r' = .ok (.count 0)
  /-- A pass hands over nothing but what it took out itself, and each of it once. -/
  passes : ∀ j task, tasks j = .work task → task.isPass = true →
    ∃ rest, (l.handedBy j ++ rest).Perm (l.takenBy j)
  /-- Nobody else hands anything over. -/
  quiet : ∀ j task, tasks j = .work task → task.isPass = false → l.handedBy j = []

/-- A close during which the clock stands still leaves nothing behind. -/
theorem Closes.nothing_left {i : ι} {r : Answer Reply} {p : Pool ι Deferred (Answer Reply)}
    {l₀ l : Ledger ι} {rs : List Nat} (h : Closes tasks i r p l₀ l rs)
    (hr : ∀ t ∈ rs, ∀ u ∈ rs, t = u) {n : Nat} {b : Birth} (hb : l₀.births[n]? = some b) :
    ∃ d ∈ l.departures, d.number = some n := by
  obtain ⟨t₁, ht₁, t₂, ht₂, -, hleft⟩ := h.left
  rcases hleft n b hb with hd | ⟨-, hn, hy⟩
  · exact hd
  · rw [hr t₁ ht₁ t₂ ht₂] at hn
    exact absurd hy hn

/-- The only stage at which a close that set the mark has ended. -/
theorem flush_of_done {stage : Stage} {r : Answer Reply} (ha : stage.Active)
    (h : stage.process = .done r) :
    ∃ n m, stage = .flush n (.deliver [] m) ∧ r = .ok (.count (n + m)) := by
  cases stage with
  | reclaim stage =>
    cases stage with
    | deliver rest removed => cases rest <;> cases h
    | _ => cases h
  | flush n stage =>
    cases stage with
    | deliver rest m =>
      cases rest with
      | nil =>
        obtain rfl := Process.done.inj h
        exact ⟨n, m, rfl, rfl⟩
      | cons y rest => cases h
    | _ => cases h
  | _ => exact ha.elim

theorem closes_of_since {i : ι} {r : Answer Reply} {p : Pool ι Deferred (Answer Reply)}
    {stages : ι → Stage} {l₀ l : Ledger ι} {rs : List Nat} (hk : Keeps tasks p stages l)
    (h : Since i l₀ stages l p.state.instant rs) (hr : p.threads i = some (.done r)) :
    Closes tasks i r p l₀ l rs := by
  have hd : (stages i).process = .done r :=
    Option.some.inj ((hk.underway.threads i).symm.trans hr)
  obtain ⟨n, m, hst, rfl⟩ := flush_of_done h.active hd
  have hset := hk.settled i
  have hleaves := h.leaves
  rw [hst] at hset hleaves
  obtain ⟨taken₁, taken₂, handed₁, handed₂, htaken, hhanded, hp₁, hn, hm, hp₂⟩ := hset
  rw [if_pos rfl, List.append_nil] at hp₂
  have hperm : (l.handedBy i).Perm (l.takenBy i) := by
    rw [htaken, hhanded]
    exact hp₁.append hp₂
  have hlen : n + m = (l.handedBy i).length := by
    rw [hhanded, List.length_append, hp₁.length_eq, hp₂.length_eq, hn, hm]
  constructor
  case handed => exact hperm
  case answered => rw [hlen]
  case left =>
    obtain ⟨t₁, ht₁, t₂, ht₂, hle, hl⟩ := hleaves
    refine ⟨t₁, ht₁, t₂, ht₂, hle, fun n b hb => ?_⟩
    by_cases hgone : ∃ d ∈ l.departures, d.number = some n
    · exact .inl hgone
    · have hstays : Stays l₀ l b := ⟨n, hb, fun d hd hn => hgone ⟨d, hd, hn⟩⟩
      exact .inr ⟨held_of_stays hk h.grows hstays, hl b hstays⟩
  case born => exact hk.accounts.born
  case once => exact hk.accounts.once
  case way => exact hk.accounts.way
  case there => exact fun n b hb => Ledger.there_iff hk.accounts hb
  case received => exact hk.received
  case others => exact fun j => nothing_of_other hk h.active
  case passes => exact fun j task => handed_of_pass hk
  case quiet => exact fun j task => quiet_of_work hk

/-- **The first close of a cache.** Any tasks, other closes among them, in any number and order of
steps, with the clock moving on between them; close `i` takes its first step after the turns
`before` and finds the mark off. -/
theorem run_close (tasks : ι → Task) (engine : Engine) (now : Nat)
    (before after : List (Turn ι Nat)) {i : ι} {r : Answer Reply}
    {p : Pool ι Deferred (Answer Reply)} (hi : tasks i = .close)
    (hc : ((pool tasks engine now).run elapse before).state.closed = false)
    (hp : (pool tasks engine now).run elapse (before ++ .go i :: after) = p)
    (hr : p.threads i = some (.done r)) :
    Closes tasks i r p (books tasks engine now before)
      (books tasks engine now (before ++ .go i :: after))
      (readings i (Pool.history elapse (before ++ .go i :: after) (pool tasks engine now))) := by
  obtain ⟨stages, hk⟩ := keeps_run tasks engine now before
  subst hp
  have hpast := Pool.history_append elapse before (.go i :: after) (pool tasks engine now)
  have hbooks := congrArg (List.foldl (note tasks) Ledger.empty) hpast
  rw [List.foldl_append, Pool.history, List.foldl_append] at hbooks
  rw [Pool.history, ← List.append_assoc] at hpast
  rw [Pool.run_append] at hr ⊢
  unfold books
  rw [hbooks, hpast]
  generalize (pool tasks engine now).run elapse before = p₀ at hk hc hr ⊢
  have hb := since_begun hk hi hc (Pool.history elapse before (pool tasks engine now) ++
    (p₀.event? (.go i : Turn ι Nat)).toList)
  obtain ⟨stages', hk', hs'⟩ := since_run after hb
  exact closes_of_since hk' hs' hr

end Run

/-- Some calls, and closes without end. -/
def closing (calls : List Call) (j : Nat) : Task :=
  match calls[j]? with
  | some c => .work (.call c)
  | none => .close

/-- The close hands over the entry that was expired and the one that lives on. The third one expires
between its two looks at the clock. -/
theorem run_close_threePuts :
    let tasks := closing [.put "a" (.bool true) (.ofMillis 5), .put "b" (.bool false) .zero,
      .put "c" (.bool true) (.ofMillis 10)]
    let before : List (Turn Nat Nat) := [.go 0, .go 1, .go 2, .outside 10_000_000]
    let after : List (Turn Nat Nat) := [.go 3, .go 4, .go 3, .go 3, .go 3, .outside 1, .go 3, .go 3,
      .go 3]
    let p := (pool tasks .empty 0).run elapse (before ++ .go 3 :: after)
    p.state.received = [("a", .bool true), ("b", .bool false)] ∧
      Closes tasks 3 (.ok (.count 2)) p (books tasks .empty 0 before)
        (books tasks .empty 0 (before ++ .go 3 :: after))
        (readings 3 (Pool.history elapse (before ++ .go 3 :: after) (pool tasks .empty 0))) := by
  intro tasks before after p
  have hc : ((pool tasks .empty 0).run elapse before).state.closed = false := rfl
  have hr : p.threads 3 = some (.done (.ok (.count 2))) := by
    unfold p after before tasks
    rfl
  have hp : p.state.received = [("a", .bool true), ("b", .bool false)] := by
    unfold p after before tasks
    rfl
  exact ⟨hp, run_close tasks .empty 0 before after rfl hc rfl hr⟩

/-- **An entry that a close leaves behind.** It is there when the close sets the mark, not expired
when the pass looks for the expired ones, and expired a nanosecond later, when the live ones are
taken out. The close has ended and answered zero, nobody has taken the entry out, and the receiver
was handed nothing. -/
theorem close_leaves_expiring :
    let tasks := closing [.put "k" (.bool true) (.ofMillis 10)]
    let before : List (Turn Nat Nat) := [.go 0, .outside 10_000_000]
    let after : List (Turn Nat Nat) := [.go 1, .outside 1, .go 1, .go 1]
    let p₀ := (pool tasks .empty 0).run elapse before
    let p := (pool tasks .empty 0).run elapse (before ++ .go 1 :: after)
    let e : Entry := ⟨.bool true, 0, .ofMillis 10⟩
    p₀.state.closed = false ∧ p₀.state.engine.table.find? "k" = some e ∧
      p.threads 1 = some (.done (.ok (.count 0))) ∧ p.state.engine.table.find? "k" = some e ∧
      (books tasks .empty 0 (before ++ .go 1 :: after)).departures = [] ∧
      p.state.received = [] :=
  ⟨rfl, rfl, rfl, rfl, rfl, rfl⟩

end Deferred
end LayeredCache

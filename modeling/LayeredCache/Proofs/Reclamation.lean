import LayeredCache.Proofs.Punctual

/-!
# What a reclamation loop does in time

A memory cache with any tasks on it and its loop, whose ticks run when they are due: time does not
pass while a tick is under way, nor beyond the instant of the next one. Every entry that expires and
is left alone goes at the first tick after its expiry; the receiver is handed it at that tick and
not before; and a tick that comes after the last reference was dropped does nothing.

The loop is given up where it waits. A tick that is under way when the last reference is dropped
goes on to its end, and time may pass meanwhile: it takes out what is expired at its own instants,
and hands that over.

Results:
* `booked_loop`: what the loop takes out, it hands over at the same instant.
* `inv_moved`: what every turn keeps where ticks run when they are due.
* `traced_run`: an entry that others leave alone is there until the loop takes it.
* `balanced_moved`: what every turn keeps otherwise.
* `run_reclaimed`: all this after every schedule.
* `dropped_in_tick`: a drop in the middle of a tick.
-/

namespace LayeredCache.Paced

variable {ι : Type}

/-- A step of a pool of tasks and a loop. -/
abbrev Event (ι : Type) := Pool.Event (Option ι) Paced (Answer Reply)

/-! ## What is taken out and handed over -/

/-- A step of the loop as one of the cache alone. -/
def Tick (x : Event ι) : Pool.Event Unit Solo (Answer Reply) :=
  ⟨(), x.before.solo, x.after.solo, x.answer⟩

/-- What the loop takes out with a step, and when. -/
def takenBy (x : Event ι) : List (Nat × (String × Value)) :=
  match x.who with
  | none => (Ledger.leaving (fun _ => .tick) (Tick x)).map fun y =>
      (x.before.solo.instant, y.1, y.2.value)
  | some _ => []

/-- What the loop hands to the receiver with a step, and when. -/
def handedBy (x : Event ι) : List (Nat × (String × Value)) :=
  match x.who with
  | none => (Ledger.news (Tick x)).map fun y => (x.before.solo.instant, y)
  | some _ => []

/-- All that the loop has taken out. -/
def taken (past : List (Event ι)) : List (Nat × (String × Value)) := past.flatMap takenBy

/-- All that the loop has handed over. -/
def handed (past : List (Event ι)) : List (Nat × (String × Value)) := past.flatMap handedBy

/-- How far the tick under way has come; between ticks none has begun. -/
def Beat.stage : Beat → Memory.Stage
  | .ticking _ stage => stage
  | _ => .rearm

/-- What earlier ticks took out they have handed over, and the tick under way has got so far. What
it takes out and hands over is booked by `stamp`. -/
def Books {α : Type} (watched : Bool) (stamp : String × Value → α) (took gave : List α)
    (stage : Memory.Stage) : Prop :=
  ∃ took₀ gave₀ cur out, Ledger.Settles watched cur out stage ∧
    took = took₀ ++ cur.map stamp ∧ gave = gave₀ ++ out.map stamp ∧
    if watched then gave₀.Perm took₀ else gave₀ = []

section Books

variable {α : Type} {watched : Bool} {stamp : String × Value → α} {took gave : List α}

/-- Between ticks the books are closed. -/
theorem books_rearm_iff : Books watched stamp took gave .rearm ↔
    if watched then gave.Perm took else gave = [] := by
  constructor
  · rintro ⟨took₀, gave₀, cur, out, ⟨rfl, rfl⟩, rfl, rfl, h⟩
    simpa using h
  · exact fun h => ⟨took, gave, [], [], ⟨rfl, rfl⟩, by simp, by simp, h⟩

/-- A tick that has handed everything over closes the books. -/
theorem books_after {n : Nat} {stage : Memory.Stage} (h : Books watched stamp took gave stage) :
    Books watched stamp took gave (Beat.after n stage).stage := by
  cases stage with
  | deliver rest removed =>
    cases rest with
    | nil =>
      obtain ⟨took₀, gave₀, cur, out, ⟨-, hs⟩, rfl, rfl, h⟩ := h
      refine books_rearm_iff.mpr ?_
      cases watched with
      | true =>
        rw [if_pos rfl, List.append_nil] at hs
        exact List.Perm.append h (hs.map _)
      | false =>
        obtain ⟨rfl, -⟩ := hs
        rw [if_neg (by simp)] at h ⊢
        simp [h]
    | cons x rest => exact h
  | _ => exact h

/-- What is still to be handed over is of the tick under way. -/
theorem pending_of_books {stage : Memory.Stage} (h : Books true stamp took gave stage) :
    ∃ rest : List (String × Value), (gave ++ rest.map stamp).Perm took := by
  obtain ⟨took₀, gave₀, cur, out, hs, rfl, rfl, h⟩ := h
  obtain ⟨rest, hr⟩ := Ledger.handed_of_settles hs
  refine ⟨rest, ?_⟩
  rw [List.append_assoc, ← List.map_append]
  exact List.Perm.append h (hr.map _)

/-- Without a receiver nothing is handed over. -/
theorem unwatched_of_books {stage : Memory.Stage} (h : Books false stamp took gave stage) :
    gave = [] := by
  obtain ⟨took₀, gave₀, cur, out, hset, -, rfl, hnil⟩ := h
  rw [if_neg (by simp)] at hnil
  have hout : out = [] := by
    cases stage with
    | deliver rest removed => exact hset.2.1
    | _ => exact hset.2
  rw [hnil, hout]
  rfl

/-- A step of a tick. -/
theorem books_passes {s r : Solo} {stage stage' : Memory.Stage} (a : Option (Answer Reply))
    (hp : Solo.memory.Passes s stage stage' r) (h : Books s.engine.watched stamp took gave stage) :
    let step : Pool.Event Unit Solo (Answer Reply) := ⟨(), s, r, a⟩
    Books r.engine.watched stamp
      (took ++ (Ledger.leaving (fun _ => .tick) step).map fun y => stamp (y.1, y.2.value))
      (gave ++ (Ledger.news step).map stamp) stage' := by
  intro step
  obtain ⟨took₀, gave₀, cur, out, hset, rfl, rfl, h₀⟩ := h
  have hwatched : r.engine.watched = s.engine.watched := by cases hp <;> rfl
  have hsettled : Ledger.Settles r.engine.watched
      (cur ++ (Ledger.leaving (fun _ => .tick) step).map fun y => (y.1, y.2.value))
      (out ++ Ledger.news step) stage' := Ledger.settles_of_passes (fun _ => rfl) hp hset
  refine ⟨took₀, gave₀, _, _, hsettled, ?_, ?_, hwatched ▸ h₀⟩
  · rw [List.map_append, List.append_assoc, List.map_map]
    rfl
  · rw [List.map_append, List.append_assoc]

end Books

/-- The books of the loop, in which the instants are kept as `f` says. -/
def Booked {α : Type} (f : Nat × (String × Value) → α) (past : List (Event ι)) (s : Paced)
    (stage : Memory.Stage) : Prop :=
  Books s.solo.engine.watched (fun y => f (s.solo.instant, y)) ((taken past).map f)
    ((handed past).map f) stage

/-- What is still to be handed over: nothing once the tick is over. -/
theorem pending_of_booked {α : Type} {f : Nat × (String × Value) → α} {past : List (Event ι)}
    {s : Paced} {stage : Memory.Stage} {T : Prop} (h : Booked f past s stage)
    (hT : T → stage = .rearm) : if s.solo.engine.watched then
      ∃ rest : List (String × Value),
        ((handed past).map f ++ rest.map fun y => f (s.solo.instant, y)).Perm
          ((taken past).map f) ∧ (T → rest = [])
    else handed past = [] := by
  unfold Booked at h
  split
  · rename_i hw
    rw [hw] at h
    by_cases ht : T
    · rw [hT ht] at h
      exact ⟨[], by simpa using books_rearm_iff.mp h, fun _ => rfl⟩
    · obtain ⟨rest, hperm⟩ := pending_of_books h
      exact ⟨rest, hperm, fun h => absurd h ht⟩
  · rename_i hw
    rw [(Bool.not_eq_true _).mp hw] at h
    exact List.map_eq_nil_iff.mp (unwatched_of_books h)

/-- A step by which the loop changes nothing. -/
theorem takenBy_same {x : Event ι} (h : x.after = x.before) : takenBy x = [] ∧ handedBy x = [] := by
  unfold takenBy handedBy
  cases x.who with
  | some i => exact ⟨rfl, rfl⟩
  | none =>
    have hl : Ledger.leaving (fun _ => .tick) (Tick x) = [] :=
      Ledger.leaving_eq_nil (fun _ => rfl) (by rw [Tick, h])
    have hn : Ledger.news (Tick x) = [] := by simp [Ledger.news, Tick, h]
    simp [hl, hn]

/-- **What the loop takes out, it hands over at the same instant.** -/
theorem booked_loop {α : Type} {f : Nat × (String × Value) → α} {y y' : Beat} {s s' : Paced}
    (a : Option (Answer Reply)) {past : List (Event ι)} (hs : y.Steps s y' s')
    (h : Booked f past s y.stage) : Booked f (past ++ [⟨none, s, s', a⟩]) s' y'.stage := by
  have happend : taken (past ++ [⟨none, s, s', a⟩]) =
        taken past ++ takenBy (⟨none, s, s', a⟩ : Event ι) ∧
      handed (past ++ [⟨none, s, s', a⟩]) =
        handed past ++ handedBy (⟨none, s, s', a⟩ : Event ι) := by
    simp [taken, handed]
  rw [Booked, happend.1, happend.2]
  cases hs with
  | begin | look | quit =>
    obtain ⟨ht, hh⟩ := takenBy_same (x := (⟨none, s, s, a⟩ : Event ι)) rfl
    rw [ht, hh, List.append_nil, List.append_nil]
    exact h
  | @tick n stage stage' r hp =>
    have hinstant : r.instant = s.solo.instant := Solo.instant_of_passes hp
    refine books_after ?_
    rw [hinstant, List.map_append, List.map_append, takenBy, handedBy, List.map_map, List.map_map]
    exact books_passes a hp h

/-- What others do is not in the books. -/
theorem booked_task {α : Type} {f : Nat × (String × Value) → α} {i : ι} {task : Solo.Task}
    {s : Paced} {r : Solo} {a : Option (Answer Reply)} {past : List (Event ι)}
    {stage : Memory.Stage} (hb : Beside task s.solo r) (h : Booked f past s stage) :
    Booked f (past ++ [⟨some i, s, { s with solo := r }, a⟩]) { s with solo := r } stage := by
  simpa [Booked, taken, handed, takenBy, handedBy, hb.instant, hb.watched] using h

/-! ## Runs -/

/-- The loop waits for its next tick. -/
def Waits (p : Pool (Option ι) Paced (Answer Reply)) : Prop :=
  ∃ n, p.threads none = some (ticks n)

/-- The loop is not in the middle of a tick. -/
def BetweenTicks (p : Pool (Option ι) Paced (Answer Reply)) : Prop :=
  ∀ q, p.threads none = some q → ∃ y : Beat, y.Between ∧ q = y.process

/-- **Ticks run when they are due.** While somebody refers to the cache, time passes only where the
loop waits, and no further than to its next tick; the loop is given up when the last reference is
dropped. -/
def Prompt (p : Pool (Option ι) Paced (Answer Reply)) : Turn (Option ι) Outer → Prop
  | .outside (.elapse nanos) => p.state.referred = true → Waits p ∧
      ∀ l ∈ p.state.solo.engine.loop, p.state.solo.instant + nanos ≤ l.next
  | .drop none => p.state.referred = false
  | _ => True

/-- A step of the loop takes out what goes at this tick, and leaves the rest. -/
def Due (t : Nat) (period : Duration) (j : Nat) (x : Event ι) : Prop :=
  ∀ key, x.after.table.find? key = x.before.table.find? key ∨ x.after.table.find? key = none ∧
    ∃ n e, n ≤ j ∧ x.before.table.find? key = some e ∧ First t period n e ∧
      x.before.solo.instant = due t period n

theorem Due.mono {t : Nat} {period : Duration} {i j : Nat} {x : Event ι} (h : i ≤ j)
    (hx : Due t period i x) : Due t period j x := by
  intro key
  rcases hx key with hk | ⟨hk, n, e, hn, he⟩
  · exact .inl hk
  · exact .inr ⟨hk, n, e, Nat.le_trans hn h, he⟩

variable {tasks : ι → Solo.Task} {t : Nat} {period : Duration}

/-- What holds while somebody refers to the cache, after `j` removals. -/
structure Referred (t : Nat) (period : Duration) (j : Nat) (s : Paced) (past : List (Event ι))
    (y : Beat) : Prop where
  kept : Kept t period j s y
  before : ∀ x ∈ past, x.before.referred = true
  books : Booked id past s y.stage

/-- What every turn keeps. -/
structure Inv (tasks : ι → Solo.Task) (t : Nat) (period : Duration) (j : Nat)
    (beat : Option Beat) (p : Pool (Option ι) Paced (Answer Reply)) (past : List (Event ι)) :
    Prop where
  manned : Manned tasks p beat
  loop : ∀ x ∈ past, x.who = none → x.before.referred = true → Due t period j x
  referred : p.state.referred = true → ∃ y, beat = some y ∧ Referred t period j p.state past y

/-- A loop that waits for its next tick is at that stage, or has made all its ticks. -/
theorem awaiting_or_ended {p : Pool (Option ι) Paced (Answer Reply)} {y : Beat}
    (hm : Manned tasks p (some y)) (h : Waits p) : (∃ n, y = .awaiting n) ∨ y = .ended := by
  obtain ⟨n, hn⟩ := h
  have hy : y.process = ticks n := Option.some.inj (hm.loop.symm.trans hn)
  cases n with
  | succ n => exact .inl (Beat.awaiting_of_wait (hm.tidy y rfl) hy).1
  | zero =>
    cases y with
    | awaiting n => exact .inl ⟨n, rfl⟩
    | looking n => cases hy
    | ticking n stage =>
      cases stage with
      | deliver rest removed =>
        cases rest with
        | nil => exact absurd rfl (hm.tidy _ rfl n removed)
        | cons x rest => cases hy
      | _ => cases hy
    | ended => exact .inr rfl

theorem awaiting_of_waits {p : Pool (Option ι) Paced (Answer Reply)} {j : Nat} {y : Beat}
    (hm : Manned tasks p (some y)) (ho : y.On t period j p.state) (h : Waits p) :
    ∃ n, y = .awaiting n := by
  rcases awaiting_or_ended hm h with h | rfl
  · exact h
  · exact ho.elim

theorem mem_append_step {past : List (Event ι)} {x e : Event ι} (h : e ∈ past ++ [x]) :
    e ∈ past ∨ e = x := by simpa using h

variable [DecidableEq ι] {p p' : Pool (Option ι) Paced (Answer Reply)} {j : Nat}
  {beat : Option Beat} {past : List (Event ι)}

/-- **What every turn keeps** where ticks run when they are due. -/
theorem inv_moved {u : Turn (Option ι) Outer} {x : Option (Event ι)} (hp : 0 < period.toNanos)
    (h : Inv tasks t period j beat p past) (hok : Prompt p u)
    (hm : Pool.Moved happen p u x p') :
    ∃ j' beat', Inv tasks t period j' beat' p' (past ++ x.toList) := by
  obtain ⟨beat', hmanned, ht⟩ := turned_of_moved h.manned hm
  generalize hs : p'.state = s at ht
  cases ht with
  | still =>
    rw [Option.toList_none, List.append_nil]
    exact ⟨j, beat, hmanned, h.loop, hs ▸ h.referred⟩
  | @task _ i r a hb =>
    refine ⟨j, beat, hmanned, fun e he hw hr => ?_, fun hr => ?_⟩
    · rcases mem_append_step he with he | rfl
      · exact h.loop e he hw hr
      · cases hw
    · rw [hs] at hr ⊢
      obtain ⟨y, hy, hR⟩ := h.referred hr
      refine ⟨y, hy, kept_task hp hR.kept hb, fun e he => ?_, booked_task hb hR.books⟩
      rcases mem_append_step he with he | rfl
      · exact hR.before e he
      · exact hr
  | @loop y y' _ a hstep =>
    cases hr : p.state.referred with
    | true =>
      obtain ⟨y, hy, hR⟩ := h.referred hr
      obtain rfl := Option.some.inj hy
      obtain ⟨j', hj, hkept, hremoves⟩ := kept_loop hp hR.kept hr hstep
      refine ⟨j', some y', hmanned, fun e he hw hr' => ?_, fun hr' => ?_⟩
      · rcases mem_append_step he with he | rfl
        · exact (h.loop e he hw hr').mono hj
        · intro key
          rcases hremoves key with hk | ⟨hk, e, he, hf, hi⟩
          · exact .inl hk
          · exact .inr ⟨hk, j', e, Nat.le_refl _, he, hf, hi⟩
      · rw [hs]
        refine ⟨y', rfl, hkept, fun e he => ?_, booked_loop a hstep hR.books⟩
        rcases mem_append_step he with he | rfl
        · exact hR.before e he
        · exact hr
    | false =>
      have hgone : s.referred = false := by
        cases hstep <;> exact hr
      refine ⟨j, some y', hmanned, fun e he hw hr' => ?_, fun hr' => ?_⟩
      · rcases mem_append_step he with he | rfl
        · exact h.loop e he hw hr'
        · exact absurd (hr.symm.trans hr') (by simp)
      · exact absurd ((hs ▸ hr').symm.trans hgone) (by simp)
  | aborted =>
    rw [Option.toList_none, List.append_nil]
    refine ⟨j, none, hmanned, h.loop, fun hr => ?_⟩
    exact absurd ((hs ▸ hr).symm.trans hok) (by simp)
  | outside e =>
    rw [Option.toList_none, List.append_nil]
    refine ⟨j, beat, hmanned, h.loop, fun hr => ?_⟩
    rw [hs] at hr ⊢
    cases e with
    | elapse nanos =>
      obtain ⟨y, rfl, hR⟩ := h.referred hr
      obtain ⟨hwaits, hnext⟩ := hok hr
      obtain ⟨n, rfl⟩ := awaiting_of_waits h.manned hR.kept.on hwaits
      refine ⟨_, rfl, kept_elapse hR.kept hnext, hR.before, ?_⟩
      exact books_rearm_iff.mpr (books_rearm_iff.mp hR.books)
    | dropped => cases hr

theorem inv_run {us : List (Turn (Option ι) Outer)} (hp : 0 < period.toNanos)
    (h : Inv tasks t period j beat p past) (hok : Pool.Along happen Prompt us p) :
    ∃ j' beat', Inv tasks t period j' beat' (p.run happen us)
      (past ++ Pool.history happen us p) :=
  Pool.along_past_induction (I := fun p past => ∃ j beat, Inv tasks t period j beat p past)
    (fun _ _ _ _ _ hok ⟨_, _, h⟩ hm => inv_moved hp h hok hm) us hok ⟨j, beat, h⟩

omit [DecidableEq ι] in
/-- A started loop, before its first tick. -/
theorem inv_pool {e₀ engine : Engine} (hp : 0 < period.toNanos)
    (htasks : ∀ i, tasks i ≠ .tick) (hstart : e₀.start true t period = .ok engine) (n : Nat) :
    Inv tasks t period 0 (some (.awaiting n))
      (pool tasks n ⟨⟨t, engine, []⟩, true⟩) [] := by
  obtain ⟨hs, hstarted⟩ := Engine.started_of_start hstart
  have hloop : engine.loop = some (.start t period hp) := by
    rw [Engine.start, if_neg (by simp [hs]), dif_pos hp, if_pos rfl] at hstart
    exact (Except.ok.inj hstart) ▸ rfl
  have hlt := due_lt_succ (t := t) hp 0
  refine ⟨manned_pool htasks n _, fun x hx => absurd hx List.not_mem_nil, fun _ => ?_⟩
  refine ⟨_, rfl, ⟨hstarted, fun h => absurd rfl h, ?_⟩, fun x hx => absurd hx List.not_mem_nil,
    books_rearm_iff.mpr ?_⟩
  · exact ⟨⟨_, hloop, rfl, rfl⟩, Nat.le_refl _, Nat.le_of_lt hlt⟩
  · simp [taken, handed]

/-! ## Entries that are left alone -/

/-- The entry is there, with another value at most. -/
def Lasts (key : String) (e : Entry) (s : Paced) : Prop :=
  ∃ v, s.table.find? key = some { e with value := v }

/-- The step leaves the entry of the key, but for its value, and puts none. -/
def Spares (key : String) (x : Event ι) : Prop :=
  (∀ e, x.before.table.find? key = some e → Lasts key e x.after) ∧
    (x.before.table.find? key = none → x.after.table.find? key = none)

/-- **The loop takes out expired entries**, and does nothing else to the table. -/
theorem find?_of_beat {y y' : Beat} {s s' : Paced} (h : y.Steps s y' s') (key : String) :
    s'.table.find? key = s.table.find? key ∨ s'.table.find? key = none ∧
      ∃ e, s.table.find? key = some e ∧ e.isExpiredAt s.solo.instant = true := by
  cases h with
  | begin | look | quit => exact .inl rfl
  | tick hp =>
    cases hp with
    | evict keys => exact Table.find?_sweep_cases s.solo.instant keys s.table key
    | _ => exact .inl rfl

/-- The entry is there, or the loop has taken it out. -/
def Traced (key : String) (e : Entry) (s : Paced) (past : List (Event ι)) : Prop :=
  Lasts key e s ∨ s.table.find? key = none ∧
    ∃ x ∈ past, x.who = none ∧ Lasts key e x.before ∧ x.after.table.find? key = none

omit [DecidableEq ι] in
/-- What the loop took out before is in the history still. -/
theorem Traced.append {key : String} {e : Entry} {s s' : Paced} {past : List (Event ι)}
    (h : Traced key e s past) (ht : s'.table.find? key = s.table.find? key)
    (xs : List (Event ι)) : Traced key e s' (past ++ xs) := by
  rcases h with ⟨v, h⟩ | ⟨hn, x, hx, hx'⟩
  · exact .inl ⟨v, ht.trans h⟩
  · exact .inr ⟨ht.trans hn, x, List.mem_append_left _ hx, hx'⟩

omit [DecidableEq ι] in
theorem traced_turned {key : String} {e : Entry} {u : Turn (Option ι) Outer}
    {x : Option (Event ι)} {beat' : Option Beat} {s : Paced}
    (ht : Turned tasks p beat u x s beat') (hx : ∀ z ∈ x, z.who ≠ none → Spares key z)
    (h : Traced key e p.state past) : Traced key e s (past ++ x.toList) := by
  cases ht with
  | still | aborted => exact h.append rfl _
  | outside o =>
    refine h.append ?_ _
    cases o <;> rfl
  | task a hb =>
    have hspares := hx _ rfl (by simp)
    rcases h with ⟨v, h⟩ | ⟨hn, z, hz, hz'⟩
    · obtain ⟨v', h'⟩ := hspares.1 _ h
      exact .inl ⟨v', h'⟩
    · exact .inr ⟨hspares.2 hn, z, List.mem_append_left _ hz, hz'⟩
  | loop a hstep =>
    rcases find?_of_beat hstep key with hk | ⟨hk, -⟩
    · exact h.append hk _
    · rcases h with h | ⟨-, z, hz, hz'⟩
      · exact .inr ⟨hk, _, List.mem_append_right _ List.mem_cons_self, rfl, h, hk⟩
      · exact .inr ⟨hk, z, List.mem_append_left _ hz, hz'⟩

/-- What every turn keeps: if others have left the entry alone, it is there or the loop has it. -/
structure Spared (tasks : ι → Solo.Task) (key : String) (e : Entry)
    (p : Pool (Option ι) Paced (Answer Reply)) (past : List (Event ι)) : Prop where
  manned : ∃ beat, Manned tasks p beat
  traced : (∀ x ∈ past, x.who ≠ none → Spares key x) → Traced key e p.state past

theorem spared_moved {key : String} {e : Entry} {u : Turn (Option ι) Outer} {x : Option (Event ι)}
    (h : Spared tasks key e p past) (hmoved : Pool.Moved happen p u x p') :
    Spared tasks key e p' (past ++ x.toList) := by
  obtain ⟨⟨beat, hm⟩, h⟩ := h
  obtain ⟨beat', hm', ht⟩ := turned_of_moved hm hmoved
  refine ⟨⟨beat', hm'⟩, fun hs => traced_turned ht (fun z hz => ?_) (h fun z hz => ?_)⟩
  · exact hs z (List.mem_append_right _ (Option.mem_toList.mpr hz))
  · exact hs z (List.mem_append_left _ hz)

/-- **An entry that others leave alone is there until the loop takes it.** -/
theorem traced_run {key : String} {e : Entry} (hm : Manned tasks p beat)
    (he : p.state.table.find? key = some e) (us : List (Turn (Option ι) Outer))
    (hspares : ∀ x ∈ Pool.history happen us p, x.who ≠ none → Spares key x) :
    Traced key e (p.run happen us).state (Pool.history happen us p) := by
  have start : Spared tasks key e p [] := ⟨⟨beat, hm⟩, fun _ => .inl ⟨e.value, he⟩⟩
  have run := Pool.past_induction (fun _ _ _ _ _ h hmoved => spared_moved h hmoved) us start
  exact run.traced hspares

/-! ## Ticks at any time -/

/-- A step by which the loop takes out what is expired. -/
def Reclaims (x : Event ι) : Prop :=
  ∀ key, x.after.table.find? key = x.before.table.find? key ∨ x.after.table.find? key = none ∧
    ∃ e, x.before.table.find? key = some e ∧ e.isExpiredAt x.before.solo.instant = true

/-- What every turn keeps, whether or not somebody refers to the cache and time stands still while
a tick is under way: the books are right but for the instants. -/
structure Balanced (tasks : ι → Solo.Task) (p : Pool (Option ι) Paced (Answer Reply))
    (past : List (Event ι)) : Prop where
  books : ∃ beat, Manned tasks p beat ∧
    Booked Prod.snd past p.state (beat.elim .rearm Beat.stage)
  reclaims : ∀ x ∈ past, x.who = none → Reclaims x

omit [DecidableEq ι] in
/-- **The books are right after every turn**, but for the instants. -/
theorem booked_turned {u : Turn (Option ι) Outer} {x : Option (Event ι)} {beat' : Option Beat}
    {s : Paced} (ht : Turned tasks p beat u x s beat')
    (h : Booked Prod.snd past p.state (beat.elim .rearm Beat.stage)) :
    Booked Prod.snd (past ++ x.toList) s (beat'.elim .rearm Beat.stage) ∧
      ∀ e ∈ x, e.who = none → Reclaims e := by
  cases ht with
  | still | aborted =>
    rw [Option.toList_none, List.append_nil]
    exact ⟨h, by simp⟩
  | outside o =>
    rw [Option.toList_none, List.append_nil]
    refine ⟨?_, by simp⟩
    cases o <;> exact h
  | task a hb => exact ⟨booked_task hb h, by simp⟩
  | loop a hstep =>
    exact ⟨booked_loop a hstep h, fun e he _ => Option.mem_some.mp he ▸ find?_of_beat hstep⟩

theorem balanced_moved {u : Turn (Option ι) Outer} {x : Option (Event ι)}
    (h : Balanced tasks p past) (hmoved : Pool.Moved happen p u x p') :
    Balanced tasks p' (past ++ x.toList) := by
  obtain ⟨⟨beat, hm, hbooks⟩, hpast⟩ := h
  obtain ⟨beat', hm', ht⟩ := turned_of_moved hm hmoved
  obtain ⟨hbooks', hnew⟩ := booked_turned ht hbooks
  refine ⟨⟨beat', hm', hbooks'⟩, fun e he => ?_⟩
  rcases List.mem_append.mp he with he | he
  · exact hpast e he
  · exact hnew e (Option.mem_toList.mp he)

/-! ## After the last reference -/

/-- Nobody refers to the cache, no tick is under way, and none has done anything. -/
structure Idle (tasks : ι → Solo.Task) (p : Pool (Option ι) Paced (Answer Reply))
    (past : List (Event ι)) : Prop where
  referred : p.state.referred = false
  manned : ∃ beat, Manned tasks p beat ∧ ∀ y ∈ beat, y.Between
  still : ∀ x ∈ past, x.who = none → x.after = x.before

theorem idle_moved {u : Turn (Option ι) Outer} {x : Option (Event ι)} (h : Idle tasks p past)
    (hmoved : Pool.Moved happen p u x p') : Idle tasks p' (past ++ x.toList) := by
  obtain ⟨hr, ⟨beat, hm, hb⟩, hpast⟩ := h
  obtain ⟨beat', hm', ht⟩ := turned_of_moved hm hmoved
  have now {y : Beat} (hy : y.Between) : ∀ z ∈ some y, z.Between :=
    fun z hz => Option.some.inj hz ▸ hy
  have step {x : Event ι} (hx : x.who = none → x.after = x.before) :
      ∀ e ∈ past ++ [x], e.who = none → e.after = e.before := by
    intro e he hw
    rcases mem_append_step he with he | rfl
    · exact hpast e he hw
    · exact hx hw
  generalize hs : p'.state = s at ht
  cases ht with
  | still => exact ⟨hs ▸ hr, ⟨beat, hm', hb⟩, by simpa using hpast⟩
  | aborted => exact ⟨hs ▸ hr, ⟨none, hm', fun y hy => nomatch hy⟩, by simpa using hpast⟩
  | outside o =>
    refine ⟨?_, ⟨beat, hm', hb⟩, by simpa using hpast⟩
    rw [hs]
    cases o with
    | elapse nanos => exact hr
    | dropped => rfl
  | task a hbeside => exact ⟨hs ▸ hr, ⟨beat, hm', hb⟩, step fun hw => nomatch hw⟩
  | loop a hstep =>
    cases hstep with
    | begin => exact ⟨hs ▸ hr, ⟨_, hm', now trivial⟩, step fun _ => rfl⟩
    | look ha => exact absurd (hr.symm.trans ha) (by simp)
    | quit => exact ⟨hs ▸ hr, ⟨_, hm', now trivial⟩, step fun _ => rfl⟩
    | tick => exact (hb _ rfl).elim

/-- **A tick that comes after the last reference was dropped does nothing.** -/
theorem dropped_run (hm : Manned tasks p beat) (hr : p.state.referred = false)
    (hb : BetweenTicks p) (us : List (Turn (Option ι) Outer)) :
    ∀ x ∈ Pool.history happen us p, x.who = none → x.after = x.before := by
  have start : Idle tasks p [] := by
    refine ⟨hr, ?_, by simp⟩
    cases hbeat : beat with
    | none => exact ⟨none, hbeat ▸ hm, fun y hy => nomatch hy⟩
    | some y₀ =>
      subst hbeat
      obtain ⟨y, hy, hq⟩ := hb _ hm.loop
      refine ⟨some y, ⟨hm.loop.trans (congrArg some hq), fun z hz => ?_, hm.tasks⟩, fun z hz => ?_⟩
      · obtain rfl := Option.some.inj hz
        intro n r
        rintro rfl
        exact hy
      · exact Option.some.inj hz ▸ hy
  exact (Pool.past_induction (fun _ _ _ _ _ h hmoved => idle_moved h hmoved) us start).still

/-! ## The law -/

/-- What is known at an instant, after the steps `past`, the last of which are those since `p₁`. -/
structure Reclaimed (t : Nat) (period : Duration) (p₁ p : Pool (Option ι) Paced (Answer Reply))
    (past since : List (Event ι)) : Prop where
  /-- After `j` removals it is between tick `j` and the next one, and every entry that does not live
  forever outlives tick `j`. An entry that was there at `p₁` and that others have left alone is
  still there if it outlives tick `j`, and otherwise the loop has taken it out at the first tick
  after its expiry. -/
  now : p.state.referred = true → ∃ j,
    due t period j ≤ p.state.solo.instant ∧ p.state.solo.instant ≤ due t period (j + 1) ∧
    (Waits p → ∃ l, p.state.solo.engine.loop = some l ∧ l.next = due t period (j + 1)) ∧
    Outlive t period j p.state.table ∧
    ∀ key e, p₁.state.table.find? key = some e →
      (∀ x ∈ since, x.who ≠ none → Spares key x) →
      ((∀ n, First t period n e → j < n) → Lasts key e p.state) ∧
      ∀ n, First t period n e → n ≤ j → p.state.table.find? key = none ∧
        ∃ x ∈ since, x.who = none ∧ Lasts key e x.before ∧ x.after.table.find? key = none ∧
          x.before.solo.instant = due t period n
  /-- The loop takes out entries at the first tick after their expiry, and does nothing else. -/
  loop : ∀ x ∈ past, x.who = none → x.before.referred = true → ∀ key,
    x.after.table.find? key = x.before.table.find? key ∨ x.after.table.find? key = none ∧
      ∃ n e, x.before.table.find? key = some e ∧ First t period n e ∧
        x.before.solo.instant = due t period n
  /-- Whether or not somebody refers to the cache, the loop takes out expired entries and does
  nothing else to the table. -/
  reclaims : ∀ x ∈ past, x.who = none → Reclaims x
  /-- And it hands over what it takes out, and nothing else; between ticks nothing is left to be
  handed over. -/
  balanced : if p.state.solo.engine.watched then
      ∃ rest : List (String × Value),
        ((handed past).map Prod.snd ++ rest).Perm ((taken past).map Prod.snd) ∧
          (Waits p → rest = [])
    else handed past = []
  /-- While somebody refers to the cache, it does so at the same instant. -/
  handed : p.state.referred = true → if p.state.solo.engine.watched then
      ∃ pending, (handed past ++ pending).Perm (taken past) ∧
        (∀ y ∈ pending, y.1 = p.state.solo.instant) ∧ (Waits p → pending = [])
    else handed past = []
  /-- A tick that comes after the last reference was dropped does nothing. -/
  dropped : p₁.state.referred = false → BetweenTicks p₁ →
    ∀ x ∈ since, x.who = none → x.after = x.before

omit [DecidableEq ι] in
/-- What the loop took out, it took at the first tick after the expiry. -/
theorem first_of_inv {key : String} {e : Entry} {x : Event ι}
    (h : Inv tasks t period j beat p past) (hx : x ∈ past) (hw : x.who = none)
    (hr : x.before.referred = true) (he : Lasts key e x.before)
    (hn : x.after.table.find? key = none) :
    ∃ n ≤ j, First t period n e ∧ x.before.solo.instant = due t period n := by
  obtain ⟨v, he⟩ := he
  rcases h.loop x hx hw hr key with hk | ⟨-, n, e', hj, he', hf, hi⟩
  · rw [hn, he] at hk
    cases hk
  · obtain rfl : e' = { e with value := v } := Option.some.inj (he'.symm.trans he)
    exact ⟨n, hj, ⟨hf.pos, hf.mortal, hf.expired, hf.least⟩, hi⟩

/-- An entry is gone as soon as the first tick after its expiry is over. -/
theorem lt_of_lasts {key : String} {e : Entry} {n : Nat} {s : Paced} (hp : 0 < period.toNanos)
    (ho : Outlive t period j s.table) (he : Lasts key e s) (hf : First t period n e) : j < n := by
  by_contra hj
  obtain ⟨v, he⟩ := he
  have hout := ho (by have := hf.pos; omega) key _ he hf.mortal
  have hlt := Nat.lt_of_lt_of_le hf.expired (due_le_due (t := t) hp (Nat.le_of_not_lt hj))
  exact absurd hout (Nat.not_le.mpr hlt)

omit [DecidableEq ι] in
/-- What is still to be handed over is of the tick under way. -/
theorem pending_of_inv {y : Beat} (h : Manned tasks p (some y))
    (hR : Referred t period j p.state past y) : if p.state.solo.engine.watched then
      ∃ pending, (handed past ++ pending).Perm (taken past) ∧
        (∀ x ∈ pending, x.1 = p.state.solo.instant) ∧ (Waits p → pending = [])
    else handed past = [] := by
  have hstage (hw : Waits p) : y.stage = .rearm := by
    obtain ⟨m, rfl⟩ := awaiting_of_waits h hR.kept.on hw
    rfl
  have hpending := pending_of_booked hR.books hstage
  split at hpending
  · rename_i hw
    obtain ⟨rest, hperm, hwaits⟩ := hpending
    rw [if_pos hw]
    refine ⟨rest.map fun x => (p.state.solo.instant, x), by simpa using hperm, fun x hx => ?_,
      fun h => by rw [hwaits h, List.map_nil]⟩
    obtain ⟨z, -, rfl⟩ := List.mem_map.mp hx
    rfl
  · rename_i hw
    rw [if_neg hw]
    exact hpending

theorem reclaimed_of_inv {n : Nat} {p₀ : Pool (Option ι) Paced (Answer Reply)}
    {us vs : List (Turn (Option ι) Outer)} (hp : 0 < period.toNanos)
    (h : Inv tasks t period 0 (some (.awaiting n)) p₀ [])
    (hok : Pool.Along happen Prompt (us ++ vs) p₀) :
    Reclaimed t period (p₀.run happen us) (p₀.run happen (us ++ vs))
      (Pool.history happen (us ++ vs) p₀) (Pool.history happen vs (p₀.run happen us)) := by
  obtain ⟨hus, hvs⟩ := Pool.along_append_iff.mp hok
  obtain ⟨j₁, beat₁, h₁⟩ := inv_run hp h hus
  obtain ⟨j, beat, hinv⟩ := inv_run hp h₁ hvs
  rw [List.nil_append, ← Pool.history_append] at hinv
  have start : Balanced tasks p₀ [] :=
    ⟨⟨_, h.manned, books_rearm_iff.mpr (by simp [taken, handed])⟩, by simp⟩
  have hbalanced :=
    Pool.past_induction (fun _ _ _ _ _ h hmoved => balanced_moved h hmoved) (us ++ vs) start
  rw [Pool.run_append]
  constructor
  case now =>
    intro hr
    obtain ⟨y, rfl, hR⟩ := hinv.referred hr
    obtain ⟨hsince, huntil⟩ := due_le_instant hp hR.kept.on
    refine ⟨j, hsince, huntil, fun hw => ?_, hR.kept.outlive, fun key e he hspares => ?_⟩
    · obtain ⟨m, rfl⟩ := awaiting_of_waits hinv.manned hR.kept.on hw
      obtain ⟨l, hl, hnext, -⟩ := hR.kept.on.1
      exact ⟨l, hl, hnext⟩
    · rcases traced_run h₁.manned he vs hspares with hl | ⟨hn, x, hx, hw, hlx, hnx⟩
      · refine ⟨fun _ => hl, fun n hf hj => ?_⟩
        exact absurd (lt_of_lasts hp hR.kept.outlive hl hf) (Nat.not_lt.mpr hj)
      · have hpast : x ∈ Pool.history happen (us ++ vs) p₀ := by
          rw [Pool.history_append]
          exact List.mem_append_right _ hx
        obtain ⟨m, hj, hf, hi⟩ := first_of_inv hinv hpast hw (hR.before x hpast) hlx hnx
        refine ⟨fun hlater => absurd hj (Nat.not_le.mpr (hlater m hf)), fun n hf' _ => ?_⟩
        obtain rfl := hf.unique hf'
        exact ⟨hn, x, hx, hw, hlx, hnx, hi⟩
  case loop =>
    intro x hx hw hr key
    rcases hinv.loop x hx hw hr key with hk | ⟨hk, n, e, -, he, hf, hi⟩
    · exact .inl hk
    · exact .inr ⟨hk, n, e, he, hf, hi⟩
  case handed =>
    intro hr
    obtain ⟨y, rfl, hR⟩ := hinv.referred hr
    exact pending_of_inv hinv.manned hR
  case reclaims => exact hbalanced.reclaims
  case balanced =>
    obtain ⟨beat, hm, hbooks⟩ := hbalanced.books
    have hstage (hw : Waits (p₀.run happen (us ++ vs))) : beat.elim .rearm Beat.stage = .rearm := by
      cases beat with
      | none => rfl
      | some y => rcases awaiting_or_ended hm hw with ⟨m, rfl⟩ | rfl <;> rfl
    rw [← Pool.run_append]
    simpa using pending_of_booked hbooks hstage
  case dropped => exact fun hr hb => dropped_run h₁.manned hr hb vs

/-- **What a reclamation loop does in time.** Its ticks come a period apart. Every entry that does
not live forever is expired by some first tick, at most a period after its expiry, or after the
start if that is later; if it is left alone it goes at that tick, and is handed to the receiver
then. No tick does anything once the last reference was dropped before it; one that was under way
then takes out nothing but what is expired, and hands that over. -/
theorem run_reclaimed (tasks : ι → Solo.Task) (htasks : ∀ i, tasks i ≠ .tick)
    {e₀ engine : Engine} (hp : 0 < period.toNanos)
    (hstart : e₀.start true t period = .ok engine) (n : Nat)
    (us vs : List (Turn (Option ι) Outer))
    (hok : Pool.Along happen Prompt (us ++ vs) (pool tasks n ⟨⟨t, engine, []⟩, true⟩)) :
    let p₀ := pool tasks n ⟨⟨t, engine, []⟩, true⟩
    Reclaimed t period (p₀.run happen us) (p₀.run happen (us ++ vs))
      (Pool.history happen (us ++ vs) p₀) (Pool.history happen vs (p₀.run happen us)) ∧
    (∀ e : Entry, e.lifespan.toNanos ≠ 0 → ∃ n, First t period n e) ∧
    ∀ n, t + n * period.toNanos < 0x8000_0000_0000_0000 * 1_000_000_000 →
      due t period n = t + n * period.toNanos ∧
      ∀ e, First t period n e →
        due t period n ≤ max (e.created + e.lifespan.toNanos) t + period.toNanos := by
  intro p₀
  refine ⟨reclaimed_of_inv hp (inv_pool hp htasks hstart n) hok, fun e => exists_first hp,
    fun n hn => ⟨due_eq hn, fun e hf => hf.due_le hn⟩⟩

/-! ### A value that goes at the first tick -/

/-- A value is put for 5 ns. -/
def brief : Unit → Solo.Task := fun _ => .call (.put "a" (.bool true) ⟨5, by decide⟩)

def tenApart : Duration := ⟨10, by decide⟩

/-- The loop was started at 100 ns. -/
def everyTen : Engine :=
  { Engine.empty with
    watched := true, started := true, loop := some (.start 100 tenApart (by decide)) }

abbrev setOff : Pool (Option Unit) Paced (Answer Reply) :=
  pool brief 2 ⟨⟨100, everyTen, []⟩, true⟩

/-- The value is put 3 ns after the start. -/
def putThen : List (Turn (Option Unit) Outer) := [.outside (.elapse 3), .go (some ())]

/-- The loop makes its first tick when it is due. -/
def tickThen : List (Turn (Option Unit) Outer) :=
  .outside (.elapse 7) :: List.replicate 7 (.go none)

theorem prompt_setOff : Pool.Along happen Prompt (putThen ++ tickThen) setOff := by
  refine ⟨fun _ => ⟨⟨2, rfl⟩, ?_⟩, trivial, fun _ => ⟨⟨2, rfl⟩, ?_⟩, trivial, trivial, trivial,
    trivial, trivial, trivial, trivial, trivial⟩
  all_goals decide +kernel

theorem find?_putThen : (setOff.run happen putThen).state.table.find? "a" =
    some ⟨.bool true, 103, ⟨5, by decide⟩⟩ := by
  have table : (setOff.run happen putThen).state.table =
      Table.empty.put 103 "a" (.bool true) ⟨5, by decide⟩ := rfl
  rw [table]
  rfl

theorem first_putThen : First 100 tenApart 1 ⟨.bool true, 103, ⟨5, by decide⟩⟩ :=
  ⟨by decide, by decide, by decide, fun i _ _ => by omega⟩

theorem who_tickThen {p : Pool (Option Unit) Paced (Answer Reply)} :
    ∀ x ∈ Pool.history happen tickThen p, x.who = none := fun x hx =>
  Pool.who_of_mem_history _ (fun _ ht => List.eq_of_mem_replicate ht)
    (show x ∈ Pool.history happen (List.replicate 7 (.go none)) _ from hx)

/-- Put for 5 ns, it is expired 8 ns after the start, and the loop takes it out after 10 ns. -/
theorem run_reclaimed_setOff :
    Pool.Along happen Prompt (putThen ++ tickThen) setOff ∧
      ∃ x ∈ Pool.history happen tickThen (setOff.run happen putThen),
        x.who = none ∧ x.after.table.find? "a" = none ∧ x.before.solo.instant = 110 := by
  refine ⟨prompt_setOff, ?_⟩
  obtain ⟨h, -, -⟩ := @run_reclaimed Unit 100 tenApart _ brief (fun _ => by simp [brief])
    { Engine.empty with watched := true } everyTen (by decide) rfl 2 putThen tickThen prompt_setOff
  obtain ⟨j, -, -, -, -, hkeys⟩ := h.now (by decide +kernel)
  obtain ⟨hstays, hleaves⟩ :=
    hkeys "a" _ find?_putThen fun x hx hw => absurd (who_tickThen x hx) hw
  have hj : 1 ≤ j := by
    by_contra hj
    obtain ⟨v, hv⟩ := hstays fun n hn => by have := hn.unique first_putThen; omega
    have hgone : (setOff.run happen (putThen ++ tickThen)).state.table.find? "a" = none := by
      decide +kernel
    exact absurd (hgone.symm.trans hv) (by simp)
  obtain ⟨-, x, hx, hw, -, hafter, hi⟩ := hleaves 1 first_putThen hj
  have due : due 100 tenApart 1 = 110 := by decide
  exact ⟨x, hx, hw, hafter, hi.trans due⟩

/-- The last reference is dropped when the tick has looked for what is expired. -/
def intoTick : List (Turn (Option Unit) Outer) :=
  .outside (.elapse 7) :: (List.replicate 4 (.go none) ++ [.outside .dropped])

/-- The tick that was under way when the last reference was dropped takes the value out, and hands
it to the receiver. -/
theorem dropped_in_tick :
    let rest := List.replicate 3 (.go none)
    let p := setOff.run happen (putThen ++ intoTick)
    Pool.Along happen Prompt (putThen ++ intoTick ++ rest) setOff ∧ p.state.referred = false ∧
      p.state.table.find? "a" = some ⟨.bool true, 103, ⟨5, by decide⟩⟩ ∧
      p.state.solo.received = [] ∧
      (p.run happen rest).state.table.find? "a" = none ∧
      (p.run happen rest).state.solo.received = [("a", .bool true)] := by
  refine ⟨⟨fun _ => ⟨⟨2, rfl⟩, ?_⟩, trivial, fun _ => ⟨⟨2, rfl⟩, ?_⟩, trivial, trivial, trivial,
    trivial, trivial, trivial, trivial, trivial, trivial⟩, rfl, ?_, rfl, ?_, rfl⟩
  · decide +kernel
  · decide +kernel
  · have same : (setOff.run happen (putThen ++ intoTick)).state.table =
        (setOff.run happen putThen).state.table := rfl
    rw [same, find?_putThen]
  · decide +kernel

end LayeredCache.Paced

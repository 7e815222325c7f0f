import LayeredCache.Call
import LayeredCache.Layer.WriteDelete
import LayeredCache.Proofs.Runs
import LayeredCache.Session.State

/-!
# Stores that run out of time

A write that deletes calls its store once. If the store takes the value, or runs out of time, the
cached copy is dropped once, and the write answers as the delete does; a store that runs out of time
may have told so itself, anywhere in the chain of its failure, or may be given up at the limit. Any
other failure is answered with the key and the cause, and the inner cache is not called.

The store and the inner cache are any processes over any state. What they are asked is recorded
beside that state, oldest first.

Results:
* `Cause.isDeadline_iff`: a failure is a deadline if a link of its chain is one, at any depth.
* `runs_limited_iff`: a process that is given a limit knows what woke it.
* `runs_within_some_iff`, `runs_within_none_iff`: it answers as it does without a limit, or is given
  up where it still waits at the limit.
* `runs_persist_iff`: how one call of the store ends.
* `put_settled`: what a write that deletes has asked, and what it answers.
-/

namespace LayeredCache

open Process

/-! ## Chains -/

namespace Cause

/-- A link in the chain of a failure. -/
inductive Link where
  | context (text : String)
  | root (r : Root)

def Link.text : Link → String
  | .context t => t
  | .root r => r.text

/-- A timer that ran out, or input or output that took too long. -/
inductive Link.IsDeadline : Link → Prop
  | elapsed : IsDeadline (.root .elapsed)
  | timedOut (text : String) : IsDeadline (.root (.timedOut text))

/-- The contexts from the outermost in, then the root. -/
def chain (c : Cause) : List Link := c.contexts.reverse.map .context ++ [.root c.root]

/-- The failure comes of running out of time, at whatever depth. -/
def Late (c : Cause) : Prop := ∃ l ∈ c.chain, l.IsDeadline

theorem text_eq (c : Cause) : c.text = ": ".intercalate (c.chain.map Link.text) := by
  rw [chain, List.map_append, List.map_map]
  change _ = ": ".intercalate (List.map id c.contexts.reverse ++ [c.root.text])
  rw [List.map_id]
  rfl

theorem isDeadline_root_iff {r : Root} :
    (Link.root r).IsDeadline ↔ r = .elapsed ∨ ∃ text, r = .timedOut text := by
  constructor
  · intro h
    cases h with
    | elapsed => exact .inl rfl
    | timedOut text => exact .inr ⟨text, rfl⟩
  · rintro (rfl | ⟨text, rfl⟩)
    · exact .elapsed
    · exact .timedOut text

/-- A context tells nothing, so it is the root that decides. -/
theorem late_iff {c : Cause} : c.Late ↔ (Link.root c.root).IsDeadline := by
  constructor
  · rintro ⟨l, hl, hd⟩
    rcases List.mem_append.mp hl with hl | hl
    · obtain ⟨text, -, rfl⟩ := List.mem_map.mp hl
      cases hd
    · rwa [List.mem_singleton.mp hl] at hd
  · exact fun hd => ⟨_, List.mem_append_right _ (List.mem_singleton.mpr rfl), hd⟩

/-- **A failure is a deadline if a link of its chain is one.** -/
theorem isDeadline_iff {c : Cause} : c.isDeadline = true ↔ c.Late := by
  rw [late_iff, isDeadline_root_iff, isDeadline]
  cases c.root <;> simp

/-- Wrapping a failure in contexts does not change whether it is late. -/
theorem late_wrapped (contexts : List String) (c : Cause) :
    (contexts.foldr wrap c).Late ↔ c.Late := by
  induction contexts with
  | nil => exact Iff.rfl
  | cons text contexts ih =>
    rw [List.foldr_cons, ← isDeadline_iff, isDeadline_wrap, isDeadline_iff, ih]

end Cause

/-! ## Limits -/

section Limits

variable {σ α : Type} [Clock σ] {E : Surroundings σ}

/-- The same moves, and a wait is over only if the state is ready. -/
def Surroundings.strict (E : Surroundings σ) : Surroundings σ := .exact E.moves E.refl E.trans

/-- The process still waits when the clock shows `l`, and is given up then or later. -/
inductive Overdue (R : σ → σ → Prop) (l : Nat) : Process σ α → σ → σ → Prop
  | act {g : σ → σ} {k : σ → Process σ α} {s s' t : σ} (h : R s s')
      (hk : Overdue R l (k s') (g s') t) : Overdue R l (.act g k) s t
  | wait {w : Wait σ} {c : σ → σ} {k : σ → Process σ α} {s s' t : σ} (h : R s s')
      (hw : w.ready s' = true) (hk : Overdue R l (k s') s' t) : Overdue R l (.wait w c k) s t
  | gone {w : Wait σ} {c : σ → σ} {k : σ → Process σ α} {s s₁ s₂ t : σ} (h : R s s₁)
      (hl : l ≤ Clock.now s₁) (hw : w.ready s₁ = false) (h' : R s₁ s₂) (ht : R (c s₂) t) :
      Overdue R l (.wait w c k) s t

theorem Overdue.before {p : Process σ α} {l : Nat} {s t t' : σ}
    (h : Overdue E.moves l p s t) (hm : E.moves t t') : Overdue E.moves l p s t' := by
  induction h with
  | act h _ ih => exact .act h (ih hm)
  | wait h hw _ ih => exact .wait h hw (ih hm)
  | gone h hl hw h' ht => exact .gone h hl hw h' (E.trans ht hm)

/-- **A process with a limit that is woken knows by what**: it goes on when its wait is over, and is
given up if it is the limit alone that is over. -/
theorem runs_limited_iff {w : Wait σ} {c : σ → σ} {k : σ → Process σ α} {l : Nat} {s t : σ}
    {o : Option α} :
    Runs E.strict ((Process.wait w c k).within l) s (some o) t ↔
      ∃ s', E.moves s s' ∧ (w.ready s' = true ∧ Runs E.strict ((k s').within l) s' (some o) t ∨
        w.ready s' = false ∧ l ≤ Clock.now s' ∧ o = none ∧
          ∃ s'', E.moves s' s'' ∧ E.moves (c s'') t) := by
  constructor
  · intro h
    obtain ⟨s', hm, hw, hk⟩ := runs_wait h
    refine ⟨s', hm, ?_⟩
    cases hr : w.ready s' with
    | true =>
      rw [if_pos hr] at hk
      exact .inl ⟨rfl, hk⟩
    | false =>
      rw [if_neg (by simp [hr])] at hk
      change (w.ready s' || decide (l ≤ Clock.now s')) = true at hw
      rw [hr, Bool.false_or, decide_eq_true_eq] at hw
      cases hk with
      | act h' hk =>
        cases hk with
        | done ht => exact .inr ⟨rfl, hw, rfl, _, h', ht⟩
  · rintro ⟨s', hm, ⟨hr, hk⟩ | ⟨hr, hl, rfl, s'', h', ht⟩⟩
    · refine .wait hm ?_ ?_
      · change (w.ready s' || _) = true
        rw [hr, Bool.true_or]
      · rw [if_pos hr]
        exact hk
    · refine .wait hm ?_ ?_
      · change (w.ready s' || decide (l ≤ Clock.now s')) = true
        rw [decide_eq_true hl, Bool.or_true]
      · rw [if_neg (by simp [hr])]
        exact .act h' (.done ht)

/-- Within a limit a process answers what it answers without. -/
theorem runs_within_some_iff {p : Process σ α} {l : Nat} {s t : σ} {a : α} :
    Runs E.strict (p.within l) s (some (some a)) t ↔ Runs E.strict p s (some a) t := by
  refine ⟨runs_within, fun h => ?_⟩
  generalize ho : some a = o at h
  induction h with
  | done h =>
    obtain rfl := Option.some.inj ho
    exact .done h
  | act h _ ih => exact .act h (ih ho)
  | wait h hw _ ih => exact runs_limited_iff.mpr ⟨_, h, .inl ⟨hw, ih ho⟩⟩
  | gone => cases ho

/-- Within a limit a process is given up where it still waits when that is over. -/
theorem runs_within_none_iff {p : Process σ α} {l : Nat} {s t : σ} :
    Runs E.strict (p.within l) s (some none) t ↔ Overdue E.moves l p s t := by
  constructor
  · intro h
    induction p generalizing s with
    | done a => cases h
    | act g k ih =>
      cases h with
      | act h hk => exact .act h (ih _ hk)
    | wait w c k ih =>
      obtain ⟨s', hm, ⟨hr, hk⟩ | ⟨hr, hl, -, s'', h', ht⟩⟩ := runs_limited_iff.mp h
      · exact .wait hm hr (ih _ hk)
      · exact .gone hm hl hr h' ht
  · intro h
    induction h with
    | act h _ ih => exact .act h ih
    | wait h hw _ ih => exact runs_limited_iff.mpr ⟨_, h, .inl ⟨hw, ih⟩⟩
    | gone h hl hw h' ht => exact runs_limited_iff.mpr ⟨_, h, .inr ⟨hw, hl, rfl, _, h', ht⟩⟩

end Limits

/-! ## One call of the store -/

section Persist

variable {σ : Type} [Clock σ] {E : Surroundings σ} {store : Store σ} {limit : Option Duration}
  {key : String} {v : Value} {s t : σ} {o : Except Cause Unit}

/-- How a call of the store ends: with an answer of its own, or with the limit over. -/
inductive Concluded (E : Surroundings σ) (call : Process σ (Except Cause Unit))
    (limit : Option Duration) (s : σ) : Except Cause Unit → σ → Prop
  | answered {o : Except Cause Unit} {t : σ} (h : Runs E.strict call s (some o) t) :
      Concluded E call limit s o t
  | expired {d : Duration} {s₁ t : σ} (hd : limit = some d) (h : E.moves s s₁)
      (ho : Overdue E.moves (deadlineAfter d s₁) call s₁ t) :
      Concluded E call limit s (.error .timer) t

/-- **How one call of the store ends**, with or without a limit. -/
theorem runs_persist_iff :
    Runs E.strict (WriteDelete.persist store limit key v) s (some o) t ↔
      Concluded E (store key v) limit s o t := by
  cases limit with
  | none =>
    refine ⟨.answered, fun h => ?_⟩
    cases h with
    | answered h => exact h
    | expired hd => cases hd
  | some d =>
    constructor
    · intro h
      obtain ⟨x, s₂, hx, hf⟩ := runs_bind_some h
      obtain ⟨s₁, h₁, hx⟩ := runs_look hx
      cases x with
      | some r =>
        cases hf with
        | done hm => exact .answered (((runs_within_some_iff.mp hx).after h₁).before hm)
      | none =>
        cases hf with
        | done hm => exact .expired rfl h₁ ((runs_within_none_iff.mp hx).before hm)
    · intro h
      cases h with
      | answered h =>
        have hx : Runs E.strict ((store key v).timeout d) s (some (some o)) t :=
          .act (E.refl s) (runs_within_some_iff.mpr h)
        exact hx.bind (.done (E.refl t))
      | @expired d' s₁ _ hd h ho =>
        obtain rfl := Option.some.inj hd
        have hx : Runs E.strict ((store key v).timeout d) s (some none) t :=
          .act h (runs_within_none_iff.mpr ho)
        exact hx.bind (.done (E.refl t))

end Persist

/-! ## What is asked -/

/-- A collaborator is asked something. -/
inductive Contact where
  | store (key : String) (v : Value)
  | inner (c : Call)

/-- The state of the store and the inner cache, and what they have been asked, oldest first. -/
structure Traced (ρ : Type) where
  rest : ρ
  contacts : List Contact

namespace Traced

variable {ρ α : Type} [Clock ρ]

instance : Clock (Traced ρ) := ⟨fun s => Clock.instant s.rest⟩

omit [Clock ρ] in
instance [Journal ρ] : Journal (Traced ρ) :=
  ⟨fun v text s => { s with rest := Journal.note v text s.rest }⟩

def rested : Slot (Traced ρ) ρ := ⟨Traced.rest, fun r s => { s with rest := r }, fun _ _ => rfl⟩

omit [Clock ρ] in
theorem exact_rested : (rested (ρ := ρ)).Exact := ⟨fun _ => rfl, fun _ _ _ => rfl⟩

/-- Others change the state of the store and the inner cache. -/
def beside (E : Surroundings ρ) : Surroundings (Traced ρ) := E.around exact_rested

/-- A process at the collaborators, recorded. -/
def recorded (c : Contact) (p : Process ρ α) : Process (Traced ρ) α :=
  .act (fun s => { s with contacts := s.contacts ++ [c] }) fun _ => p.embed rested

/-- The inner cache, recorded. -/
def watched (inner : Cache ρ) : Cache (Traced ρ) where
  get key := recorded (.inner (.get key)) (inner.get key)
  getMulti keys := recorded (.inner (.getMulti keys)) (inner.getMulti keys)
  put key v ttl := recorded (.inner (.put key v ttl)) (inner.put key v ttl)
  delete key := recorded (.inner (.delete key)) (inner.delete key)
  step d key := recorded (.inner (.step d key)) (inner.step d key)
  isExist key := recorded (.inner (.isExist key)) (inner.isExist key)
  clearAll := recorded (.inner .clearAll) inner.clearAll
  start payload := recorded (.inner (.start payload)) (inner.start payload)

/-- The store, recorded. -/
def asked (store : Store ρ) : Store (Traced ρ) := fun key v =>
  recorded (.store key v) (store key v)

variable {E : Surroundings ρ} {s t : Traced ρ}

/-- A process at the collaborators goes through its own runs. -/
theorem runs_rested_iff {p : Process ρ α} {o : Option α} :
    Runs (beside E) (p.embed rested) s o t ↔
      Runs E.strict p s.rest o t.rest ∧ t.contacts = s.contacts := by
  have apart : t = { s with rest := t.rest } ↔ t.contacts = s.contacts := by
    obtain ⟨r, cs⟩ := t
    simp only [Traced.mk.injEq, true_and]
  refine (runs_part_iff (F := E.strict) exact_rested (fun _ => rfl) fun _ _ => Iff.rfl).trans ?_
  exact and_congr_right fun _ => apart

theorem runs_recorded_iff {c : Contact} {p : Process ρ α} {o : Option α} :
    Runs (beside E) (recorded c p) s o t ↔
      Runs E.strict p s.rest o t.rest ∧ t.contacts = s.contacts ++ [c] := by
  constructor
  · intro h
    cases h with
    | act hm hk =>
      obtain ⟨r, hr, rfl⟩ := hm
      obtain ⟨hp, ht⟩ := runs_rested_iff.mp hk
      exact ⟨hp.after hr, ht⟩
  · rintro ⟨hp, ht⟩
    exact .act ((beside E).refl s) (runs_rested_iff.mpr ⟨hp, ht⟩)

/-- Giving a recorded process a limit gives the process itself one. -/
theorem within_embed (l : Nat) (p : Process ρ α) :
    (p.embed rested).within l = (p.within l).embed (rested (ρ := ρ)) := by
  induction p with
  | done a => rfl
  | act g k ih => exact congrArg _ (funext fun s : Traced ρ => ih s.rest)
  | wait w c k ih =>
    refine congrArg (Process.wait _ _) (funext fun s : Traced ρ => ?_)
    rw [ready_waitFor (fun _ => rfl)]
    change (if w.ready s.rest = true then _ else _) =
      Process.embed rested (if w.ready s.rest = true then _ else _)
    split
    · exact ih s.rest
    · rfl

/-- The call of the store is recorded once, whatever its limit. -/
theorem runs_asked_iff {store : Store ρ} {limit : Option Duration} {key : String} {v : Value}
    {o : Except Cause Unit} :
    Runs (beside E) (WriteDelete.persist (asked store) limit key v) s (some o) t ↔
      Runs E.strict (WriteDelete.persist store limit key v) s.rest (some o) t.rest ∧
        t.contacts = s.contacts ++ [.store key v] := by
  cases limit with
  | none => exact runs_recorded_iff
  | some d =>
    have timed (l : Nat) (s t : Traced ρ) (x : Option (Except Cause Unit)) :
        Runs (beside E) ((asked store key v).within l) s (some x) t ↔
          Runs E.strict ((store key v).within l) s.rest (some x) t.rest ∧
            t.contacts = s.contacts ++ [.store key v] := by
      rw [← runs_recorded_iff, recorded, ← within_embed]
      rfl
    constructor
    · intro h
      obtain ⟨x, s₂, hx, hf⟩ := runs_bind_some h
      obtain ⟨s₁, ⟨r, hr, rfl⟩, hx⟩ := runs_look hx
      obtain ⟨hx, hc⟩ := (timed _ _ _ _).mp hx
      have hx : Runs E.strict ((store key v).timeout d) s.rest (some x) s₂.rest := .act hr hx
      cases x with
      | some a =>
        cases hf with
        | done hm =>
          obtain ⟨r', hr', rfl⟩ := hm
          exact ⟨hx.bind (.done hr'), hc⟩
      | none =>
        cases hf with
        | done hm =>
          obtain ⟨r', hr', rfl⟩ := hm
          exact ⟨hx.bind (.done hr'), hc⟩
    · rintro ⟨h, hc⟩
      obtain ⟨x, r, hx, hf⟩ := runs_bind_some h
      obtain ⟨r₁, hr, hx⟩ := runs_look hx
      have hx : Runs (beside E) ((asked store key v).timeout d) s (some x) ⟨r, t.contacts⟩ :=
        .act ⟨r₁, hr, rfl⟩ ((timed _ ⟨r₁, s.contacts⟩ ⟨r, t.contacts⟩ x).mpr ⟨hx, hc⟩)
      cases x with
      | some a =>
        cases hf with
        | done hm => exact hx.bind (.done ⟨t.rest, hm, rfl⟩)
      | none =>
        cases hf with
        | done hm => exact hx.bind (.done ⟨t.rest, hm, rfl⟩)

/-! ## Writes that delete -/

variable [Journal ρ]

/-- The write may have taken effect: the store has taken the value, or it has run out of time, and
that was noted. -/
inductive Tolerated (E : Surroundings ρ) (key : String) (s : ρ) : Except Cause Unit → ρ → Prop
  | stored : Tolerated E key s (.ok ()) s
  | late {c : Cause} {t : ρ} (hc : c.Late)
      (hn : Runs E.strict
        (note .warning ("Store func for key " ++ key ++ " hit its deadline: " ++ c.text)) s
        (some ()) t) : Tolerated E key s (.error c) t

/-- What a write that deletes has asked when it ends, and what it answers. -/
inductive Ends (E : Surroundings ρ) (inner : Cache ρ) (store : Store ρ) (limit : Option Duration)
    (key : String) (v : Value) (s : Traced ρ) : Answer Unit → Traced ρ → Prop
  /-- One call of the store, then one delete of the key, whose answer it is. -/
  | dropped {o : Except Cause Unit} {s₁ s₂ : ρ} {r : Answer Unit} {t : Traced ρ}
      (hs : Concluded E (store key v) limit s.rest o s₁) (ho : Tolerated E key s₁ o s₂)
      (hd : Runs E.strict (inner.delete key) s₂ (some r) t.rest)
      (hc : t.contacts = s.contacts ++ [.store key v, .inner (.delete key)]) :
      Ends E inner store limit key v s r t
  /-- One call of the store, and that is all. -/
  | refused {c : Cause} {t : Traced ρ}
      (hs : Concluded E (store key v) limit s.rest (.error c) t.rest) (hl : ¬ c.Late)
      (hc : t.contacts = s.contacts ++ [.store key v]) :
      Ends E inner store limit key v s (.error (.persistFailed key c)) t

variable {inner : Cache ρ} {store : Store ρ} {limit : Option Duration} {key : String} {v : Value}
  {r : Answer Unit}

/-- What follows a call of the store that may have taken effect. -/
theorem runs_dropping_iff {severity : Severity} {text : String} :
    Runs (beside E)
        (Process.bind (note severity text) fun _ => (watched inner).delete key) s (some r) t ↔
      ∃ s₂, Runs E.strict (note severity text) s.rest (some ()) s₂ ∧
        Runs E.strict (inner.delete key) s₂ (some r) t.rest ∧
        t.contacts = s.contacts ++ [.inner (.delete key)] := by
  have hnote : (note severity text : Process (Traced ρ) Unit) = (note severity text).embed rested :=
    rfl
  rw [runs_bind_iff]
  constructor
  · rintro ⟨_, s', hn, hd⟩
    rw [hnote] at hn
    obtain ⟨hn, hc⟩ := runs_rested_iff.mp hn
    obtain ⟨hd, hc'⟩ := runs_recorded_iff.mp hd
    exact ⟨s'.rest, hn, hd, hc ▸ hc'⟩
  · rintro ⟨s₂, hn, hd, hc⟩
    refine ⟨(), ⟨s₂, s.contacts⟩, ?_, runs_recorded_iff.mpr ⟨hd, hc⟩⟩
    rw [hnote]
    exact runs_rested_iff.mpr ⟨hn, rfl⟩

theorem ends_of_runs
    (h : Runs (beside E) (WriteDelete.put (watched inner) (asked store) limit key v) s (some r) t) :
    Ends E inner store limit key v s r t := by
  obtain ⟨o, s₁, hp, hf⟩ := runs_bind_some h
  obtain ⟨hp, hc⟩ := runs_asked_iff.mp hp
  cases o with
  | ok _ =>
    obtain ⟨hd, hc'⟩ := runs_recorded_iff.mp hf
    rw [hc, List.append_assoc] at hc'
    exact .dropped (runs_persist_iff.mp hp) .stored hd hc'
  | error c =>
    dsimp only at hf
    split at hf
    · rename_i hlate
      obtain ⟨s₂, hn, hd, hc'⟩ := runs_dropping_iff.mp hf
      rw [hc, List.append_assoc] at hc'
      exact .dropped (runs_persist_iff.mp hp) (.late (Cause.isDeadline_iff.mp hlate) hn) hd hc'
    · rename_i hlate
      cases hf with
      | done hm =>
        obtain ⟨r', hr', rfl⟩ := hm
        exact .refused (runs_persist_iff.mp (hp.before hr'))
          (fun h => hlate (Cause.isDeadline_iff.mpr h)) hc

theorem runs_of_ends (h : Ends E inner store limit key v s r t) :
    Runs (beside E) (WriteDelete.put (watched inner) (asked store) limit key v) s (some r) t := by
  cases h with
  | @dropped o s₁ s₂ _ _ hs ho hd hc =>
    have hp := (runs_asked_iff (t := ⟨s₁, s.contacts ++ [.store key v]⟩)).mpr
      ⟨runs_persist_iff.mpr hs, rfl⟩
    have hc' : t.contacts = s.contacts ++ [.store key v] ++ [.inner (.delete key)] := by
      rw [hc, List.append_assoc]
      rfl
    refine hp.bind ?_
    cases ho with
    | stored => exact runs_recorded_iff.mpr ⟨hd, hc'⟩
    | late hlate hn =>
      dsimp only
      rw [if_pos (Cause.isDeadline_iff.mpr hlate)]
      exact runs_dropping_iff.mpr ⟨s₂, hn, hd, hc'⟩
  | @refused c _ hs hlate hc =>
    have hp := runs_asked_iff.mpr ⟨runs_persist_iff.mpr hs, hc⟩
    refine hp.bind ?_
    dsimp only
    rw [if_neg fun h => hlate (Cause.isDeadline_iff.mp h)]
    exact .done ((beside E).refl t)

/-- **A write that deletes calls its store once.** If the store has taken the value or has run out
of time, it then deletes the key once and answers what that answers; otherwise it answers the key
with the cause and leaves the inner cache alone. No context around a failure changes which it is. -/
theorem put_settled (E : Surroundings ρ) (inner : Cache ρ) (store : Store ρ)
    (limit : Option Duration) (key : String) (v : Value) (ttl : Duration) :
    (∀ s r t,
      Runs (beside E) ((WriteDelete.cache (watched inner) (asked store) limit).put key v ttl) s
        (some r) t ↔ Ends E inner store limit key v s r t) ∧
      ∀ contexts c, (List.foldr Cause.wrap c contexts).Late ↔ c.Late :=
  ⟨fun _ _ _ => ⟨ends_of_runs, runs_of_ends⟩, Cause.late_wrapped⟩

/-- Nothing but time passes. -/
def passing : Surroundings Session.State :=
  .exact (fun s t => ∃ n, t = { s with now := s.now + n }) (fun _ => ⟨0, rfl⟩)
    fun ⟨n, h⟩ ⟨m, h'⟩ => ⟨n + m, by subst h h'; rw [← Nat.add_assoc]⟩

theorem now_session (s : Session.State) : Clock.now s = s.now :=
  Nat.mul_div_cancel _ (by decide)

/-- A store that takes its time. -/
def sleeper (d : Duration) : Store Session.State := fun _ _ => do
  Process.sleep d
  return .ok ()

/-- A session that begins with a stale copy. -/
def stale : Session.State :=
  (Session.State.engineSlot 0).set
    { Engine.empty with table := Table.empty.put 0 "k" (.bool false) .zero } default

/-- A store that takes 200 milliseconds, and is given 20: it is asked once and given up, and the
stale copy is dropped. -/
theorem put_settled_expired :
    let inner := (Session.State.memory 0).cache
    let store := sleeper (.ofMillis 200)
    let limit := some (Duration.ofMillis 20)
    ∃ t, Runs (beside passing)
        ((WriteDelete.cache (watched inner) (asked store) limit).put "k" (.bool true) .zero)
        ⟨stale, []⟩ (some (.ok ())) t ∧
      t.contacts = [.store "k" (.bool true), .inner (.delete "k")] ∧
      ((Session.State.engineSlot 0).get t.rest).table.find? "k" = none := by
  intro inner store limit
  have hs := (put_settled passing inner store limit "k" (.bool true) .zero).1
  have hlimit : deadlineAfter (.ofMillis 20) stale = 20 := by decide
  have hlong : deadlineAfter (.ofMillis 200) stale = 200 := by decide
  let late : Session.State := { stale with now := 0 + 20 }
  have hpass : passing.moves stale late := ⟨20, rfl⟩
  have hover : Overdue passing.moves (deadlineAfter (.ofMillis 20) stale) (store "k" (.bool true))
      stale late := by
    refine .act (passing.refl stale) (.gone hpass ?_ ?_ (passing.refl late) (passing.refl late))
    · exact Nat.le_of_eq (hlimit.trans (now_session late).symm)
    · refine decide_eq_false ?_
      rw [hlong, now_session]
      decide
  have hcall : Concluded passing (store "k" (.bool true)) limit stale (.error .timer) late :=
    .expired rfl (passing.refl stale) hover
  let noted : Session.State := Journal.note .warning
    ("Store func for key " ++ "k" ++ " hit its deadline: " ++ Cause.timer.text) late
  let dropped : Session.State :=
    (Session.State.engineSlot 0).modify (fun e => { e with table := e.table.erase "k" }) noted
  have htolerated : Tolerated passing "k" late (.error .timer) noted :=
    .late ⟨_, List.mem_singleton.mpr rfl, .elapsed⟩ (.act (passing.refl _) (.done (passing.refl _)))
  have hdelete : Runs passing.strict (inner.delete "k") noted (some (.ok ())) dropped :=
    .act (passing.refl _) (.done (passing.refl _))
  refine ⟨⟨dropped, _⟩, (hs _ _ _).mpr (.dropped hcall htolerated hdelete rfl), rfl, ?_⟩
  decide

end Traced
end LayeredCache

import LayeredCache.Proofs.Backed

/-!
# Writes that are refused

What a write has done when it ends with an error. Every layer that writes elsewhere, too, has its
own order: some write to the source first and touch the cache only if that succeeded, others write
to the cache first and look after their own state only then. Where the first part fails, the run of
the write is a run of this part, from beginning to end, and nothing else has been done.

A cache below may fail by itself once it is reached, and that is told apart.

Results:
* `fails_writeThrough`, `fails_writeDelete`, `fails_asidePut`: writes that begin with the source.
* `stepFails_of_runs`: where a counter that is stepped in the source can fail.
* `failsWith_guard`, `failsWith_preload`: writes that begin with the inner cache.
* `calm_of_commits`: a store that fails has written nothing.
* `write_refused`: what this comes to over any cache, and what it comes to for the entries of a
  memory cache and for the rows of its source.
-/

namespace LayeredCache

open Process

/-! ## Writes that begin with the source -/

section Source

variable {σ : Type} [Clock σ] {E : Surroundings σ} {inner : Cache σ} {store : Store σ}
  {key : String} {v : Value} {s t : σ}

/-- A collaborator has refused a write, and its call is all that the run was. -/
def Alone (E : Surroundings σ) (call : Process σ (Except Cause Unit)) (key : String) (s : σ)
    (e : CacheError) (t : σ) : Prop :=
  ∃ c, e = .persistFailed key c ∧ Runs E call s (some (.error c)) t

theorem fails_writeThrough {ttl : Duration} {e : CacheError}
    (h : Runs E ((WriteThrough.cache inner store).put key v ttl) s (some (.error e)) t) :
    Alone E (store key v) key s e t ∨
      ∃ s', Runs E (store key v) s (some (.ok ())) s' ∧
        Runs E (inner.put key v ttl) s' (some (.error e)) t := by
  obtain ⟨a, s', hs, hf⟩ := runs_bind_some h
  cases a with
  | error c =>
    cases hf with
    | done hm => exact .inl ⟨c, rfl, hs.before hm⟩
  | ok _ => exact .inr ⟨s', hs, hf⟩

/-- Where a call within a limit answers, it has answered by itself, unless the timer ran out. -/
theorem refused_of_persist {limit : Option Duration} {c : Cause} (hc : c.isDeadline = false)
    (h : Runs E (WriteDelete.persist store limit key v) s (some (.error c)) t) :
    Runs E (store key v) s (some (.error c)) t := by
  cases limit with
  | none => exact h
  | some d =>
    obtain ⟨o, s', hp, hf⟩ := runs_bind_some h
    have hp := runs_timeout hp
    cases o with
    | some a =>
      cases hf with
      | done hm => exact hp.before hm
    | none =>
      cases hf with
      | done => cases hc

variable [Journal σ]

/-- The store has taken a value, or it has run out of time, and that was noted. -/
inductive Taken (E : Surroundings σ) (store : Store σ) (limit : Option Duration) (key : String)
    (v : Value) (s : σ) : σ → Prop
  | stored {s' : σ} (h : Runs E (WriteDelete.persist store limit key v) s (some (.ok ())) s') :
      Taken E store limit key v s s'
  | late {c : Cause} {s₁ s' : σ} {text : String} (hc : c.isDeadline = true)
      (h : Runs E (WriteDelete.persist store limit key v) s (some (.error c)) s₁)
      (hn : Runs E (note .warning text) s₁ (some ()) s') : Taken E store limit key v s s'

theorem fails_writeDelete {limit : Option Duration} {e : CacheError}
    (h : Runs E (WriteDelete.put inner store limit key v) s (some (.error e)) t) :
    Alone E (store key v) key s e t ∨
      ∃ s', Taken E store limit key v s s' ∧ Runs E (inner.delete key) s' (some (.error e)) t := by
  obtain ⟨a, s', hs, hf⟩ := runs_bind_some h
  cases a with
  | ok _ => exact .inr ⟨s', .stored hs, hf⟩
  | error c =>
    dsimp only at hf
    split at hf
    · rename_i hc
      obtain ⟨_, s₂, hn, hd⟩ := runs_bind_some hf
      exact .inr ⟨s₂, .late hc hs hn, hd⟩
    · rename_i hc
      cases hf with
      | done hm => exact .inl ⟨c, rfl, (refused_of_persist (by simpa using hc) hs).before hm⟩

/-- A double delete that fails has called for no second one. -/
theorem fails_doubleDelete {limit : Option Duration} {later : String → σ → σ} {ttl : Duration}
    {e : CacheError}
    (h : Runs E ((WriteDelete.doubleCache inner store limit later).put key v ttl) s
      (some (.error e)) t) :
    Runs E (WriteDelete.put inner store limit key v) s (some (.error e)) t := by
  obtain ⟨a, s', hs, hf⟩ := runs_bind_some h
  cases a with
  | error e' =>
    cases hf with
    | done hm => exact hs.before hm
  | ok _ =>
    obtain ⟨_, s₂, -, hd⟩ := runs_bind_some hf
    cases hd

end Source

/-! ## Beside the cache -/

section Aside

variable {σ : Type} [Clock σ] {E : Surroundings σ} {inner : Cache σ} {reader : Loader σ}
  {writer : Store σ} {ttl : Duration} {key : String} {s t : σ}

theorem fails_asidePut {v : Value} {e : CacheError}
    (h : Runs E (CacheAside.put inner writer key v) s (some (.error e)) t) :
    Alone E (writer key v) key s e t ∨
      ∃ s', Runs E (writer key v) s (some (.ok ())) s' ∧
        Runs E (CacheAside.invalidate inner key) s' (some (.error e)) t := by
  obtain ⟨a, s', hs, hf⟩ := runs_bind_some h
  cases a with
  | error c =>
    cases hf with
    | done hm => exact .inl ⟨c, rfl, hs.before hm⟩
  | ok _ => exact .inr ⟨s', hs, hf⟩

/-- What a read beside the cache has done when it found a value: it was cached, or else it was read
from the source and then cached. -/
inductive Fetched (E : Surroundings σ) (inner : Cache σ) (reader : Loader σ) (ttl : Duration)
    (key : String) (s : σ) : Value → σ → Prop
  | hit {v : Value} {t : σ} (h : Runs E (inner.get key) s (some (.ok v)) t) :
      Fetched E inner reader ttl key s v t
  | filled {x : CacheError} {v : Value} {s₁ s₂ t : σ}
      (hm : Runs E (inner.get key) s (some (.error x)) s₁)
      (hr : Runs E (reader key) s₁ (some (.ok v)) s₂)
      (hp : Runs E (inner.put key v ttl) s₂ (some (.ok ())) t) :
      Fetched E inner reader ttl key s v t

/-- What a step beside the cache has done when it has failed. -/
inductive StepFails (E : Surroundings σ) (inner : Cache σ) (reader : Loader σ) (writer : Store σ)
    (ttl : Duration) (d : Step) (key : String) (s : σ) : CacheError → σ → Prop
  /-- The source has not given the value. -/
  | unread {x : CacheError} {c : Cause} {s' t : σ}
      (hm : Runs E (inner.get key) s (some (.error x)) s')
      (hr : Runs E (reader key) s' (some (.error c)) t) :
      StepFails E inner reader writer ttl d key s (.loadFailed key c) t
  /-- The inner cache has not taken what was read. -/
  | uncached {x e : CacheError} {v : Value} {s₁ s₂ t : σ}
      (hm : Runs E (inner.get key) s (some (.error x)) s₁)
      (hr : Runs E (reader key) s₁ (some (.ok v)) s₂)
      (hp : Runs E (inner.put key v ttl) s₂ (some (.error e)) t) :
      StepFails E inner reader writer ttl d key s e t
  /-- The value cannot be stepped. -/
  | unstepped {e : CacheError} {v : Value} {t : σ} (hf : Fetched E inner reader ttl key s v t)
      (hv : v.step key d = .error e) : StepFails E inner reader writer ttl d key s e t
  /-- The source has not taken the stepped value. -/
  | unwritten {c : Cause} {v v' : Value} {s' t : σ} (hf : Fetched E inner reader ttl key s v s')
      (hv : v.step key d = .ok v') (hw : Runs E (writer key v') s' (some (.error c)) t) :
      StepFails E inner reader writer ttl d key s (.persistFailed key c) t
  /-- The inner cache has not dropped its copy. -/
  | undropped {e : CacheError} {v v' : Value} {s₁ s₂ t : σ}
      (hf : Fetched E inner reader ttl key s v s₁) (hv : v.step key d = .ok v')
      (hw : Runs E (writer key v') s₁ (some (.ok ())) s₂)
      (hi : Runs E (CacheAside.invalidate inner key) s₂ (some (.error e)) t) :
      StepFails E inner reader writer ttl d key s e t

theorem fetched_before {v : Value} {t' : σ} (h : Fetched E inner reader ttl key s v t)
    (hm : E.moves t t') : Fetched E inner reader ttl key s v t' := by
  cases h with
  | hit h => exact .hit (h.before hm)
  | filled hx hr hp => exact .filled hx hr (hp.before hm)

/-- A read beside the cache finds a value, or a step that begins with it fails there. -/
theorem fetched_of_runs (writer : Store σ) (d : Step) {a : Answer Value}
    (h : Runs E (CacheAside.get inner reader ttl key) s (some a) t) :
    (∃ v, a = .ok v ∧ Fetched E inner reader ttl key s v t) ∨
      ∃ e, a = .error e ∧ StepFails E inner reader writer ttl d key s e t := by
  obtain ⟨b, s₁, hg, hf⟩ := runs_bind_some h
  cases b with
  | ok v =>
    cases hf with
    | done hm => exact .inl ⟨v, rfl, .hit (hg.before hm)⟩
  | error x =>
    obtain ⟨l, s₂, hl, hf⟩ := runs_bind_some hf
    cases l with
    | error c =>
      cases hf with
      | done hm => exact .inr ⟨_, rfl, .unread hg (hl.before hm)⟩
    | ok v =>
      obtain ⟨p, s₃, hp, hf⟩ := runs_bind_some hf
      cases p with
      | ok _ =>
        cases hf with
        | done hm => exact .inl ⟨v, rfl, .filled hg hl (hp.before hm)⟩
      | error e =>
        cases hf with
        | done hm => exact .inr ⟨e, rfl, .uncached hg hl (hp.before hm)⟩

/-- **Where a counter that is stepped in the source can fail**, and what has been done by then. -/
theorem stepFails_of_runs {d : Step} {e : CacheError}
    (h : Runs E (CacheAside.step inner reader writer ttl d key) s (some (.error e)) t) :
    StepFails E inner reader writer ttl d key s e t := by
  obtain ⟨a, s₁, hg, hf⟩ := runs_bind_some h
  cases a with
  | error x =>
    cases hf with
    | done hm =>
      rcases fetched_of_runs writer d (hg.before hm) with ⟨v, hv, -⟩ | ⟨y, hy, hx⟩
      · cases hv
      · obtain rfl := Except.error.inj hy
        exact hx
  | ok v =>
    rcases fetched_of_runs writer d hg with ⟨v', hv', hv⟩ | ⟨y, hy, -⟩
    · obtain rfl := Except.ok.inj hv'
      dsimp only at hf
      cases hs : v.step key d with
      | error x =>
        rw [hs] at hf
        cases hf with
        | done hm => exact .unstepped (fetched_before hv hm) hs
      | ok v' =>
        rw [hs] at hf
        rcases fails_asidePut hf with ⟨c, rfl, hw⟩ | ⟨s₂, hw, hi⟩
        · exact .unwritten hv hs hw
        · exact .undropped hv hs hw hi
    · cases hy

end Aside

/-! ## Writes that begin with the inner cache -/

section Inner

variable {σ : Type} [Clock σ] {E : Surroundings σ} {inner : Cache σ} {key : String} {v : Value}
  {ttl : Duration} {s t : σ}

/-- A write that begins with another one: where that fails it answers the same error, and nothing
has followed; and it fails nowhere else. -/
def FailsWith (E : Surroundings σ) (first : Process σ (Answer Unit)) (s : σ) (r : Answer Unit)
    (t : σ) : Prop :=
  (∃ e, r = .error e ∧ Runs E first s (some (.error e)) t) ∨
    r = .ok () ∧ ∃ s', Runs E first s (some (.ok ())) s'

theorem failsWith_guard {filter : Guard.Membership σ} {policy : Guard.Policy} {r : Answer Unit}
    (h : Runs E (Guard.put inner filter policy key v ttl) s (some r) t) :
    FailsWith E (inner.put key v ttl) s r t := by
  obtain ⟨a, s', hp, hf⟩ := runs_bind_some h
  cases a with
  | error e =>
    cases hf with
    | done hm => exact .inl ⟨e, rfl, hp.before hm⟩
  | ok _ =>
    refine .inr ⟨?_, s', hp⟩
    dsimp only at hf
    split at hf
    · cases hf with
      | act _ hk =>
        cases hk with
        | done => rfl
    · cases hf with
      | done => rfl

theorem failsWith_preload {sentinel : Memory σ} {realTtl sentinelTtl : Duration} {r : Answer Unit}
    (h : Runs E (Preload.put inner sentinel realTtl sentinelTtl key v) s (some r) t) :
    FailsWith E (inner.put key v realTtl) s r t := by
  obtain ⟨a, s', hp, hf⟩ := runs_bind_some h
  cases a with
  | error e =>
    cases hf with
    | done hm => exact .inl ⟨e, rfl, hp.before hm⟩
  | ok _ =>
    refine .inr ⟨?_, s', hp⟩
    cases hf with
    | act _ hk =>
      cases hk with
      | done => rfl

end Inner

/-! ## Over a memory cache and its source -/

namespace Backed

variable {ρ : Type} {key : String} {v : Value} {ttl : Duration} {s t : Backed ρ}

/-- Others leave the rows and the engine alone while time passes. -/
def calm : Surroundings (Backed ρ) :=
  .exact (fun s t => t.rows = s.rows ∧ t.engine = s.engine ∧ s.instant ≤ t.instant)
    (fun _ => ⟨rfl, rfl, Nat.le_refl _⟩)
    fun h h' => ⟨h'.1.trans h.1, h'.2.1.trans h.2.1, Nat.le_trans h.2.2 h'.2.2⟩

theorem calm_of_elsewhere (h : Elsewhere s t) : calm.moves s t := by
  obtain ⟨r, rfl⟩ := h
  exact calm.refl s

/-- **A store that fails has written nothing.** -/
theorem calm_of_commits {p : Process (Backed ρ) (Except Cause Unit)} (hp : Commits key v p)
    {c : Cause} (h : Runs calm p s (some (.error c)) t) : calm.moves s t := by
  generalize ho : some (Except.error c : Except Cause Unit) = o at h
  induction hp generalizing s with
  | fail c =>
    cases h with
    | done hm => exact hm
  | @act g k last hg hk hw ih =>
    cases h with
    | @act _ _ _ s' _ _ hm hr =>
      by_cases hl : last s'
      · rw [(hw s' hl).2] at hr
        cases hr with
        | done => cases ho
      · exact calm.trans hm (calm.trans (calm_of_elsewhere (hg s' hl)) (ih s' hl hr))
  | wait hc _ ih =>
    cases h with
    | wait hm _ hr => exact calm.trans hm (ih _ hr)
    | gone => cases ho

variable {w : Source ρ}

theorem keeps_load (w : Source ρ) (key : String) : Keeps calm.moves (w.load key) :=
  (w.apart key).mono fun _ _ => calm_of_elsewhere

/-- A load that succeeds has found the row. -/
theorem row_of_load (h : Runs calm (w.load key) s (some (.ok v)) t) : s.rows key = some v := by
  have hE (u u' : Backed ρ) (hm : calm.moves u u') (hu : u.rows = s.rows) : u'.rows = s.rows :=
    hm.1.trans hu
  exact (runs_of_maintains (w.reads key s.rows) hE h rfl).2 _ rfl v rfl

theorem runs_memoryGet {a : Answer Value}
    (h : Runs calm ((memory w).cache.get key) s (some a) t) :
    calm.moves s t ∧
      ∃ now, s.instant ≤ now ∧ now ≤ t.instant ∧ s.engine.table.read now key = a := by
  cases h with
  | @act _ _ _ s' _ _ hm hk =>
    cases hk with
    | done ht =>
      refine ⟨calm.trans hm ht, s'.instant, hm.2.2, ht.2.2, ?_⟩
      rw [← hm.2.1]
      rfl

/-- A put into the engine succeeds. -/
theorem runs_memoryPut {a : Answer Unit}
    (h : Runs calm ((memory w).cache.put key v ttl) s (some a) t) :
    a = .ok () ∧ t.rows = s.rows ∧ ∃ now, s.instant ≤ now ∧
      t.engine = { s.engine with table := s.engine.table.put now key v ttl } := by
  cases h with
  | @act _ _ _ s' _ _ hm hk =>
    cases hk with
    | done ht =>
      refine ⟨rfl, ht.1.trans hm.1, s'.instant, hm.2.2, ht.2.1.trans ?_⟩
      rw [← hm.2.1]
      rfl

theorem runs_memoryDelete {a : Answer Unit}
    (h : Runs calm ((memory w).cache.delete key) s (some a) t) : a = .ok () := by
  cases h with
  | act _ hk =>
    cases hk with
    | done => rfl

theorem runs_memoryInvalidate {a : Answer Unit}
    (h : Runs calm (CacheAside.invalidate (memory w).cache key) s (some a) t) : a = .ok () := by
  obtain ⟨b, s', hb, hf⟩ := runs_bind_some h
  cases hb with
  | act _ hk =>
    cases hk with
    | done =>
      dsimp only at hf
      split at hf
      · rename_i he
        cases he
      · cases hf with
        | done => rfl
      · exact runs_memoryDelete hf

/-- The rows and the engine are as they were. -/
def Untouched (s t : Backed ρ) : Prop := t.rows = s.rows ∧ t.engine = s.engine

/-- The key was not live when it was looked for, and then its row was cached. -/
def Filled (key : String) (ttl : Duration) (s t : Backed ρ) : Prop :=
  ∃ v seen now, s.instant ≤ seen ∧ s.engine.table.isLive seen key = false ∧
    s.rows key = some v ∧ seen ≤ now ∧
    t.engine = { s.engine with table := s.engine.table.put now key v ttl }

/-- The rows are as they were, and so is the engine, but that the row of the key may have been
cached where it was missing. -/
def Left (key : String) (ttl : Duration) (s t : Backed ρ) : Prop :=
  t.rows = s.rows ∧ (t.engine = s.engine ∨ Filled key ttl s t)

theorem untouched_of_calm (h : calm.moves s t) : Untouched s t := ⟨h.1, h.2.1⟩

theorem left_calm {t' : Backed ρ} (h : Left key ttl s t) (hm : calm.moves t t') :
    Left key ttl s t' := by
  obtain ⟨hr, he | ⟨v, seen, now, hs, hl, hv, hn, he⟩⟩ := h
  · exact ⟨hm.1.trans hr, .inl (hm.2.1.trans he)⟩
  · exact ⟨hm.1.trans hr, .inr ⟨v, seen, now, hs, hl, hv, hn, hm.2.1.trans he⟩⟩

theorem isLive_of_read {t : Table} {now : Nat} {x : CacheError} (h : t.read now key = .error x) :
    t.isLive now key = false := by
  unfold Table.read at h
  unfold Table.isLive
  cases he : t.find? key with
  | none => rfl
  | some e =>
    cases hx : e.isExpiredAt now with
    | true => simp [hx]
    | false => simp [he, hx] at h

theorem left_of_fetched (h : Fetched calm (memory w).cache w.load ttl key s v t) :
    Left key ttl s t := by
  cases h with
  | hit h =>
    obtain ⟨hr, he⟩ := untouched_of_calm (runs_memoryGet h).1
    exact ⟨hr, .inl he⟩
  | @filled x _ s₁ s₂ _ hm hr hp =>
    obtain ⟨hm, seen, hs, hn, hread⟩ := runs_memoryGet hm
    have hl := moves_of_runs (keeps_load w key) hr
    have hms := calm.trans hm hl
    obtain ⟨-, hrows, now, hnow, he⟩ := runs_memoryPut hp
    refine ⟨hrows.trans hms.1, .inr ⟨v, seen, now, hs, isLive_of_read hread, ?_, ?_, ?_⟩⟩
    · rw [← hm.1]
      exact row_of_load hr
    · exact Nat.le_trans hn (Nat.le_trans hl.2.2 hnow)
    · rw [he, hms.2.1]

theorem left_of_stepFails {d : Step} {e : CacheError}
    (h : StepFails calm (memory w).cache w.load w.store ttl d key s e t) : Left key ttl s t := by
  cases h with
  | unread hm hr =>
    have hms := calm.trans (runs_memoryGet hm).1 (moves_of_runs (keeps_load w key) hr)
    exact ⟨hms.1, .inl hms.2.1⟩
  | uncached _ _ hp => cases (runs_memoryPut hp).1
  | unstepped hf _ => exact left_of_fetched hf
  | unwritten hf _ hw => exact left_calm (left_of_fetched hf) (calm_of_commits (w.commits key _) hw)
  | undropped _ _ _ hi => cases runs_memoryInvalidate hi

/-- A write that the store alone has seen has left the rows and the engine as they were. -/
theorem untouched_of_alone {e : CacheError} (h : Alone calm (w.store key v) key s e t) :
    (∃ c, e = .persistFailed key c) ∧ Untouched s t := by
  obtain ⟨c, rfl, hs⟩ := h
  exact ⟨⟨c, rfl⟩, untouched_of_calm (calm_of_commits (w.commits key v) hs)⟩

end Backed

/-! ## Both -/

/-- What has been done by a write that has failed, for every layer that writes elsewhere, too, over
this cache. -/
structure Refusals {σ : Type} [Clock σ] [Journal σ] (E : Surroundings σ) (inner : Cache σ) :
    Prop where
  /-- Nothing but the call of the store, or else the store took the value and the inner cache
  failed. -/
  writeThrough : ∀ {store key v ttl e s t},
    Runs E ((WriteThrough.cache inner store).put key v ttl) s (some (.error e)) t →
      Alone E (store key v) key s e t ∨
        ∃ s', Runs E (store key v) s (some (.ok ())) s' ∧
          Runs E (inner.put key v ttl) s' (some (.error e)) t
  /-- Nothing but the call of the store, or else the inner cache failed to delete. -/
  writeDelete : ∀ {store limit key v ttl e s t},
    Runs E ((WriteDelete.cache inner store limit).put key v ttl) s (some (.error e)) t →
      Alone E (store key v) key s e t ∨
        ∃ s', Taken E store limit key v s s' ∧ Runs E (inner.delete key) s' (some (.error e)) t
  /-- The same, and no second delete was called for. -/
  writeDoubleDelete : ∀ {store limit later key v ttl e s t},
    Runs E ((WriteDelete.doubleCache inner store limit later).put key v ttl) s (some (.error e)) t →
      Alone E (store key v) key s e t ∨
        ∃ s', Taken E store limit key v s s' ∧ Runs E (inner.delete key) s' (some (.error e)) t
  /-- Nothing but the call of the writer, or else the inner cache failed to drop its copy. -/
  asidePut : ∀ {reader writer ttl key v ttl' e s t},
    Runs E ((CacheAside.cache inner reader writer ttl).put key v ttl') s (some (.error e)) t →
      Alone E (writer key v) key s e t ∨
        ∃ s', Runs E (writer key v) s (some (.ok ())) s' ∧
          Runs E (CacheAside.invalidate inner key) s' (some (.error e)) t
  /-- Nothing is written unless the value was read, or read and cached, and could be stepped. -/
  asideStep : ∀ {reader writer ttl d key e s t},
    Runs E ((CacheAside.cache inner reader writer ttl).step d key) s (some (.error e)) t →
      StepFails E inner reader writer ttl d key s e t
  /-- The key is added only when the inner cache has taken the value. -/
  guarded : ∀ {load filter policy key v ttl r s t},
    Runs E ((Guard.cache inner load filter policy).put key v ttl) s (some r) t →
      FailsWith E (inner.put key v ttl) s r t
  /-- The sentinel is armed only when the inner cache has taken the value. -/
  preloaded : ∀ {sentinel realTtl sentinelTtl key v ttl r s t},
    Runs E ((Preload.cache inner sentinel realTtl sentinelTtl).put key v ttl) s (some r) t →
      FailsWith E (inner.put key v realTtl) s r t

/-- What that comes to over a memory cache, for its entries and for the rows of the source. -/
structure Spared {ρ : Type} [Journal ρ] (w : Backed.Source ρ) : Prop where
  writeThrough : ∀ {key v ttl e s t},
    Runs Backed.calm ((WriteThrough.cache (Backed.memory w).cache w.store).put key v ttl) s
      (some (.error e)) t → (∃ c, e = .persistFailed key c) ∧ Backed.Untouched s t
  writeDelete : ∀ {limit key v ttl e s t},
    Runs Backed.calm ((WriteDelete.cache (Backed.memory w).cache w.store limit).put key v ttl) s
      (some (.error e)) t → (∃ c, e = .persistFailed key c) ∧ Backed.Untouched s t
  writeDoubleDelete : ∀ {limit later key v ttl e s t},
    Runs Backed.calm
      ((WriteDelete.doubleCache (Backed.memory w).cache w.store limit later).put key v ttl) s
      (some (.error e)) t → (∃ c, e = .persistFailed key c) ∧ Backed.Untouched s t
  asidePut : ∀ {ttl key v ttl' e s t},
    Runs Backed.calm
      ((CacheAside.cache (Backed.memory w).cache w.load w.store ttl).put key v ttl') s
      (some (.error e)) t → (∃ c, e = .persistFailed key c) ∧ Backed.Untouched s t
  asideStep : ∀ {ttl d key e s t},
    Runs Backed.calm ((CacheAside.cache (Backed.memory w).cache w.load w.store ttl).step d key) s
      (some (.error e)) t → Backed.Left key ttl s t

theorem refusals_of_runs {σ : Type} [Clock σ] [Journal σ] (E : Surroundings σ) (inner : Cache σ) :
    Refusals E inner where
  writeThrough := fails_writeThrough
  writeDelete := fails_writeDelete
  writeDoubleDelete h := fails_writeDelete (fails_doubleDelete h)
  asidePut := fails_asidePut
  asideStep := stepFails_of_runs
  guarded := failsWith_guard
  preloaded := failsWith_preload

namespace Backed

variable {ρ : Type} [Journal ρ]

theorem untouched_of_writeDelete {w : Source ρ} {limit : Option Duration} {key : String} {v : Value}
    {e : CacheError} {s t : Backed ρ}
    (h : Runs calm (WriteDelete.put (memory w).cache w.store limit key v) s (some (.error e)) t) :
    (∃ c, e = .persistFailed key c) ∧ Untouched s t := by
  rcases fails_writeDelete h with ha | ⟨s', -, hd⟩
  · exact untouched_of_alone ha
  · cases runs_memoryDelete hd

theorem spared_of_runs (w : Source ρ) : Spared w where
  writeThrough h := by
    rcases fails_writeThrough h with ha | ⟨s', -, hp⟩
    · exact untouched_of_alone ha
    · cases (runs_memoryPut hp).1
  writeDelete h := untouched_of_writeDelete h
  writeDoubleDelete h := untouched_of_writeDelete (fails_doubleDelete h)
  asidePut h := by
    rcases fails_asidePut h with ha | ⟨s', -, hi⟩
    · exact untouched_of_alone ha
    · cases runs_memoryInvalidate hi
  asideStep h := left_of_stepFails (stepFails_of_runs h)

end Backed

/-- **A write that is refused leaves everything as it was.** In any surroundings and over any cache,
where a collaborator refuses, its call is all that has been done; where the inner cache fails, what
looks after it has not begun. Over a memory cache the entries and the rows are as they were, but
that the row of a counter may have been cached on the way. -/
theorem write_refused {σ ρ : Type} [Clock σ] [Journal σ] [Journal ρ] (E : Surroundings σ)
    (inner : Cache σ) (w : Backed.Source ρ) : Refusals E inner ∧ Spared w :=
  ⟨refusals_of_runs E inner, Backed.spared_of_runs w⟩

/-- A counter at the end of its range, not cached, beside a source that takes nothing: the row is
cached on the way, and that is all. -/
theorem write_refused_atEnd :
    let w : Backed.Source Session.State :=
      .deciding (fun _ => .done none) fun _ _ => .done (some (.ofText "down"))
    let c := CacheAside.cache (Backed.memory w).cache w.load w.store .zero
    let s : Backed Session.State :=
      ⟨0, .empty, fun _ => some (.int ⟨.int8, 127, by decide⟩), default⟩
    let r := (c.step .up "n").advance s
    r.1 = .done (.error (.incrementOverflow "n")) ∧ Backed.Left "n" .zero s r.2 := by
  intro w c s r
  have hr : r.1 = .done (.error (.incrementOverflow "n")) := by
    unfold r s c w
    rfl
  have h := write_refused Backed.calm (Backed.memory w).cache w
  exact ⟨hr, h.2.asideStep (runs_of_advance hr)⟩

end LayeredCache

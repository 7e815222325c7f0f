import LayeredCache.Proofs.Warm

/-!
# A key of a preloading cache

What is to be seen of one key while a preloading cache is at work: when its entry and its sentinel
were stored and for how long, the loop of the sentinels' engine, and the refreshes called for. Every
step of a caller and of a refresh is, for one key, one of a few changes of what is seen.

Results:
* `stamp_of_does`, `stamp_sweep`: what calls and reclamation passes do to the entry of a key.
* `sees_of_steps`: what one step of a caller is for a key.
* `view_arm`, `view_write`: what the writes of a refresh are for a key.
* `beats_of_steps`: what one step of the sentinels' loop is for a key.
-/

namespace LayeredCache.Warm

variable {ρ : Type}

/-! ## Stamps -/

/-- When the entry of a key was stored, and for how long. -/
def stamp (t : Table) (k : String) : Option (Nat × Duration) :=
  (t.find? k).map fun e => (e.created, e.lifespan)

theorem stamp_put (t : Table) (now : Nat) (key : String) (v : Value) (ttl : Duration) (k : String) :
    stamp (t.put now key v ttl) k = if k = key then some (now, ttl) else stamp t k := by
  rw [stamp, Table.put, Table.find?_insert]
  split <;> rfl

theorem stamp_erase (t : Table) (key k : String) :
    stamp (t.erase key) k = if k = key then none else stamp t k := by
  rw [stamp, Table.find?_erase]
  split <;> rfl

/-- A value that changes in place leaves the stamp. -/
theorem stamp_setValue (t : Table) (key : String) (v : Value) (k : String) :
    stamp (t.setValue key v) k = stamp t k := by
  rw [stamp, stamp, Table.find?_setValue]
  split
  · rw [Option.map_map]
    rfl
  · rfl

theorem stamp_step {t t' : Table} {now : Nat} {key : String} {d : Step}
    (h : t.step now key d = .ok t') (k : String) : stamp t' k = stamp t k := by
  obtain ⟨v, rfl⟩ := Table.setValue_of_step h
  exact stamp_setValue t key v k

/-- The stamp says that the entry is expired. -/
def Gone (now : Nat) (x : Nat × Duration) : Prop := x.2.toNanos ≠ 0 ∧ x.1 + x.2.toNanos < now

/-- A removal takes the entry of a key it is asked for exactly if that is expired, and hands over
what it takes. -/
theorem stamp_sweep (now : Nat) (keys : List String) (t : Table) (k : String) :
    (stamp (Table.sweep now keys t).2 k = stamp t k ∧
        (∀ v, (k, v) ∉ (Table.sweep now keys t).1) ∧
        ∀ x, stamp t k = some x → k ∈ keys → ¬ Gone now x) ∨
      stamp (Table.sweep now keys t).2 k = none ∧ (∃ v, (k, v) ∈ (Table.sweep now keys t).1) ∧
        ∃ x, stamp t k = some x ∧ Gone now x := by
  have hf : stamp (Table.sweep now keys t).2 k = ((if k ∈ keys then (t.find? k).filter (fun e =>
      !e.isExpiredAt now) else t.find? k).map fun e => (e.created, e.lifespan)) := by
    rw [stamp, Table.find?_sweep]
  by_cases hk : k ∈ keys ∧ ∃ e, t.find? k = some e ∧ e.isExpiredAt now = true
  · obtain ⟨hm, e, he, hx⟩ := hk
    refine .inr ⟨?_, ⟨e.value, Table.mem_sweep_iff.mpr ⟨hm, e, he, hx, rfl⟩⟩,
      (e.created, e.lifespan), ?_, Entry.isExpiredAt_iff.mp hx⟩
    · rw [hf, if_pos hm, he]
      simp [Option.filter, hx]
    · rw [stamp, he]
      rfl
  · refine .inl ⟨?_, fun v hv => ?_, fun x hx hm hg => ?_⟩
    · rw [hf]
      split
      · rename_i hm
        cases he : t.find? k with
        | none => simp [stamp, he]
        | some e =>
          have hx : e.isExpiredAt now = false := by simpa [hm, he] using hk
          simp [stamp, he, Option.filter, hx]
      · rfl
    · obtain ⟨hm, e, he, hx, -⟩ := Table.mem_sweep_iff.mp hv
      exact hk ⟨hm, e, he, hx⟩
    · obtain ⟨e, he, rfl⟩ := Option.map_eq_some_iff.mp hx
      exact hk ⟨hm, e, he, Entry.isExpiredAt_iff.mpr hg⟩

/-- The scan finds a key whose stamp says that it is expired. -/
theorem mem_expiredKeys {t : Table} {now : Nat} {k : String} {x : Nat × Duration}
    (h : stamp t k = some x) (hg : Gone now x) : k ∈ t.expiredKeys now := by
  obtain ⟨e, he, rfl⟩ := Option.map_eq_some_iff.mp h
  exact Table.mem_expiredKeys_iff.mpr ⟨e, he, Entry.isExpiredAt_iff.mpr hg⟩

/-- A call that is passed on stores and removes nothing. -/
theorem stamp_of_does {now : Nat} {t t' : Table} {x : Call} {r : Answer Reply} (hp : Passed x)
    (h : Memory.Does now t x r t') (k : String) : stamp t' k = stamp t k := by
  cases h with
  | put key v ttl => exact hp.elim
  | delete key => exact hp.elim
  | clearAll => exact hp.elim
  | step h => exact stamp_step h k
  | _ => rfl

/-! ## What is seen of a key -/

/-- What is to be seen of a key. -/
structure View where
  now : Nat
  entry : Option (Nat × Duration)
  sentinel : Option (Nat × Duration)
  loop : Option Loop
  watched : Bool
  refreshes : List Refresh

/-- What is to be seen of a key in a state. -/
def view (k : String) (s : Warm ρ) : View :=
  ⟨s.instant, stamp s.inner.table k, stamp s.sentinel.table k, s.sentinel.loop,
    s.sentinel.watched, s.refreshes⟩

theorem view_elsewhere {k : String} {s s' : Warm ρ} (h : Elsewhere s s') :
    view k s' = view k s := by
  obtain ⟨r, rfl⟩ := h
  rfl

theorem view_setInner (k : String) (t : Table) (s : Warm ρ) :
    view k (setInner t s) = { view k s with entry := stamp t k } := rfl

theorem view_setSentinel (k : String) (t : Table) (s : Warm ρ) :
    view k (setSentinel t s) = { view k s with sentinel := stamp t k } := rfl

/-- What one step of a caller is for a key. -/
inductive Sees (k : String) (real ttl : Duration) (v : View) : Client → Client → View → Prop
  | same {x x' : Client} (hx : x ≠ .arming k) (hx' : x' ≠ .arming k) : Sees k real ttl v x x' v
  | put (u : Value) (d : Duration) :
      Sees k real ttl v (.call (.put k u d)) (.arming k) { v with entry := some (v.now, real) }
  | arm : Sees k real ttl v (.arming k) (.finished (.ok .nothing))
      { v with sentinel := some (v.now, ttl) }
  | disarm {x x' : Client} (hx : x = .call (.delete k) ∨ x = .call .clearAll)
      (hx' : x' ≠ .arming k) : Sees k real ttl v x x' { v with sentinel := none }
  | remove {x x' : Client} (hx : x = .deleting k ∨ x = .clearing) (hx' : x' ≠ .arming k) :
      Sees k real ttl v x x' { v with entry := none }
  | expire {stage stage' : Memory.Stage} {y : Nat × Duration} (hy : v.entry = some y)
      (hg : Gone v.now y) :
      Sees k real ttl v (.passing stage) (.passing stage') { v with entry := none }

variable {w : World ρ} {c : Preload.Config} {ttl : Duration} {k : String}

/-- **What one step of a caller is for a key.** -/
theorem sees_of_steps {x x' : Client} {s s' : Warm ρ} (h : Client.Steps w c ttl s x x' s') :
    Sees k c.realTtl ttl (view k s) x x' (view k s') := by
  cases h with
  | begin t => exact .same (by simp) (by cases t <;> simp [Client.begun])
  | pass hp ht hd =>
    have hs := stamp_of_does hp hd k
    have hv : view k s' = view k s := by
      rcases ht with rfl | ⟨e, rfl, -⟩
      · rfl
      · exact congrArg (fun y => { view k s with entry := y }) hs
    rw [hv]
    exact .same (by simp) (by simp)
  | put key v d =>
    rw [view_setInner, stamp_put]
    by_cases hk : k = key
    · subst hk
      rw [if_pos rfl]
      exact .put v d
    · rw [if_neg hk]
      exact .same (by simp) (by simpa using Ne.symm hk)
  | arm key =>
    rw [view_setSentinel, stamp_put]
    by_cases hk : k = key
    · subst hk
      rw [if_pos rfl]
      exact .arm
    · rw [if_neg hk]
      exact .same (by simpa using Ne.symm hk) (by simp)
  | disarm key =>
    rw [view_setSentinel, stamp_erase]
    by_cases hk : k = key
    · subst hk
      rw [if_pos rfl]
      exact .disarm (.inl rfl) (by simp)
    · rw [if_neg hk]
      exact .same (by simp) (by simp)
  | delete key =>
    rw [view_setInner, stamp_erase]
    by_cases hk : k = key
    · subst hk
      rw [if_pos rfl]
      exact .remove (.inl rfl) (by simp)
    · rw [if_neg hk]
      exact .same (by simp) (by simp)
  | disarmAll => exact .disarm (.inr rfl) (by simp)
  | clear => exact .remove (.inr rfl) (by simp)
  | reclaim hp =>
    cases hp with
    | evict keys =>
      have hs := stamp_sweep s.instant keys s.inner.table k
      rcases hs with ⟨hs, -⟩ | ⟨hs, -, y, hy, hg⟩
      · have hv : view k { s with inner := (s.inner.sweep s.instant keys).2 } = view k s :=
          congrArg (fun y => { view k s with entry := y }) hs
        exact hv ▸ .same (by simp) (by simp)
      · have hv : view k { s with inner := (s.inner.sweep s.instant keys).2 } =
            { view k s with entry := none } :=
          congrArg (fun y => { view k s with entry := y }) hs
        exact hv ▸ .expire hy hg
    | _ => exact .same (by simp) (by simp)

theorem view_arm (ttl : Duration) (k key : String) (j : Nat) (s : Warm ρ) :
    view k ((armedSlot j).modify (fun e =>
      { e with table := e.table.put s.instant key Preload.marker ttl }) s) =
    { view k s with
      sentinel := if k = key then some (s.instant, ttl) else (view k s).sentinel
      refreshes := s.refreshes.modify j Refresh.arm } := by
  exact congrArg (fun y =>
    { view k s with sentinel := y, refreshes := s.refreshes.modify j Refresh.arm }) (stamp_put ..)

theorem view_write (ttl : Duration) (k key : String) (v : Value) (j : Nat) (s : Warm ρ) :
    view k ((writtenSlot j).modify (fun e =>
      { e with table := e.table.put s.instant key v ttl }) s) =
    { view k s with
      entry := if k = key then some (s.instant, ttl) else (view k s).entry
      refreshes := s.refreshes.modify j Refresh.write } := by
  exact congrArg (fun y =>
    { view k s with entry := y, refreshes := s.refreshes.modify j Refresh.write }) (stamp_put ..)

/-- What one step of the sentinels' loop is for a key. -/
inductive Beats (k : String) (v : View) : Ticker → Ticker → View → Prop
  | begin {n : Nat} {l : Loop} (hl : v.loop = some l) (h : l.next ≤ v.now) :
      Beats k v (.awaiting (n + 1)) (.ticking n .rearm) v
  | rearm {n : Nat} : Beats k v (.ticking n .rearm) (.ticking n .scan)
      { v with loop := v.loop.map (·.advance v.now) }
  | scan {n : Nat} {keys : List String} (h : ∀ y, v.sentinel = some y → Gone v.now y → k ∈ keys) :
      Beats k v (.ticking n .scan) (.ticking n (.evict keys)) v
  | clean {n : Nat} (h : ∀ y, v.sentinel = some y → ¬ Gone v.now y) :
      Beats k v (.ticking n .scan) (.awaiting n) v
  | spare {n : Nat} {keys : List String} {out : List (String × Value)} (ho : ∀ u, (k, u) ∉ out)
      (h : ∀ y, v.sentinel = some y → k ∈ keys → ¬ Gone v.now y) :
      Beats k v (.ticking n (.evict keys)) (.ticking n (.hand out)) v
  | evict {n : Nat} {keys : List String} {out : List (String × Value)} {y : Nat × Duration}
      (ho : ∃ u, (k, u) ∈ out) (hy : v.sentinel = some y) (hg : Gone v.now y) :
      Beats k v (.ticking n (.evict keys)) (.ticking n (.hand out)) { v with sentinel := none }
  | hand {n : Nat} {out : List (String × Value)} (h : v.watched = true) :
      Beats k v (.ticking n (.hand out)) (.after n (.deliver out out.length)) v
  | unwatched {n : Nat} {out : List (String × Value)} (h : v.watched = false) :
      Beats k v (.ticking n (.hand out)) (.awaiting n) v
  | deliver {n : Nat} (y : String × Value) (rest : List (String × Value)) (r : Nat) :
      Beats k v (.ticking n (.deliver (y :: rest) r)) (.after n (.deliver rest r))
        { v with refreshes := v.refreshes ++ [⟨y.1, v.now, false, false⟩] }

/-- **What one step of the sentinels' loop is for a key.** -/
theorem beats_of_steps {x x' : Ticker} {s s' : Warm ρ} (h : Ticker.Steps s x x' s') :
    Beats k (view k s) x x' (view k s') := by
  cases h with
  | begin h =>
    unfold isDue at h
    cases hl : s.sentinel.loop with
    | none => simp [hl] at h
    | some l =>
      rw [hl, Option.any_some, decide_eq_true_eq] at h
      exact .begin hl h
  | tick hp =>
    cases hp with
    | rearm => exact .rearm
    | scan hk hne => exact .scan fun y hy hg => hk ▸ mem_expiredKeys hy hg
    | clean hk =>
      refine .clean fun y hy hg => ?_
      have hm : k ∈ s.sentinel.table.expiredKeys s.instant := mem_expiredKeys hy hg
      exact absurd (hk ▸ hm) List.not_mem_nil
    | evict keys =>
      rcases stamp_sweep s.instant keys s.sentinel.table k with ⟨hs, ho, hy⟩ | ⟨hs, ho, y, hy, hg⟩
      · have hv : view k { s with sentinel := (s.sentinel.sweep s.instant keys).2 } = view k s :=
          congrArg (fun y => { view k s with sentinel := y }) hs
        exact Eq.subst (motive := Beats k (view k s) _ _) hv.symm (.spare ho hy)
      · have hv : view k { s with sentinel := (s.sentinel.sweep s.instant keys).2 } =
            { view k s with sentinel := none } :=
          congrArg (fun y => { view k s with sentinel := y }) hs
        exact Eq.subst (motive := Beats k (view k s) _ _) hv.symm (.evict ho hy hg)
    | hand hw => exact .hand hw
    | unwatched hw => exact .unwatched hw
    | deliver y rest removed => exact .deliver y rest removed

end LayeredCache.Warm

import LayeredCache.Proofs.Preload

/-!
# A key removed from a preloading cache

Removal disarms the sentinel first and takes the entry then. A refresh that is on its way meanwhile
knows nothing of it: it renews the sentinel and the entry when its load is done, and from then on
the key is kept warm again. Everything else leaves a removed key alone, however steps interleave and
however long loads take.

Results:
* `cleared_turned`: a turn leaves a removed key alone, or is a step of a refresh that was on its
  way.
* `run_removed`: a removed key stays away from both engines, and no refresh is called for on its
  behalf, unless a refresh that was on its way brings it back.
* `removed_comes_back`: a run in which one does.
-/

namespace LayeredCache.Warm

variable {ι ρ ε : Type}

/-- The key is in neither engine. -/
structure Absent (k : String) (s : Warm ρ) : Prop where
  entry : s.inner.table.find? k = none
  sentinel : s.sentinel.table.find? k = none

/-- The step puts the key into an engine where it was not. -/
def Restores (k : String) (x : Pool.Event (Who ι) (Warm ρ) (Answer Reply)) : Prop :=
  x.before.inner.table.find? k = none ∧ x.after.inner.table.find? k ≠ none ∨
    x.before.sentinel.table.find? k = none ∧ x.after.sentinel.table.find? k ≠ none

section OnItsWay

variable (k : String) (p : Pool (Who ι) (Warm ρ) (Answer Reply))

/-- The loop has evicted the key's sentinel and is about to call for a refresh. -/
def HandsOver : Prop := ∃ x : Ticker, p.threads .loop = some x.process ∧ Handing k (some x)

/-- Refresh `j` is called for on behalf of the key, or will be by what the loop hands over. -/
def CalledFor (j : Nat) : Prop :=
  IsFor p.state.refreshes j k ∨ p.state.refreshes.length ≤ j ∧ HandsOver k p

/-- Refresh `j` has not ended. -/
def Unfinished (j : Nat) : Prop := ∃ q, p.threads (.worker j) = some q ∧ q.answer? = none

/-- Refresh `j` is on its way for the key. -/
def OnItsWay (j : Nat) : Prop := CalledFor k p j ∧ Unfinished p j

/-- One of the steps is that of a refresh that was on its way, and brings the key back. -/
def BroughtBack (past : List (Pool.Event (Who ι) (Warm ρ) (Answer Reply))) : Prop :=
  ∃ x ∈ past, ∃ j, x.who = .worker j ∧ OnItsWay k p j ∧ Restores k x

end OnItsWay

/-- No put of the key is among the steps. -/
def WithoutPut (tasks : ι → Task) (k : String)
    (past : List (Pool.Event (Who ι) (Warm ρ) (Answer Reply))) : Prop :=
  ∀ x ∈ past, ∀ i, (tasks i).Puts k → x.who ≠ .client i

theorem stamp_eq_none_iff {t : Table} {k : String} : stamp t k = none ↔ t.find? k = none :=
  Option.map_eq_none_iff

/-! ## Steps -/

section Steps

variable {w : World ρ} {c : Preload.Config} {ttl : Duration} {k : String} {s s' : Warm ρ}

/-- A caller that does not put the key brings back neither its entry nor its sentinel. -/
theorem Client.leaves_of_steps {t : Task} {x x' : Client} (hs : x.Steps w c ttl s x' s')
    (hx : x.At t) (ht : ¬ t.Puts k) :
    ((view k s).sentinel = none → (view k s').sentinel = none) ∧
      ((view k s).entry = none → (view k s').entry = none) := by
  have hsees := sees_of_steps (k := k) hs
  generalize view k s' = v' at hsees ⊢
  cases hsees with
  | same => exact ⟨id, id⟩
  | put u e => exact absurd ⟨u, e, hx⟩ ht
  | arm => exact absurd hx ht
  | disarm => exact ⟨fun _ => rfl, id⟩
  | remove => exact ⟨id, fun _ => rfl⟩
  | expire => exact ⟨id, fun _ => rfl⟩

/-- The second step of a removal takes the entry. -/
theorem Client.entry_of_steps {x x' : Client} (hs : x.Steps w c ttl s x' s')
    (hx : x = .deleting k ∨ x = .clearing) : (view k s').entry = none := by
  rcases hx with rfl | rfl
  · cases hs
    rw [view_setInner, stamp_erase, if_pos rfl]
  · cases hs
    rfl

/-- A refresh that takes a step has not ended. -/
theorem Worker.answer?_of_steps [Journal ρ] {j : Nat} {x x' : Worker ρ}
    (hs : x.Steps w c ttl j s x' s') : (x.process w c ttl j).answer? = none := by
  cases hs with
  | @load key q q' s' hq =>
    cases q with
    | done a => simp [Process.next?] at hq
    | act g n => rfl
    | wait v g n => rfl
  | _ => rfl

/-- What a step of refresh `j` is for a key. -/
inductive Renews (k : String) (j : Nat) (v v' : View) : Prop
  | same (hs : v'.sentinel = v.sentinel) (he : v'.entry = v.entry)
  | arm (hf : IsFor v.refreshes j k) (hs : v'.sentinel ≠ none)
  | write (hf : IsFor v.refreshes j k) (hs : v'.sentinel = v.sentinel) (he : v'.entry ≠ none)

/-- **What a step of a refresh is for a key**: only a refresh of the key renews its sentinel or its
entry. -/
theorem Worker.renews_of_steps [Journal ρ] {j : Nat} {x x' : Worker ρ}
    (hs : x.Steps w c ttl j s x' s') (hx : x.At s.refreshes j) :
    Renews k j (view k s) (view k s') := by
  have elsewhere (he : Elsewhere s s') : Renews k j (view k s) (view k s') := by
    rw [view_elsewhere he]
    exact .same rfl rfl
  cases hs with
  | begin | miss | see => exact .same rfl rfl
  | load hq => exact elsewhere (Process.keeps_next? ⟨s.rest, rfl⟩ hx.2.2 hq).2
  | hold he | gone he | release he => exact elsewhere he
  | arm key v =>
    obtain ⟨-, hfor⟩ := hx
    rw [view_arm]
    by_cases hk : k = key
    · subst hk
      exact .arm hfor (by simp)
    · exact .same (if_neg hk) rfl
  | write key v =>
    obtain ⟨r, hr, hkey, -⟩ := hx
    rw [view_write]
    by_cases hk : k = key
    · subst hk
      exact .write ⟨r, hr, hkey⟩ rfl (by simp)
    · exact .same rfl (if_neg hk)

/-- No step of a refresh calls for another. -/
theorem Worker.isFor_of_steps [Journal ρ] {j : Nat} {x x' : Worker ρ}
    (hs : x.Steps w c ttl j s x' s') (hx : x.At s.refreshes j) :
    (∀ i, IsFor s'.refreshes i k ↔ IsFor s.refreshes i k) ∧
      s'.refreshes.length = s.refreshes.length := by
  have elsewhere (he : Elsewhere s s') : (∀ i, IsFor s'.refreshes i k ↔ IsFor s.refreshes i k) ∧
      s'.refreshes.length = s.refreshes.length := by
    obtain ⟨r, rfl⟩ := he
    exact ⟨fun _ => Iff.rfl, rfl⟩
  cases hs with
  | load hq => exact elsewhere (Process.keeps_next? ⟨s.rest, rfl⟩ hx.2.2 hq).2
  | hold he | gone he | release he => exact elsewhere he
  | arm key v => exact ⟨fun i => isFor_modify fun _ => rfl, List.length_modify ..⟩
  | write key v => exact ⟨fun i => isFor_modify fun _ => rfl, List.length_modify ..⟩
  | _ => exact elsewhere ⟨s.rest, rfl⟩

end Steps

/-! ## What a removed key is left with -/

section Removed

variable (k : String) (p : Pool (Who ι) (Warm ρ) (Answer Reply))

/-- The key is disarmed: it has no sentinel, and every refresh on its behalf was called for, or
about to be, when it was removed at `p`. -/
structure Disarmed (v : View) (x : Option Ticker) : Prop where
  sentinel : v.sentinel = none
  refreshes : ∀ j, IsFor v.refreshes j k → CalledFor k p j
  later : p.state.refreshes.length ≤ v.refreshes.length
  owed : Handing k x → HandsOver k p

variable {k p}

/-- **A step of the loop** calls for no refresh but those that it owes already. -/
theorem disarmed_beats {v v' : View} {x x' : Ticker} (h : Disarmed k p v (some x))
    (hb : Beats k v x x' v') : Disarmed k p v' (some x') := by
  cases hb with
  | begin hl hn => exact { h with owed := fun hh => hh.elim }
  | rearm => exact { h with owed := fun hh => hh.elim }
  | scan hk => exact { h with owed := fun hh => hh.elim }
  | clean hg => exact { h with owed := fun hh => hh.elim }
  | spare ho hg => exact { h with owed := fun ⟨u, hu⟩ => absurd hu (ho u) }
  | evict ho hy hg => exact absurd (h.sentinel.symm.trans hy) (by simp)
  | hand hw => exact { h with owed := fun hh => h.owed (handing_after.mp hh) }
  | unwatched hw => exact { h with owed := fun hh => hh.elim }
  | deliver y rest r =>
    refine { h with refreshes := fun j hj => ?_, later := ?_, owed := fun hh => h.owed ?_ }
    · obtain ⟨r', hr', hk⟩ := hj
      rcases Nat.lt_or_ge j v.refreshes.length with hlt | hge
      · rw [List.getElem?_append_left hlt] at hr'
        exact h.refreshes j ⟨r', hr', hk⟩
      · rw [List.getElem?_append_right hge] at hr'
        obtain rfl := List.mem_singleton.mp (List.mem_of_getElem? hr')
        obtain rfl : y.1 = k := hk
        exact .inr ⟨Nat.le_trans h.later hge, h.owed ⟨y.2, List.mem_cons_self⟩⟩
    · exact Nat.le_trans h.later (by simp)
    · obtain ⟨u, hu⟩ := handing_after.mp hh
      exact ⟨u, List.mem_cons_of_mem _ hu⟩

theorem beats_entry {v v' : View} {x x' : Ticker} (hb : Beats k v x x' v') :
    v'.entry = v.entry := by cases hb <;> rfl

variable [Journal ρ] (w : World ρ) (c : Preload.Config) (ttl : Duration)

variable (k p) in
/-- **What every turn keeps** after caller `i` has disarmed the key at `p`, as long as no refresh
brings it back. -/
structure Cleared (i : ι) (s : Warm ρ) (crew : Crew ι ρ) : Prop where
  disarmed : Disarmed k p (view k s) crew.loop
  entry : (view k s).entry = none ∨
    ∃ x, crew.client i = some x ∧ (x = .deleting k ∨ x = .clearing)
  ended : ∀ j x, crew.worker j = some x → (x.process w c ttl j).answer? = none → Unfinished p j

variable {w c ttl} {tasks : ι → Task} {i : ι} {s s' : Warm ρ} {crew crew' : Crew ι ρ}

/-- **A step of a caller.** -/
theorem cleared_client [DecidableEq ι] {l : ι} {x x' : Client} (hm : Manned tasks s crew)
    (h : Cleared k p w c ttl i s crew) (hl : crew.client l = some x) (ht : ¬ (tasks l).Puts k)
    (hs : x.Steps w c ttl s x' s') :
    Cleared k p w c ttl i s'
      { crew with client := Function.update crew.client l (some x') } := by
  obtain ⟨hsentinel, hentry⟩ := Client.leaves_of_steps hs (hm.client l x hl) ht
  have hrs : s'.refreshes = s.refreshes := sees_refreshes (sees_of_steps (k := k) hs)
  refine ⟨⟨hsentinel h.disarmed.sentinel, ?_, ?_, h.disarmed.owed⟩, ?_, h.ended⟩
  · intro j hj
    rw [show (view k s').refreshes = s.refreshes from hrs] at hj
    exact h.disarmed.refreshes j hj
  · exact Nat.le_trans h.disarmed.later (Nat.le_of_eq (congrArg List.length hrs).symm)
  · rcases h.entry with he | ⟨y, hy, hd⟩
    · exact .inl (hentry he)
    · by_cases hi : i = l
      · subst hi
        obtain rfl := Option.some.inj (hl.symm.trans hy)
        exact .inl (Client.entry_of_steps hs hd)
      · exact .inr ⟨y, (Function.update_of_ne hi ..).trans hy, hd⟩

/-- **A step of a refresh** leaves a removed key alone, or the refresh was on its way and brings the
key back. -/
theorem cleared_worker {j : Nat} {x x' : Worker ρ} (a : Option (Answer Reply))
    (hm : Manned tasks s crew) (h : Cleared k p w c ttl i s crew) (hj : crew.worker j = some x)
    (hs : x.Steps w c ttl j s x' s') :
    OnItsWay k p j ∧ Restores k (ι := ι) ⟨.worker j, s, s', a⟩ ∨
      Cleared k p w c ttl i s'
        { crew with worker := Function.update crew.worker j (some x') } := by
  have hat := hm.worker j x hj
  obtain ⟨hfor, hlen⟩ := Worker.isFor_of_steps (k := k) hs hat
  have unfinished : Unfinished p j := h.ended j x hj (Worker.answer?_of_steps hs)
  have ended : ∀ l z, Function.update crew.worker j (some x') l = some z →
      (z.process w c ttl l).answer? = none → Unfinished p l := by
    intro l z hz ha
    rcases Pool.update_eq_some hz with ⟨rfl, -⟩ | ⟨-, hz'⟩
    · exact unfinished
    · exact h.ended l z hz' ha
  have disarmed (hn : (view k s').sentinel = (view k s).sentinel) :
      Disarmed k p (view k s') crew.loop :=
    ⟨hn.trans h.disarmed.sentinel, fun l hl => h.disarmed.refreshes l ((hfor l).mp hl),
      Nat.le_trans h.disarmed.later (Nat.le_of_eq hlen.symm), h.disarmed.owed⟩
  have restores (hf : IsFor s.refreshes j k)
      (hr : Restores k (ι := ι) ⟨.worker j, s, s', a⟩) :
      OnItsWay k p j ∧ Restores k (ι := ι) ⟨.worker j, s, s', a⟩ :=
    ⟨⟨h.disarmed.refreshes j hf, unfinished⟩, hr⟩
  rcases Worker.renews_of_steps (k := k) hs hat with ⟨hn, he⟩ | ⟨hf, hn⟩ | ⟨hf, hn, he⟩
  · exact .inr ⟨disarmed hn, he ▸ h.entry, ended⟩
  · refine .inl (restores hf (.inr ⟨stamp_eq_none_iff.mp h.disarmed.sentinel, fun hg => ?_⟩))
    exact hn (stamp_eq_none_iff.mpr hg)
  · -- An entry that the removal is still to take may be renewed before.
    rcases h.entry with hn' | hd
    · refine .inl (restores hf (.inl ⟨stamp_eq_none_iff.mp hn', fun hg => ?_⟩))
      exact he (stamp_eq_none_iff.mpr hg)
    · exact .inr ⟨disarmed hn, .inr hd, ended⟩

/-- **A turn** leaves a removed key alone, or is a step of a refresh that was on its way. -/
theorem cleared_turned [DecidableEq ι] {effect : ε → ρ → ρ} {t : Turn (Who ι) (ε × Nat)}
    {x : Option (Pool.Event (Who ι) (Warm ρ) (Answer Reply))} (hm : Manned tasks s crew)
    (h : Cleared k p w c ttl i s crew)
    (hp : WithoutPut tasks k x.toList) (ht : Turned w c ttl effect s crew t x s' crew') :
    BroughtBack k p x.toList ∨ Cleared k p w c ttl i s' crew' := by
  cases ht with
  | still => exact .inr h
  | client a hy hz =>
    exact .inr (cleared_client hm h hy (fun hl => hp _ List.mem_cons_self _ hl rfl) hz)
  | @worker j y z _ a hy hz =>
    refine (cleared_worker a hm h hy hz).imp_left fun hr => ?_
    exact ⟨_, List.mem_cons_self, j, rfl, hr⟩
  | loop a hy hz =>
    have hd := h.disarmed
    rw [hy] at hd
    have hb := beats_of_steps (k := k) hz
    exact .inr ⟨disarmed_beats hd hb, beats_entry hb ▸ h.entry, h.ended⟩
  | @clientGone l t hy =>
    refine .inr ⟨h.disarmed, h.entry.imp_right fun ⟨y, hi, hd⟩ => ⟨y, ?_, hd⟩, h.ended⟩
    refine (Function.update_of_ne ?_ ..).trans hi
    rintro rfl
    obtain rfl := Option.some.inj (hy.symm.trans hi)
    simp at hd
  | @workerGone j s'' he =>
    have hv := view_elsewhere (k := k) he
    refine .inr ⟨hv ▸ h.disarmed, hv ▸ h.entry, fun l z hz ha => ?_⟩
    exact h.ended l z ((Pool.update_eq_some hz).resolve_left (by simp)).2 ha
  | loopGone hy => exact .inr ⟨{ h.disarmed with owed := False.elim }, h.entry, h.ended⟩
  | outside e => exact .inr ⟨{ h.disarmed with }, h.entry, h.ended⟩

/-! ## Runs -/

variable (w c ttl tasks) in
/-- Everyone is at a stage of his own task. -/
def Ordered (q : Pool (Who ι) (Warm ρ) (Answer Reply)) (crew : Crew ι ρ) : Prop :=
  Staged w c ttl q crew ∧ Manned tasks q.state crew

theorem ordered_pool (n : Nat) {s : Warm ρ} (hs : s.refreshes = []) :
    Ordered w c ttl tasks (pool w c ttl tasks n s) (crewOf tasks n) := by
  refine ⟨⟨fun _ => rfl, fun _ => rfl, rfl⟩, ⟨fun i x hx => ?_, fun j x hx => ?_, ?_⟩⟩
  · obtain rfl := Option.some.inj hx
    rfl
  · obtain rfl := Option.some.inj hx
    exact fun r hr => absurd hr (by simp [pool, hs])
  · simp [crewOf]

/-- A caller about to go through the steps of a stage is at that stage. -/
theorem ordered_at [DecidableEq ι] {y : Client} (h : Ordered w c ttl tasks p crew)
    (hi : p.threads (.client i) = some (y.process w c ttl)) (hy : y.At (tasks i)) :
    Ordered w c ttl tasks p
      { crew with client := Function.update crew.client i (some y) } := by
  obtain ⟨hst, hm⟩ := h
  have hst' := staged_client hst p.state i (some y)
  rw [Option.map_some, ← hi, Function.update_eq_self] at hst'
  refine ⟨hst', fun l z hz => ?_, hm.worker, hm.busy⟩
  rcases Pool.update_eq_some hz with ⟨rfl, hz'⟩ | ⟨-, hz'⟩
  · obtain rfl := Option.some.inj hz'
    exact hy
  · exact hm.client l z hz'

/-- **The first step of a removal** disarms the key. -/
theorem cleared_of_removes [DecidableEq ι] {effect : ε → ρ → ρ}
    (h : Ordered w c ttl tasks p crew) (hr : (tasks i).Removes k)
    (hi : p.threads (.client i) = some ((tasks i).run w c ttl)) :
    ∃ crew', Ordered w c ttl tasks (p.turn (elapse effect) (.go (.client i))) crew' ∧
      Cleared k p w c ttl i (p.turn (elapse effect) (.go (.client i))).state crew' := by
  obtain ⟨y, y', s', hy, hat, hd, hs, hn, hv⟩ : ∃ (y y' : Client) (s' : Warm ρ),
      (tasks i).run w c ttl = y.process w c ttl ∧ y.At (tasks i) ∧
        (y' = .deleting k ∨ y' = .clearing) ∧ y.Steps w c ttl p.state y' s' ∧
        (y.process w c ttl).next? p.state = some (y'.process w c ttl, s') ∧
        view k s' = { view k p.state with sentinel := none } := by
    rcases hr with hr | hr
    · refine ⟨.call (.delete k), .deleting k, _, by rw [hr]; rfl, hr, .inl rfl, .disarm k, rfl, ?_⟩
      rw [view_setSentinel, stamp_erase, if_pos rfl]
    · exact ⟨.call .clearAll, .clearing, _, by rw [hr]; rfl, hr, .inr rfl, .disarmAll, rfl, rfl⟩
  rw [hy] at hi
  obtain ⟨hst, hm⟩ := ordered_at h hi hat
  have hself : Function.update crew.client i (some y) i = some y := Function.update_self ..
  have turned : Turned w c ttl effect p.state
      { crew with client := Function.update crew.client i (some y) } (.go (.client i)) _ s' _ :=
    .client none hself hs
  rw [Pool.turn_go (elapse effect) hi hn]
  refine ⟨_, ⟨staged_client hst s' i (some y'), manned_turned hm turned⟩, ⟨?_, ?_, ?_⟩⟩
  · refine hv ▸ ⟨rfl, fun j hj => .inl hj, Nat.le_refl _, fun hh => ?_⟩
    have hloop := h.1.loop
    cases hl : crew.loop with
    | none => rw [hl] at hh; exact hh.elim
    | some x =>
      rw [hl] at hh hloop
      exact ⟨x, hloop, hh⟩
  · exact .inr ⟨y', Function.update_self .., hd⟩
  · intro j x hx ha
    exact ⟨_, (h.1.worker j).trans (congrArg _ hx), ha⟩

variable (k p w c ttl tasks i) in
/-- What there is to be said after some steps that follow a removal at `p`. -/
def Followed (q : Pool (Who ι) (Warm ρ) (Answer Reply))
    (past : List (Pool.Event (Who ι) (Warm ρ) (Answer Reply))) : Prop :=
  WithoutPut tasks k past →
    BroughtBack k p past ∨
      ∃ crew, Ordered w c ttl tasks q crew ∧ Cleared k p w c ttl i q.state crew

theorem followed_moved [DecidableEq ι] {effect : ε → ρ → ρ} {t : Turn (Who ι) (ε × Nat)}
    {q q' : Pool (Who ι) (Warm ρ) (Answer Reply)}
    {x : Option (Pool.Event (Who ι) (Warm ρ) (Answer Reply))}
    {past : List (Pool.Event (Who ι) (Warm ρ) (Answer Reply))}
    (h : Followed k p w c ttl tasks i q past) (hm : Pool.Moved (elapse effect) q t x q') :
    Followed k p w c ttl tasks i q' (past ++ x.toList) := by
  intro hp
  have hpast : WithoutPut tasks k past := fun y hy => hp y (List.mem_append_left _ hy)
  have hnow : WithoutPut tasks k x.toList := fun y hy => hp y (List.mem_append_right _ hy)
  rcases h hpast with ⟨y, hy, hback⟩ | ⟨crew, ⟨hst, hman⟩, hc⟩
  · exact .inl ⟨y, List.mem_append_left _ hy, hback⟩
  · obtain ⟨crew', ht, hst'⟩ := turned_of_moved hman hst hm
    rcases cleared_turned hman hc hnow ht with ⟨y, hy, hback⟩ | hc'
    · exact .inl ⟨y, List.mem_append_right _ hy, hback⟩
    · exact .inr ⟨crew', ⟨hst', manned_turned hman ht⟩, hc'⟩

theorem ordered_run [DecidableEq ι] {effect : ε → ρ → ρ} {q : Pool (Who ι) (Warm ρ) (Answer Reply)}
    (h : ∃ crew, Ordered w c ttl tasks q crew) (turns : List (Turn (Who ι) (ε × Nat))) :
    ∃ crew, Ordered w c ttl tasks (q.run (elapse effect) turns) crew := by
  refine Pool.run_induction (I := fun q => ∃ crew, Ordered w c ttl tasks q crew) ?_ turns h
  rintro q t x q' ⟨crew, hst, hm⟩ hmoved
  obtain ⟨crew', ht, hst'⟩ := turned_of_moved hm hst hmoved
  exact ⟨crew', hst', manned_turned hm ht⟩

/-- **A removed key stays away** from both engines, and no refresh is called for on its behalf,
unless a refresh that was on its way at the removal brings it back. -/
theorem run_removed [DecidableEq ι] {effect : ε → ρ → ρ} {n : Nat} {s : Warm ρ}
    {before after : List (Turn (Who ι) (ε × Nat))} {a : Answer Reply} (hs : s.refreshes = [])
    (hp : p = (pool w c ttl tasks n s).run (elapse effect) before) (hr : (tasks i).Removes k)
    (hi : p.threads (.client i) = some ((tasks i).run w c ttl))
    (hputs : WithoutPut tasks k (Pool.history (elapse effect) (.go (.client i) :: after) p))
    (hdone : (p.run (elapse effect) (.go (.client i) :: after)).threads (.client i) =
      some (.done a)) :
    BroughtBack k p (Pool.history (elapse effect) (.go (.client i) :: after) p) ∨
      Absent k (p.run (elapse effect) (.go (.client i) :: after)).state ∧
        ∀ j, IsFor (p.run (elapse effect) (.go (.client i) :: after)).state.refreshes j k →
          CalledFor k p j := by
  obtain ⟨crew, ho⟩ : ∃ crew, Ordered w c ttl tasks p crew :=
    hp ▸ ordered_run ⟨_, ordered_pool n hs⟩ before
  have first : Followed k p w c ttl tasks i (p.turn (elapse effect) (.go (.client i)))
      (p.event? (.go (.client i) : Turn (Who ι) (ε × Nat))).toList :=
    fun _ => .inr (cleared_of_removes ho hr hi)
  have all := Pool.past_induction (I := Followed k p w c ttl tasks i)
    (fun q t x q' past h (hm : Pool.Moved (elapse effect) q t x q') => followed_moved h hm) after
    first
  rcases all hputs with hback | ⟨crew', ⟨hst, -⟩, hc⟩
  · exact .inl hback
  · refine .inr ⟨⟨?_, stamp_eq_none_iff.mp hc.disarmed.sentinel⟩, hc.disarmed.refreshes⟩
    rcases hc.entry with he | ⟨x, hx, hd⟩
    · exact stamp_eq_none_iff.mp he
    · have hx' := (hst.client i).symm.trans hdone
      rw [hx] at hx'
      rcases hd with rfl | rfl <;> cases hx'

end Removed

/-! ## With and without a refresh on its way -/

/-- A caller puts a key, another one deletes it. -/
def putAndDelete (deletes : Bool) : Task :=
  if deletes then .call (.delete "k") else .call (.put "k" (.bool false) .zero)

/-- The key is put. Two seconds later its sentinel is evicted, and the refresh takes so many steps.
The deletion is about to begin. -/
def refreshing (steps : Nat) : List (Turn (Who Bool) (Unit × Nat)) :=
  List.replicate 3 (.go (.client false)) ++ [.outside ((), 2_000_000_000)] ++
    List.replicate 6 (.go .loop) ++ List.replicate steps (.go (.worker 0)) ++ [.go (.client true)]

/-- The pool when the deletion is about to begin. -/
def atDeletion (steps : Nat) : Pool (Who Bool) (Warm Unit) (Answer Reply) :=
  (pool steady brisk (.ofSecs 1) putAndDelete 2 atFirst).run (elapse fun _ u => u)
    (refreshing steps)

/-- The deletion ends, ten seconds pass, and the loop ticks. -/
def later : List (Turn (Who Bool) (Unit × Nat)) :=
  [.go (.client true), .outside ((), 10_000_000_000)] ++ List.replicate 3 (.go .loop)

theorem run_removed_afterRefresh :
    (atDeletion 6).threads (.client true) =
        some ((putAndDelete true).run steady brisk (.ofSecs 1)) ∧
      ((atDeletion 6).run (elapse fun _ u => u) (.go (.client true) :: later)).state.instant =
        12_000_000_000 ∧
      Absent "k"
        ((atDeletion 6).run (elapse fun _ u => u) (.go (.client true) :: later)).state := by
  have whos : (Pool.history (elapse fun _ u => u) (.go (.client true) :: later)
      (atDeletion 6)).map Pool.Event.who =
        [.client true, .client true, .loop, .loop, .loop] := rfl
  have who {x : Pool.Event (Who Bool) (Warm Unit) (Answer Reply)}
      (hx : x ∈ Pool.history (elapse fun _ u => u) (.go (.client true) :: later) (atDeletion 6)) :
      x.who = .client true ∨ x.who = .loop := by
    have hm := List.mem_map_of_mem (f := Pool.Event.who) hx
    rw [whos] at hm
    simpa using hm
  have withoutPut : WithoutPut putAndDelete "k" (Pool.history (elapse fun _ u => u)
      (.go (.client true) :: later) (atDeletion 6)) := by
    intro x hx i hi
    cases i with
    | true =>
      obtain ⟨v, d, hp⟩ := hi
      cases hp
    | false => rcases who hx with h | h <;> simp [h]
  have reached : atDeletion 6 = (pool steady brisk (.ofSecs 1) putAndDelete 2 atFirst).run
      (elapse fun _ u => u) (refreshing 6) := rfl
  refine ⟨rfl, rfl, ?_⟩
  rcases run_removed rfl reached (.inl rfl) rfl withoutPut rfl with
    ⟨x, hx, j, hj, -⟩ | ⟨h, -⟩
  · rcases who hx with h | h <;> simp [h] at hj
  · exact h

/-- The deletion has ended while the refresh holds the value that it has loaded. -/
def deleted : Pool (Who Bool) (Warm Unit) (Answer Reply) :=
  (atDeletion 3).run (elapse fun (_ : Unit) u => u) (List.replicate 2 (.go (.client true)))

/-- The refresh goes on. -/
def goesOn : List (Turn (Who Bool) (Unit × Nat)) := List.replicate 2 (.go (.worker 0))

/-- A deletion has ended, the key is gone from both engines, and no put follows. Yet a refresh that
was on its way brings the key back. -/
theorem removed_comes_back :
    deleted.threads (.client true) = some (.done (.ok .nothing)) ∧ Absent "k" deleted.state ∧
      WithoutPut putAndDelete "k" (Pool.history (elapse fun _ u => u) goesOn deleted) ∧
      Reads steady brisk (.ofSecs 1) "k" (deleted.run (elapse fun _ u => u) goesOn).state ∧
      ((deleted.run (elapse fun _ u => u) goesOn).state.sentinel.table.find? "k").isSome =
        true := by
  refine ⟨rfl, ⟨rfl, rfl⟩, fun x hx i _ => ?_, ⟨.bool true, rfl⟩, rfl⟩
  have whos : (Pool.history (elapse fun _ u => u) goesOn deleted).map Pool.Event.who =
      [.worker 0, .worker 0] := rfl
  have hm := List.mem_map_of_mem (f := Pool.Event.who) hx
  rw [whos] at hm
  have hw : x.who = .worker 0 := by simpa using hm
  simp [hw]

end LayeredCache.Warm

import LayeredCache.Proofs.Freshness

/-!
# A preloading cache keeps its keys fresh

Callers, reclamation passes, refreshes and the sentinels' loop in any order of steps. As long as
ticks run when they are due and refreshes are quick enough, a key that was put is there at every
instant until somebody removes it.

Results:
* `inv_client`, `inv_worker`, `inv_loop`, `inv_elapse`: what one turn keeps.
* `run_fresh`: a read of the key succeeds at every instant from its first put on.
-/

namespace LayeredCache.Warm

variable {ι ρ ε : Type}

/-! ## What holds at each stage -/

/-- What holds of a caller with a task at a stage. -/
def Client.At (t : Task) : Client → Prop
  | .idle t' => t' = t
  | .call x => t = .call x
  | .arming key => t.Puts key
  | .deleting key => t = .call (.delete key)
  | .clearing => t = .call .clearAll
  | .passing _ | .finished _ => True

theorem Client.at_of_steps {w : World ρ} {c : Preload.Config} {ttl : Duration} {t : Task}
    {x x' : Client} {s s' : Warm ρ} (h : x.Steps w c ttl s x' s') (hx : x.At t) : x'.At t := by
  cases h with
  | begin t' =>
    obtain rfl : t' = t := hx
    cases t' <;> trivial
  | put key v d => exact ⟨v, d, hx⟩
  | disarm key => exact hx
  | disarmAll => exact hx
  | _ => trivial

/-- A caller that disarms or removes a key has a task that removes it. -/
theorem Client.removes_of_at {k : String} {t : Task} {x : Client} (hx : x.At t)
    (h : (x = .call (.delete k) ∨ x = .call .clearAll) ∨ x = .deleting k ∨ x = .clearing) :
    t.Removes k := by
  rcases h with (rfl | rfl) | rfl | rfl
  · exact .inl hx
  · exact .inr hx
  · exact .inl hx
  · exact .inr hx

/-- A caller that is to put a key does so with its first step. -/
theorem Client.begun_of_steps {w : World ρ} {c : Preload.Config} {ttl : Duration} {k : String}
    {t : Task} {x x' : Client} {s s' : Warm ρ} (h : x.Steps w c ttl s x' s') (ht : t.Puts k)
    (hx : x = .idle t ∨ x = .begun t) : x' = .begun t ∨ x' = .arming k := by
  obtain ⟨v, d, rfl⟩ := ht
  rcases hx with rfl | rfl
  · cases h with
    | begin => exact .inl rfl
  · cases h with
    | pass hp => exact hp.elim
    | put => exact .inr rfl

/-- The refresh has not written. -/
def Unwritten (rs : List Refresh) (j : Nat) : Prop := ∀ r, rs[j]? = some r → r.written = false

/-- The refresh was called for, for that key. -/
def IsFor (rs : List Refresh) (j : Nat) (key : String) : Prop := ∃ r, rs[j]? = some r ∧ r.key = key

/-- What holds of a refresh at a stage. -/
def Worker.At (rs : List Refresh) (j : Nat) : Worker ρ → Prop
  | .unasked | .asked => Unwritten rs j
  | .loading key q => Unwritten rs j ∧ IsFor rs j key ∧ Process.Keeps Elsewhere q
  | .arming key _ => Unwritten rs j ∧ IsFor rs j key
  | .writing key _ => ∃ r, rs[j]? = some r ∧ r.key = key ∧ r.armed = true
  | .releasing | .finished => True

/-- Refreshes are called for, and others mark what they have done. -/
def Grows (j : Nat) (rs rs' : List Refresh) : Prop :=
  (∀ r, rs[j]? = some r → rs'[j]? = some r) ∧
    ∀ r, rs'[j]? = some r → rs[j]? = some r ∨ r.written = false

theorem grows_modify {i j : Nat} (hij : i ≠ j) (f : Refresh → Refresh) (rs : List Refresh) :
    Grows j rs (rs.modify i f) := by
  refine ⟨fun r hr => ?_, fun r hr => ?_⟩
  · rw [List.getElem?_modify_ne _ _ hij, hr]
  · rw [List.getElem?_modify_ne _ _ hij] at hr
    exact .inl hr

theorem grows_append (j : Nat) (rs : List Refresh) {r : Refresh} (hr : r.written = false) :
    Grows j rs (rs ++ [r]) := by
  refine ⟨fun r' hr' => ?_, fun r' hr' => ?_⟩
  · obtain ⟨hj, -⟩ := List.getElem?_eq_some_iff.mp hr'
    rw [List.getElem?_append_left hj, hr']
  · rcases Nat.lt_or_ge j rs.length with hj | hj
    · rw [List.getElem?_append_left hj] at hr'
      exact .inl hr'
    · rw [List.getElem?_append_right hj] at hr'
      obtain rfl := List.mem_singleton.mp (List.mem_of_getElem? hr')
      exact .inr hr

theorem Worker.at_grows {j : Nat} {rs rs' : List Refresh} {x : Worker ρ} (h : Grows j rs rs')
    (hx : x.At rs j) : x.At rs' j := by
  have unwritten (hu : Unwritten rs j) : Unwritten rs' j := by
    intro r hr
    rcases h.2 r hr with hr | hr
    · exact hu r hr
    · exact hr
  have isFor {key : String} (hf : IsFor rs j key) : IsFor rs' j key := by
    obtain ⟨r, hr, hk⟩ := hf
    exact ⟨r, h.1 r hr, hk⟩
  cases x with
  | unasked => exact unwritten hx
  | asked => exact unwritten hx
  | loading key q => exact ⟨unwritten hx.1, isFor hx.2.1, hx.2.2⟩
  | arming key v => exact ⟨unwritten hx.1, isFor hx.2⟩
  | writing key v =>
    obtain ⟨r, hr, hk⟩ := hx
    exact ⟨r, h.1 r hr, hk⟩
  | releasing => trivial
  | finished => trivial

/-- The loop calls for refreshes and leaves those that there are. -/
theorem Ticker.grows_of_steps {x x' : Ticker} {s s' : Warm ρ} (hs : x.Steps s x' s') (j : Nat) :
    Grows j s.refreshes s'.refreshes := by
  cases hs with
  | begin => exact ⟨fun _ => id, fun _ => .inl⟩
  | tick hp =>
    cases hp with
    | deliver => exact grows_append j _ rfl
    | _ => exact ⟨fun _ => id, fun _ => .inl⟩

theorem Ticker.busy_of_steps {x x' : Ticker} {s s' : Warm ρ} (hs : x.Steps s x' s') (n r : Nat) :
    x' ≠ .ticking n (.deliver [] r) := by
  have after (m r' : Nat) (out : List (String × Value)) :
      Ticker.after m (.deliver out r') ≠ .ticking n (.deliver [] r) := by
    cases out <;> simp [Ticker.after]
  cases hs with
  | begin => simp
  | tick hp =>
    cases hp with
    | clean | hand | unwatched | deliver => exact after _ _ _
    | _ => simp [Ticker.after]

theorem keeps_attempts [Journal ρ] (w : World ρ) (retries : Nat) (key : String) (left : Nat) :
    Process.Keeps Elsewhere (Preload.attempts (loader w) retries key left) := by
  have load : Process.Keeps Elsewhere (loader w key) :=
    Process.keeps_embed (fun g s => ⟨g s.rest, rfl⟩) (w.load key)
  have note (text : String) (severity : Severity) :
      Process.Keeps Elsewhere (Process.note severity text : Process (Warm ρ) Unit) :=
    .act (fun s => ⟨_, rfl⟩) fun _ => .done ()
  induction left with
  | zero =>
    refine Process.keeps_bind load fun r => ?_
    cases r with
    | ok v => exact .done _
    | error e => exact Process.keeps_bind (note _ _) fun _ => .done _
  | succ left ih =>
    refine Process.keeps_bind load fun r => ?_
    cases r with
    | ok v => exact .done _
    | error e => exact Process.keeps_bind (note _ _) fun _ => ih

theorem isFor_modify {rs : List Refresh} {i j : Nat} {f : Refresh → Refresh} {key : String}
    (hf : ∀ r, (f r).key = r.key) : IsFor (rs.modify i f) j key ↔ IsFor rs j key := by
  have hk (o : Option Refresh) : (∃ r, o.map f = some r ∧ r.key = key) ↔
      ∃ r, o = some r ∧ r.key = key := by
    cases o with
    | none => simp
    | some r => simp [hf]
  by_cases hij : i = j
  · subst hij
    unfold IsFor
    rw [List.getElem?_modify_eq]
    exact hk _
  · unfold IsFor
    rw [List.getElem?_modify_ne _ _ hij]

/-- **What holds of a refresh holds after its step.** -/
theorem Worker.at_of_steps [Journal ρ] {w : World ρ} {c : Preload.Config} {ttl : Duration} {j : Nat}
    {x x' : Worker ρ} {s s' : Warm ρ} (hs : x.Steps w c ttl j s x' s') (hx : x.At s.refreshes j) :
    x'.At s'.refreshes j := by
  have elsewhere {t t' : Warm ρ} (he : Elsewhere t t') : t'.refreshes = t.refreshes := by
    obtain ⟨r, rfl⟩ := he
    rfl
  cases hs with
  | begin => exact hx
  | miss hr => trivial
  | see hr => exact ⟨hx, ⟨_, hr, rfl⟩, keeps_attempts w ..⟩
  | load hq =>
    obtain ⟨hk, he⟩ := Process.keeps_next? ⟨s.rest, rfl⟩ hx.2.2 hq
    rw [elsewhere he]
    exact ⟨hx.1, hx.2.1, hk⟩
  | hold he =>
    rw [elsewhere he]
    exact ⟨hx.1, hx.2.1⟩
  | arm key v =>
    obtain ⟨-, r, hr, rfl⟩ := hx
    refine ⟨r.arm, ?_, rfl, rfl⟩
    change (s.refreshes.modify j Refresh.arm)[j]? = _
    rw [List.getElem?_modify_eq, hr]
    rfl
  | _ => trivial

/-- A step of a refresh is none of another. -/
theorem Worker.grows_of_steps [Journal ρ] {w : World ρ} {c : Preload.Config} {ttl : Duration}
    {i j : Nat} {x x' : Worker ρ} {s s' : Warm ρ} (hs : x.Steps w c ttl j s x' s')
    (hx : x.At s.refreshes j) (hij : j ≠ i) : Grows i s.refreshes s'.refreshes := by
  have elsewhere {t t' : Warm ρ} (he : Elsewhere t t') : Grows i t.refreshes t'.refreshes := by
    obtain ⟨r, rfl⟩ := he
    exact ⟨fun _ => id, fun _ => .inl⟩
  cases hs with
  | load hq => exact elsewhere (Process.keeps_next? ⟨s.rest, rfl⟩ hx.2.2 hq).2
  | hold he | gone he | release he => exact elsewhere he
  | arm key v | write key v => exact grows_modify hij _ _
  | _ => exact elsewhere ⟨s.rest, rfl⟩

/-! ## The invariant -/

/-- The stages of callers, of refreshes and of the loop; whoever was given up has none. -/
structure Crew (ι ρ : Type) where
  client : ι → Option Client
  worker : Nat → Option (Worker ρ)
  loop : Option Ticker

/-- Everyone is where his task has led him, and the loop rests as soon as it has handed everything
over. -/
structure Manned (tasks : ι → Task) (s : Warm ρ) (crew : Crew ι ρ) : Prop where
  client : ∀ i x, crew.client i = some x → x.At (tasks i)
  worker : ∀ j x, crew.worker j = some x → x.At s.refreshes j
  busy : ∀ n r, crew.loop ≠ some (.ticking n (.deliver [] r))

/-- Which tasks may take steps: at first those that do not put the key, and then, `puts`, those that
do not remove it. -/
def Allows (k : String) (puts : Bool) (t : Task) : Prop :=
  if puts then ¬ t.Removes k else ¬ t.Puts k

section Invariant

variable (c : Preload.Config) (ttl : Duration) (tasks : ι → Task) (k : String) (m : Slack)

/-- No put of the key has taken effect. -/
def Unput (crew : Crew ι ρ) : Prop :=
  ∀ i x, (tasks i).Puts k → crew.client i = some x → x = .idle (tasks i) ∨ x = .begun (tasks i)

/-- A put of the key has written the entry and not yet the sentinel. -/
def Midway (crew : Crew ι ρ) : Prop := ∃ i, crew.client i = some (.arming k)

/-- **What every turn keeps.** -/
structure Inv (puts : Bool) (s : Warm ρ) (crew : Crew ι ρ) : Prop where
  good : ∃ l, Good k ttl c.checkInterval.toNanos m (view k s) l crew.loop
  client : ∀ i x, crew.client i = some x → x.At (tasks i)
  worker : ∀ j x, crew.worker j = some x → x.At s.refreshes j
  state : Cold k (view k s) crew.loop ∧ Unput tasks k crew ∨
    puts = true ∧ ∃ since, Fresh k m c.realTtl since (view k s) crew.loop (Midway k crew)

variable {c ttl tasks k m} {w : World ρ} {puts : Bool} {s s' : Warm ρ} {crew : Crew ι ρ}

theorem inv_weaken (h : Inv c ttl tasks k m puts s crew) : Inv c ttl tasks k m true s crew :=
  ⟨h.good, h.client, h.worker, h.state.imp_right fun h => ⟨rfl, h.2⟩⟩

theorem sees_refreshes {real : Duration} {v v' : View} {x x' : Client}
    (h : Sees k real ttl v x x' v') : v'.refreshes = v.refreshes := by
  cases h <;> rfl

/-- Whether a put is midway does not depend on a caller that is not. -/
theorem midway_update [DecidableEq ι] {i : ι} {x : Client} {y : Option Client}
    (hi : crew.client i = some x) (hx : x ≠ .arming k) (hy : y ≠ some (.arming k)) :
    Midway k { crew with client := Function.update crew.client i y } ↔ Midway k crew := by
  refine exists_congr fun j => ?_
  by_cases hj : j = i
  · subst hj
    simp only [Function.update_self, hi, Option.some.injEq]
    exact ⟨fun h => absurd h hy, fun h => absurd h hx⟩
  · simp only [Function.update_of_ne hj]

theorem unput_update [DecidableEq ι] {i : ι} {y : Option Client} (h : Unput tasks k crew)
    (hy : ∀ z, (tasks i).Puts k → y = some z → z = .idle (tasks i) ∨ z = .begun (tasks i)) :
    Unput tasks k { crew with client := Function.update crew.client i y } := by
  intro j z hp hz
  rcases Pool.update_eq_some hz with ⟨rfl, hz'⟩ | ⟨-, hz'⟩
  · exact hy z hp hz'
  · exact h j z hp hz'

/-- A caller is at another stage, or gone, and the key is as it was. -/
theorem inv_client_same [DecidableEq ι] {i : ι} {x : Client} {y : Option Client}
    (h : Inv c ttl tasks k m puts s crew) (hi : crew.client i = some x) (hx : x ≠ .arming k)
    (hy : y ≠ some (.arming k)) (hat : ∀ z, y = some z → z.At (tasks i))
    (hu : ∀ z, (tasks i).Puts k → x = .idle (tasks i) ∨ x = .begun (tasks i) → y = some z →
      z = .idle (tasks i) ∨ z = .begun (tasks i))
    (hv : view k s' = view k s) :
    Inv c ttl tasks k m puts s' { crew with client := Function.update crew.client i y } := by
  have hrs : s'.refreshes = s.refreshes := congrArg View.refreshes hv
  refine ⟨hv ▸ h.good, ?_, fun j z hz => hrs ▸ h.worker j z hz, ?_⟩
  · intro j z hz
    rcases Pool.update_eq_some hz with ⟨rfl, hz'⟩ | ⟨-, hz'⟩
    · exact hat z hz'
    · exact h.client j z hz'
  · rw [hv]
    refine h.state.imp (fun ⟨hc, hun⟩ => ⟨hc, ?_⟩) (fun ⟨hp, since, hf⟩ => ⟨hp, since, ?_⟩)
    · exact unput_update hun fun z hp hz => hu z hp (hun i x hp hi) hz
    · exact fresh_same hf (midway_update hi hx hy)

/-- **A step of a caller.** -/
theorem inv_client [DecidableEq ι] {i : ι} {x x' : Client} (h : Inv c ttl tasks k m puts s crew)
    (hi : crew.client i = some x) (ha : Allows k puts (tasks i)) (hs : x.Steps w c ttl s x' s') :
    Inv c ttl tasks k m puts s'
      { crew with client := Function.update crew.client i (some x') } := by
  obtain ⟨l, hg⟩ := h.good
  have hx := h.client i x hi
  have hx' := Client.at_of_steps hs hx
  have hsees := sees_of_steps (k := k) hs
  have hrs : s'.refreshes = s.refreshes := sees_refreshes hsees
  have hclient : ∀ j z, Function.update crew.client i (some x') j = some z → z.At (tasks j) := by
    intro j z hz
    rcases Pool.update_eq_some hz with ⟨rfl, hz'⟩ | ⟨-, hz'⟩
    · obtain rfl := Option.some.inj hz'
      exact hx'
    · exact h.client j z hz'
  have hworker : ∀ j z, crew.worker j = some z → z.At s'.refreshes j :=
    fun j z hz => hrs ▸ h.worker j z hz
  have hunput (hne : x' ≠ .arming k) (hun : Unput tasks k crew) : Unput tasks k
      { crew with client := Function.update crew.client i (some x') } := by
    refine unput_update hun fun z hp hz => ?_
    obtain rfl := Option.some.inj hz
    exact .inr ((Client.begun_of_steps hs hp (hun i x hp hi)).resolve_right hne)
  have removes (hr : (tasks i).Removes k) : puts = false := by
    cases puts with
    | false => rfl
    | true => exact absurd hr ha
  generalize hv : view k s' = v' at hsees
  cases hsees with
  | same hne hne' =>
    refine inv_client_same h hi hne (by simpa using hne') (fun z hz => ?_)
      (fun z hp hz hz' => ?_) hv
    · obtain rfl := Option.some.inj hz
      exact hx'
    · obtain rfl := Option.some.inj hz'
      exact .inr ((Client.begun_of_steps hs hp hz).resolve_right hne')
  | put u e =>
    have hp : puts = true := by
      cases puts with
      | true => rfl
      | false => exact absurd ⟨u, e, hx⟩ ha
    refine ⟨⟨l, hv ▸ good_entry hg _⟩, hclient, hworker, .inr ⟨hp, (view k s).now, hv ▸ ?_⟩⟩
    exact fresh_put _ _ ⟨i, Function.update_self ..⟩
  | arm =>
    refine ⟨⟨l, hv ▸ good_arm hg⟩, hclient, hworker, ?_⟩
    rcases h.state with ⟨-, hun⟩ | ⟨hp, since, hf⟩
    · have := hun i _ hx hi
      obtain ⟨u, e, ht⟩ := hx
      simp [ht, Client.begun] at this
    · refine .inr ⟨hp, since, hv ▸ fresh_armed hf ⟨i, hi⟩ ?_⟩
      rintro ⟨j, hj⟩
      by_cases hji : j = i
      · exact ⟨i, hi⟩
      · simp only [Function.update_of_ne hji] at hj
        exact ⟨j, hj⟩
  | disarm hr hne =>
    refine ⟨⟨l, hv ▸ good_disarm hg⟩, hclient, hworker, ?_⟩
    rcases h.state with ⟨hc, hun⟩ | ⟨hp, -⟩
    · exact .inl ⟨hv ▸ { hc with sentinel := rfl }, hunput hne hun⟩
    · exact absurd (removes (Client.removes_of_at hx (.inl hr))) (by simp [hp])
  | remove hr hne =>
    refine ⟨⟨l, hv ▸ good_entry hg _⟩, hclient, hworker, ?_⟩
    rcases h.state with ⟨hc, hun⟩ | ⟨hp, -⟩
    · exact .inl ⟨hv ▸ { hc with entry := rfl }, hunput hne hun⟩
    · exact absurd (removes (Client.removes_of_at hx (.inr hr))) (by simp [hp])
  | expire hy hgone =>
    refine ⟨⟨l, hv ▸ good_entry hg _⟩, hclient, hworker, ?_⟩
    rcases h.state with ⟨hc, hun⟩ | ⟨hp, since, hf⟩
    · exact absurd (hc.entry.symm.trans hy) (by simp)
    · -- The entry is not expired, for whoever is to renew it does so in time.
      obtain rfl := Option.some.inj (hf.entry.symm.trans hy)
      exact absurd hgone.2 (Nat.not_lt.mpr hf.alive)

/-- A refresh is given up. -/
theorem inv_worker_gone {j : Nat} (h : Inv c ttl tasks k m puts s crew) (he : Elsewhere s s') :
    Inv c ttl tasks k m puts s' { crew with worker := Function.update crew.worker j none } := by
  have hv := view_elsewhere (k := k) he
  have hrs : s'.refreshes = s.refreshes := congrArg View.refreshes hv
  refine ⟨hv ▸ h.good, h.client, fun i z hz => ?_, hv ▸ h.state⟩
  obtain ⟨-, hz'⟩ := (Pool.update_eq_some hz).resolve_left (by simp)
  exact hrs ▸ h.worker i z hz'

/-- A refresh marks what it has done. -/
theorem good_modify {period : Nat} {v : View} {l : Loop} {x : Option Ticker} {j : Nat}
    {f : Refresh → Refresh} (hf : f = Refresh.arm ∨ f = Refresh.write)
    (h : Good k ttl period m v l x) :
    Good k ttl period m { v with refreshes := v.refreshes.modify j f } l x := by
  refine good_refreshes h fun r' hr' => ?_
  rcases mem_of_mem_modify hr' with hr | ⟨r, hr, rfl⟩
  · exact ⟨r', hr, rfl, id⟩
  · refine ⟨r, List.mem_of_getElem? hr, ?_, ?_⟩
    · rcases hf with rfl | rfl <;> rfl
    · rcases hf with rfl | rfl
      · exact id
      · exact fun hp => absurd hp.2 (by simp [Refresh.write])

theorem cold_modify {v : View} {x : Option Ticker} {j : Nat} {f : Refresh → Refresh}
    (hf : f = Refresh.arm ∨ f = Refresh.write) (h : Cold k v x) :
    Cold k { v with refreshes := v.refreshes.modify j f } x := by
  refine { h with refreshes := fun r' hr' => ?_ }
  rcases mem_of_mem_modify hr' with hr | ⟨r, hr, rfl⟩
  · exact h.refreshes r' hr
  · rcases hf with rfl | rfl <;> exact h.refreshes r (List.mem_of_getElem? hr)

/-- **A step of a refresh.** -/
theorem inv_worker [Journal ρ] {j : Nat} {x x' : Worker ρ}
    (hw : Window c.realTtl ttl c.checkInterval.toNanos m) (h : Inv c ttl tasks k m puts s crew)
    (hj : crew.worker j = some x) (hs : x.Steps w c ttl j s x' s') :
    Inv c ttl tasks k m puts s'
      { crew with worker := Function.update crew.worker j (some x') } := by
  obtain ⟨l, hg⟩ := h.good
  have hx := h.worker j x hj
  have hx' := Worker.at_of_steps hs hx
  have hworker : ∀ i z, Function.update crew.worker j (some x') i = some z →
      z.At s'.refreshes i := by
    intro i z hz
    rcases Pool.update_eq_some hz with ⟨rfl, hz'⟩ | ⟨hi, hz'⟩
    · obtain rfl := Option.some.inj hz'
      exact hx'
    · exact Worker.at_grows (Worker.grows_of_steps hs hx (Ne.symm hi)) (h.worker i z hz')
  have same (hv : view k s' = view k s) : Inv c ttl tasks k m puts s'
      { crew with worker := Function.update crew.worker j (some x') } :=
    ⟨hv ▸ h.good, h.client, hworker, hv ▸ h.state⟩
  cases hs with
  | begin | miss | see => exact same rfl
  | load hq => exact same (view_elsewhere (Process.keeps_next? ⟨s.rest, rfl⟩ hx.2.2 hq).2)
  | hold he | gone he | release he => exact same (view_elsewhere he)
  | arm key v =>
    obtain ⟨hu, r, hr, rfl⟩ := hx
    have hv := view_arm ttl k r.key j s
    refine ⟨⟨l, hv ▸ ?_⟩, h.client, hworker, ?_⟩
    · split
      · exact good_modify (.inl rfl) (good_arm hg)
      · exact good_modify (.inl rfl) hg
    · rw [hv]
      rcases h.state with ⟨hc, hun⟩ | ⟨hp, since, hf⟩
      · have hk : k ≠ r.key := Ne.symm (hc.refreshes r (List.mem_of_getElem? hr))
        rw [if_neg hk]
        exact .inl ⟨cold_modify (.inl rfl) hc, hun⟩
      · refine .inr ⟨hp, since, ?_⟩
        split
        · rename_i hk
          exact fresh_arm hw hg hf hr ⟨hk.symm, hu r hr⟩
        · rename_i hk
          exact fresh_other hf hr (Ne.symm hk)
  | write key v =>
    obtain ⟨r, hr, rfl, harm⟩ := hx
    have hv := view_write c.realTtl k r.key v j s
    refine ⟨⟨l, hv ▸ ?_⟩, h.client, hworker, ?_⟩
    · exact good_modify (.inr rfl)
        (good_entry hg (if k = r.key then some (s.instant, c.realTtl) else (view k s).entry))
    rw [hv]
    rcases h.state with ⟨hc, hun⟩ | ⟨hp, since, hf⟩
    · have hk : k ≠ r.key := Ne.symm (hc.refreshes r (List.mem_of_getElem? hr))
      rw [if_neg hk]
      exact .inl ⟨cold_modify (.inr rfl) hc, hun⟩
    · split
      · exact .inr ⟨hp, _, fresh_write hw hg hf hr harm⟩
      · rename_i hk
        exact .inr ⟨hp, since, fresh_other hf hr (Ne.symm hk)⟩

/-- **A step of the sentinels' loop.** -/
theorem inv_loop {x x' : Ticker} (hw : Window c.realTtl ttl c.checkInterval.toNanos m)
    (h : Inv c ttl tasks k m puts s crew) (hx : crew.loop = some x) (hs : x.Steps s x' s') :
    Inv c ttl tasks k m puts s' { crew with loop := some x' } := by
  obtain ⟨l, hg⟩ := h.good
  have hstate := h.state
  rw [hx] at hg hstate
  have hb := beats_of_steps (k := k) hs
  refine ⟨good_beats hw.alive hg hb, h.client, fun j z hz => ?_, ?_⟩
  · exact Worker.at_grows (Ticker.grows_of_steps hs j) (h.worker j z hz)
  · refine hstate.imp (fun ⟨hc, hun⟩ => ⟨cold_beats hc hb, hun⟩) fun ⟨hp, since, hf⟩ => ?_
    exact ⟨hp, since, fresh_beats hw hg hf hb⟩

/-- The loop is given up while it waits. -/
theorem inv_loop_gone {n : Nat} (h : Inv c ttl tasks k m puts s crew)
    (hx : crew.loop = some (.awaiting n)) :
    Inv c ttl tasks k m puts s { crew with loop := none } := by
  obtain ⟨l, hg⟩ := h.good
  have hstate := h.state
  rw [hx] at hg hstate
  refine ⟨⟨l, { hg with ahead := hg.ahead, busy := by simp, paced := hg.paced }⟩, h.client,
    h.worker, ?_⟩
  refine hstate.imp (fun ⟨hc, hun⟩ => ⟨{ hc with still := id }, hun⟩) ?_
  exact fun ⟨hp, since, hf⟩ => ⟨hp, since, { hf with cover := hf.cover, due := hf.due }⟩

/-- **Time passes, and something happens elsewhere.** -/
theorem inv_elapse {effect : ε → ρ → ρ} {x : ε × Nat}
    (hw : Window c.realTtl ttl c.checkInterval.toNanos m) (h : Inv c ttl tasks k m puts s crew)
    (hx : 0 < x.2 → AtEase crew.loop ∧ Countable (s.instant + x.2) ∧
      (Midway k crew → ∀ e, s.inner.table.find? k = some e →
        s.instant + x.2 ≤ e.created + m.put) ∧
      (∀ l, s.sentinel.loop = some l → s.instant + x.2 ≤ l.next + m.tick) ∧
      ∀ r ∈ s.refreshes, Pending k r → s.instant + x.2 ≤ r.asked + m.refresh) :
    Inv c ttl tasks k m puts (elapse effect x s) crew := by
  rcases Nat.eq_zero_or_pos x.2 with h0 | hpos
  · have hv : view k (elapse effect x s) = view k s := by
      simp only [view, elapse, h0, Nat.add_zero]
    exact ⟨hv ▸ h.good, h.client, h.worker, hv ▸ h.state⟩
  · obtain ⟨hease, hc, hm, hl, hr⟩ := hx hpos
    obtain ⟨l, hg⟩ := h.good
    have hn := hl l hg.loop
    refine ⟨⟨l, good_elapse hg hease hn hc⟩, h.client, h.worker, ?_⟩
    refine h.state.imp (fun ⟨hc, hun⟩ => ⟨{ hc with }, hun⟩) ?_
    rintro ⟨hp, since, hf⟩
    refine ⟨hp, since, fresh_elapse hw hg hf hease (fun hmid => ?_) hn hr⟩
    obtain ⟨e, he, hse⟩ := Option.map_eq_some_iff.mp hf.entry
    obtain ⟨rfl, -⟩ := Prod.mk.inj hse
    exact hm hmid e he

end Invariant

/-! ## All that runs -/

section Run

variable [Journal ρ] (w : World ρ) (c : Preload.Config) (ttl : Duration)

/-- Everyone is at the stage that the crew says. -/
structure Staged (p : Pool (Who ι) (Warm ρ) (Answer Reply)) (crew : Crew ι ρ) : Prop where
  client : ∀ i, p.threads (.client i) = (crew.client i).map (Client.process w c ttl)
  worker : ∀ j, p.threads (.worker j) = (crew.worker j).map (Worker.process w c ttl j)
  loop : p.threads .loop = crew.loop.map Ticker.process

/-- Time may pass by `n`, and everything that is due has been done by then, give or take the
slack. -/
structure OnTime (k : String) (m : Slack) (p : Pool (Who ι) (Warm ρ) (Answer Reply)) (n : Nat) :
    Prop where
  /-- No put of the key is for longer between its two writes. -/
  puts : ∀ i, p.threads (.client i) = some ((Client.arming k).process w c ttl) →
    ∀ e, p.state.inner.table.find? k = some e → p.state.instant + n ≤ e.created + m.put
  /-- The sentinels' loop is not in the middle of a tick, and the next tick is not overdue. -/
  loop : ∀ q, p.threads .loop = some q → q.AtRest
  ticks : ∀ l, p.state.sentinel.loop = some l → p.state.instant + n ≤ l.next + m.tick
  /-- Every refresh of the key has succeeded that soon after the tick that called for it. -/
  refreshes : ∀ r ∈ p.state.refreshes, r.key = k → r.written = false →
    p.state.instant + n ≤ r.asked + m.refresh
  clock : Countable (p.state.instant + n)

/-- Time passes only when it may. -/
def Punctual (k : String) (m : Slack) (p : Pool (Who ι) (Warm ρ) (Answer Reply)) :
    Turn (Who ι) (ε × Nat) → Prop
  | .outside x => 0 < x.2 → OnTime w c ttl k m p x.2
  | _ => True

variable {w c ttl} {tasks : ι → Task} {k : String} {m : Slack} {puts : Bool}
  {p p' : Pool (Who ι) (Warm ρ) (Answer Reply)} {crew : Crew ι ρ}

theorem staged_client [DecidableEq ι] (h : Staged w c ttl p crew) (s : Warm ρ) (i : ι)
    (y : Option Client) :
    Staged w c ttl ⟨s, Function.update p.threads (.client i) (y.map (Client.process w c ttl))⟩
      { crew with client := Function.update crew.client i y } where
  client := Pool.update_eq_map (fun _ _ => Who.client.inj) h.client i y
  worker := h.worker
  loop := h.loop

theorem staged_worker [DecidableEq ι] (h : Staged w c ttl p crew) (s : Warm ρ) (j : Nat)
    (y : Option (Worker ρ)) :
    Staged w c ttl ⟨s, Function.update p.threads (.worker j) (y.map (Worker.process w c ttl j))⟩
      { crew with worker := Function.update crew.worker j y } where
  client := h.client
  worker := Pool.update_eq_map (fun _ _ => Who.worker.inj) h.worker j y
  loop := h.loop

theorem staged_loop [DecidableEq ι] (h : Staged w c ttl p crew) (s : Warm ρ) (y : Option Ticker) :
    Staged w c ttl ⟨s, Function.update p.threads .loop (y.map Ticker.process)⟩
      { crew with loop := y } where
  client := h.client
  worker := h.worker
  loop := rfl

/-! ## Giving up -/

omit [Journal ρ] in
/-- A caller waits only before it begins. -/
theorem Client.idle_of_wait {x : Client} {v : Wait (Warm ρ)} {g : Warm ρ → Warm ρ}
    {k : Warm ρ → Process (Warm ρ) (Answer Reply)} (h : x.process w c ttl = .wait v g k) :
    (∃ t, x = .idle t) ∧ g = id := by
  cases x with
  | idle t =>
    obtain ⟨-, rfl, -⟩ := Process.wait.inj h
    exact ⟨⟨t, rfl⟩, rfl⟩
  | call y => cases y <;> cases h
  | passing stage =>
    cases stage with
    | deliver rest removed => cases rest <;> cases h
    | _ => cases h
  | _ => cases h

/-- A refresh waits before it is called for, and for its load. -/
theorem Worker.elsewhere_of_wait {j : Nat} {rs : List Refresh} {x : Worker ρ} {v : Wait (Warm ρ)}
    {g : Warm ρ → Warm ρ} {k : Warm ρ → Process (Warm ρ) (Answer Reply)} (hx : x.At rs j)
    (h : x.process w c ttl j = .wait v g k) (s : Warm ρ) : Elsewhere s (g s) := by
  cases x with
  | unasked =>
    obtain ⟨-, rfl, -⟩ := Process.wait.inj h
    exact ⟨s.rest, rfl⟩
  | loading key q' =>
    obtain ⟨-, -, hk⟩ := hx
    cases hk with
    | done a =>
      cases a with
      | none => cases h
      | some v => cases h
    | act hg hk => cases h
    | wait hc hp =>
      obtain ⟨-, rfl, -⟩ := Process.wait.inj h
      exact hc s
  | _ => cases h

omit [Journal ρ] in
/-- The loop rests only between ticks. -/
theorem Ticker.awaiting_of_atRest {x : Ticker} (hx : ∀ n r, x ≠ .ticking n (.deliver [] r))
    (h : (x.process (ρ := ρ)).AtRest) : ∃ n, x = .awaiting n := by
  cases x with
  | awaiting n => exact ⟨n, rfl⟩
  | ticking n stage =>
    cases stage with
    | deliver rest removed =>
      cases rest with
      | nil => exact absurd rfl (hx n removed)
      | cons y rest => exact h.elim
    | _ => exact h.elim

/-! ## Turns -/

variable (w c ttl) in
/-- What a turn is for the crew, and the step that it is in the history. -/
inductive Turned [DecidableEq ι] (effect : ε → ρ → ρ) (s : Warm ρ) (crew : Crew ι ρ) :
    Turn (Who ι) (ε × Nat) → Option (Pool.Event (Who ι) (Warm ρ) (Answer Reply)) → Warm ρ →
      Crew ι ρ → Prop
  | still (t : Turn (Who ι) (ε × Nat)) : Turned effect s crew t none s crew
  | client {i : ι} {x x' : Client} {s' : Warm ρ} (a : Option (Answer Reply))
      (hx : crew.client i = some x) (hs : x.Steps w c ttl s x' s') :
      Turned effect s crew (.go (.client i)) (some ⟨.client i, s, s', a⟩) s'
        { crew with client := Function.update crew.client i (some x') }
  | worker {j : Nat} {x x' : Worker ρ} {s' : Warm ρ} (a : Option (Answer Reply))
      (hx : crew.worker j = some x) (hs : x.Steps w c ttl j s x' s') :
      Turned effect s crew (.go (.worker j)) (some ⟨.worker j, s, s', a⟩) s'
        { crew with worker := Function.update crew.worker j (some x') }
  | loop {x x' : Ticker} {s' : Warm ρ} (a : Option (Answer Reply)) (hx : crew.loop = some x)
      (hs : x.Steps s x' s') :
      Turned effect s crew (.go .loop) (some ⟨.loop, s, s', a⟩) s' { crew with loop := some x' }
  | clientGone {i : ι} {t : Task} (hx : crew.client i = some (.idle t)) :
      Turned effect s crew (.drop (.client i)) none s
        { crew with client := Function.update crew.client i none }
  | workerGone {j : Nat} {s' : Warm ρ} (he : Elsewhere s s') :
      Turned effect s crew (.drop (.worker j)) none s'
        { crew with worker := Function.update crew.worker j none }
  | loopGone {n : Nat} (hx : crew.loop = some (.awaiting n)) :
      Turned effect s crew (.drop .loop) none s { crew with loop := none }
  | outside (e : ε × Nat) : Turned effect s crew (.outside e) none (elapse effect e s) crew

/-- **What a turn is for the crew.** -/
theorem turned_of_moved [DecidableEq ι] {effect : ε → ρ → ρ} {t : Turn (Who ι) (ε × Nat)}
    {x : Option (Pool.Event (Who ι) (Warm ρ) (Answer Reply))} (h : Manned tasks p.state crew)
    (hst : Staged w c ttl p crew) (hm : Pool.Moved (elapse effect) p t x p') :
    ∃ crew', Turned w c ttl effect p.state crew t x p'.state crew' ∧ Staged w c ttl p' crew' := by
  have busy {y : Ticker} (hy : crew.loop = some y) : ∀ n r, y ≠ .ticking n (.deliver [] r) :=
    fun n r he => h.busy n r (hy.trans (congrArg some he))
  cases hm with
  | still => exact ⟨crew, .still _, hst⟩
  | @step who q q' s hq hs =>
    cases who with
    | client i =>
      rw [hst.client i] at hq
      obtain ⟨y, hy, rfl⟩ := Option.map_eq_some_iff.mp hq
      obtain ⟨z, rfl, hz⟩ := Client.steps_of_next? hs
      exact ⟨_, .client _ hy hz, staged_client hst s i (some z)⟩
    | worker j =>
      rw [hst.worker j] at hq
      obtain ⟨y, hy, rfl⟩ := Option.map_eq_some_iff.mp hq
      obtain ⟨z, rfl, hz⟩ := Worker.steps_of_next? hs
      exact ⟨_, .worker _ hy hz, staged_worker hst s j (some z)⟩
    | loop =>
      rw [hst.loop] at hq
      obtain ⟨y, hy, rfl⟩ := Option.map_eq_some_iff.mp hq
      obtain ⟨z, rfl, hz⟩ := Ticker.steps_of_next? (busy hy) hs
      exact ⟨_, .loop _ hy hz, staged_loop hst s (some z)⟩
  | @gone who v g k hq =>
    cases who with
    | client i =>
      rw [hst.client i] at hq
      obtain ⟨y, hy, hq⟩ := Option.map_eq_some_iff.mp hq
      obtain ⟨⟨t, rfl⟩, rfl⟩ := Client.idle_of_wait hq
      exact ⟨_, .clientGone hy, staged_client hst _ i none⟩
    | worker j =>
      rw [hst.worker j] at hq
      obtain ⟨y, hy, hq⟩ := Option.map_eq_some_iff.mp hq
      exact ⟨_, .workerGone (Worker.elsewhere_of_wait (h.worker j y hy) hq p.state),
        staged_worker hst _ j none⟩
    | loop =>
      rw [hst.loop] at hq
      obtain ⟨y, hy, hq⟩ := Option.map_eq_some_iff.mp hq
      obtain ⟨n, rfl⟩ := Ticker.awaiting_of_atRest (busy hy) (by rw [hq]; trivial)
      cases n with
      | zero => cases hq
      | succ n =>
        obtain ⟨-, rfl, -⟩ := Process.wait.inj hq
        exact ⟨_, .loopGone hy, staged_loop hst _ none⟩
  | outside e => exact ⟨crew, .outside e, hst.client, hst.worker, hst.loop⟩

/-- A turn leads everyone on in his own task. -/
theorem manned_turned [DecidableEq ι] {effect : ε → ρ → ρ} {s s' : Warm ρ} {crew' : Crew ι ρ}
    {t : Turn (Who ι) (ε × Nat)} {x : Option (Pool.Event (Who ι) (Warm ρ) (Answer Reply))}
    (h : Manned tasks s crew) (ht : Turned w c ttl effect s crew t x s' crew') :
    Manned tasks s' crew' := by
  have same {rs : List Refresh} (hrs : rs = s.refreshes) (j : Nat) (z : Worker ρ)
      (hz : crew.worker j = some z) : z.At rs j := hrs ▸ h.worker j z hz
  cases ht with
  | still => exact h
  | outside e => exact ⟨h.client, h.worker, h.busy⟩
  | @client i y z _ a hy hz =>
    refine ⟨fun j u hu => ?_, same (sees_refreshes (sees_of_steps (k := "") hz)), h.busy⟩
    rcases Pool.update_eq_some hu with ⟨rfl, hu'⟩ | ⟨-, hu'⟩
    · obtain rfl := Option.some.inj hu'
      exact Client.at_of_steps hz (h.client j y hy)
    · exact h.client j u hu'
  | @worker j y z _ a hy hz =>
    have hat := h.worker j y hy
    refine ⟨h.client, fun i u hu => ?_, h.busy⟩
    rcases Pool.update_eq_some hu with ⟨rfl, hu'⟩ | ⟨hi, hu'⟩
    · obtain rfl := Option.some.inj hu'
      exact Worker.at_of_steps hz hat
    · exact Worker.at_grows (Worker.grows_of_steps hz hat (Ne.symm hi)) (h.worker i u hu')
  | @loop y z _ a hy hz =>
    refine ⟨h.client, fun j u hu => Worker.at_grows ?_ (h.worker j u hu), ?_⟩
    · exact Ticker.grows_of_steps hz j
    · exact fun n r he => Ticker.busy_of_steps hz n r (Option.some.inj he)
  | clientGone hy =>
    refine ⟨fun j u hu => ?_, h.worker, h.busy⟩
    exact h.client j u ((Pool.update_eq_some hu).resolve_left (by simp)).2
  | workerGone he =>
    obtain ⟨r, rfl⟩ := he
    refine ⟨h.client, fun j u hu => ?_, h.busy⟩
    exact h.worker j u ((Pool.update_eq_some hu).resolve_left (by simp)).2
  | loopGone hy => exact ⟨h.client, h.worker, by simp⟩

/-! ## Runs -/

variable (w c ttl tasks k m puts) in
/-- The invariant of a pool. -/
def Kept (p : Pool (Who ι) (Warm ρ) (Answer Reply)) : Prop :=
  ∃ crew, Inv c ttl tasks k m puts p.state crew ∧ Staged w c ttl p crew

omit [Journal ρ] in
theorem manned_of_inv {s : Warm ρ} (h : Inv c ttl tasks k m puts s crew) : Manned tasks s crew := by
  obtain ⟨l, hg⟩ := h.good
  exact ⟨h.client, h.worker, hg.busy⟩

/-- **What one turn keeps.** -/
theorem kept_moved [DecidableEq ι] {effect : ε → ρ → ρ} {t : Turn (Who ι) (ε × Nat)}
    {x : Option (Pool.Event (Who ι) (Warm ρ) (Answer Reply))}
    (hw : Window c.realTtl ttl c.checkInterval.toNanos m) (ht : Punctual w c ttl k m p t)
    (ha : ∀ i, t = .go (.client i) → Allows k puts (tasks i))
    (h : Kept w c ttl tasks k m puts p) (hm : Pool.Moved (elapse effect) p t x p') :
    Kept w c ttl tasks k m puts p' := by
  obtain ⟨crew, hinv, hst⟩ := h
  obtain ⟨crew', hturned, hst'⟩ := turned_of_moved (manned_of_inv hinv) hst hm
  obtain ⟨s', threads'⟩ := p'
  refine ⟨crew', ?_, hst'⟩
  cases hturned with
  | still => exact hinv
  | client a hy hz => exact inv_client hinv hy (ha _ rfl) hz
  | worker a hy hz => exact inv_worker hw hinv hy hz
  | loop a hy hz => exact inv_loop hw hinv hy hz
  | clientGone hy => exact inv_client_same hinv hy (by simp) (by simp) (by simp) (by simp) rfl
  | workerGone he => exact inv_worker_gone hinv he
  | loopGone hy => exact inv_loop_gone hinv hy
  | outside e =>
    refine inv_elapse hw hinv fun he => ?_
    have ho : OnTime w c ttl k m p e.2 := ht he
    have hrefreshes : ∀ r ∈ p.state.refreshes, Pending k r →
        p.state.instant + e.2 ≤ r.asked + m.refresh :=
      fun r hr hp => ho.refreshes r hr hp.1 hp.2
    refine ⟨atEase_iff.mpr ?_, ho.clock, ?_, ho.ticks, hrefreshes⟩
    · cases hl : crew.loop with
      | none => exact .inl rfl
      | some y =>
        have hq : p.threads .loop = some y.process := by rw [hst.loop, hl]; rfl
        have hb : ∀ n r, y ≠ .ticking n (.deliver [] r) := fun n r he =>
          (manned_of_inv hinv).busy n r (hl.trans (congrArg some he))
        obtain ⟨n, rfl⟩ := Ticker.awaiting_of_atRest hb (ho.loop _ hq)
        exact .inr ⟨n, rfl⟩
    · rintro ⟨i, hi⟩
      exact ho.puts i (by rw [hst.client i, hi]; rfl)

/-- The sentinels' engine of a new preloading cache. -/
theorem prepare_empty {now : Nat} {e : Engine}
    (h : Preload.prepare c now .empty = .ok (ttl, e)) :
    c.sentinelTtl = .ok ttl ∧ e.table = .empty ∧ e.watched = true ∧
      ∃ hp, e.loop = some (.start now c.checkInterval hp) := by
  cases ht : c.sentinelTtl with
  | error x => simp [Preload.prepare, ht, bind, Except.bind] at h
  | ok t =>
    have hp := (Preload.Config.sentinelTtl_eq_ok_iff.mp ht).1.1
    simp only [Preload.prepare, ht, Engine.watch, Engine.start, Engine.empty, bind, Except.bind,
      Bool.false_eq_true, if_false, dif_pos hp, if_true, pure, Except.pure, Except.ok.injEq,
      Prod.mk.injEq] at h
    obtain ⟨rfl, rfl⟩ := h
    exact ⟨rfl, rfl, rfl, hp, rfl⟩

theorem window_of_sentinelTtl (h : c.sentinelTtl = .ok ttl)
    (hd : c.checkInterval.toNanos + (m.tick + m.put + m.refresh) ≤ c.ahead.toNanos) :
    Window c.realTtl ttl c.checkInterval.toNanos m := by
  obtain ⟨⟨-, -, ha⟩, rfl⟩ := Preload.Config.sentinelTtl_eq_ok_iff.mp h
  refine ⟨?_, ?_⟩ <;> rw [Duration.toNanos_sub] <;> omega

/-- The stages before anyone has taken a step. -/
def crewOf (tasks : ι → Task) (n : Nat) : Crew ι ρ :=
  ⟨fun i => some (.idle (tasks i)), fun _ => some .unasked, some (.awaiting n)⟩

variable (c ttl k) in
/-- A preloading cache was made over an inner cache without the key. -/
structure Opened (s : Warm ρ) : Prop where
  prepared : Preload.prepare c s.instant .empty = .ok (ttl, s.sentinel)
  refreshes : s.refreshes = []
  absent : s.inner.table.find? k = none
  clock : Countable s.instant

omit [Journal ρ] in
theorem inv_opened {s : Warm ρ} (h : Opened c ttl k s) (n : Nat) :
    Inv c ttl tasks k m false s (crewOf tasks n) := by
  obtain ⟨-, ht, hw, hp, hl⟩ := prepare_empty h.prepared
  have hrs : (view k s).refreshes = [] := h.refreshes
  have hs : (view k s).sentinel = none := by
    change stamp s.sentinel.table k = none
    rw [ht]
    rfl
  have none' {P : Nat → Duration → Prop} (a : Nat) (t : Duration)
      (ha : (view k s).sentinel = some (a, t)) : P a t := by
    rw [hs] at ha
    exact absurd ha (by simp)
  have hnext : s.instant < (Loop.start s.instant c.checkInterval hp).next := Loop.lt_deadline hp
  constructor
  case good =>
    exact ⟨_, {
      watched := hw, loop := hl, every := rfl, countable := h.clock
      next_le := deadline_le h.clock, ahead := Nat.le_add_right_of_le (Nat.le_of_lt hnext)
      busy := by simp [crewOf], asked := by simp [hrs]
      life := none', born := none', order := none', paced := none' }⟩
  case client =>
    intro i x hx
    obtain rfl := Option.some.inj hx
    rfl
  case worker =>
    intro j x hx
    obtain rfl := Option.some.inj hx
    exact fun r hr => absurd hr (by simp [h.refreshes])
  case state =>
    refine .inl ⟨⟨?_, hs, by simp [hrs], id⟩, ?_⟩
    · simp [view, stamp, h.absent]
    · intro i x _ hx
      obtain rfl := Option.some.inj hx
      exact .inl rfl

variable (w c ttl k) in
/-- A read of the key succeeds now. -/
def Reads (s : Warm ρ) : Prop := ∃ v, ((cache w c ttl).get k).next? s = some (.done (.ok v), s)

omit [Journal ρ] in
theorem reads_of_fresh {s : Warm ρ} {since : Nat} {x : Option Ticker} {midway : Prop}
    (h : Fresh k m c.realTtl since (view k s) x midway) : Reads w c ttl k s := by
  obtain ⟨e, he, hse⟩ := Option.map_eq_some_iff.mp h.entry
  obtain ⟨rfl, hl⟩ := Prod.mk.inj hse
  have hx : ¬ e.isExpiredAt s.instant = true := by
    rw [Entry.isExpiredAt_iff, hl]
    exact fun hx => absurd hx.2 (Nat.not_lt.mpr h.alive)
  have hr : s.inner.table.read s.instant k = .ok e.value := by
    rw [Table.read, he]
    exact if_neg hx
  refine ⟨e.value, ?_⟩
  rw [← hr]
  rfl

/-- A put that has ended has taken effect. -/
theorem not_unput (hst : Staged w c ttl p crew) {i : ι} {a : Answer Reply}
    (hput : (tasks i).Puts k) (hdone : p.threads (.client i) = some (.done a)) :
    ¬ Unput tasks k crew := by
  intro hun
  rw [hst.client i] at hdone
  obtain ⟨x, hx, hd⟩ := Option.map_eq_some_iff.mp hdone
  obtain ⟨v, e, ht⟩ := hput
  rcases hun i x ⟨v, e, ht⟩ hx with rfl | rfl
  · cases hd
  · rw [ht] at hd
    cases hd

/-- A run in which the key is not removed once a put of it has begun. -/
structure Undisturbed (tasks : ι → Task) (k : String)
    (before after : List (Turn (Who ι) (ε × Nat))) : Prop where
  before : ∀ i, (tasks i).Puts k → .go (.client i) ∉ before
  after : ∀ i, (tasks i).Removes k → .go (.client i) ∉ after

/-- **A key that was put is there at every instant**, whatever else is put, stepped or reclaimed and
however refreshes overlap, as long as ticks, puts and refreshes of the key take no longer than the
slack that the settings leave.

A check interval and the time of a refresh, `m.refresh`, have to fit into the time ahead. Of the
rest of the slack, `m.tick` is how late ticks run, and `m.put` how long a put is at work between the
writes of entry and sentinel, which are two steps. Where ticks run when they are due and a put does
not pause, both are zero. -/
theorem run_fresh [DecidableEq ι] {effect : ε → ρ → ρ} {n : Nat} {s : Warm ρ}
    {before after : List (Turn (Who ι) (ε × Nat))} {i : ι} {a : Answer Reply}
    (ho : Opened c ttl k s)
    (hd : c.checkInterval.toNanos + (m.tick + m.put + m.refresh) ≤ c.ahead.toNanos)
    (hu : Undisturbed tasks k before after)
    (ht : Pool.Along (elapse effect) (Punctual w c ttl k m) (before ++ after)
      (pool w c ttl tasks n s))
    (hput : (tasks i).Puts k)
    (hdone : ((pool w c ttl tasks n s).run (elapse effect) (before ++ after)).threads (.client i) =
      some (.done a)) :
    Reads w c ttl k ((pool w c ttl tasks n s).run (elapse effect) (before ++ after)).state := by
  have hw := window_of_sentinelTtl (prepare_empty ho.prepared).1 hd
  obtain ⟨hb, ha⟩ := Pool.along_append_iff.mp ht
  rw [Pool.run_append] at hdone ⊢
  have allowed₁ {t : Turn (Who ι) (ε × Nat)} (hm : t ∈ before) (j : ι)
      (hj : t = .go (.client j)) : Allows k false (tasks j) := by
    intro hp
    exact hu.before j hp (hj ▸ hm)
  have allowed₂ {t : Turn (Who ι) (ε × Nat)} (hm : t ∈ after) (j : ι)
      (hj : t = .go (.client j)) : Allows k true (tasks j) := by
    intro hr
    exact hu.after j hr (hj ▸ hm)
  have hopen : Kept w c ttl tasks k m false (pool w c ttl tasks n s) :=
    ⟨_, inv_opened ho n, fun _ => rfl, fun _ => rfl, rfl⟩
  obtain ⟨crew₁, h₁, hst₁⟩ := Pool.along_induction (I := Kept w c ttl tasks k m false) before
    (fun q t x q' hm ht hq hmoved => kept_moved hw ht (allowed₁ hm) hq hmoved) hb hopen
  -- From here on the key may be put and may not be removed.
  have hmiddle : Kept w c ttl tasks k m true
      ((pool w c ttl tasks n s).run (elapse effect) before) := ⟨crew₁, inv_weaken h₁, hst₁⟩
  obtain ⟨crew₂, h₂, hst₂⟩ := Pool.along_induction (I := Kept w c ttl tasks k m true) after
    (fun q t x q' hm ht hq hmoved => kept_moved hw ht (allowed₂ hm) hq hmoved) ha hmiddle
  rcases h₂.state with ⟨-, hun⟩ | ⟨-, since, hf⟩
  · exact absurd hun (not_unput hst₂ hput hdone)
  · exact reads_of_fresh hf

end Run

/-! ## A run past the life of the first entry -/

instance : Journal Unit := ⟨fun _ _ u => u⟩

/-- A loader that answers at once. -/
def steady : World Unit :=
  ⟨fun _ => .done (.ok (.bool true)), ⟨fun u => (true, u), id⟩, fun _ _ => id⟩

/-- Entries live for three seconds, sentinels for one, and the loop ticks every other second. -/
def brisk : Preload.Config := ⟨.ofSecs 3, .ofSecs 2, 0, .ofSecs 2⟩

/-- The state at first. -/
def atFirst : Warm Unit :=
  ⟨0, .empty, ⟨.empty, true, true, some (.start 0 (.ofSecs 2) (by decide))⟩, [], ()⟩

/-- One caller puts a key; after two seconds its sentinel is evicted, and a refresh renews both. -/
def turns : List (Turn (Who Unit) (Unit × Nat)) :=
  List.replicate 3 (.go (.client ())) ++ [.outside ((), 2_000_000_000)] ++
    List.replicate 6 (.go .loop) ++ List.replicate 6 (.go (.worker 0)) ++
      [.outside ((), 2_000_000_000)]

def caller (_ : Unit) : Task := .call (.put "k" (.bool false) .zero)

theorem run_fresh_four_seconds :
    ((pool steady brisk (.ofSecs 1) caller 1 atFirst).run (elapse fun _ u => u)
      ([] ++ turns)).state.instant = 4_000_000_000 ∧
    Reads steady brisk (.ofSecs 1) "k" ((pool steady brisk (.ofSecs 1) caller 1 atFirst).run
      (elapse fun _ u => u) ([] ++ turns)).state := by
  have opened : Opened brisk (.ofSecs 1) "k" atFirst :=
    ⟨rfl, rfl, rfl, by unfold Countable; decide⟩
  have undisturbed : Undisturbed caller "k" [] turns := by
    refine ⟨fun _ _ => List.not_mem_nil, fun i hr => ?_⟩
    rcases hr with hr | hr <;> cases hr
  have punctual : Pool.Along (elapse fun _ u => u)
      (Punctual steady brisk (.ofSecs 1) "k" ⟨0, 0, 0⟩) ([] ++ turns)
      (pool steady brisk (.ofSecs 1) caller 1 atFirst) := by
    refine ⟨trivial, trivial, trivial, fun _ => ⟨?_, ?_, ?_, ?_, ?_⟩, trivial, trivial, trivial,
      trivial, trivial, trivial, trivial, trivial, trivial, trivial, trivial, trivial,
      fun _ => ⟨?_, ?_, ?_, ?_, ?_⟩, trivial⟩
    · exact fun i h => by cases h
    · exact fun q h => by cases h; exact True.intro
    · exact fun l h => by obtain rfl := Option.some.inj h; decide
    · exact fun r hr => absurd hr List.not_mem_nil
    · unfold Countable; decide
    · exact fun i h => by cases h
    · exact fun q h => by cases h; exact True.intro
    · exact fun l h => by obtain rfl := Option.some.inj h; decide +kernel
    · intro r hr
      obtain rfl := List.mem_singleton.mp hr
      exact fun _ h => absurd h (by decide)
    · unfold Countable; decide
  have done : ((pool steady brisk (.ofSecs 1) caller 1 atFirst).run (elapse fun _ u => u)
      ([] ++ turns)).threads (.client ()) = some (.done (.ok .nothing)) := rfl
  exact ⟨rfl, run_fresh opened (by decide) undisturbed punctual ⟨_, _, rfl⟩ done⟩

end LayeredCache.Warm

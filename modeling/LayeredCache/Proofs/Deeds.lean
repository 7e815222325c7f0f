import LayeredCache.Proofs.Owned

/-!
# What refreshes do

The deeds of a refresh from its first call of the loader to its end, whoever takes steps in between:
calls one after the other until one succeeds or the retries are used up; then a look for the
sentinels' engine, and, if that is there, the sentinel and the entry are renewed, each once.

Results:
* `reports_attempts`: the calls of a refresh, and the value that they leave it with.
* `went_of_steps`, `ended_of_done`: what a refresh has done at each of its stages, and at its end.
* `expects_of_blocked`: a refresh is kept by the loader and by the inner cache alone.
* `turned_of_moved`, `ordered_run`: what a turn is for refreshes and the loop, and that everyone
  goes through his stages in every schedule.
-/

namespace LayeredCache.Owned

variable {ι κ ρ ε α β : Type}

/-! ## What is recorded -/

theorem deedsOf_append (i j : Nat) (s : Owned κ ρ) (ds : List Deed) :
    deedsOf i { s with deeds := s.deeds ++ ds.map (j, ·) } =
      if j = i then deedsOf i s ++ ds else deedsOf i s := by
  rw [deedsOf, List.filterMap_append, List.filterMap_map]
  by_cases h : j = i
  · have all : (fun x : Nat × Deed => if x.1 = i then some x.2 else none) ∘ (j, ·) = some :=
      funext fun d => if_pos h
    rw [if_pos h, all, List.filterMap_some]
    rfl
  · rw [if_neg h]
    refine (congrArg (deedsOf i s ++ ·) ?_).trans (List.append_nil _)
    exact List.filterMap_eq_nil_iff.mpr fun d _ => if_neg h

/-- Refresh `j` does this, and only the rest of the state differs otherwise. -/
def Adds (j : Nat) (ds : List Deed) (s s' : Owned κ ρ) : Prop :=
  ∃ r, s' = { s with rest := r, deeds := s.deeds ++ ds.map (j, ·) }

theorem adds_of_aside (j : Nat) {s s' : Owned κ ρ} (h : Aside s s') : Adds j [] s s' := by
  obtain ⟨r, rfl⟩ := h
  exact ⟨r, by simp⟩

/-- Refresh `j` has called the loader and has not been answered. -/
def Calling (ds : List Deed) : Prop := ∃ d ∈ ds.getLast?, d.isCall = true

/-- The process changes the rest of the state alone, and waits for the loader alone. When it has
ended, what refresh `j` has done, `ds` to begin with, satisfies `P` together with the answer. -/
inductive Reports (j : Nat) (P : List Deed → α → Prop) : List Deed → Process (Owned κ ρ) α → Prop
  | done {ds : List Deed} {a : α} (h : P ds a) : Reports j P ds (.done a)
  | act {ds : List Deed} {g : Owned κ ρ → Owned κ ρ} {k : Owned κ ρ → Process (Owned κ ρ) α}
      (new : Owned κ ρ → List Deed) (hg : ∀ s, Adds j (new s) s (g s))
      (hk : ∀ s, Reports j P (ds ++ new s) (k s)) : Reports j P ds (.act g k)
  | wait {ds : List Deed} {w : Wait (Owned κ ρ)} {g : Owned κ ρ → Owned κ ρ}
      {k : Owned κ ρ → Process (Owned κ ρ) α} (hc : Calling ds) (hg : ∀ s, Aside s (g s))
      (hk : ∀ s, Reports j P ds (k s)) : Reports j P ds (.wait w g k)

section Reports

variable {j : Nat} {P : List Deed → α → Prop} {ds : List Deed}

theorem reports_next? {p q : Process (Owned κ ρ) α} {s s' : Owned κ ρ} (h : Reports j P ds p)
    (hn : p.next? s = some (q, s')) : ∃ new, Adds j new s s' ∧ Reports j P (ds ++ new) q := by
  cases h with
  | done h => simp [Process.next?] at hn
  | act new hg hk =>
    obtain ⟨rfl, rfl⟩ := Process.next?_act hn
    exact ⟨new s, hg s, hk s⟩
  | wait _ hg hk =>
    obtain ⟨-, rfl, rfl⟩ := Process.next?_wait hn
    exact ⟨[], adds_of_aside j ⟨_, rfl⟩, (List.append_nil ds).symm ▸ hk _⟩

/-- However it goes on, what was done stays part of what is done at an end that `P` allows. -/
theorem reports_prefix {p : Process (Owned κ ρ) α} (h : Reports j P ds p) (s : Owned κ ρ) :
    ∃ ds' a, ds <+: ds' ∧ P ds' a := by
  induction h with
  | done h => exact ⟨_, _, List.prefix_rfl, h⟩
  | act new _ _ ih =>
    obtain ⟨ds', a, hp, h⟩ := ih s
    exact ⟨ds', a, (List.prefix_append ..).trans hp, h⟩
  | wait _ _ _ ih => exact ih s

theorem reports_bind {Q : List Deed → β → Prop} {p : Process (Owned κ ρ) α}
    {f : α → Process (Owned κ ρ) β} (hp : Reports j P ds p)
    (hf : ∀ ds a, P ds a → Reports j Q ds (f a)) : Reports j Q ds (p.bind f) := by
  induction hp with
  | done h => exact hf _ _ h
  | act new hg _ ih => exact .act new hg ih
  | wait hc hg _ ih => exact .wait hc hg ih

theorem reports_embed (p : Process ρ α) (hc : Calling ds) (h : ∀ a, P ds a) :
    Reports j P ds (p.embed (rested (κ := κ))) := by
  induction p with
  | done a => exact .done (h a)
  | act g k ih =>
    refine .act (fun _ => []) (fun s => adds_of_aside j ⟨_, rfl⟩) fun s => ?_
    rw [List.append_nil]
    exact ih _
  | wait w g k ih => exact .wait hc (fun s => ⟨_, rfl⟩) fun s => ih _

theorem reports_record {d : Deed} {k : Process (Owned κ ρ) α} (h : Reports j P (ds ++ [d]) k) :
    Reports j P ds (.act (record j d) fun _ => k) :=
  .act (fun _ => [d]) (fun s => ⟨s.rest, rfl⟩) fun _ => h

theorem reports_note [Journal ρ] (v : Severity) (text : String) {k : Process (Owned κ ρ) α}
    (h : Reports j P ds k) :
    Reports j P ds ((Process.note v text : Process (Owned κ ρ) Unit).bind fun _ => k) := by
  refine .act (fun _ => []) (fun s => adds_of_aside j ⟨_, rfl⟩) fun _ => ?_
  rw [List.append_nil]
  exact h

/-- A call of the loader shows when it begins and what it comes to. -/
theorem reports_seen (load : Loader ρ) (key : String) :
    Reports j (fun ds' r => ds' = ds ++ [.called key, .answered key r]) ds
      (seen (κ := κ) load j key) := by
  change Reports j _ ds (.act (record j (.called key)) fun _ =>
    ((load key).embed rested).bind fun r => .act (record j (.answered key r)) fun _ => .done r)
  refine reports_record (reports_bind (P := fun ds' _ => ds' = ds ++ [.called key])
    (reports_embed _ ⟨.called key, by simp, rfl⟩ fun _ => rfl) ?_)
  rintro _ r rfl
  exact reports_record (.done (by simp))

end Reports

/-! ## The attempts of a refresh -/

/-- A call of the loader that fails. -/
def Failed (o : Except Cause Value) : Prop := ∃ e, o = .error e

theorem failed_append {os : List (Except Cause Value)} (h : ∀ o ∈ os, Failed o) (e : Cause) :
    ∀ o ∈ os ++ [.error e], Failed o := by
  intro o ho
  rcases List.mem_append.mp ho with ho | ho
  · exact h o ho
  · exact ⟨e, List.mem_singleton.mp ho⟩

/-- Calls of the loader, each of which ends before the next one begins. -/
def callsOf (key : String) (os : List (Except Cause Value)) : List Deed :=
  os.flatMap fun o => [.called key, .answered key o]

theorem callsOf_append (key : String) (os : List (Except Cause Value)) (o : Except Cause Value) :
    callsOf key (os ++ [o]) = callsOf key os ++ [.called key, .answered key o] := by
  simp [callsOf]

theorem mem_callsOf {key : String} {os : List (Except Cause Value)} {d : Deed}
    (h : d ∈ callsOf key os) : d = .called key ∨ ∃ r, d = .answered key r := by
  obtain ⟨r, -, hd⟩ := List.mem_flatMap.mp h
  rcases List.mem_cons.mp hd with hd | hd
  · exact .inl hd
  · exact .inr ⟨r, List.mem_singleton.mp hd⟩

/-- What the calls of a refresh come to, and the value that they leave it with. -/
inductive Tried (retries : Nat) : List (Except Cause Value) → Option Value → Prop
  | failed {os : List (Except Cause Value)} (h : ∀ o ∈ os, Failed o)
      (hl : os.length = retries + 1) : Tried retries os none
  | loaded {os : List (Except Cause Value)} (v : Value) (h : ∀ o ∈ os, Failed o)
      (hl : os.length ≤ retries) : Tried retries (os ++ [.ok v]) (some v)

/-- What a refresh has done when it has loaded, or given up loading. -/
def Told (retries : Nat) (key : String) (ds : List Deed) (v : Option Value) : Prop :=
  ∃ os, ds = callsOf key os ∧ Tried retries os v

/-- **The attempts of a refresh**: calls one after the other until one succeeds, as many as one more
than the retries at most. -/
theorem reports_attempts [Journal ρ] (load : Loader ρ) {j retries : Nat} {key : String}
    {left : Nat} {os : List (Except Cause Value)} (hf : ∀ o ∈ os, Failed o)
    (hl : os.length + left = retries) :
    Reports j (Told retries key) (callsOf key os)
      (Preload.attempts (seen (κ := κ) load j) retries key left) := by
  induction left generalizing os with
  | zero =>
    refine reports_bind (reports_seen load key) ?_
    rintro _ r rfl
    rw [← callsOf_append]
    cases r with
    | ok v => exact .done ⟨_, rfl, .loaded v hf (Nat.le_of_eq hl)⟩
    | error e =>
      exact reports_note _ _ (.done ⟨_, rfl, .failed (failed_append hf e) (by simp; omega)⟩)
  | succ left ih =>
    refine reports_bind (reports_seen load key) ?_
    rintro _ r rfl
    rw [← callsOf_append]
    cases r with
    | ok v => exact .done ⟨_, rfl, .loaded v hf (by omega)⟩
    | error e => exact reports_note _ _ (ih (failed_append hf e) (by simp; omega))

/-! ## The deeds of a refresh at its stages -/

/-- What a refresh has done when it has ended. -/
inductive Ended (c : Preload.Config) (key : String) : List Deed → Prop
  | gaveUp {ds : List Deed} (h : Told c.retries key ds none) : Ended c key ds
  | gone {ds : List Deed} {v : Value} (h : Told c.retries key ds (some v)) :
      Ended c key (ds ++ [.looked false])
  | renewed {ds : List Deed} {v : Value} (h : Told c.retries key ds (some v)) :
      Ended c key (ds ++ [.looked true, .armed, .stored key v c.realTtl])

/-- What refresh `j` has done at a stage. -/
def Worker.Went (c : Preload.Config) (j : Nat) (s : Owned κ ρ) : Worker κ ρ → Prop
  | .unasked => deedsOf j s = []
  | .asked => deedsOf j s = [] ∧ j < s.refreshes.length
  | .loading key q => s.refreshes[j]? = some key ∧ Reports j (Told c.retries key) (deedsOf j s) q
  | .arming key v => s.refreshes[j]? = some key ∧
      ∃ ds, Told c.retries key ds (some v) ∧ deedsOf j s = ds ++ [.looked true]
  | .storing key v => s.refreshes[j]? = some key ∧
      ∃ ds, Told c.retries key ds (some v) ∧ deedsOf j s = ds ++ [.looked true, .armed]
  | .writing key v q => q.Keeps Inward ∧ s.refreshes[j]? = some key ∧
      ∃ ds, Told c.retries key ds (some v) ∧
        deedsOf j s = ds ++ [.looked true, .armed, .stored key v c.realTtl]
  | .finished => ∃ key, s.refreshes[j]? = some key ∧ Ended c key (deedsOf j s)

/-- What a step of refresh `j` is for the books. -/
structure Works (j : Nat) (s s' : Owned κ ρ) : Prop where
  refreshes : s'.refreshes = s.refreshes
  referred : s'.referred = s.referred
  watched : s'.sentinel.watched = s.sentinel.watched
  deeds : ∃ ds : List Deed, s'.deeds = s.deeds ++ ds.map (j, ·)

theorem works_of_adds {j : Nat} {ds : List Deed} {s s' : Owned κ ρ} (h : Adds j ds s s') :
    Works j s s' := by
  obtain ⟨r, rfl⟩ := h
  exact ⟨rfl, rfl, rfl, ds, rfl⟩

theorem deedsOf_adds {j : Nat} {ds : List Deed} {s s' : Owned κ ρ} (h : Adds j ds s s') :
    deedsOf j s' = deedsOf j s ++ ds := by
  obtain ⟨r, rfl⟩ := h
  exact (deedsOf_append j j s ds).trans (if_pos rfl)

theorem works_of_inward {j : Nat} {s s' : Owned κ ρ} (h : Inward s s') : Works j s s' := by
  obtain ⟨y, r, rfl⟩ := h
  exact ⟨rfl, rfl, rfl, [], (List.append_nil _).symm⟩

theorem adds_record (j : Nat) (d : Deed) (s : Owned κ ρ) : Adds j [d] s (record j d s) :=
  ⟨s.rest, rfl⟩

theorem deedsOf_record (j : Nat) (d : Deed) (s : Owned κ ρ) :
    deedsOf j (record j d s) = deedsOf j s ++ [d] :=
  deedsOf_adds (adds_record j d s)

/-- What refresh `j` has done is not changed by what another one does. -/
theorem Works.deedsOf {i j : Nat} {s s' : Owned κ ρ} (h : Works i s s') (hij : i ≠ j) :
    deedsOf j s' = deedsOf j s := by
  obtain ⟨ds, hd⟩ := h.deeds
  have ha := deedsOf_append j i s ds
  rw [if_neg hij, ← hd] at ha
  exact ha

section Steps

variable [Journal ρ] {inner : Inner κ ρ} {load : Loader ρ} {c : Preload.Config} {ttl : Duration}
  {j : Nat} {s s' : Owned κ ρ} {x x' : Worker κ ρ}

theorem keeps_write (inner : Inner κ ρ) (c : Preload.Config) (key : String) (v : Value) :
    (Worker.write inner c key v).Keeps Inward := by
  refine Process.keeps_bind
    (Process.keeps_of_bind (inner.inward (.put key v c.realTtl))) fun r => ?_
  cases r with
  | ok u => exact .done ()
  | error e => exact .act (fun s => ⟨_, _, rfl⟩) fun _ => .done ()

theorem works_of_steps (hs : x.Steps inner load c ttl j s x' s') (hx : x.Went c j s) :
    Works j s s' := by
  cases hs with
  | load hq =>
    obtain ⟨new, ha, -⟩ := reports_next? hx.2 hq
    exact works_of_adds ha
  | hold | gone | arm | store => exact ⟨rfl, rfl, rfl, [_], rfl⟩
  | write hq => exact works_of_inward (Process.keeps_next? ⟨s.inner, s.rest, rfl⟩ hx.1 hq).2
  | _ => exact ⟨rfl, rfl, rfl, [], (List.append_nil _).symm⟩

/-- **What a refresh has done after its step.** -/
theorem went_of_steps (hs : x.Steps inner load c ttl j s x' s') (hx : x.Went c j s) :
    x'.Went c j s' := by
  have hw := works_of_steps hs hx
  cases hs with
  | begin hj => exact ⟨hx, hj⟩
  | miss hr => exact absurd (List.getElem?_eq_none_iff.mp hr) (Nat.not_le.mpr hx.2)
  | see hr =>
    have none : ∀ o ∈ ([] : List (Except Cause Value)), Failed o := by simp
    refine ⟨hr, ?_⟩
    rw [hx.1]
    exact reports_attempts load none (Nat.zero_add _)
  | load hq =>
    obtain ⟨new, ha, hr⟩ := reports_next? hx.2 hq
    exact ⟨hw.refreshes ▸ hx.1, deedsOf_adds ha ▸ hr⟩
  | hold ha =>
    obtain ⟨hk, hr⟩ := hx
    cases hr with
    | done h => exact ⟨hk, _, h, deedsOf_record ..⟩
  | gone ha =>
    obtain ⟨hk, hr⟩ := hx
    cases hr with
    | done h => exact ⟨_, hk, deedsOf_record (s := s) .. ▸ .gone h⟩
  | arm key v =>
    obtain ⟨hk, ds, ht, hd⟩ := hx
    refine ⟨hk, ds, ht, (deedsOf_record ..).trans ?_⟩
    change deedsOf j s ++ _ = _
    rw [hd, List.append_assoc]
    rfl
  | store key v =>
    obtain ⟨hk, ds, ht, hd⟩ := hx
    refine ⟨keeps_write .., hk, ds, ht, (deedsOf_record ..).trans ?_⟩
    rw [hd, List.append_assoc]
    rfl
  | write hq =>
    obtain ⟨hq', x, r, rfl⟩ := Process.keeps_next? ⟨s.inner, s.rest, rfl⟩ hx.1 hq
    exact ⟨hq', hx.2⟩
  | release =>
    obtain ⟨-, hk, ds, ht, hd⟩ := hx
    exact ⟨_, hk, hd ▸ .renewed ht⟩

omit [Journal ρ] in
/-- What others do leaves a refresh where it is. -/
theorem went_mono (hr : s.refreshes <+: s'.refreshes) (hd : deedsOf j s' = deedsOf j s)
    (hx : x.Went c j s) : x.Went c j s' := by
  have isFor {key : String} (h : s.refreshes[j]? = some key) : s'.refreshes[j]? = some key := by
    obtain ⟨hj, -⟩ := List.getElem?_eq_some_iff.mp h
    obtain ⟨keys, hkeys⟩ := hr
    rw [← hkeys, List.getElem?_append_left hj, h]
  cases x with
  | unasked => exact hd.trans hx
  | asked => exact ⟨hd.trans hx.1, Nat.lt_of_lt_of_le hx.2 hr.length_le⟩
  | loading key q => exact ⟨isFor hx.1, hd ▸ hx.2⟩
  | arming key v => exact ⟨isFor hx.1, hd ▸ hx.2⟩
  | storing key v => exact ⟨isFor hx.1, hd ▸ hx.2⟩
  | writing key v q => exact ⟨hx.1, isFor hx.2.1, hd ▸ hx.2.2⟩
  | finished =>
    obtain ⟨key, hk, he⟩ := hx
    exact ⟨key, isFor hk, hd ▸ he⟩

/-- What it is for a refresh to be given up while it waits: it lets the sentinels' engine go, if it
holds it. -/
inductive GivenUp (s : Owned κ ρ) : Worker κ ρ → Owned κ ρ → Prop
  | unasked : GivenUp s .unasked s
  | loading {key : String} {q : Process (Owned κ ρ) (Option Value)} {s' : Owned κ ρ}
      (h : Aside s s') : GivenUp s (.loading key q) s'
  | writing {key : String} {v : Value} {q : Process (Owned κ ρ) Unit} {s' : Owned κ ρ}
      (h : Inward s s') : GivenUp s (.writing key v q) { s' with held := s'.held - 1 }

theorem givenUp_of_wait {w : Wait (Owned κ ρ)} {g : Owned κ ρ → Owned κ ρ}
    {k : Owned κ ρ → Process (Owned κ ρ) (Answer Reply)} (hx : x.Went c j s)
    (h : x.process inner load c ttl j = .wait w g k) : GivenUp s x (g s) := by
  cases x with
  | unasked =>
    obtain ⟨-, rfl, -⟩ := Process.wait.inj h
    exact .unasked
  | loading key q' =>
    obtain ⟨-, hr⟩ := hx
    cases hr with
    | @done _ a hd =>
      cases a with
      | none => cases h
      | some v => cases h
    | act => cases h
    | wait _ hg =>
      obtain ⟨-, rfl, -⟩ := Process.wait.inj h
      exact .loading (hg s)
  | writing key v q' =>
    obtain ⟨hk, -⟩ := hx
    cases hk with
    | done => cases h
    | act => cases h
    | wait hg =>
      obtain ⟨-, rfl, -⟩ := Process.wait.inj h
      exact .writing (hg s)
  | _ => cases h

omit [Journal ρ] in
/-- Whoever is given up leaves the books as they are. -/
theorem GivenUp.same (h : GivenUp s x s') : s'.refreshes = s.refreshes ∧
    s'.referred = s.referred ∧ s'.sentinel = s.sentinel ∧ s'.deeds = s.deeds := by
  cases h with
  | unasked => exact ⟨rfl, rfl, rfl, rfl⟩
  | loading h =>
    obtain ⟨r, rfl⟩ := h
    exact ⟨rfl, rfl, rfl, rfl⟩
  | writing h =>
    obtain ⟨y, r, rfl⟩ := h
    exact ⟨rfl, rfl, rfl, rfl⟩

omit [Journal ρ] in
theorem works_of_givenUp (h : GivenUp s x s') : Works j s s' := by
  obtain ⟨hr, hf, hs, hd⟩ := h.same
  exact ⟨hr, hf, by rw [hs], [], hd.trans (List.append_nil _).symm⟩

omit [Journal ρ] in
/-- A refresh calls the loader for the key that it was called for. -/
theorem called_of_went {k : String} (hx : x.Went c j s) (hk : .called k ∈ deedsOf j s) :
    s.refreshes[j]? = some k := by
  have told {key : String} {ds tail : List Deed} {v : Option Value}
      (hf : s.refreshes[j]? = some key) (ht : Told c.retries key ds v)
      (htail : .called k ∉ tail) (hd : .called k ∈ ds ++ tail) : s.refreshes[j]? = some k := by
    obtain ⟨os, rfl, -⟩ := ht
    rcases mem_callsOf ((List.mem_append.mp hd).resolve_right htail) with hk | ⟨r, hk⟩
    · rw [hf, Deed.called.inj hk]
    · cases hk
  cases x with
  | unasked => exact absurd hk (hx ▸ List.not_mem_nil)
  | asked => exact absurd hk (hx.1 ▸ List.not_mem_nil)
  | loading key q =>
    obtain ⟨ds, v, hp, ht⟩ := reports_prefix hx.2 s
    exact told hx.1 ht List.not_mem_nil (List.mem_append_left _ (hp.subset hk))
  | arming key v =>
    obtain ⟨hf, ds, ht, hd⟩ := hx
    exact told hf ht (by simp) (hd ▸ hk)
  | storing key v =>
    obtain ⟨hf, ds, ht, hd⟩ := hx
    exact told hf ht (by simp) (hd ▸ hk)
  | writing key v q =>
    obtain ⟨-, hf, ds, ht, hd⟩ := hx
    exact told hf ht (by simp) (hd ▸ hk)
  | finished =>
    obtain ⟨key, hf, he⟩ := hx
    generalize deedsOf j s = ds at hk he
    cases he with
    | gaveUp ht => exact told hf ht List.not_mem_nil (List.mem_append_left _ hk)
    | gone ht => exact told hf ht (by simp) hk
    | renewed ht => exact told hf ht (by simp) hk

/-- A refresh that takes a step has not ended. -/
theorem answer?_of_steps (hs : x.Steps inner load c ttl j s x' s') :
    (x.process inner load c ttl j).answer? = none := by
  cases hs with
  | @load key q q' s' hq =>
    cases q with
    | done a => simp [Process.next?] at hq
    | act g n => rfl
    | wait v g n => rfl
  | @write key v q q' s' hq =>
    cases q with
    | done a => simp [Process.next?] at hq
    | act g n => rfl
    | wait v g n => rfl
  | _ => rfl

/-- What a step of refresh `j` does to the two stores: it arms the sentinel of its key where it says
so, and what becomes of the inner cache follows from what it has asked for. When it looks for the
sentinels' engine it sees whether that is there. -/
structure Faithful (c : Preload.Config) (ttl : Duration) (j : Nat) (s s' : Owned κ ρ) : Prop where
  sentinel : (s'.deeds = s.deeds ++ [(j, .armed)] ∧ ∃ key, s.refreshes[j]? = some key ∧
      s'.sentinel = { s.sentinel with
        table := s.sentinel.table.put s.instant key Preload.marker ttl }) ∨
    s'.deeds ≠ s.deeds ++ [(j, .armed)] ∧ s'.sentinel = s.sentinel
  inner : s'.inner = s.inner ∨ ∃ key v, .stored key v c.realTtl ∈ deedsOf j s
  looked : ∀ b, s'.deeds = s.deeds ++ [(j, .looked b)] → s.alive = b

/-- **What a step of a refresh does to the two stores.** -/
theorem faithful_of_steps (hs : x.Steps inner load c ttl j s x' s') (hx : x.Went c j s) :
    Faithful c ttl j s s' := by
  have aside {t : Owned κ ρ}
      (hd : ∀ d, t.deeds = s.deeds ++ [(j, d)] → d ≠ .armed ∧ ∀ b, d = .looked b → s.alive = b)
      (ht : t.sentinel = s.sentinel) (hi : t.inner = s.inner) : Faithful c ttl j s t :=
    ⟨.inr ⟨fun he => (hd _ he).1 rfl, ht⟩, .inl hi, fun b he => (hd _ he).2 b rfl⟩
  cases hs with
  | begin | miss | see | release => exact aside (by simp) rfl rfl
  | load hq =>
    obtain ⟨new, ha, hr⟩ := reports_next? hx.2 hq
    have hd := deedsOf_adds ha
    obtain ⟨r, rfl⟩ := ha
    refine aside (fun d he => ?_) rfl rfl
    -- A call arms nothing and looks for nothing.
    obtain ⟨ds, v, hp, os, rfl, -⟩ := reports_prefix hr s
    have hn : new = [d] := by simpa [Function.comp_def] using List.append_cancel_left he
    have hm : d ∈ callsOf _ os := hp.subset (hn ▸ by simp)
    rcases mem_callsOf hm with rfl | ⟨r, rfl⟩ <;> simp
  | hold ha | gone ha => exact aside (by simp [record, ha]) rfl rfl
  | arm key v =>
    refine ⟨.inl ⟨rfl, key, hx.1, rfl⟩, .inl rfl, ?_⟩
    simp [record, Slot.modify, armedSlot]
  | store key v => exact aside (by simp [record]) rfl rfl
  | @write key v q q' s' hq =>
    obtain ⟨hk, -, ds, -, hd⟩ := hx
    have hm : .stored key v c.realTtl ∈ deedsOf j s := by rw [hd]; simp
    obtain ⟨-, y, r, rfl⟩ := Process.keeps_next? ⟨s.inner, s.rest, rfl⟩ hk hq
    exact ⟨.inr ⟨by simp, rfl⟩, .inr ⟨key, v, hm⟩, by simp⟩

/-- Refresh `j` is to hear from the loader, or from the inner cache. -/
def Expects (j : Nat) (s : Owned κ ρ) : Prop :=
  Calling (deedsOf j s) ∨ ∃ key v d, (deedsOf j s).getLast? = some (.stored key v d)

/-- **What can keep a refresh from going on** once it was called for. -/
theorem expects_of_blocked (hx : x.Went c j s) (hj : j < s.refreshes.length)
    (ha : (x.process inner load c ttl j).answer? = none)
    (hn : (x.process inner load c ttl j).next? s = none) : Expects j s := by
  cases x with
  | unasked =>
    change (if decide (j < s.refreshes.length) = true then some _ else none) = none at hn
    simp [hj] at hn
  | loading key q =>
    obtain ⟨-, hr⟩ := hx
    cases hr with
    | @done _ a hd =>
      cases a with
      | none => cases ha
      | some v => cases hn
    | act => cases hn
    | wait hc => exact .inl hc
  | writing key v q =>
    obtain ⟨-, -, ds, -, hd⟩ := hx
    exact .inr ⟨key, v, c.realTtl, by rw [hd]; simp⟩
  | finished => cases ha
  | _ => cases hn

/-- A refresh that has ended was told of its attempts, and has done all that follows. -/
theorem ended_of_done {a : Answer Reply} (hx : x.Went c j s)
    (h : x.process inner load c ttl j = .done a) :
    ∃ key, s.refreshes[j]? = some key ∧ Ended c key (deedsOf j s) := by
  cases x with
  | loading key q =>
    obtain ⟨hk, hr⟩ := hx
    cases hr with
    | @done _ a hd =>
      cases a with
      | none => exact ⟨key, hk, .gaveUp hd⟩
      | some v => cases h
    | act => cases h
    | wait => cases h
  | writing key v q =>
    obtain ⟨hk, -⟩ := hx
    cases hk <;> cases h
  | finished => exact hx
  | _ => cases h

end Steps

/-! ## Turns -/

/-- The stages of refreshes and of the loop; whoever was given up has none. -/
structure Crew (κ ρ : Type) where
  worker : Nat → Option (Worker κ ρ)
  loop : Option Beat

section Turns

variable [DecidableEq ι] [Journal ρ] (inner : Inner κ ρ) (load : Loader ρ) (c : Preload.Config)
  (ttl : Duration) (calls : ι → Call) (effect : ε → κ × ρ → κ × ρ)

/-- Callers leave alone what they may, and everyone else is at his stage. -/
structure Ordered (p : Pool (Warm.Who ι) (Owned κ ρ) (Answer Reply)) (crew : Crew κ ρ) : Prop where
  client : ∀ i q, p.threads (.client i) = some q → q.Keeps (Leaves fun k => ¬ Puts k (calls i))
  worker : ∀ j, p.threads (.worker j) = (crew.worker j).map (Worker.process inner load c ttl j)
  loop : p.threads .loop = crew.loop.map Beat.process
  went : ∀ j x, crew.worker j = some x → x.Went c j p.state
  tidy : ∀ x, crew.loop = some x → x.Tidy

/-- What a turn is for refreshes and the loop, and the step that it is in the history. -/
inductive Turned (s : Owned κ ρ) (crew : Crew κ ρ) : Turn (Warm.Who ι) (Outer ε) →
    Option (Pool.Event (Warm.Who ι) (Owned κ ρ) (Answer Reply)) → Owned κ ρ → Crew κ ρ → Prop
  | still (t : Turn (Warm.Who ι) (Outer ε)) : Turned s crew t none s crew
  | client {i : ι} {s' : Owned κ ρ} (a : Option (Answer Reply))
      (h : Leaves (fun k => ¬ Puts k (calls i)) s s') :
      Turned s crew (.go (.client i)) (some ⟨.client i, s, s', a⟩) s' crew
  | clientGone {i : ι} {s' : Owned κ ρ} (h : Leaves (fun k => ¬ Puts k (calls i)) s s') :
      Turned s crew (.drop (.client i)) none s' crew
  | worker {j : Nat} {x x' : Worker κ ρ} {s' : Owned κ ρ} (a : Option (Answer Reply))
      (hx : crew.worker j = some x) (hs : x.Steps inner load c ttl j s x' s') :
      Turned s crew (.go (.worker j)) (some ⟨.worker j, s, s', a⟩) s'
        { crew with worker := Function.update crew.worker j (some x') }
  | workerGone {j : Nat} {x : Worker κ ρ} {s' : Owned κ ρ} (hx : crew.worker j = some x)
      (h : GivenUp s x s') :
      Turned s crew (.drop (.worker j)) none s'
        { crew with worker := Function.update crew.worker j none }
  | loop {x x' : Beat} {s' : Owned κ ρ} (a : Option (Answer Reply)) (hx : crew.loop = some x)
      (hs : x.Steps s x' s') :
      Turned s crew (.go .loop) (some ⟨.loop, s, s', a⟩) s' { crew with loop := some x' }
  | loopGone {n : Nat} (hx : crew.loop = some (.awaiting n)) :
      Turned s crew (.drop .loop) none s { crew with loop := none }
  | outside (e : Outer ε) : Turned s crew (.outside e) none (happen effect e s) crew

variable {inner load c ttl calls effect}
  {p p' : Pool (Warm.Who ι) (Owned κ ρ) (Answer Reply)} {crew : Crew κ ρ}

omit [DecidableEq ι] in
/-- Everyone else is where he was after something that is none of his own. -/
theorem went_of_others {s' : Owned κ ρ} (h : Ordered inner load c ttl calls p crew)
    (hr : p.state.refreshes <+: s'.refreshes) (hd : s'.deeds = p.state.deeds) :
    ∀ j x, crew.worker j = some x → x.Went c j s' := by
  intro j x hx
  refine went_mono hr ?_ (h.went j x hx)
  rw [deedsOf, hd, deedsOf]

/-- A refresh is at another stage, or given up. -/
theorem ordered_worker {j : Nat} {y : Option (Worker κ ρ)} {s' : Owned κ ρ}
    (h : Ordered inner load c ttl calls p crew) (hw : Works j p.state s')
    (hy : ∀ x, y = some x → x.Went c j s') :
    Ordered inner load c ttl calls
      ⟨s', Function.update p.threads (.worker j) (y.map (Worker.process inner load c ttl j))⟩
      { crew with worker := Function.update crew.worker j y } where
  client := h.client
  worker := Pool.update_eq_map (fun _ _ => Warm.Who.worker.inj) h.worker j y
  loop := h.loop
  went i x hx := by
    rcases Pool.update_eq_some hx with ⟨rfl, hx'⟩ | ⟨hi, hx'⟩
    · exact hy x hx'
    · exact went_mono (hw.refreshes ▸ List.prefix_rfl) (hw.deedsOf (Ne.symm hi)) (h.went i x hx')
  tidy := h.tidy

omit [DecidableEq ι] [Journal ρ] in
/-- The loop calls for refreshes, and does nothing in their name. -/
theorem Beat.grows_of_steps {x x' : Beat} {s s' : Owned κ ρ} (hs : x.Steps s x' s') :
    s.refreshes <+: s'.refreshes ∧ s'.deeds = s.deeds := by
  cases hs with
  | tick hp =>
    cases hp with
    | deliver => exact ⟨List.prefix_append .., rfl⟩
    | _ => exact ⟨List.prefix_rfl, rfl⟩
  | _ => exact ⟨List.prefix_rfl, rfl⟩

/-- **What a turn is for refreshes and the loop.** -/
theorem turned_of_moved {t : Turn (Warm.Who ι) (Outer ε)}
    {x : Option (Pool.Event (Warm.Who ι) (Owned κ ρ) (Answer Reply))}
    (h : Ordered inner load c ttl calls p crew) (hm : Pool.Moved (happen effect) p t x p') :
    ∃ crew', Turned inner load c ttl calls effect p.state crew t x p'.state crew' ∧
      Ordered inner load c ttl calls p' crew' := by
  have clients i := (Pool.keeps_of_moved Leaves.refl (h.client i) hm).1
  cases hm with
  | still => exact ⟨crew, .still t, h⟩
  | @step who q q' s hq hs =>
    cases who with
    | client i =>
      have hl := (Process.keeps_next? (Leaves.refl _) (h.client i q hq) hs).2
      refine ⟨crew, .client _ hl, clients, h.worker, h.loop, ?_, h.tidy⟩
      exact went_of_others h (hl.refreshes ▸ List.prefix_rfl) hl.deeds
    | worker j =>
      rw [h.worker j] at hq
      obtain ⟨y, hy, rfl⟩ := Option.map_eq_some_iff.mp hq
      obtain ⟨z, rfl, hz⟩ := Worker.steps_of_next? hs
      have hw := works_of_steps hz (h.went j y hy)
      refine ⟨_, .worker _ hy hz, ordered_worker h hw (y := some z) fun u hu => ?_⟩
      obtain rfl := Option.some.inj hu
      exact went_of_steps hz (h.went j y hy)
    | loop =>
      rw [h.loop] at hq
      obtain ⟨y, hy, rfl⟩ := Option.map_eq_some_iff.mp hq
      obtain ⟨z, rfl, hz⟩ := Beat.steps_of_next? (h.tidy y hy) hs
      obtain ⟨hr, hd⟩ := Beat.grows_of_steps hz
      have went := went_of_others h hr hd
      refine ⟨_, .loop _ hy hz, clients, h.worker, rfl, went, fun u hu => ?_⟩
      obtain rfl := Option.some.inj hu
      exact Beat.tidy_of_steps hz
  | @gone who v g k hq =>
    cases who with
    | client i =>
      have hl : Leaves (fun k => ¬ Puts k (calls i)) p.state (g p.state) := by
        cases h.client i _ hq with
        | wait hg => exact hg p.state
      refine ⟨crew, .clientGone hl, clients, h.worker, h.loop, ?_, h.tidy⟩
      exact went_of_others h (hl.refreshes ▸ List.prefix_rfl) hl.deeds
    | worker j =>
      rw [h.worker j] at hq
      obtain ⟨y, hy, hq⟩ := Option.map_eq_some_iff.mp hq
      have hg := givenUp_of_wait (h.went j y hy) hq
      exact ⟨_, .workerGone hy hg,
        ordered_worker h (works_of_givenUp hg) (y := none) fun _ hu => by cases hu⟩
    | loop =>
      rw [h.loop] at hq
      obtain ⟨y, hy, hq⟩ := Option.map_eq_some_iff.mp hq
      obtain ⟨⟨n, rfl⟩, rfl⟩ := Beat.awaiting_of_wait (h.tidy y hy) hq
      exact ⟨_, .loopGone hy, clients, h.worker, rfl, h.went, fun _ hu => by cases hu⟩
  | outside e =>
    refine ⟨crew, .outside e, clients, h.worker, h.loop, ?_, h.tidy⟩
    cases e with
    | others e n => exact went_of_others h List.prefix_rfl rfl
    | dropped => exact went_of_others h List.prefix_rfl rfl

/-- A preloading cache was made: no refresh was called for yet, and none holds the sentinels'
engine. -/
structure Opened (c : Preload.Config) (ttl : Duration) (s : Owned κ ρ) : Prop where
  prepared : Preload.prepare c s.instant .empty = .ok (ttl, s.sentinel)
  refreshes : s.refreshes = []
  held : s.held = 0
  deeds : s.deeds = []

/-- The stages before anyone has taken a step. -/
def crewOf (κ ρ : Type) (n : Nat) : Crew κ ρ := ⟨fun _ => some .unasked, some (.awaiting n)⟩

omit [DecidableEq ι] in
theorem ordered_pool (n : Nat) {s : Owned κ ρ} (hs : Opened c ttl s) :
    Ordered inner load c ttl calls (pool inner load c ttl calls n s) (crewOf κ ρ n) where
  client i q hq := by
    obtain rfl := Option.some.inj hq
    exact leaves_client inner c ttl (calls i)
  worker _ := rfl
  loop := rfl
  went j x hx := by
    obtain rfl := Option.some.inj hx
    change deedsOf j s = []
    rw [deedsOf, hs.deeds]
    rfl
  tidy x hx := by
    obtain rfl := Option.some.inj hx
    intro n r
    simp

/-- **Everyone goes through his stages in every schedule.** -/
theorem ordered_run (h : ∃ crew, Ordered inner load c ttl calls p crew)
    (ts : List (Turn (Warm.Who ι) (Outer ε))) :
    ∃ crew, Ordered inner load c ttl calls (p.run (happen effect) ts) crew := by
  refine Pool.run_induction (I := fun p => ∃ crew, Ordered inner load c ttl calls p crew) ?_ ts h
  rintro q t x q' ⟨crew, ho⟩ hm
  obtain ⟨crew', -, ho'⟩ := turned_of_moved ho hm
  exact ⟨crew', ho'⟩

end Turns

end LayeredCache.Owned

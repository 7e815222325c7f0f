import LayeredCache.Proofs.Deeds
import LayeredCache.Proofs.Preload

/-!
# One refresh for each evicted sentinel

The loop calls for one refresh for each sentinel that it evicts. The refresh calls the loader until
a call succeeds or the retries are used up. With a value, and while the sentinels' engine is there,
it arms the sentinel again and stores the value; otherwise it leaves both alone, and unless the key
is put, or another refresh of it was on its way, nobody loads the key again.

Results:
* `tolled_of_steps`: what the loop evicts it calls a refresh for.
* `Tried.length_eq`: how often the loader is called, in terms of the first success.
* `alone_turned`: what every turn keeps until the refresh of an evicted key arms the sentinel again.
* `run_renewed`: all of this, for every eviction in every schedule.
* `overlap_loads_again`: a refresh gives up, and the key is loaded again, for another one was on its
  way.
-/

namespace LayeredCache

/-- A removal takes a key out once, if the entry is gone afterwards. -/
theorem Table.count_sweep (now : Nat) (keys : List String) (t : Table) (k : String) :
    ((sweep now keys t).1.map Prod.fst).count k =
      ((t.find? k).isSome && ((sweep now keys t).2.find? k).isNone).toNat := by
  rw [(nodup_sweep now keys t).count]
  change _ = cond _ 1 0
  rw [Bool.cond_eq_ite]
  refine if_congr ?_ rfl rfl
  have hm : k ∈ (sweep now keys t).1.map Prod.fst ↔
      k ∈ keys ∧ ∃ e, t.find? k = some e ∧ e.isExpiredAt now = true := by
    constructor
    · intro h
      obtain ⟨⟨k', v⟩, hx, rfl⟩ := List.mem_map.mp h
      obtain ⟨hk, e, he, hx, -⟩ := mem_sweep_iff.mp hx
      exact ⟨hk, e, he, hx⟩
    · rintro ⟨hk, e, he, hx⟩
      exact List.mem_map_of_mem (mem_sweep_iff.mpr ⟨hk, e, he, hx, rfl⟩)
  rw [hm, find?_sweep]
  cases he : t.find? k with
  | none => simp
  | some e => by_cases hk : k ∈ keys <;> simp [hk, Option.filter]

namespace Owned

variable {ι κ ρ ε : Type}

/-! ## Evictions -/

/-- The sentinel of a key is there first and then is not. -/
def taken (k : String) (s s' : Owned κ ρ) : Bool :=
  (s.sentinel.table.find? k).isSome && (s'.sentinel.table.find? k).isNone

/-- The loop evicts the sentinel of a key. -/
def evicts (k : String) (x : Pool.Event (Warm.Who ι) (Owned κ ρ) (Answer Reply)) : Bool :=
  match x.who with
  | .loop => taken k x.before x.after
  | _ => false

theorem taken_same {k : String} {s s' : Owned κ ρ}
    (h : s'.sentinel.table.find? k = s.sentinel.table.find? k) : taken k s s' = false := by
  rw [taken, h]
  cases s.sentinel.table.find? k <;> rfl

/-- How many refreshes of a key the loop is still to call for. -/
def owed (k : String) : Option Beat → Nat
  | some (.ticking _ (.hand out)) => (out.map Prod.fst).count k
  | some (.ticking _ (.deliver rest _)) => (rest.map Prod.fst).count k
  | _ => 0

theorem owed_after (k : String) (n r : Nat) (rest : List (String × Value)) :
    owed k (some (.after n (.deliver rest r))) = (rest.map Prod.fst).count k := by
  cases rest <;> rfl

/-- What the loop does between two states, with so many refreshes of a key still to call for. -/
structure Tolled (k : String) (s s' : Owned κ ρ) (n n' : Nat) : Prop where
  refreshes : ∃ keys : List String, s'.refreshes = s.refreshes ++ keys ∧
    keys.count k + n' = n + (taken k s s').toNat
  gone : s.sentinel.table.find? k = none → s'.sentinel.table.find? k = none
  watched : s'.sentinel.watched = s.sentinel.watched

/-- **What the loop evicts it calls a refresh for.** -/
theorem tolled_of_steps {k : String} {x x' : Beat} {s s' : Owned κ ρ}
    (hw : s.sentinel.watched = true) (hs : x.Steps s x' s') :
    Tolled k s s' (owed k (some x)) (owed k (some x')) := by
  have same {t : Owned κ ρ} {n n' : Nat} (hr : t.refreshes = s.refreshes)
      (hf : t.sentinel.table.find? k = s.sentinel.table.find? k)
      (ht : t.sentinel.watched = s.sentinel.watched) (hn : n' = n) : Tolled k s t n n' :=
    ⟨⟨[], by rw [hr, List.append_nil], by rw [taken_same hf, hn]; simp⟩, fun h => hf.trans h, ht⟩
  cases hs with
  | begin | look | quit => exact same rfl rfl rfl rfl
  | tick hp =>
    cases hp with
    | rearm | scan | clean => exact same rfl rfl rfl rfl
    | evict keys =>
      refine ⟨⟨[], (List.append_nil _).symm, ?_⟩, fun h => ?_, rfl⟩
      · exact congrArg (0 + ·) (Table.count_sweep s.instant keys s.sentinel.table k)
      · change (Table.sweep s.instant keys s.sentinel.table).2.find? k = none
        rw [Table.find?_sweep, h]
        exact ite_self _
    | hand => exact same rfl rfl rfl (owed_after ..)
    | unwatched hn => exact absurd (hw.symm.trans hn) (by simp)
    | deliver y rest r =>
      have ht : taken k s ((sentinels sentinelSlot).evicted y.1 y.2 s) = false := taken_same rfl
      refine ⟨⟨[y.1], rfl, ?_⟩, id, rfl⟩
      rw [ht, owed_after]
      exact List.count_append.symm

/-- A loop about to evict has nothing to call for. -/
theorem owed_of_taken {k : String} {x x' : Beat} {s s' : Owned κ ρ} (hs : x.Steps s x' s')
    (h : taken k s s' = true) : owed k (some x) = 0 ∧ s'.sentinel.table.find? k = none := by
  rw [taken, Bool.and_eq_true] at h
  have hn := Option.isNone_iff_eq_none.mp h.2
  refine ⟨?_, hn⟩
  cases hs with
  | begin | look | quit => exact absurd h.1 (by simp [hn])
  | tick hp =>
    cases hp with
    | rearm | scan | clean | evict => rfl
    | hand | unwatched | deliver =>
      rw [show s.sentinel.table.find? k = none from hn] at h
      exact absurd h.1 (by simp)

/-! ## How often the loader is called -/

/-- Outcomes are those that a stream gives. -/
def From (stream : Nat → Except Cause Value) (os : List (Except Cause Value)) : Prop :=
  ∀ i o, os[i]? = some o → o = stream i

/-- The first success of a stream is its `m`-th outcome. -/
structure FirstSuccess (stream : Nat → Except Cause Value) (m : Nat) : Prop where
  pos : 0 < m
  success : ∃ v, stream (m - 1) = .ok v
  failures : ∀ i, i + 1 < m → Failed (stream i)

theorem not_failed {o : Except Cause Value} {v : Value} (h : o = .ok v) : ¬ Failed o := by
  rintro ⟨e, he⟩
  rw [h] at he
  cases he

/-- Outcomes that all failed end before the first success. -/
theorem length_lt_of_failed {stream : Nat → Except Cause Value} {os : List (Except Cause Value)}
    {m : Nat} (h : ∀ o ∈ os, Failed o) (hs : From stream os) (hm : FirstSuccess stream m) :
    os.length < m := by
  by_contra hn
  have hlt : m - 1 < os.length := by have := hm.pos; omega
  obtain ⟨v, hv⟩ := hm.success
  have ho : os[m - 1]? = some os[m - 1] := List.getElem?_eq_getElem hlt
  exact not_failed ((hs _ _ ho).trans hv) (h _ (List.getElem_mem hlt))

/-- **How often the loader is called**: up to its first success, but once more than the retries at
most. -/
theorem Tried.length_eq {stream : Nat → Except Cause Value} {retries : Nat}
    {os : List (Except Cause Value)} {v : Option Value} (h : Tried retries os v)
    (hs : From stream os) :
    (∀ m, FirstSuccess stream m → os.length = min m (retries + 1)) ∧
      ((∀ i, Failed (stream i)) → os.length = retries + 1) := by
  cases h with
  | failed h hl =>
    refine ⟨fun m hm => ?_, fun _ => hl⟩
    have := length_lt_of_failed h hs hm
    omega
  | @loaded os v h hl =>
    have hlast : stream os.length = .ok v := (hs os.length (.ok v) (by simp)).symm
    refine ⟨fun m hm => ?_, fun hf => absurd (hf _) (not_failed hlast)⟩
    have hlt : os.length < m := by
      refine length_lt_of_failed h (fun i o ho => hs i o ?_) hm
      rw [List.getElem?_append_left (List.getElem?_eq_some_iff.mp ho).1, ho]
    have hle : m ≤ os.length + 1 := by
      by_contra hn
      exact not_failed hlast (hm.failures _ (by omega))
    rw [List.length_append, List.length_singleton]
    omega

theorem outcomes_callsOf (key : String) (os : List (Except Cause Value)) :
    (callsOf key os).filterMap Deed.outcome? = os ∧
      (callsOf key os).countP Deed.isCall = os.length := by
  induction os with
  | nil => exact ⟨rfl, rfl⟩
  | cons o os ih =>
    obtain ⟨ho, hc⟩ := ih
    refine ⟨congrArg (o :: ·) ho, ?_⟩
    change (.called key :: .answered key o :: callsOf key os).countP Deed.isCall = os.length + 1
    rw [List.countP_cons_of_pos rfl, List.countP_cons_of_neg (by simp [Deed.isCall]), hc]

/-- A refresh that has ended has called the loader as often as it was to. -/
theorem Ended.calls {c : Preload.Config} {key : String} {ds : List Deed} (h : Ended c key ds)
    {stream : Nat → Except Cause Value} (hs : From stream (ds.filterMap Deed.outcome?)) :
    (∀ m, FirstSuccess stream m → ds.countP Deed.isCall = min m (c.retries + 1)) ∧
      ((∀ i, Failed (stream i)) → ds.countP Deed.isCall = c.retries + 1) := by
  have told {ds : List Deed} {v : Option Value} (tail : List Deed) (ht : Told c.retries key ds v)
      (ho : tail.filterMap Deed.outcome? = []) (hc : tail.countP Deed.isCall = 0)
      (hs : From stream ((ds ++ tail).filterMap Deed.outcome?)) :
      (∀ m, FirstSuccess stream m → (ds ++ tail).countP Deed.isCall = min m (c.retries + 1)) ∧
        ((∀ i, Failed (stream i)) → (ds ++ tail).countP Deed.isCall = c.retries + 1) := by
    obtain ⟨os, rfl, ht⟩ := ht
    obtain ⟨hos, hcs⟩ := outcomes_callsOf key os
    rw [List.filterMap_append, hos, ho, List.append_nil] at hs
    rw [List.countP_append, hcs, hc, Nat.add_zero]
    exact ht.length_eq hs
  cases h with
  | gaveUp ht =>
    have := told [] ht rfl rfl
    rw [List.append_nil] at this
    exact this hs
  | gone ht => exact told _ ht rfl rfl hs
  | renewed ht => exact told _ ht rfl rfl hs

/-! ## The refresh of an eviction -/

/-- Refresh `j` is the first one of a key from number `m` on. -/
structure First (k : String) (m j : Nat) (keys : List String) : Prop where
  le : m ≤ j
  key : keys[j]? = some k
  before : ∀ i, m ≤ i → i < j → keys[i]? ≠ some k

theorem First.unique {k : String} {m i j : Nat} {keys : List String} (hi : First k m i keys)
    (hj : First k m j keys) : i = j := by
  rcases Nat.lt_trichotomy i j with h | h | h
  · exact absurd hi.key (hj.before i hi.le h)
  · exact h
  · exact absurd hj.key (hi.before j hj.le h)

theorem First.append {k : String} {m j : Nat} {keys : List String} (h : First k m j keys)
    (more : List String) : First k m j (keys ++ more) := by
  obtain ⟨hj, -⟩ := List.getElem?_eq_some_iff.mp h.key
  refine ⟨h.le, ?_, fun i hm hi => ?_⟩
  · rw [List.getElem?_append_left hj, h.key]
  · rw [List.getElem?_append_left (Nat.lt_trans hi hj)]
    exact h.before i hm hi

/-- A key that is there no more than once is at one place. -/
theorem eq_of_count_le {k : String} {keys : List String} (h : keys.count k ≤ 1) {i j : Nat}
    (hi : keys[i]? = some k) (hj : keys[j]? = some k) : i = j := by
  induction keys generalizing i j with
  | nil => simp at hi
  | cons x keys ih =>
    have later {l : Nat} (hx : x = k) (hl : keys[l]? = some k) : False := by
      have := List.count_pos_iff.mpr (List.mem_of_getElem? hl)
      rw [List.count_cons, if_pos (by simp [hx])] at h
      omega
    cases i with
    | zero =>
      cases j with
      | zero => rfl
      | succ j => exact (later (by simpa using hi) (by simpa using hj)).elim
    | succ i =>
      cases j with
      | zero => exact (later (by simpa using hj) (by simpa using hi)).elim
      | succ j =>
        rw [List.count_cons] at h
        exact congrArg (· + 1) (ih (by omega) (by simpa using hi) (by simpa using hj))

theorem getElem?_drop_of_le {k : String} {m j : Nat} {keys : List String} (hm : m ≤ j)
    (hj : keys[j]? = some k) : (keys.drop m)[j - m]? = some k := by
  rw [List.getElem?_drop, Nat.add_sub_cancel' hm, hj]

/-- A key that is called for no more than once from number `m` on has one refresh there. -/
theorem eq_of_count_drop {k : String} {m i j : Nat} {keys : List String}
    (h : (keys.drop m).count k ≤ 1) (hmi : m ≤ i) (hi : keys[i]? = some k) (hmj : m ≤ j)
    (hj : keys[j]? = some k) : i = j := by
  have := eq_of_count_le h (getElem?_drop_of_le hmi hi) (getElem?_drop_of_le hmj hj)
  omega

theorem first_of_count {k : String} {m j : Nat} {keys : List String}
    (h : (keys.drop m).count k ≤ 1) (hm : m ≤ j) (hj : keys[j]? = some k) : First k m j keys :=
  ⟨hm, hj, fun _ hi hlt hk => absurd (eq_of_count_drop h hi hk hm hj) (Nat.ne_of_lt hlt)⟩

section Alone

variable [Journal ρ] (inner : Inner κ ρ) (load : Loader ρ) (c : Preload.Config) (ttl : Duration)

/-- **What every turn keeps** once the sentinel of a key was evicted at `p` with no refresh of the
key on its way: until its own refresh arms the sentinel again, the key has no sentinel and nobody
else loads it. -/
structure Alone (k : String) (p s : Owned κ ρ) (crew : Crew κ ρ) : Prop where
  watched : s.sentinel.watched = true
  refreshes : p.refreshes <+: s.refreshes
  deeds : p.deeds <+: s.deeds
  /-- The refreshes of the key that were called for before have ended. -/
  ended : ∀ i, i < p.refreshes.length → s.refreshes[i]? = some k → ∀ x, crew.worker i = some x →
    (x.process inner load c ttl i).answer? ≠ none
  loads : ∀ i, (i, .called k) ∈ s.deeds.drop p.deeds.length →
    p.refreshes.length ≤ i ∧ s.refreshes[i]? = some k
  lone : (s.sentinel.table.find? k = none ∧
      (s.refreshes.drop p.refreshes.length).count k + owed k crew.loop = 1) ∨
    ∃ j, First k p.refreshes.length j s.refreshes ∧ (j, .armed) ∈ s.deeds

variable {inner load c ttl} {k : String} {p s s' : Owned κ ρ} {crew crew' : Crew κ ρ}

/-- Nothing of the key's concern changes. -/
theorem alone_same (h : Alone inner load c ttl k p s crew) (hr : s'.refreshes = s.refreshes)
    (hd : s'.deeds = s.deeds) (hw : s'.sentinel.watched = s.sentinel.watched)
    (hs : s.sentinel.table.find? k = none → s'.sentinel.table.find? k = none)
    (hc : ∀ i x, crew'.worker i = some x → crew.worker i = some x)
    (hl : owed k crew'.loop = owed k crew.loop) : Alone inner load c ttl k p s' crew' where
  watched := hw.trans h.watched
  refreshes := hr ▸ h.refreshes
  deeds := hd ▸ h.deeds
  ended i hi hk x hx := h.ended i hi (hr ▸ hk) x (hc i x hx)
  loads i hi := hr ▸ h.loads i (hd ▸ hi)
  lone := by
    rw [hr, hd, hl]
    exact h.lone.imp_left fun ⟨hn, ho⟩ => ⟨hs hn, ho⟩

/-- **A step of a refresh.** -/
theorem alone_worker {j : Nat} {x x' : Worker κ ρ} (h : Alone inner load c ttl k p s crew)
    (hj : crew.worker j = some x) (hx : x.Went c j s) (hs : x.Steps inner load c ttl j s x' s') :
    Alone inner load c ttl k p s'
      { crew with worker := Function.update crew.worker j (some x') } := by
  have hw := works_of_steps hs hx
  obtain ⟨ds, hd⟩ := hw.deeds
  have hlater (hk : s.refreshes[j]? = some k) : p.refreshes.length ≤ j := by
    by_contra hn
    exact h.ended j (Nat.not_le.mp hn) hk x hj (answer?_of_steps hs)
  constructor
  case watched => exact hw.watched.trans h.watched
  case refreshes => exact hw.refreshes ▸ h.refreshes
  case deeds => exact hd ▸ h.deeds.trans (List.prefix_append ..)
  case ended =>
    intro i hi hk z hz
    rw [hw.refreshes] at hk
    rcases Pool.update_eq_some hz with ⟨rfl, -⟩ | ⟨-, hz'⟩
    · exact absurd (hlater hk) (Nat.not_le.mpr hi)
    · exact h.ended i hi hk z hz'
  case loads =>
    intro i hi
    rw [hd, List.drop_append_of_le_length h.deeds.length_le] at hi
    rw [hw.refreshes]
    rcases List.mem_append.mp hi with hi | hi
    · exact h.loads i hi
    · obtain ⟨d, hm, he⟩ := List.mem_map.mp hi
      obtain ⟨rfl, rfl⟩ := Prod.mk.inj he
      have hmem : .called k ∈ deedsOf j s' := by
        refine List.mem_filterMap.mpr ⟨(j, .called k), ?_, if_pos rfl⟩
        exact hd ▸ List.mem_append_right _ hi
      have hk := hw.refreshes ▸ called_of_went (went_of_steps hs hx) hmem
      exact ⟨hlater hk, hk⟩
  case lone =>
    rw [hw.refreshes]
    rcases h.lone with ⟨hn, ho⟩ | ⟨i, hi, ha⟩
    · rcases (faithful_of_steps hs hx).sentinel with ⟨ha, key, hkey, hput⟩ | ⟨-, hsame⟩
      · by_cases hk : k = key
        · subst hk
          refine .inr ⟨j, first_of_count (by omega) (hlater hkey) hkey, ?_⟩
          rw [ha]
          exact List.mem_append_right _ List.mem_cons_self
        · refine .inl ⟨?_, ho⟩
          rw [hput, Table.put, Table.find?_insert, if_neg hk, hn]
      · exact .inl ⟨by rw [hsame, hn], ho⟩
    · exact .inr ⟨i, hi, hd ▸ List.mem_append_left _ ha⟩

/-- **A step of the loop.** -/
theorem alone_loop {x x' : Beat} (h : Alone inner load c ttl k p s crew) (hx : crew.loop = some x)
    (hs : x.Steps s x' s') : Alone inner load c ttl k p s' { crew with loop := some x' } := by
  obtain ⟨⟨keys, hr, hc⟩, hgone, hw⟩ := tolled_of_steps (k := k) h.watched hs
  have hd := (Beat.grows_of_steps hs).2
  constructor
  case watched => exact hw.trans h.watched
  case refreshes => exact hr ▸ h.refreshes.trans (List.prefix_append ..)
  case deeds => exact hd ▸ h.deeds
  case ended =>
    intro i hi hk z hz
    rw [hr, List.getElem?_append_left (Nat.lt_of_lt_of_le hi h.refreshes.length_le)] at hk
    exact h.ended i hi hk z hz
  case loads =>
    intro i hi
    obtain ⟨hm, hk⟩ := h.loads i (hd ▸ hi)
    rw [hr, List.getElem?_append_left (List.getElem?_eq_some_iff.mp hk).1]
    exact ⟨hm, hk⟩
  case lone =>
    rw [hr, hd]
    rcases h.lone with ⟨hn, ho⟩ | ⟨j, hj, ha⟩
    · refine .inl ⟨hgone hn, ?_⟩
      rw [taken_same ((hgone hn).trans hn.symm), ← hx] at hc
      rw [List.drop_append_of_le_length h.refreshes.length_le, List.count_append]
      change _ + owed k (some x') = 1
      simp only [Bool.toNat_false] at hc
      omega
    · exact .inr ⟨j, hj.append keys, ha⟩

variable {calls : ι → Call} {effect : ε → κ × ρ → κ × ρ}

/-- A turn of a caller that puts the key. -/
def PutTurn (calls : ι → Call) (k : String) (t : Turn (Warm.Who ι) (Outer ε)) : Prop :=
  ∃ i, Puts k (calls i) ∧ (t = .go (.client i) ∨ t = .drop (.client i))

/-- **What every turn keeps**, as long as nobody puts the key. -/
theorem alone_turned {t : Turn (Warm.Who ι) (Outer ε)}
    {x : Option (Pool.Event (Warm.Who ι) (Owned κ ρ) (Answer Reply))}
    (h : Alone inner load c ttl k p s crew)
    (hwent : ∀ j x, crew.worker j = some x → x.Went c j s) (hput : ¬ PutTurn calls k t)
    (ht : Turned inner load c ttl calls effect s crew t x s' crew') :
    Alone inner load c ttl k p s' crew' := by
  have leaves {i : ι} {s' : Owned κ ρ} (hl : Leaves (fun k => ¬ Puts k (calls i)) s s')
      (hi : ¬ Puts k (calls i)) : Alone inner load c ttl k p s' crew :=
    alone_same h hl.refreshes hl.deeds hl.watched (hl.sentinel k hi) (fun _ _ => id) rfl
  cases ht with
  | still => exact h
  | client a hl => exact leaves hl fun hi => hput ⟨_, hi, .inl rfl⟩
  | clientGone hl => exact leaves hl fun hi => hput ⟨_, hi, .inr rfl⟩
  | worker a hx hs => exact alone_worker h hx (hwent _ _ hx) hs
  | workerGone hx hg =>
    obtain ⟨hr, -, hs, hd⟩ := hg.same
    refine alone_same h hr hd (by rw [hs]) (by rw [hs]; exact id) (fun i z hz => ?_) rfl
    exact ((Pool.update_eq_some hz).resolve_left (by simp)).2
  | loop a hx hs => exact alone_loop h hx hs
  | loopGone hx =>
    exact alone_same h rfl rfl rfl id (fun _ _ => id) (congrArg (owed k) hx).symm
  | outside e => cases e <;> exact alone_same h rfl rfl rfl id (fun _ _ => id) rfl

end Alone

/-! ## Runs -/

section Runs

variable [DecidableEq ι] [Journal ρ] (inner : Inner κ ρ) (load : Loader ρ) (c : Preload.Config)
  (ttl : Duration) (calls : ι → Call) (k : String)

/-- **What every turn keeps**: so many refreshes of the key were called for, or will be by the pass
under way, as sentinels of it were evicted, and `n` before. -/
structure Kept (n : Nat) (q : Pool (Warm.Who ι) (Owned κ ρ) (Answer Reply)) (crew : Crew κ ρ)
    (past : List (Pool.Event (Warm.Who ι) (Owned κ ρ) (Answer Reply))) : Prop where
  ordered : Ordered inner load c ttl calls q crew
  watched : q.state.sentinel.watched = true
  counted : q.state.refreshes.count k + owed k crew.loop = n + past.countP (evicts k)
  faithful : ∀ x ∈ past, ∀ j, x.who = .worker j → Faithful c ttl j x.before x.after

variable {inner load c ttl calls k} {n : Nat} {effect : ε → κ × ρ → κ × ρ}
  {q q' : Pool (Warm.Who ι) (Owned κ ρ) (Answer Reply)} {crew crew' : Crew κ ρ}
  {past : List (Pool.Event (Warm.Who ι) (Owned κ ρ) (Answer Reply))}

omit [DecidableEq ι] in
theorem kept_turned {t : Turn (Warm.Who ι) (Outer ε)}
    {x : Option (Pool.Event (Warm.Who ι) (Owned κ ρ) (Answer Reply))}
    (h : Kept inner load c ttl calls k n q crew past)
    (ho : Ordered inner load c ttl calls q' crew')
    (ht : Turned inner load c ttl calls effect q.state crew t x q'.state crew') :
    Kept inner load c ttl calls k n q' crew' (past ++ x.toList) := by
  -- A turn by which the loop evicts nothing and no refresh takes a step.
  have same (hr : q'.state.refreshes = q.state.refreshes)
      (hw : q'.state.sentinel.watched = q.state.sentinel.watched)
      (hl : owed k crew'.loop = owed k crew.loop) (hx : x.toList.countP (evicts k) = 0)
      (hf : ∀ e ∈ x, ∀ j, e.who = .worker j → Faithful c ttl j e.before e.after) :
      Kept inner load c ttl calls k n q' crew' (past ++ x.toList) := by
    refine ⟨ho, hw.trans h.watched, ?_, fun e he j hj => ?_⟩
    · rw [List.countP_append, hx, hr, hl]
      exact h.counted
    · rcases List.mem_append.mp he with he | he
      · exact h.faithful e he j hj
      · exact hf e (Option.mem_toList.mp he) j hj
  generalize hs' : q'.state = s' at ht
  cases ht with
  | still => exact same (by rw [hs']) (by rw [hs']) rfl rfl (by simp)
  | client a hl =>
    refine same (hs' ▸ hl.refreshes) (hs' ▸ hl.watched) rfl rfl ?_
    intro e he j hj
    obtain rfl := Option.some.inj he
    cases hj
  | clientGone hl => exact same (hs' ▸ hl.refreshes) (hs' ▸ hl.watched) rfl rfl (by simp)
  | worker a hx hs =>
    have hwent := h.ordered.went _ _ hx
    have hw := works_of_steps hs hwent
    refine same (hs' ▸ hw.refreshes) (hs' ▸ hw.watched) rfl rfl ?_
    intro e he j hj
    obtain rfl := Option.some.inj he
    obtain rfl := Warm.Who.worker.inj hj
    exact faithful_of_steps hs hwent
  | workerGone hx hg =>
    obtain ⟨hr, -, hs, -⟩ := hg.same
    exact same (hs' ▸ hr) (by rw [hs', hs]) rfl rfl (by simp)
  | @loop y y' _ a hx hs =>
    obtain ⟨⟨keys, hr, hc⟩, -, hw⟩ := tolled_of_steps (k := k) h.watched hs
    refine ⟨ho, hs' ▸ hw.trans h.watched, ?_, fun e he j hj => ?_⟩
    · have hcount := h.counted
      have hlast : [(⟨.loop, q.state, s', a⟩ :
          Pool.Event (Warm.Who ι) (Owned κ ρ) (Answer Reply))].countP (evicts k) =
          (taken k q.state s').toNat := by
        rw [List.countP_singleton]
        change _ = cond _ 1 0
        rw [Bool.cond_eq_ite]
        rfl
      rw [hx] at hcount
      rw [hs', hr, List.count_append, List.countP_append, Option.toList_some, hlast]
      change _ + owed k (some y') = _
      omega
    · rcases List.mem_append.mp he with he | he
      · exact h.faithful e he j hj
      · obtain rfl := List.mem_singleton.mp he
        cases hj
  | loopGone hx => exact same (by rw [hs']) (by rw [hs']) (congrArg (owed k) hx).symm rfl (by simp)
  | outside e => cases e <;> exact same (by rw [hs']; rfl) (by rw [hs']; rfl) rfl rfl (by simp)

theorem kept_run {p : Pool (Warm.Who ι) (Owned κ ρ) (Answer Reply)}
    (h : ∃ crew, Kept inner load c ttl calls k n p crew past)
    (ts : List (Turn (Warm.Who ι) (Outer ε))) :
    ∃ crew, Kept inner load c ttl calls k n (p.run (happen effect) ts) crew
      (past ++ Pool.history (happen effect) ts p) := by
  refine Pool.past_induction
    (I := fun q past => ∃ crew, Kept inner load c ttl calls k n q crew past) ?_ ts h
  rintro q t x q' past ⟨crew, hk⟩ hm
  obtain ⟨crew', ht, ho⟩ := turned_of_moved hk.ordered hm
  exact ⟨crew', kept_turned hk ho ht⟩

omit [DecidableEq ι] in
theorem kept_pool (m : Nat) {s : Owned κ ρ} (hs : Opened c ttl s) :
    ∃ crew, Kept inner load c ttl calls k 0 (pool inner load c ttl calls m s) crew [] := by
  refine ⟨_, ordered_pool m hs, (Warm.prepare_empty hs.prepared).2.2.1, ?_, by simp⟩
  change s.refreshes.count k + 0 = _
  rw [hs.refreshes]
  rfl

omit [Journal ρ] in
/-- A loop that rests has called for all it owes. -/
theorem owed_of_atRest {x : Beat} (hx : x.Tidy) (h : (x.process (κ := κ) (ρ := ρ)).AtRest) :
    owed k (some x) = 0 := by
  cases x with
  | ticking n stage =>
    cases stage with
    | deliver rest removed =>
      cases rest with
      | nil => rfl
      | cons y rest => exact h.elim
    | hand => exact h.elim
    | _ => rfl
  | _ => rfl

/-- No refresh of the key is on its way. -/
def Unattended (k : String) (p : Pool (Warm.Who ι) (Owned κ ρ) (Answer Reply)) : Prop :=
  ∀ j y, p.state.refreshes[j]? = some k → p.threads (.worker j) = some y → y.answer? ≠ none

variable (c ttl calls k) in
/-- What is to be said of refreshes between `p`, where the loop is about to evict the sentinel of a
key, and `q`. -/
structure Renewed (p q : Pool (Warm.Who ι) (Owned κ ρ) (Answer Reply))
    (after : List (Turn (Warm.Who ι) (Outer ε)))
    (past : List (Pool.Event (Warm.Who ι) (Owned κ ρ) (Answer Reply))) : Prop where
  life : ttl = c.realTtl.sub c.ahead
  /-- No more refreshes of the key are called for than sentinels of it are evicted, and as many
  whenever the loop rests. -/
  most : q.state.refreshes.count k ≤ p.state.refreshes.count k + past.countP (evicts k)
  each : (∀ y, q.threads .loop = some y → y.AtRest) →
    q.state.refreshes.count k = p.state.refreshes.count k + past.countP (evicts k)
  /-- Nothing keeps it from going on to its end but the loader and the inner cache. -/
  going : ∀ j y, q.threads (.worker j) = some y → j < q.state.refreshes.length →
    y.answer? = none → y.next? q.state ≠ none ∨ Expects j q.state
  /-- What a refresh has done when it has ended. -/
  ended : ∀ j a, q.threads (.worker j) = some (.done a) →
    ∃ key, q.state.refreshes[j]? = some key ∧ Ended c key (deedsOf j q.state)
  /-- How often it has called the loader. -/
  attempts : ∀ j a stream, q.threads (.worker j) = some (.done a) →
    From stream ((deedsOf j q.state).filterMap Deed.outcome?) →
    (∀ m, FirstSuccess stream m →
      (deedsOf j q.state).countP Deed.isCall = min m (c.retries + 1)) ∧
    ((∀ i, Failed (stream i)) → (deedsOf j q.state).countP Deed.isCall = c.retries + 1)
  /-- What each step of it does to the sentinels' engine and to the inner cache. -/
  faithful : ∀ x ∈ past, ∀ j, x.who = .worker j → Faithful c ttl j x.before x.after
  /-- The refresh of the evicted sentinel alone loads the key, and leaves it without a sentinel,
  unless it arms it again, the key is put, or another refresh of it was on its way. -/
  silent : Unattended k p → (∀ t ∈ after, ¬ PutTurn calls k t) →
    ∀ j, First k p.state.refreshes.length j q.state.refreshes → (j, .armed) ∉ q.state.deeds →
      (∀ i, (i, .called k) ∈ q.state.deeds.drop p.state.deeds.length → i = j) ∧
        q.state.sentinel.table.find? k = none

/-- Who is alone with a key when its sentinel was evicted. -/
theorem alone_of_evicts {p : Pool (Warm.Who ι) (Owned κ ρ) (Answer Reply)} {past}
    {e : Pool.Event (Warm.Who ι) (Owned κ ρ) (Answer Reply)}
    (h : Kept inner load c ttl calls k n p crew past) (hu : Unattended k p)
    (he : p.event? (.go .loop : Turn (Warm.Who ι) (Outer ε)) = some e) (hk : evicts k e = true) :
    ∃ crew', Ordered inner load c ttl calls
        (p.turn (happen effect) (.go .loop : Turn (Warm.Who ι) (Outer ε))) crew' ∧
      Alone inner load c ttl k p.state
        (p.turn (happen effect) (.go .loop : Turn (Warm.Who ι) (Outer ε))).state crew' := by
  have hm := Pool.moved_turn (happen effect) p (.go .loop : Turn (Warm.Who ι) (Outer ε))
  rw [he] at hm
  obtain ⟨crew', ht, ho⟩ := turned_of_moved h.ordered hm
  refine ⟨crew', ho, ?_⟩
  generalize (p.turn (happen effect) (.go .loop : Turn (Warm.Who ι) (Outer ε))).state = s' at ht
  cases ht with
  | @loop x x' s' a hx hs =>
    obtain ⟨ho', hn⟩ := owed_of_taken hs hk
    obtain ⟨⟨keys, hr, hc⟩, -, hw⟩ := tolled_of_steps (k := k) h.watched hs
    have hd := (Beat.grows_of_steps hs).2
    rw [ho', show taken k p.state s' = true from hk] at hc
    constructor
    case watched => exact hw.trans h.watched
    case refreshes => exact hr ▸ List.prefix_append ..
    case deeds => exact hd ▸ List.prefix_rfl
    case ended =>
      intro i hi hki z hz
      rw [hr, List.getElem?_append_left hi] at hki
      exact hu i _ hki ((h.ordered.worker i).trans (congrArg _ hz))
    case loads =>
      intro i hi
      rw [hd, List.drop_length] at hi
      exact absurd hi List.not_mem_nil
    case lone =>
      refine .inl ⟨hn, ?_⟩
      rw [hr, List.drop_left]
      exact hc

/-- **One refresh for each evicted sentinel.** It calls the loader up to the first success, but once
more than the retries at most. With a value, it looks for the sentinels' engine, and if that is
there it arms the sentinel for as long as the real time to live is longer than the time ahead, and
asks the inner cache to store the value for the real time to live; otherwise it leaves both alone,
and then nobody loads the key again unless it is put or another refresh of it was on its way. -/
theorem run_renewed {m : Nat} {s : Owned κ ρ}
    {p : Pool (Warm.Who ι) (Owned κ ρ) (Answer Reply)}
    {before after : List (Turn (Warm.Who ι) (Outer ε))}
    {e : Pool.Event (Warm.Who ι) (Owned κ ρ) (Answer Reply)} (ho : Opened c ttl s)
    (hp : p = (pool inner load c ttl calls m s).run (happen effect) before)
    (he : p.event? (.go .loop : Turn (Warm.Who ι) (Outer ε)) = some e) (hk : evicts k e = true) :
    Renewed c ttl calls k p (p.run (happen effect) (.go .loop :: after)) after
      (Pool.history (happen effect) (.go .loop :: after) p) := by
  obtain ⟨crew, hkept⟩ : ∃ crew, Kept inner load c ttl calls k 0 p crew
      ([] ++ Pool.history (happen effect) before (pool inner load c ttl calls m s)) :=
    hp ▸ kept_run (kept_pool m ho) before
  have hzero : owed k crew.loop = 0 := by
    have hm := Pool.moved_turn (happen effect) p (.go .loop : Turn (Warm.Who ι) (Outer ε))
    rw [he] at hm
    obtain ⟨crew', ht, -⟩ := turned_of_moved hkept.ordered hm
    generalize (p.turn (happen effect) (.go .loop : Turn (Warm.Who ι) (Outer ε))).state = s' at ht
    cases ht with
    | loop a hx hs => exact hx ▸ (owed_of_taken hs hk).1
  have hstart : Kept inner load c ttl calls k (p.state.refreshes.count k) p crew [] :=
    ⟨hkept.ordered, hkept.watched, by rw [hzero]; rfl, by simp⟩
  obtain ⟨crew', hend⟩ : ∃ crew', Kept inner load c ttl calls k (p.state.refreshes.count k)
      (p.run (happen effect) (.go .loop :: after)) crew'
      (Pool.history (happen effect) (.go .loop :: after) p) := kept_run ⟨crew, hstart⟩ _
  have hended : ∀ j a, (p.run (happen effect) (.go .loop :: after)).threads (.worker j) =
      some (.done a) → ∃ key,
        (p.run (happen effect) (.go .loop :: after)).state.refreshes[j]? = some key ∧
        Ended c key (deedsOf j (p.run (happen effect) (.go .loop :: after)).state) := by
    intro j a hj
    rw [hend.ordered.worker j] at hj
    obtain ⟨x, hx, hdone⟩ := Option.map_eq_some_iff.mp hj
    exact ended_of_done (hend.ordered.went j x hx) hdone
  constructor
  case life =>
    exact (Preload.Config.sentinelTtl_eq_ok_iff.mp (Warm.prepare_empty ho.prepared).1).2
  case most => exact Nat.le_of_add_right_le (Nat.le_of_eq hend.counted)
  case each =>
    intro hrest
    have hc := hend.counted
    suffices h : owed k crew'.loop = 0 by rwa [h] at hc
    cases hl : crew'.loop with
    | none => rfl
    | some x =>
      refine owed_of_atRest (κ := κ) (ρ := ρ) (hend.ordered.tidy x hl) (hrest _ ?_)
      rw [hend.ordered.loop, hl]
      rfl
  case going =>
    intro j y hy hj ha
    rw [hend.ordered.worker j] at hy
    obtain ⟨x, hx, rfl⟩ := Option.map_eq_some_iff.mp hy
    exact or_iff_not_imp_left.mpr fun hn =>
      expects_of_blocked (hend.ordered.went j x hx) hj ha (not_not.mp hn)
  case ended => exact hended
  case attempts =>
    intro j a stream hj hs
    obtain ⟨key, -, hdeeds⟩ := hended j a hj
    exact hdeeds.calls hs
  case faithful => exact hend.faithful
  case silent =>
    intro hu hput j hj hna
    obtain ⟨crew₂, -, ha⟩ : ∃ crew, Ordered inner load c ttl calls
        (p.run (happen effect) (.go .loop :: after)) crew ∧
        Alone inner load c ttl k p.state
          (p.run (happen effect) (.go .loop :: after)).state crew := by
      refine Pool.along_induction
        (I := fun q => ∃ crew, Ordered inner load c ttl calls q crew ∧
          Alone inner load c ttl k p.state q.state crew) after ?_ (Pool.along_trivial after)
        (alone_of_evicts hkept hu he hk)
      rintro q t x q' ht - ⟨crew, ho, ha⟩ hm
      obtain ⟨crew', hturned, ho'⟩ := turned_of_moved ho hm
      exact ⟨crew', ho', alone_turned ha ho.went (hput t ht) hturned⟩
    rcases ha.lone with ⟨hn, hone⟩ | ⟨i, hi, harmed⟩
    · refine ⟨fun i hi => ?_, hn⟩
      obtain ⟨hle, hki⟩ := ha.loads i hi
      exact eq_of_count_drop (by omega) hle hki hj.le hj.key
    · exact absurd (hi.unique hj ▸ harmed) hna

end Runs

/-! ## Refreshes that give up -/

/-- A source that gives one outcome after the other. -/
structure Supply where
  outcomes : List (Except Cause Value)

instance : Journal Supply := ⟨fun _ _ s => s⟩

def Supply.load : Loader Supply := fun _ => .step fun s =>
  match s.outcomes with
  | o :: os => (o, ⟨os⟩)
  | [] => (.error (.ofText "nothing left"), s)

/-- Entries live for three seconds, sentinels for one, and the loop ticks every other second. -/
def brisk (retries : Nat) : Preload.Config := ⟨.ofSecs 3, .ofSecs 2, retries, .ofSecs 2⟩

theorem twoSeconds_pos : 0 < (Duration.ofSecs 2).toNanos := by decide

/-- A preloading cache over a memory cache was made. -/
def made (outcomes : List (Except Cause Value)) : Owned Engine Supply :=
  ⟨0, ⟨.empty, true, true, some (.start 0 (.ofSecs 2) twoSeconds_pos)⟩, [], true, 0, [], .empty,
    ⟨outcomes⟩⟩

/-- The memory cache below, whose receiver does nothing. -/
def below : Inner Engine Supply := .ofMemory fun _ _ => id

/-- Both callers put the key. -/
def putters (_ : Bool) : Call := .put "k" (.bool false) .zero

def down : Except Cause Value := .error (.ofText "down")

def passing (n : Nat) : Turn (Warm.Who Bool) (Outer Unit) := .outside (.others () n)

/-- The key is put, and two seconds later its sentinel is about to be evicted. -/
def untilEviction (i : Bool) : List (Turn (Warm.Who Bool) (Outer Unit)) :=
  List.replicate 3 (.go (.client i)) ++ [passing 2_000_000_000] ++ List.replicate 4 (.go .loop)

/-- The key's sentinel is about to be evicted, and its refresh has a retry. -/
def expiring : Pool (Warm.Who Bool) (Owned Engine Supply) (Answer Reply) :=
  (pool below Supply.load (brisk 1) (.ofSecs 1) putters 9 (made [down, down])).run
    (happen fun _ => id) (untilEviction false)

/-- The refresh fails twice. Ten seconds pass, and the loop ticks. -/
def givingUp : List (Turn (Warm.Who Bool) (Outer Unit)) :=
  List.replicate 2 (.go .loop) ++ List.replicate 10 (.go (.worker 0)) ++ [passing 10_000_000_000] ++
    List.replicate 4 (.go .loop)

/-- The end of that. -/
def givenUp : Pool (Warm.Who Bool) (Owned Engine Supply) (Answer Reply) :=
  expiring.run (happen fun _ => id) (.go .loop :: givingUp)

theorem run_renewed_downTwice :
    Renewed (brisk 1) (.ofSecs 1) putters "k" expiring givenUp givingUp
        (Pool.history (happen fun _ => id) (.go .loop :: givingUp) expiring) ∧
      (deedsOf 0 givenUp.state).countP Deed.isCall = 2 ∧
      givenUp.state.sentinel.table.find? "k" = none := by
  have opened : Opened (brisk 1) (.ofSecs 1) (made [down, down]) := ⟨rfl, rfl, rfl, rfl⟩
  have reached : expiring = (pool below Supply.load (brisk 1) (.ofSecs 1) putters 9
    (made [down, down])).run (happen fun _ => id) (untilEviction false) := rfl
  have renewed : Renewed (brisk 1) (.ofSecs 1) putters "k" expiring givenUp givingUp
      (Pool.history (happen fun _ => id) (.go .loop :: givingUp) expiring) :=
    run_renewed opened reached rfl rfl
  have done : givenUp.threads (.worker 0) = some (.done (.ok .nothing)) := rfl
  have outcomes : From (fun _ => down) ((deedsOf 0 givenUp.state).filterMap Deed.outcome?) := by
    rw [show (deedsOf 0 givenUp.state).filterMap Deed.outcome? = [down, down] from rfl]
    intro i o ho
    simpa using List.mem_of_getElem? ho
  have unattended : Unattended "k" expiring := by
    intro j y hj
    rw [show expiring.state.refreshes = [] from rfl] at hj
    simp at hj
  have noPut : ∀ t ∈ givingUp, ¬ PutTurn putters "k" t := by
    rintro t ht ⟨i, -, rfl | rfl⟩ <;> simp [givingUp, passing] at ht
  have first : First "k" expiring.state.refreshes.length 0 givenUp.state.refreshes :=
    ⟨Nat.le_refl 0, rfl, fun i _ hi => absurd hi (Nat.not_lt_zero i)⟩
  have unarmed : (0, .armed) ∉ givenUp.state.deeds := by
    rw [show givenUp.state.deeds = [(0, .called "k"), (0, .answered "k" down), (0, .called "k"),
      (0, .answered "k" down)] from rfl]
    simp
  exact ⟨renewed, (renewed.attempts 0 _ _ done outcomes).2 fun _ => ⟨_, rfl⟩,
    (renewed.silent unattended noPut 0 first unarmed).2⟩

/-! ## Refreshes that overlap -/

/-- The first refresh of the key is on its way when the key is put again. Two seconds later the
sentinel of that put is about to be evicted. -/
def overlapping : Pool (Warm.Who Bool) (Owned Engine Supply) (Answer Reply) :=
  (pool below Supply.load (brisk 0) (.ofSecs 1) putters 9 (made [down, .ok (.bool true)])).run
    (happen fun _ => id) (untilEviction false ++ List.replicate 3 (.go .loop) ++
      List.replicate 3 (.go (.worker 0)) ++ untilEviction true)

/-- The second refresh fails. The first one then succeeds, and two seconds later the sentinel that
it has armed is evicted. -/
def later : List (Turn (Warm.Who Bool) (Outer Unit)) :=
  List.replicate 2 (.go .loop) ++ List.replicate 6 (.go (.worker 1)) ++
    List.replicate 7 (.go (.worker 0)) ++ [passing 2_000_000_000] ++ List.replicate 7 (.go .loop) ++
    List.replicate 3 (.go (.worker 2))

def loadedAgain : Pool (Warm.Who Bool) (Owned Engine Supply) (Answer Reply) :=
  overlapping.run (happen fun _ => id) (.go .loop :: later)

/-- The refresh of an evicted sentinel has given up and no put follows. Yet the key is loaded once
more, for another refresh was on its way at the eviction and has armed the sentinel again. -/
theorem overlap_loads_again :
    (overlapping.event? (.go .loop : Turn (Warm.Who Bool) (Outer Unit))).map (evicts "k") =
        some true ∧
      First "k" overlapping.state.refreshes.length 1 loadedAgain.state.refreshes ∧
      loadedAgain.threads (.worker 1) = some (.done (.ok .nothing)) ∧
      deedsOf 1 loadedAgain.state = [.called "k", .answered "k" down] ∧
      (∀ t ∈ later, ¬ PutTurn putters "k" t) ∧
      (2, .called "k") ∈ loadedAgain.state.deeds.drop overlapping.state.deeds.length := by
  refine ⟨rfl, ⟨Nat.le_refl 1, rfl, fun i hle hlt => ?_⟩, rfl, rfl, ?_, ?_⟩
  · exact absurd hlt (Nat.not_lt.mpr hle)
  · rintro t ht ⟨i, -, rfl | rfl⟩ <;> simp [later, passing] at ht
  · rw [show loadedAgain.state.deeds.drop overlapping.state.deeds.length =
      [(1, .called "k"), (1, .answered "k" down), (0, .answered "k" (.ok (.bool true))),
        (0, .looked true), (0, .armed), (0, .stored "k" (.bool true) (.ofSecs 3)),
        (2, .called "k")] from rfl]
    simp

end Owned
end LayeredCache

import LayeredCache.Proofs.Coherence

/-!
# The phases of a counter's call

A call that steps a counter beside the cache takes its value from the cache or from the source,
writes the next one to the source, and drops the copy. Others may take their steps in between, so
that the value it steps may be one that is no longer there. What is asked of a source is only that
a load answers a row that it has seen.

Results:
* `follows_step`: the phases that a call goes through, whatever becomes of the state meanwhile.
* `spares_acts`: what a call does to another key.
* `knows_acts`: whatever is known of the row, its copy and the values in hand is known after a step,
  if it is known of the value written.
-/

namespace LayeredCache.Backed

open Process

variable {ρ : Type}

/-! ## The phases of a call -/

/-- A load whose answer is one of the rows that it has seen. -/
inductive Fetches (key : String) : List Value → Process (Backed ρ) (Except Cause Value) → Prop
  | done {seen : List Value} {r : Except Cause Value} (h : ∀ v, r = .ok v → v ∈ seen) :
      Fetches key seen (.done r)
  | act {seen : List Value} {g : Backed ρ → Backed ρ}
      {k : Backed ρ → Process (Backed ρ) (Except Cause Value)}
      (h : ∀ s, Fetches key ((s.rows key).toList ++ seen) (k s)) : Fetches key seen (.act g k)
  | wait {seen : List Value} {w : Wait (Backed ρ)} {c : Backed ρ → Backed ρ}
      {k : Backed ρ → Process (Backed ρ) (Except Cause Value)}
      (h : ∀ s, Fetches key ((s.rows key).toList ++ seen) (k s)) : Fetches key seen (.wait w c k)

/-- How far a call has come. -/
inductive Phase where
  /-- It has not looked into the cache. -/
  | seeking
  /-- It asks the source, where it has seen these rows of its key. -/
  | loading (seen : List Value)
  /-- It has its value, and has not written the next one. -/
  | holding (v : Value)
  /-- It has written, and the copy may be there. -/
  | wrote
  /-- It has written and made sure of the copy. -/
  | settled

namespace Phase

/-- The row of the call has been written. -/
def written : Phase → Bool
  | .seeking | .loading _ | .holding _ => false
  | .wrote | .settled => true

/-- The values that the call may step. -/
def values : Phase → List Value
  | .loading seen => seen
  | .holding v => [v]
  | _ => []

end Phase

/-- What a step of a call does. -/
inductive Acts (d : Step) (key : String) (s : Backed ρ) : Phase → Phase → Backed ρ → Prop
  | quiet {φ : Phase} {t : Backed ρ} (h : Elsewhere s t) : Acts d key s φ φ t
  | hit {v : Value} (h : s.engine.table.read s.instant key = .ok v) :
      Acts d key s .seeking (.holding v) s
  | miss : Acts d key s .seeking (.loading []) s
  | see {seen : List Value} {t : Backed ρ} (h : Elsewhere s t) :
      Acts d key s (.loading seen) (.loading ((s.rows key).toList ++ seen)) t
  | fill {seen : List Value} {v : Value} (h : v ∈ seen) (ttl : Duration) :
      Acts d key s (.loading seen) (.holding v)
        (setTable (s.engine.table.put s.instant key v ttl) s)
  | write {v v' : Value} {t : Backed ρ} (h : v.step key d = .ok v') (hw : Writes key v' s t) :
      Acts d key s (.holding v) .wrote t
  | spare (h : s.engine.table.isLive s.instant key = false) : Acts d key s .wrote .settled s
  | drop : Acts d key s .wrote .settled (setTable (s.engine.table.erase key) s)

/-- What remains of a call in a phase. It answers without an error exactly if it has written. -/
inductive Follows (d : Step) (key : String) : Phase → Process (Backed ρ) (Answer Unit) → Prop
  | failed {φ : Phase} (h : φ.written = false) (e : CacheError) : Follows d key φ (.done (.error e))
  | done : Follows d key .settled (.done (.ok ()))
  | act {φ : Phase} {g : Backed ρ → Backed ρ} {k : Backed ρ → Process (Backed ρ) (Answer Unit)}
      (next : Backed ρ → Phase) (h : ∀ s, Acts d key s φ (next s) (g s))
      (hk : ∀ s, Follows d key (next s) (k s)) : Follows d key φ (.act g k)
  | wait {φ : Phase} {w : Wait (Backed ρ)} {c : Backed ρ → Backed ρ}
      {k : Backed ρ → Process (Backed ρ) (Answer Unit)} (hc : ∀ s, Elsewhere s (c s))
      (next : Backed ρ → Phase) (h : ∀ s, Acts d key s φ (next s) s)
      (hk : ∀ s, Follows d key (next s) (k s)) : Follows d key φ (.wait w c k)

variable {d : Step} {key : String} {φ : Phase}

theorem follows_next? {p q : Process (Backed ρ) (Answer Unit)} {s t : Backed ρ}
    (h : Follows d key φ p) (hn : p.next? s = some (q, t)) :
    ∃ φ', Acts d key s φ φ' t ∧ Follows d key φ' q := by
  cases h with
  | failed _ e => cases hn
  | done => cases hn
  | act next ha hk =>
    obtain ⟨rfl, rfl⟩ := next?_act hn
    exact ⟨next s, ha s, hk s⟩
  | wait _ next ha hk =>
    obtain ⟨-, rfl, rfl⟩ := next?_wait hn
    exact ⟨next t, ha t, hk t⟩

theorem elsewhere_of_follows {w : Wait (Backed ρ)}
    {c : Backed ρ → Backed ρ} {k : Backed ρ → Process (Backed ρ) (Answer Unit)}
    (h : Follows d key φ (.wait w c k)) (s : Backed ρ) : Elsewhere s (c s) := by
  cases h with
  | wait hc _ => exact hc s

/-- A call that has answered. -/
theorem follows_done {r : Answer Unit}
    (h : Follows (ρ := ρ) d key φ (.done r)) :
    (r = .ok () ∧ φ = .settled) ∨ (∃ e, r = .error e) ∧ φ.written = false := by
  cases h with
  | failed he e => exact .inr ⟨⟨e, rfl⟩, he⟩
  | done => exact .inl ⟨rfl, rfl⟩

theorem fetches_bind {α : Type} {f : α → Process (Backed ρ) (Except Cause Value)}
    (hf : ∀ a seen, Fetches key seen (f a)) (p : Process (Backed ρ) α) (seen : List Value) :
    Fetches key seen (p.bind f) := by
  induction p generalizing seen with
  | done a => exact hf a seen
  | act g k ih => exact .act fun s => ih s _
  | wait w c k ih => exact .wait fun s => ih s _

/-- A load that reads the row once it has come to no failure. -/
theorem fetches_deciding (load : String → Process ρ (Option Cause))
    (store : String → Value → Process ρ (Option Cause)) (key : String) :
    Fetches key [] ((Source.deciding load store).load key) := by
  refine fetches_bind (fun o seen => ?_) _ []
  cases o with
  | some c => exact .done fun v hv => by cases hv
  | none =>
    refine .act fun s => ?_
    dsimp only [Process.bind]
    cases hr : s.rows key with
    | none => exact .done fun v hv => by cases hv
    | some v =>
      refine .done fun u hu => ?_
      obtain rfl := Except.ok.inj hu
      exact List.mem_cons_self

section Parts

variable (w : Source ρ) (ttl : Duration)

/-- The copy is dropped. -/
theorem follows_invalidate (d : Step) (key : String) :
    Follows d key .wrote (CacheAside.invalidate (memory w).cache key) := by
  have hdelete : Follows d key .wrote ((memory w).cache.delete key) :=
    .act (fun _ => .settled) (fun _ => .drop) fun _ => .done
  refine .act (fun s => if s.engine.table.isLive s.instant key then .wrote else .settled)
    (fun s => ?_) fun s => ?_
  · by_cases hl : s.engine.table.isLive s.instant key = true
    · rw [if_pos hl]
      exact .quiet ⟨_, rfl⟩
    · rw [if_neg hl]
      exact .spare (Bool.eq_false_iff.mpr hl)
  · change Follows d key _ (match (.ok (s.engine.table.isLive s.instant key) : Answer Bool) with
      | .error e => _
      | .ok false => _
      | .ok true => _)
    cases s.engine.table.isLive s.instant key with
    | false => exact .done
    | true => exact hdelete

/-- The next value is written. -/
theorem follows_put {v v' : Value} (h : v.step key d = .ok v') :
    Follows d key (.holding v) (CacheAside.put (memory w).cache w.store key v') := by
  have hcommits := w.commits key v'
  unfold CacheAside.put
  generalize w.store key v' = p at hcommits
  change Follows d key _ (p.bind _)
  induction hcommits with
  | fail c => exact .failed (φ := .holding v) rfl _
  | @act g k last hg hk hw ih =>
    classical
    refine .act (fun s => if last s then .wrote else .holding v) (fun s => ?_) fun s => ?_
    · by_cases hl : last s
      · rw [if_pos hl]
        exact .write h (hw s hl).1
      · rw [if_neg hl]
        exact .quiet (hg s hl)
    · by_cases hl : last s
      · rw [if_pos hl, (hw s hl).2]
        exact follows_invalidate w d key
      · rw [if_neg hl]
        exact ih s hl
  | wait hc _ ih => exact .wait hc (fun _ => .holding v) (fun s => .quiet ⟨s.rest, rfl⟩) ih

/-- The value is stepped, once it is there. -/
def stepped (d : Step) (key : String) : Answer Value → Process (Backed ρ) (Answer Unit)
  | .error e => .done (.error e)
  | .ok v =>
    match v.step key d with
    | .error e => .done (.error e)
    | .ok v' => CacheAside.put (memory w).cache w.store key v'

theorem follows_stepped (d : Step) (key : String) (v : Value) :
    Follows d key (.holding v) (stepped w d key (.ok v)) := by
  change Follows d key _ (match v.step key d with
    | .error e => _
    | .ok v' => _)
  cases hv : v.step key d with
  | error e => exact .failed (φ := .holding v) rfl e
  | ok v' => exact follows_put w hv

/-- What was loaded is cached. -/
def cached (key : String) : Except Cause Value → Process (Backed ρ) (Answer Value)
  | .error c => .done (.error (.loadFailed key c))
  | .ok v => ((memory w).cache.put key v ttl).bind fun
    | .error e => .done (.error e)
    | .ok () => .done (.ok v)

/-- The value is loaded, if there is no copy. -/
def looked (key : String) : Answer Value → Process (Backed ρ) (Answer Value)
  | .ok v => .done (.ok v)
  | .error _ => (w.load key).bind (cached w ttl key)

/-- What was loaded is cached, and stepped. -/
theorem follows_load {p : Process (Backed ρ) (Except Cause Value)} {seen : List Value}
    (hf : Fetches key seen p) (hk : Keeps Elsewhere p) (d : Step) :
    Follows d key (.loading seen) ((p.bind (cached w ttl key)).bind (stepped w d key)) := by
  induction hf with
  | @done seen r h =>
    cases r with
    | error c => exact .failed (φ := .loading seen) rfl _
    | ok v => exact .act (fun _ => .holding v) (fun s => .fill (h v rfl) ttl) fun _ =>
        follows_stepped w d key v
  | act _ ih =>
    cases hk with
    | act hg hk => exact .act _ (fun s => .see (hg s)) fun s => ih s (hk s)
  | wait _ ih =>
    cases hk with
    | wait hc hk => exact .wait hc _ (fun s => .see ⟨s.rest, rfl⟩) fun s => ih s (hk s)

/-- The phase of a call that has looked for the copy. -/
def Phase.looked (r : Answer Value) : Phase := r.toOption.elim (.loading []) .holding

/-- **A call goes through its phases.** -/
theorem follows_step (hw : ∀ key, Fetches key [] (w.load key)) (d : Step) (key : String) :
    Follows d key .seeking
      (CacheAside.step (memory w).cache w.load w.store ttl d key) := by
  refine .act (fun s => .looked (s.engine.table.read s.instant key)) (fun s => ?_) fun s => ?_
  · change Acts d key s _ _ s
    cases hr : s.engine.table.read s.instant key with
    | ok v => exact .hit hr
    | error e => exact .miss
  · change Follows d key _
      ((looked w ttl key (s.engine.table.read s.instant key)).bind (stepped w d key))
    cases s.engine.table.read s.instant key with
    | ok v => exact follows_stepped w d key v
    | error e => exact follows_load w ttl (hw key) (w.apart key) d

end Parts

/-- What has been written stays written. -/
theorem written_of_acts {s t : Backed ρ} {φ' : Phase} (h : Acts d key s φ φ' t)
    (hφ : φ.written = true) : φ'.written = true := by
  cases h with
  | quiet _ => exact hφ
  | spare _ => rfl
  | drop => rfl
  | _ => cases hφ

/-! ## What a step is for a key -/

/-- The row of the key is as it was, and so is the copy, if it is still there. -/
def Spares (key : String) (s t : Backed ρ) : Prop :=
  t.rows key = s.rows key ∧ s.instant ≤ t.instant ∧
    ∀ e, t.engine.table.find? key = some e → s.engine.table.find? key = some e

/-- The copy of a key that can be read. -/
def Copied (key : String) (s : Backed ρ) (v : Value) : Prop :=
  s.engine.table.read s.instant key = .ok v

theorem copied_iff {s : Backed ρ} {v : Value} : Copied key s v ↔
    ∃ e, s.engine.table.find? key = some e ∧ e.isExpiredAt s.instant = false ∧ e.value = v := by
  unfold Copied Table.read
  cases s.engine.table.find? key with
  | none => simp
  | some e => cases hx : e.isExpiredAt s.instant <;> simp [hx]

theorem spares_fading {s t : Backed ρ} (h : fading.moves s t) (key : String) : Spares key s t :=
  ⟨congrFun h.1 key, h.2.1, fun e he => h.2.2 key e he⟩

theorem spares_elsewhere {s t : Backed ρ} (h : Elsewhere s t) (key : String) : Spares key s t :=
  spares_fading (fading_of_elsewhere h) key

/-- A call of another key. -/
theorem spares_acts {s t : Backed ρ} {φ' : Phase} {key' : String} (hne : key' ≠ key)
    (h : Acts d key' s φ φ' t) : Spares key s t := by
  cases h with
  | quiet h => exact spares_elsewhere h key
  | hit h => exact spares_elsewhere ⟨_, rfl⟩ key
  | miss => exact spares_elsewhere ⟨_, rfl⟩ key
  | see h => exact spares_elsewhere h key
  | fill _ ttl =>
    refine ⟨rfl, Nat.le_refl _, fun e he => ?_⟩
    change (s.engine.table.insert key' _).find? key = some e at he
    rwa [Table.find?_insert, if_neg hne.symm] at he
  | write _ hw =>
    obtain ⟨r, rfl⟩ := hw
    exact ⟨Function.update_of_ne hne.symm .., Nat.le_refl _, fun e he => he⟩
  | spare _ => exact spares_elsewhere ⟨_, rfl⟩ key
  | drop => exact spares_fading (fading_erase key' s) key

theorem copied_of_spares {s t : Backed ρ} {v : Value} (h : Spares key s t) (hc : Copied key t v) :
    Copied key s v := by
  obtain ⟨e, he, hx, rfl⟩ := copied_iff.mp hc
  exact copied_iff.mpr ⟨e, h.2.2 e he, unexpired_of_le h.2.1 hx, rfl⟩

theorem copied_put {s : Backed ρ} {u v : Value} {ttl : Duration}
    (h : Copied key (setTable (s.engine.table.put s.instant key v ttl) s) u) : u = v := by
  obtain ⟨e, he, -, rfl⟩ := copied_iff.mp h
  change (s.engine.table.insert key ⟨v, s.instant, ttl⟩).find? key = some e at he
  rw [Table.find?_insert, if_pos rfl] at he
  obtain rfl := Option.some.inj he
  rfl

theorem not_copied_erase {s : Backed ρ} {u : Value} :
    ¬ Copied key (setTable (s.engine.table.erase key) s) u := by
  intro h
  obtain ⟨e, he, -⟩ := copied_iff.mp h
  change (s.engine.table.erase key).find? key = some e at he
  rw [Table.find?_erase, if_pos rfl] at he
  cases he

theorem not_copied_of_dead {s : Backed ρ} {u : Value}
    (h : s.engine.table.isLive s.instant key = false) : ¬ Copied key s u := by
  intro hc
  obtain ⟨e, he, hx, -⟩ := copied_iff.mp hc
  unfold Table.isLive at h
  simp [he, hx] at h

/-! ## What the calls know -/

section Knowing

variable {ι : Type} {asks : ι → Step × String} {s t : Backed ρ} {phases : ι → Phase}

/-- The row of a key, its copy, and whatever a call on it may step, are values of a kind. -/
structure Knows (key : String) (asks : ι → Step × String) (P : Value → Prop) (s : Backed ρ)
    (phases : ι → Phase) : Prop where
  row : ∃ v, s.rows key = some v ∧ P v
  copy : ∀ v, Copied key s v → P v
  values : ∀ i, (asks i).2 = key → ∀ v ∈ (phases i).values, P v

variable {P P' : Value → Prop}

theorem knows_mono (h : Knows key asks P s phases) (hP : ∀ v, P v → P' v) :
    Knows key asks P' s phases where
  row := h.row.imp fun v hv => ⟨hv.1, hP v hv.2⟩
  copy v hv := hP v (h.copy v hv)
  values i hi v hv := hP v (h.values i hi v hv)

theorem knows_spares (h : Knows key asks P s phases) (hs : Spares key s t) :
    Knows key asks P t phases where
  row := by
    rw [hs.1]
    exact h.row
  copy v hv := h.copy v (copied_of_spares hs hv)
  values := h.values

variable [DecidableEq ι] {i : ι} {φ' : Phase}

/-- A call comes to another phase. -/
theorem knows_update (h : Knows key asks P s phases)
    (hv : (asks i).2 = key → ∀ v ∈ φ'.values, P v) :
    Knows key asks P s (Function.update phases i φ') where
  row := h.row
  copy := h.copy
  values j hj v hm := by
    by_cases hji : j = i
    · subst hji
      rw [Function.update_self] at hm
      exact hv hj v hm
    · rw [Function.update_of_ne hji] at hm
      exact h.values j hj v hm

/-- A step of a call: what it writes is one step from what it knows. -/
theorem knows_acts (h : Knows key asks P s phases) (hi : (asks i).2 = key)
    (ha : Acts (asks i).1 key s (phases i) φ' t) (hP : ∀ v, P v → P' v)
    (hw : ∀ v v', (phases i).written = false → φ'.written = true → P v →
      v.step key (asks i).1 = .ok v' → P' v') :
    Knows key asks P' t (Function.update phases i φ') := by
  have hvalues := h.values i hi
  generalize hφ : phases i = φ at ha hw hvalues
  cases ha with
  | quiet he =>
    exact knows_update (knows_mono (knows_spares h (spares_elsewhere he key)) hP)
      fun _ v hv => hP v (hvalues v hv)
  | @hit v hr =>
    refine knows_update (knows_mono h hP) fun _ u hu => ?_
    obtain rfl := List.mem_singleton.mp hu
    exact hP u (h.copy u hr)
  | miss => exact knows_update (knows_mono h hP) fun _ u hu => absurd hu List.not_mem_nil
  | see he =>
    refine knows_update (knows_mono (knows_spares h (spares_elsewhere he key)) hP) fun _ u hu => ?_
    rcases List.mem_append.mp hu with hu | hu
    · obtain ⟨v, hv, hPv⟩ := h.row
      rw [hv] at hu
      obtain rfl := List.mem_singleton.mp hu
      exact hP u hPv
    · exact hP u (hvalues u hu)
  | @fill seen v hv ttl =>
    refine knows_update ⟨?_, fun u hu => ?_, fun j hj u hu => ?_⟩ fun _ u hu => ?_
    · exact (knows_mono h hP).row
    · rw [copied_put hu]
      exact hP v (hvalues v hv)
    · exact hP u (h.values j hj u hu)
    · obtain rfl := List.mem_singleton.mp hu
      exact hP u (hvalues u hv)
  | @write v v' _ hstep hwrite =>
    obtain ⟨r, rfl⟩ := hwrite
    have hv' : P' v' := hw v v' rfl rfl (hvalues v List.mem_cons_self) hstep
    refine knows_update ⟨⟨v', Function.update_self .., hv'⟩, fun u hu => ?_, fun j hj u hu => ?_⟩
      fun _ u hu => absurd hu List.not_mem_nil
    · exact hP u (h.copy u hu)
    · exact hP u (h.values j hj u hu)
  | spare _ => exact knows_update (knows_mono h hP) fun _ u hu => absurd hu List.not_mem_nil
  | drop =>
    exact knows_update (knows_mono (knows_spares h (spares_fading (fading_erase key s) key)) hP)
      fun _ u hu => absurd hu List.not_mem_nil

end Knowing

end LayeredCache.Backed

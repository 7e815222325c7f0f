import LayeredCache.Proofs.Stack

/-!
# Batch reads of a stack

A batch read of a stack is told by the outcome of each key: slots, texts and the choice between
success and failure follow from the outcomes, place by place.

The outcome of a key is the answer of a read of that key alone, made while the batch is read. It is
made by the uppermost layer that reads through; if there is none, it is made by the memory engine,
and for all keys in one step.

Results:
* `tells_collect`: what a batch tells of its outcomes.
* `keeps_getMulti`: a batch read changes the state as the reads of its keys do.
* `tells_readThrough`: a batch read of a layer that reads through.
* `getMulti_aligned`: every batch read of every stack tells of the outcomes of its keys.
-/

namespace LayeredCache

open Process

/-! ## What a batch tells -/

/-- Keys and outcomes place by place, with the slots and the texts that they lead to: a slot for
each key, and a text for each empty slot, with the key and its own error. -/
inductive Rows : List String → List (Answer Value) → List (Option Value) → List String → Prop
  | nil : Rows [] [] [] []
  | filled {keys : List String} {outcomes : List (Answer Value)} {slots : List (Option Value)}
      {texts : List String} (key : String) (v : Value) (h : Rows keys outcomes slots texts) :
      Rows (key :: keys) (.ok v :: outcomes) (some v :: slots) texts
  | empty {keys : List String} {outcomes : List (Answer Value)} {slots : List (Option Value)}
      {texts : List String} (key : String) (e : CacheError) (h : Rows keys outcomes slots texts) :
      Rows (key :: keys) (.error e :: outcomes) (none :: slots)
        (("key [" ++ key ++ "] error: " ++ e.message) :: texts)

/-- What the answer of a batch tells of the outcomes of its keys. -/
inductive Tells (keys : List String) (outcomes : List (Answer Value)) :
    Answer (List (Option Value)) → Prop
  /-- Every slot is filled. -/
  | complete {slots : List (Option Value)} (h : Rows keys outcomes slots [])
      (hl : slots.length = keys.length) (hf : none ∉ slots) : Tells keys outcomes (.ok slots)
  /-- Some slot is empty, and there are as many texts as empty slots. -/
  | incomplete {slots : List (Option Value)} {texts : List String}
      (h : Rows keys outcomes slots texts) (hl : slots.length = keys.length) (he : none ∈ slots)
      (hc : texts.length = slots.countP Option.isNone) :
      Tells keys outcomes (.error (.multiGetFailed slots texts))

namespace Rows

variable {keys : List String} {outcomes : List (Answer Value)} {slots : List (Option Value)}
  {texts : List String}

theorem length_slots (h : Rows keys outcomes slots texts) : slots.length = keys.length := by
  induction h with
  | nil => rfl
  | filled key v _ ih => rw [List.length_cons, List.length_cons, ih]
  | empty key e _ ih => rw [List.length_cons, List.length_cons, ih]

theorem length_texts (h : Rows keys outcomes slots texts) :
    texts.length = slots.countP Option.isNone := by
  induction h with
  | nil => rfl
  | filled key v _ ih => rw [ih, List.countP_cons_of_neg (by simp)]
  | empty key e _ ih => rw [List.length_cons, ih, List.countP_cons_of_pos (by simp)]

/-- A slot is empty exactly if there is something to tell. -/
theorem none_mem_iff (h : Rows keys outcomes slots texts) : none ∈ slots ↔ texts ≠ [] := by
  rw [← List.length_pos_iff, h.length_texts, List.countP_pos_iff]
  simp

/-- The slots and texts of a batch. -/
theorem collected {keys : List String} {outcomes : List (Answer Value)}
    (h : outcomes.length = keys.length) :
    Rows keys outcomes (Batch.slots (keys.zip outcomes)) (Batch.failures (keys.zip outcomes)) := by
  induction keys generalizing outcomes with
  | nil =>
    obtain rfl := List.length_eq_zero_iff.mp h
    exact .nil
  | cons key keys ih =>
    cases outcomes with
    | nil => simp at h
    | cons o outcomes =>
      have ih := ih (Nat.succ.inj h)
      cases o with
      | ok v => exact .filled key v ih
      | error e => exact .empty key e ih

end Rows

theorem tells_collect {keys : List String} {outcomes : List (Answer Value)}
    (h : outcomes.length = keys.length) :
    Tells keys outcomes (Batch.collect (keys.zip outcomes)) := by
  have hr := Rows.collected h
  unfold Batch.collect
  cases ht : Batch.failures (keys.zip outcomes) with
  | nil =>
    rw [ht] at hr
    exact .complete hr hr.length_slots fun hn => hr.none_mem_iff.mp hn rfl
  | cons x texts =>
    rw [ht] at hr
    exact .incomplete hr hr.length_slots (hr.none_mem_iff.mpr (List.cons_ne_nil _ _))
      hr.length_texts

/-- In a batch that succeeds, every outcome does. -/
theorem forall₂_of_complete {R S : String → Answer Value → Prop} {keys : List String}
    {outcomes : List (Answer Value)} {slots : List (Option Value)}
    (h : Tells keys outcomes (.ok slots)) (hR : List.Forall₂ R keys outcomes)
    (hS : ∀ key v, R key (.ok v) → S key (.ok v)) : List.Forall₂ S keys outcomes := by
  cases h with
  | complete h _ _ =>
    clear * - h hR hS
    generalize ht : ([] : List String) = texts at h
    induction h with
    | nil => exact .nil
    | filled key v _ ih =>
      cases hR with
      | cons hk hr => exact .cons (hS key v hk) (ih hr ht)
    | empty key e _ _ => cases ht

/-! ## Batches of a stack -/

variable {σ : Type} [Clock σ] [Journal σ]

/-- The layers from the uppermost that reads through on. -/
def readers : List (Decorator σ) → List (Decorator σ)
  | [] => []
  | d :: ds => if d.readsThrough then d :: ds else readers ds

/-- The layers above the readers pass batches on as they are. -/
theorem getMulti_onto {d : Decorator σ} (h : d.readsThrough = false) (inner : Cache σ) :
    (d.onto inner).getMulti = inner.getMulti := by
  cases d with
  | readThrough load ttl => simp [Decorator.readsThrough] at h
  | _ => rfl

/-- A batch read changes the state as the reads of its keys do. -/
theorem keeps_getMulti {R : σ → σ → Prop} (hR : ∀ s, R s s)
    (hT : ∀ {s t u}, R s t → R t u → R s u) {m : Memory σ} {keys : List String} :
    ∀ {ds : List (Decorator σ)}, (∀ k ∈ keys, Keeps R ((stack m ds).get k)) →
      Keeps R ((stack m ds).getMulti keys)
  | [], _ => .act hR fun _ => .done _
  | d :: ds, h => by
    have ih := keeps_getMulti hR hT fun k hk => keeps_get_below (h k hk)
    cases d with
    | readThrough load ttl =>
      refine keeps_bind ih fun r => ?_
      cases r with
      | ok vs => exact .done _
      | error e =>
        refine keeps_bind (keeps_all hR hT ?_) fun outcomes => .done _
        intro p hp
        obtain ⟨k, hk, rfl⟩ := List.mem_map.mp hp
        exact h k hk
    | _ => exact ih

variable {E : Surroundings σ} {m : Memory σ}

/-- What the layers from the readers on find, the whole stack answers. -/
theorem runs_get_of_readers {key : String} {s t : σ} {v : Value} :
    ∀ {ds : List (Decorator σ)},
      Runs E ((stack m (readers ds)).get key) s (some (.ok v)) t →
        Runs E ((stack m ds).get key) s (some (.ok v)) t
  | [], h => h
  | d :: ds, h => by
    unfold readers at h
    by_cases hd : d.readsThrough = true
    · rw [if_pos hd] at h
      exact h
    · rw [if_neg hd] at h
      exact runs_get_onto d (runs_get_of_readers h)

omit [Journal σ] in
/-- The answers of the memory engine at one instant. -/
theorem reads_at (m : Memory σ) (keys : List String) (u : σ) :
    ∃ outcomes : List (Answer Value), Tells keys outcomes
        ((m.slot.get u).table.readEach (Clock.instant u) keys) ∧
      List.Forall₂ (fun k o => (m.cache.get k).next? u = some (.done o, u)) keys outcomes := by
  refine ⟨keys.map fun k => (m.slot.get u).table.read (Clock.instant u) k, ?_, ?_⟩
  · unfold Table.readEach
    rw [List.map_prod_left_eq_zip]
    exact tells_collect (List.length_map _)
  · rw [List.forall₂_map_right_iff, List.forall₂_same]
    exact fun k _ => rfl

/-- A layer that reads through answers a batch as the layers below do, if that has filled every
slot; otherwise it reads each key by itself. -/
theorem tells_readThrough {load : Loader σ} {ttl : Duration} {ds : List (Decorator σ)}
    {keys : List String} {s t : σ} {r : Answer (List (Option Value))}
    (hk : ∀ k ∈ keys, Keeps E.moves ((stack m (.readThrough load ttl :: ds)).get k))
    (hbelow : ∀ u vs, Runs E ((stack m ds).getMulti keys) s (some (.ok vs)) u →
      ∃ outcomes, Tells keys outcomes (.ok vs) ∧
        List.Forall₂ (fun k o => Runs E ((stack m (readers ds)).get k) s (some o) u)
          keys outcomes)
    (h : Runs E ((stack m (.readThrough load ttl :: ds)).getMulti keys) s (some r) t) :
    ∃ outcomes, Tells keys outcomes r ∧
      List.Forall₂
        (fun k o => Runs E ((stack m (.readThrough load ttl :: ds)).get k) s (some o) t)
        keys outcomes := by
  obtain ⟨a, u, hi, hf⟩ := runs_bind_some h
  have hm : E.moves s u :=
    moves_of_runs (keeps_getMulti E.refl E.trans fun k hkey => keeps_get_below (hk k hkey)) hi
  cases a with
  | ok vs =>
    cases hf with
    | done ht =>
      obtain ⟨outcomes, htells, hreads⟩ := hbelow u vs hi
      refine ⟨outcomes, htells, forall₂_of_complete htells hreads fun k v hv => ?_⟩
      exact runs_get_onto _ ((runs_get_of_readers hv).before ht)
  | error e =>
    obtain ⟨outcomes, t', ha, hf⟩ := runs_bind_some hf
    cases hf with
    | done ht =>
      have hall : ∀ p ∈ keys.map (ReadThrough.get (stack m ds) load ttl),
          Keeps E.moves p := by
        intro p hp
        obtain ⟨k, hkey, rfl⟩ := List.mem_map.mp hp
        exact hk k hkey
      have hreads := runs_all hall ha
      rw [List.forall₂_map_left_iff] at hreads
      refine ⟨outcomes, tells_collect hreads.length_eq.symm, ?_⟩
      exact hreads.imp fun k o ho => (ho.before ht).after hm

/-- **Every batch read of every stack tells of the outcomes of its keys**, each the answer of a read
of its own key. Where no layer reads through, these are the answers of the memory engine in one
state. -/
theorem getMulti_aligned {keys : List String} :
    ∀ {ds : List (Decorator σ)}, (∀ k ∈ keys, Keeps E.moves ((stack m ds).get k)) →
    ∀ {s t : σ} {r : Answer (List (Option Value))},
      Runs E ((stack m ds).getMulti keys) s (some r) t →
      ∃ outcomes, Tells keys outcomes r ∧
        List.Forall₂ (fun k o => Runs E ((stack m (readers ds)).get k) s (some o) t)
          keys outcomes ∧
        ((∀ d ∈ ds, d.readsThrough = false) → ∃ u, E.moves s u ∧ E.moves u t ∧
          List.Forall₂ (fun k o => (m.cache.get k).next? u = some (.done o, u)) keys outcomes)
  | [], _, s, t, r, h => by
    cases h with
    | @act _ _ _ u _ _ hu h =>
      cases h with
      | done ht =>
        obtain ⟨outcomes, htells, hreads⟩ := reads_at m keys u
        refine ⟨outcomes, htells, ?_, fun _ => ⟨u, hu, ht, hreads⟩⟩
        exact hreads.imp fun k o ho => .after hu (next?_runs ho (.done ht))
  | d :: ds, hk, s, t, r, h => by
    have hk' : ∀ k ∈ keys, Keeps E.moves ((stack m ds).get k) := fun k hkey =>
      keeps_get_below (hk k hkey)
    by_cases hd : d.readsThrough = true
    · rw [readers, if_pos hd]
      have hnone : ¬ ∀ d' ∈ d :: ds, d'.readsThrough = false := fun hall =>
        absurd (hd.symm.trans (hall d List.mem_cons_self)) (by simp)
      cases d with
      | readThrough load ttl =>
        have hbelow (u : σ) (vs : List (Option Value))
            (hi : Runs E ((stack m ds).getMulti keys) s (some (.ok vs)) u) :
            ∃ outcomes, Tells keys outcomes (.ok vs) ∧
              List.Forall₂ (fun k o => Runs E ((stack m (readers ds)).get k) s (some o) u)
                keys outcomes := by
          obtain ⟨outcomes, htells, hreads, -⟩ := getMulti_aligned hk' hi
          exact ⟨outcomes, htells, hreads⟩
        obtain ⟨outcomes, htells, hreads⟩ := tells_readThrough hk hbelow h
        exact ⟨outcomes, htells, hreads, fun hall => absurd hall hnone⟩
      | _ => simp [Decorator.readsThrough] at hd
    · rw [readers, if_neg hd]
      rw [stack, getMulti_onto (by simpa using hd)] at h
      obtain ⟨outcomes, htells, hreads, hone⟩ := getMulti_aligned hk' h
      exact ⟨outcomes, htells, hreads, fun hall =>
        hone fun d' hd' => hall d' (List.mem_cons_of_mem d hd')⟩

/-- A batch of two keys of which the source has one. -/
theorem getMulti_aligned_partly :
    let s : Session.State :=
      { (default : Session.State) with source := ⟨[("a", .bool true)], ⟨[], []⟩, []⟩ }
    let c := stack (Session.State.memory 0) [.readThrough Session.State.loader .zero]
    let e : CacheError := .loadFailed "b" (.ofText ("no row for " ++ "b"))
    let r : Answer (List (Option Value)) := .error (.multiGetFailed [some (.bool true), none]
      ["key [" ++ "b" ++ "] error: " ++ e.message])
    ∃ t, Runs .anything (c.getMulti ["a", "b"]) s (some r) t ∧
      ∃ outcomes, Tells ["a", "b"] outcomes r ∧
        List.Forall₂ (fun k o => Runs Surroundings.anything (c.get k) s (some o) t)
          ["a", "b"] outcomes := by
  intro s c e r
  have hd : ((c.getMulti ["a", "b"]).advance s).1 = .done r := by
    unfold c s r e
    rfl
  have h : Runs .anything (c.getMulti ["a", "b"]) s (some r) _ := runs_of_advance hd
  obtain ⟨outcomes, htells, hreads, -⟩ :=
    getMulti_aligned (fun _ _ => keeps_anything _) h
  exact ⟨_, h, outcomes, htells, hreads⟩

end LayeredCache

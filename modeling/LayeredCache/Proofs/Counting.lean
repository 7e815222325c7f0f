import LayeredCache.Proofs.Phases
import LayeredCache.Proofs.TimedMap
import Mathlib.Data.Fintype.Card
import Mathlib.Algebra.Order.BigOperators.Group.Finset

/-!
# Counters beside the cache

Callers that step counters beside the cache, in any number and in any order of steps. Two calls that
overlap may step the same value, and then one of the two steps is lost; a call that begins when the
others on its key have answered steps the row as they have left it.

Results:
* `range_acts`: the row, its copy and the values in hand lie as far from the first row as there are
  calls that have written.
* `exact_acts`: while no more than one call is under way, the row has moved by all of them.
* `run_counted`: what the row of a key is when the calls on it have answered.
* `counters_lose_step`: two calls that overlap move the row by one.
-/

namespace LayeredCache.Backed

open Process

variable {ρ : Type} {d : Step} {key : String}

/-! ## Counting -/

section Tally

variable {ι : Type} [Fintype ι] [DecidableEq ι] {asks : ι → Step × String}

/-- How many of the calls on a key in one direction are marked. -/
def tally (asks : ι → Step × String) (marked : ι → Bool) (key : String) (d : Step) : Nat :=
  (Finset.univ.filter fun i => asks i = (d, key) ∧ marked i = true).card

variable {marked marked' : ι → Bool} {i : ι}

omit [DecidableEq ι] in
theorem tally_congr (h : ∀ j, (asks j).2 = key → marked' j = marked j) (d : Step) :
    tally asks marked' key d = tally asks marked key d := by
  unfold tally
  congr 1
  refine Finset.filter_congr fun j _ => and_congr_right fun hj => ?_
  rw [h j (congrArg Prod.snd hj)]

/-- One more call is marked. -/
theorem tally_mark (hi : (asks i).2 = key) (hno : marked i = false) (hyes : marked' i = true)
    (h : ∀ j, j ≠ i → marked' j = marked j) (d : Step) :
    tally asks marked' key d = tally asks marked key d + if (asks i).1 = d then 1 else 0 := by
  unfold tally
  split
  · rename_i hd
    have hasks : asks i = (d, key) := Prod.ext hd hi
    rw [← Finset.card_insert_of_notMem (a := i) (by simp [hno])]
    congr 1
    ext j
    rw [Finset.mem_insert, Finset.mem_filter, Finset.mem_filter]
    by_cases hj : j = i
    · subst hj
      simp [hasks, hyes]
    · simp [hj, h j hj]
  · rename_i hd
    rw [Nat.add_zero]
    congr 1
    refine Finset.filter_congr fun j _ => and_congr_right fun hj => ?_
    by_cases hji : j = i
    · subst hji
      exact absurd (congrArg Prod.fst hj) hd
    · rw [h j hji]

/-- The calls that have written. -/
abbrev writers (phases : ι → Phase) : ι → Bool := fun i => (phases i).written

variable {phases : ι → Phase} {φ' : Phase}

omit [Fintype ι] in
theorem writers_update_of_ne {j : ι} (h : j ≠ i) :
    writers (Function.update phases i φ') j = writers phases j := by
  rw [writers, Function.update_of_ne h]

/-- A step by which nothing is written. -/
theorem tally_update (h : (asks i).2 = key → φ'.written = (phases i).written) (d : Step) :
    tally asks (writers (Function.update phases i φ')) key d =
      tally asks (writers phases) key d := by
  refine tally_congr (fun j hj => ?_) d
  by_cases hji : j = i
  · subst hji
    rw [writers, Function.update_self]
    exact h hj
  · exact writers_update_of_ne hji

/-- A step by which the row is written. -/
theorem tally_update_written (hi : (asks i).2 = key) (h : (phases i).written = false)
    (h' : φ'.written = true) (d : Step) :
    tally asks (writers (Function.update phases i φ')) key d =
      tally asks (writers phases) key d + if (asks i).1 = d then 1 else 0 := by
  refine tally_mark hi h ?_ (fun j hj => writers_update_of_ne hj) d
  rw [writers, Function.update_self]
  exact h'

/-! ## Bounds -/

/-- A number of the kind between two bounds. -/
def Within (k : IntKind) (lo hi : Int) (v : Value) : Prop :=
  ∃ c : BoundedInt, v = .int c ∧ c.kind = k ∧ lo ≤ c.val ∧ c.val ≤ hi

theorem within_mono {k : IntKind} {lo hi lo' hi' : Int} {v : Value} (h : Within k lo hi v)
    (hlo : lo' ≤ lo) (hhi : hi ≤ hi') : Within k lo' hi' v := by
  obtain ⟨c, hv, hk, hl, hh⟩ := h
  exact ⟨c, hv, hk, hlo.trans hl, hh.trans hhi⟩

/-- A step of a number moves it by one. -/
theorem step_int {c : BoundedInt} {v' : Value} (h : (Value.int c).step key d = .ok v') :
    ∃ c' : BoundedInt, v' = .int c' ∧ c'.kind = c.kind ∧ c'.val = c.val + TimedMap.delta d := by
  unfold Value.step at h
  cases hn : d.next? c with
  | none => simp [hn] at h
  | some c' =>
    simp only [hn, Except.ok.injEq] at h
    exact ⟨c', h.symm, TimedMap.next?_val hn⟩

/-- What the marked calls allow the row to be. -/
def Range (key : String) (asks : ι → Step × String) (b : BoundedInt) (marked : ι → Bool) :
    Value → Prop :=
  Within b.kind (b.val - tally asks marked key .down) (b.val + tally asks marked key .up)

variable {b : BoundedInt} {s t : Backed ρ}

/-- A step of a call keeps what is known in range. -/
theorem range_acts (h : Knows key asks (Range key asks b (writers phases)) s phases)
    (ha : Acts (asks i).1 (asks i).2 s (phases i) φ' t) :
    Knows key asks (Range key asks b (writers (Function.update phases i φ'))) t
      (Function.update phases i φ') := by
  by_cases hi : (asks i).2 = key
  · have hle (d : Step) : tally asks (writers phases) key d ≤
        tally asks (writers (Function.update phases i φ')) key d := by
      by_cases hw : φ'.written = (phases i).written
      · exact (tally_update (fun _ => hw) d).ge
      · cases hφ : (phases i).written with
        | false =>
          rw [tally_update_written hi hφ (by simpa [hφ] using hw)]
          exact Nat.le_add_right _ _
        | true => exact absurd (written_of_acts ha hφ) (by simpa [hφ] using hw)
    have hdown := hle .down
    have hup := hle .up
    rw [hi] at ha
    refine knows_acts h hi ha (fun v hv => within_mono hv (by omega) (by omega)) ?_
    rintro v v' hno hyes ⟨c, rfl, hk, hlo, hhi⟩ hstep
    obtain ⟨c', rfl, hk', hval⟩ := step_int hstep
    refine ⟨c', rfl, hk'.trans hk, ?_, ?_⟩
    · rw [tally_update_written hi hno hyes]
      cases hd : (asks i).1 <;> simp only [hd, TimedMap.delta] at hval ⊢ <;> grind
    · rw [tally_update_written hi hno hyes]
      cases hd : (asks i).1 <;> simp only [hd, TimedMap.delta] at hval ⊢ <;> grind
  · have hr : Range key asks b (writers (Function.update phases i φ')) =
        Range key asks b (writers phases) := by
      unfold Range
      rw [tally_update (fun h' => absurd h' hi), tally_update (fun h' => absurd h' hi)]
    rw [hr]
    exact knows_update (knows_spares h (spares_acts hi ha)) fun h' => absurd h' hi

/-! ## Calls one after the other -/

/-- What holds of a key while no more than one call on it is under way. The calls that have not
answered are `busy`. -/
structure Exact (key : String) (asks : ι → Step × String) (b : BoundedInt) (s : Backed ρ)
    (phases : ι → Phase) (busy : ι → Prop) : Prop where
  row : ∃ c : BoundedInt, s.rows key = some (.int c) ∧ c.kind = b.kind ∧
    c.val = b.val + tally asks (writers phases) key .up - tally asks (writers phases) key .down
  /-- The copy is that of the row, but for a call that has written and not come to it. -/
  copy : (∀ i, (asks i).2 = key → busy i → phases i ≠ .wrote) →
    ∀ v, Copied key s v → s.rows key = some v
  values : ∀ i, (asks i).2 = key → busy i → ∀ v ∈ (phases i).values, s.rows key = some v

variable {busy busy' : ι → Prop}

omit [DecidableEq ι] in
/-- Others take copies away. -/
theorem exact_spares (h : Exact key asks b s phases busy) (hs : Spares key s t)
    (hb : ∀ j, busy' j ↔ busy j) : Exact key asks b t phases busy' where
  row := by
    rw [hs.1]
    exact h.row
  copy hno v hv := by
    rw [hs.1]
    exact h.copy (fun j hj hbusy => hno j hj ((hb j).mpr hbusy)) v (copied_of_spares hs hv)
  values j hj hbusy := by
    rw [hs.1]
    exact h.values j hj ((hb j).mp hbusy)

/-- A step of a call on another key. -/
theorem exact_other (h : Exact key asks b s phases busy) (hi : (asks i).2 ≠ key)
    (ha : Acts (asks i).1 (asks i).2 s (phases i) φ' t)
    (hb : ∀ j, (asks j).2 = key → (busy' j ↔ busy j)) :
    Exact key asks b t (Function.update phases i φ') busy' := by
  have hs := spares_acts hi ha
  have hsame {j : ι} (hj : (asks j).2 = key) : Function.update phases i φ' j = phases j := by
    refine Function.update_of_ne (fun hji => ?_) ..
    exact hi (hji ▸ hj)
  constructor
  case row =>
    rw [hs.1, tally_update (fun h' => absurd h' hi), tally_update (fun h' => absurd h' hi)]
    exact h.row
  case copy =>
    intro hno v hv
    rw [hs.1]
    refine h.copy (fun j hj hbusy => ?_) v (copied_of_spares hs hv)
    rw [← hsame hj]
    exact hno j hj ((hb j hj).mpr hbusy)
  case values =>
    intro j hj hbusy
    rw [hs.1, hsame hj]
    exact h.values j hj ((hb j hj).mp hbusy)

/-- A step of the only call under way on the key. -/
theorem exact_acts (h : Exact key asks b s phases busy) (hi : (asks i).2 = key) (hbusy : busy i)
    (ha : Acts (asks i).1 key s (phases i) φ' t)
    (hothers : ∀ j, j ≠ i → (asks j).2 = key → busy j → phases j = .seeking)
    (hb : ∀ j, j ≠ i → busy' j → busy j) (hb' : φ' = .wrote → busy' i) :
    Exact key asks b t (Function.update phases i φ') busy' := by
  -- Whoever else is under way has nothing in hand.
  have values (rows : Option Value) (hv : ∀ v ∈ φ'.values, rows = some v) :
      ∀ j, (asks j).2 = key → busy' j →
        ∀ v ∈ (Function.update phases i φ' j).values, rows = some v := by
    intro j hj hbj v hm
    by_cases hji : j = i
    · subst hji
      rw [Function.update_self] at hm
      exact hv v hm
    · rw [Function.update_of_ne hji, hothers j hji hj (hb j hji hbj)] at hm
      exact absurd hm List.not_mem_nil
  have here (hno : ∀ j, (asks j).2 = key → busy' j →
      Function.update phases i φ' j ≠ .wrote) : φ' ≠ .wrote := by
    intro hw
    refine hno i hi (hb' hw) ?_
    rw [Function.update_self]
    exact hw
  have copied (hw : phases i ≠ .wrote) : ∀ v, Copied key s v → s.rows key = some v := by
    refine h.copy fun j hj hbj => ?_
    by_cases hji : j = i
    · exact hji ▸ hw
    · rw [hothers j hji hj hbj]
      exact Phase.noConfusion
  -- A step by which nothing is written, and the copy is that of the row again.
  have unwritten (hrows : t.rows key = s.rows key) (hw : φ'.written = (phases i).written)
      (hc : φ' ≠ .wrote → ∀ v, Copied key t v → s.rows key = some v)
      (hv : ∀ v ∈ φ'.values, s.rows key = some v) :
      Exact key asks b t (Function.update phases i φ') busy' := by
    constructor
    case row =>
      rw [hrows, tally_update fun _ => hw, tally_update fun _ => hw]
      exact h.row
    case copy =>
      intro hno v hcv
      rw [hrows]
      exact hc (here hno) v hcv
    case values =>
      rw [hrows]
      exact values _ hv
  have hvalues := h.values i hi hbusy
  generalize hφ : phases i = φ at ha copied unwritten hvalues
  cases ha with
  | quiet he =>
    have hs := spares_elsewhere he key
    exact unwritten hs.1 rfl (fun hw v hv => copied hw v (copied_of_spares hs hv)) hvalues
  | hit hr =>
    have hc := copied Phase.noConfusion
    refine unwritten rfl rfl (fun _ => hc) fun u hu => ?_
    obtain rfl := List.mem_singleton.mp hu
    exact hc u hr
  | miss =>
    exact unwritten rfl rfl (fun _ => copied Phase.noConfusion) fun u hu =>
      absurd hu List.not_mem_nil
  | see he =>
    have hs := spares_elsewhere he key
    refine unwritten hs.1 rfl
      (fun _ v hv => copied Phase.noConfusion v (copied_of_spares hs hv)) fun u hu => ?_
    rcases List.mem_append.mp hu with hu | hu
    · exact Option.mem_toList.mp hu
    · exact hvalues u hu
  | @fill seen v hv ttl =>
    refine unwritten rfl rfl (fun _ u hu => ?_) fun u hu => ?_
    · rw [copied_put hu]
      exact hvalues v hv
    · obtain rfl := List.mem_singleton.mp hu
      exact hvalues u hv
  | spare hd =>
    exact unwritten rfl rfl (fun _ v hv => absurd hv (not_copied_of_dead hd))
      fun u hu => absurd hu List.not_mem_nil
  | drop =>
    exact unwritten rfl rfl (fun _ v hv => absurd hv not_copied_erase)
      fun u hu => absurd hu List.not_mem_nil
  | @write v v' _ hstep hwrite =>
    obtain ⟨r, rfl⟩ := hwrite
    obtain ⟨c, hc, hk, hval⟩ := h.row
    obtain rfl : Value.int c = v := Option.some.inj (hc.symm.trans (hvalues v List.mem_cons_self))
    obtain ⟨c', rfl, hk', hval'⟩ := step_int hstep
    constructor
    case row =>
      refine ⟨c', Function.update_self .., hk'.trans hk, ?_⟩
      have hno : (phases i).written = false := by rw [hφ]; rfl
      rw [tally_update_written hi hno rfl, tally_update_written hi hno rfl]
      cases hd : (asks i).1 <;> simp only [hd, TimedMap.delta] at hval' ⊢ <;> grind
    case copy => exact fun hno => absurd rfl (here hno)
    case values => exact values _ fun u hu => absurd hu List.not_mem_nil

end Tally

/-! ## Pools -/

section Pools

variable [Journal ρ] {ι κ ε : Type} (w : Source ρ) (ttl : Duration)

/-- Callers that step counters beside the cache, and what goes on beside them, none of which has
taken a step. -/
def counters (asks : ι → Step × String) (tasks : κ → Background) (s : Backed ρ) :
    Pool (ι ⊕ κ) (Backed ρ) (Answer Unit) where
  state := s
  threads
    | .inl i => some (((Setup.cacheAside ttl).cache w).step (asks i).1 (asks i).2)
    | .inr j => some ((fun _ => .ok ()) <$> (tasks j).run w)

variable {w ttl} {asks : ι → Step × String} {p p' : Pool (ι ⊕ κ) (Backed ρ) (Answer Unit)}
  {phases phases' : ι → Phase}

omit [Journal ρ] in
/-- Every call goes through its phases, and whatever goes on beside them takes entries away. -/
structure Following (asks : ι → Step × String) (p : Pool (ι ⊕ κ) (Backed ρ) (Answer Unit))
    (phases : ι → Phase) : Prop where
  calls : ∀ i q, p.threads (.inl i) = some q → Follows (asks i).1 (asks i).2 (phases i) q
  beside : ∀ j q, p.threads (.inr j) = some q → Keeps fading.moves q

theorem following_counters (hw : ∀ key, Fetches key [] (w.load key)) (tasks : κ → Background)
    (s : Backed ρ) : Following asks (counters w ttl asks tasks s) fun _ => .seeking where
  calls i q hq := by
    obtain rfl := Option.some.inj hq
    exact follows_step w ttl hw (asks i).1 (asks i).2
  beside j q hq := by
    obtain rfl := Option.some.inj hq
    exact keeps_bind (keeps_background w (tasks j)) fun _ => .done _

variable [DecidableEq ι] [DecidableEq κ]

/-- What a turn can be for the calls. -/
inductive Turned (asks : ι → Step × String) (p : Pool (ι ⊕ κ) (Backed ρ) (Answer Unit))
    (phases : ι → Phase) : Option (Pool.Event (ι ⊕ κ) (Backed ρ) (Answer Unit)) →
      Pool (ι ⊕ κ) (Backed ρ) (Answer Unit) → (ι → Phase) → Prop
  | call {i : ι} {q q' : Process (Backed ρ) (Answer Unit)} {φ' : Phase} {t : Backed ρ}
      (hq : p.threads (.inl i) = some q) (hn : q.answer? = none)
      (ha : Acts (asks i).1 (asks i).2 p.state (phases i) φ' t)
      (hf : Follows (asks i).1 (asks i).2 φ' q') :
      Turned asks p phases (some ⟨.inl i, p.state, t, q'.answer?⟩)
        ⟨t, Function.update p.threads (.inl i) (some q')⟩ (Function.update phases i φ')
  | beside {x : Option (Pool.Event (ι ⊕ κ) (Backed ρ) (Answer Unit))}
      {p' : Pool (ι ⊕ κ) (Backed ρ) (Answer Unit)} (hm : fading.moves p.state p'.state)
      (hx : ∀ e, x = some e → ∃ j, e.who = .inr j)
      (hr : ∀ i r, p'.threads (.inl i) = some (.done r) ↔ p.threads (.inl i) = some (.done r)) :
      Turned asks p phases x p' phases

omit [Journal ρ] in
theorem answer?_of_next? {p q : Process (Backed ρ) (Answer Unit)} {s t : Backed ρ}
    (h : p.next? s = some (q, t)) : p.answer? = none := by
  cases p with
  | done a => cases h
  | _ => rfl

omit [Journal ρ] in
/-- A thread that is gone was waiting. -/
theorem done_update_none {e : ι ⊕ κ} {v : Wait (Backed ρ)} {c : Backed ρ → Backed ρ}
    {k : Backed ρ → Process (Backed ρ) (Answer Unit)} (hq : p.threads e = some (.wait v c k))
    (i : ι) (r : Answer Unit) : Function.update p.threads e none (.inl i) = some (.done r) ↔
      p.threads (.inl i) = some (.done r) := by
  by_cases he : .inl i = e
  · subst he
    rw [Function.update_self, hq]
    simp
  · rw [Function.update_of_ne he]

omit [Journal ρ] in
/-- A thread takes a step, or is gone. -/
theorem following_update {s : Backed ρ} {e : ι ⊕ κ} {y : Option (Process (Backed ρ) (Answer Unit))}
    (h : Following asks p phases)
    (hsame : ∀ i, .inl i ≠ e → phases' i = phases i)
    (hl : ∀ i q, e = .inl i → y = some q → Follows (asks i).1 (asks i).2 (phases' i) q)
    (hr : ∀ j q, e = .inr j → y = some q → Keeps fading.moves q) :
    Following asks ⟨s, Function.update p.threads e y⟩ phases' := by
  constructor
  case calls =>
    intro i q hq
    change Function.update p.threads e y (.inl i) = some q at hq
    rcases Pool.update_eq_some hq with ⟨he, hq⟩ | ⟨he, hq⟩
    · exact hl i q he.symm hq
    · rw [hsame i he]
      exact h.calls i q hq
  case beside =>
    intro j q hq
    change Function.update p.threads e y (.inr j) = some q at hq
    rcases Pool.update_eq_some hq with ⟨he, hq⟩ | ⟨-, hq⟩
    · exact hr j q he.symm hq
    · exact h.beside j q hq

omit [Journal ρ] in
theorem turned_of_moved {effect : ε → ρ → ρ} {t : Turn (ι ⊕ κ) (ε × Nat)}
    {x : Option (Pool.Event (ι ⊕ κ) (Backed ρ) (Answer Unit))} (h : Following asks p phases)
    (hm : Pool.Moved (elapse effect) p t x p') :
    ∃ phases', Turned asks p phases x p' phases' ∧ Following asks p' phases' := by
  cases hm with
  | still t =>
    refine ⟨phases, .beside (fading.refl _) (fun e he => ?_) (fun _ _ => Iff.rfl), h⟩
    exact absurd he (by simp)
  | outside e =>
    exact ⟨phases, .beside (fading_elapse effect e _) (fun e he => absurd he (by simp))
      (fun _ _ => Iff.rfl), ⟨h.calls, h.beside⟩⟩
  | @step k q q' s hq hs =>
    cases k with
    | inl i =>
      obtain ⟨φ', ha, hf⟩ := follows_next? (h.calls i q hq) hs
      refine ⟨_, .call hq (answer?_of_next? hs) ha hf, following_update h (fun j hj => ?_)
        (fun j r hj hr => ?_) fun j _ hj => by cases hj⟩
      · exact Function.update_of_ne (fun hji => hj (congrArg Sum.inl hji)) ..
      · obtain rfl := Sum.inl.inj hj
        obtain rfl := Option.some.inj hr
        rw [Function.update_self]
        exact hf
    | inr j =>
      obtain ⟨hk, hmoves⟩ := keeps_next? (fading.refl _) (h.beside j q hq) hs
      refine ⟨phases, .beside hmoves (fun e he => ?_) (fun i r => ?_), following_update h
        (fun _ _ => rfl) (fun _ _ hi => by cases hi) fun k r _ hr => ?_⟩
      · obtain rfl := Option.some.inj he
        exact ⟨j, rfl⟩
      · have hi : Function.update p.threads (.inr j) (some q') (.inl i) = p.threads (.inl i) :=
          Function.update_of_ne Sum.inl_ne_inr ..
        exact iff_of_eq (congrArg (· = some (done r)) hi)
      · obtain rfl := Option.some.inj hr
        exact hk
  | @gone k v c q hq =>
    have hmoves : fading.moves p.state (c p.state) := by
      cases k with
      | inl i => exact fading_of_elsewhere (elsewhere_of_follows (h.calls i _ hq) _)
      | inr j =>
        cases h.beside j _ hq with
        | wait hc _ => exact hc _
    exact ⟨phases, .beside hmoves (fun e he => absurd he (by simp)) (done_update_none hq),
      following_update h (fun _ _ => rfl) (fun _ _ _ hn => by cases hn) fun _ _ _ hn => by cases hn⟩

/-! ## Runs -/

/-- A call that has not answered. -/
def Busy (p : Pool (ι ⊕ κ) (Backed ρ) (Answer Unit)) (i : ι) : Prop :=
  ∀ r, p.threads (.inl i) ≠ some (.done r)

/-- **The calls on a key do not overlap**: when one of them takes a step, every other one that has
taken a step before has answered. -/
def OneByOne (key : String) (asks : ι → Step × String)
    (past : List (Pool.Event (ι ⊕ κ) (Backed ρ) (Answer Unit))) : Prop :=
  ∀ before e after, past = before ++ e :: after → ∀ i j, e.who = .inl i → (asks i).2 = key →
    (asks j).2 = key → j ≠ i → (∃ e' ∈ before, e'.who = .inl j) →
      ∃ e' ∈ before, e'.who = .inl j ∧ e'.answer ≠ none

/-- What the history says of the calls. -/
structure Recorded (past : List (Pool.Event (ι ⊕ κ) (Backed ρ) (Answer Unit)))
    (p : Pool (ι ⊕ κ) (Backed ρ) (Answer Unit)) (phases : ι → Phase) : Prop where
  fresh : ∀ i, (∀ e ∈ past, e.who ≠ .inl i) → phases i = .seeking
  answered : ∀ i, ∀ e ∈ past, e.who = .inl i → e.answer ≠ none → ¬ Busy p i

variable {past : List (Pool.Event (ι ⊕ κ) (Backed ρ) (Answer Unit))}
  {x : Option (Pool.Event (ι ⊕ κ) (Backed ρ) (Answer Unit))}

omit [Journal ρ] in
theorem busy_update_of_ne {i j : ι} {s : Backed ρ} {q : Process (Backed ρ) (Answer Unit)}
    (h : j ≠ i) : Busy (⟨s, Function.update p.threads (.inl i) (some q)⟩ :
      Pool (ι ⊕ κ) (Backed ρ) (Answer Unit)) j ↔ Busy p j := by
  have hne : (.inl j : ι ⊕ κ) ≠ .inl i := fun hji => h (Sum.inl.inj hji)
  refine forall_congr' fun r => ?_
  change Function.update p.threads (.inl i) (some q) (.inl j) ≠ _ ↔ _
  rw [Function.update_of_ne hne]

omit [Journal ρ] in
theorem recorded_turned (h : Recorded past p phases) (ht : Turned asks p phases x p' phases') :
    Recorded (past ++ x.toList) p' phases' := by
  cases ht with
  | @call i q q' φ' t hq hn ha hf =>
    constructor
    case fresh =>
      intro j hno
      have hji : j ≠ i := by
        rintro rfl
        exact hno _ (List.mem_append_right _ (List.mem_singleton_self _)) rfl
      rw [Function.update_of_ne hji]
      exact h.fresh j fun e he => hno e (List.mem_append_left _ he)
    case answered =>
      intro j e he hwho hans
      rcases List.mem_append.mp he with he | he
      · have hover := h.answered j e he hwho hans
        have hji : j ≠ i := by
          rintro rfl
          refine hover fun r hr => ?_
          obtain rfl := Option.some.inj (hq.symm.trans hr)
          cases hn
        rwa [busy_update_of_ne hji]
      · obtain rfl := List.mem_singleton.mp he
        obtain rfl := Sum.inl.inj hwho
        intro hbusy
        cases q' with
        | done r => exact hbusy r (Function.update_self ..)
        | _ => exact hans rfl
  | beside hm hx hr =>
    have old {e : Pool.Event (ι ⊕ κ) (Backed ρ) (Answer Unit)} {i : ι}
        (he : e ∈ past ++ x.toList) (hwho : e.who = .inl i) : e ∈ past := by
      rcases List.mem_append.mp he with he | he
      · exact he
      · obtain ⟨j, hj⟩ := hx e (Option.mem_toList.mp he)
        rw [hj] at hwho
        cases hwho
    refine ⟨fun i hno => h.fresh i fun e he => hno e (List.mem_append_left _ he), ?_⟩
    intro i e he hwho hans hbusy
    exact h.answered i e (old he hwho) hwho hans fun r hr' => hbusy r ((hr i r).mpr hr')

omit [Journal ρ] [DecidableEq ι] [DecidableEq κ] in
theorem oneByOne_of_append {key : String}
    {later : List (Pool.Event (ι ⊕ κ) (Backed ρ) (Answer Unit))}
    (h : OneByOne key asks (past ++ later)) : OneByOne key asks past := by
  rintro before e after rfl
  exact h before e (after ++ later) (by simp)

section Counting

variable [Fintype ι] {key : String} {b : BoundedInt}

omit [Journal ρ] in
/-- A turn while no more than one call on the key is under way. -/
theorem exact_turned (h : Exact key asks b p.state phases (Busy p))
    (hr : Recorded past p phases) (hone : OneByOne key asks (past ++ x.toList))
    (ht : Turned asks p phases x p' phases') : Exact key asks b p'.state phases' (Busy p') := by
  cases ht with
  | beside hm hx hdone =>
    exact exact_spares h (spares_fading hm key) fun i =>
      forall_congr' fun r => not_congr (hdone i r)
  | @call i q q' φ' t hq hn ha hf =>
    have hbusy : Busy p i := by
      intro r hr
      obtain rfl := Option.some.inj (hq.symm.trans hr)
      cases hn
    by_cases hi : (asks i).2 = key
    · rw [hi] at ha
      refine exact_acts h hi hbusy ha (fun j hji hj hbj => ?_)
        (fun j hji => (busy_update_of_ne hji).mp) fun hw r hr => ?_
      · by_contra hne
        have hbegan : ∃ e' ∈ past, e'.who = .inl j := by
          by_contra hno
          exact hne (hr.fresh j fun e he hwho => hno ⟨e, he, hwho⟩)
        obtain ⟨e, he, hwho, hans⟩ := hone past _ [] rfl i j rfl hi hj hji hbegan
        exact hr.answered j e he hwho hans hbj
      · change Function.update p.threads (.inl i) (some q') (.inl i) = _ at hr
        rw [Function.update_self] at hr
        obtain rfl := Option.some.inj hr
        subst hw
        rcases follows_done hf with ⟨-, hs⟩ | ⟨-, hs⟩ <;> cases hs
    · refine exact_other h hi ha fun j hj => busy_update_of_ne ?_
      rintro rfl
      exact hi hj

/-- **What every turn keeps.** -/
structure CountInv (key : String) (asks : ι → Step × String) (b : BoundedInt)
    (past : List (Pool.Event (ι ⊕ κ) (Backed ρ) (Answer Unit)))
    (p : Pool (ι ⊕ κ) (Backed ρ) (Answer Unit)) (phases : ι → Phase) : Prop where
  following : Following asks p phases
  recorded : Recorded past p phases
  range : Knows key asks (Range key asks b (writers phases)) p.state phases
  exact : OneByOne key asks past → Exact key asks b p.state phases (Busy p)

omit [Journal ρ] in
theorem countInv_moved {effect : ε → ρ → ρ} {t : Turn (ι ⊕ κ) (ε × Nat)}
    (h : CountInv key asks b past p phases) (hm : Pool.Moved (elapse effect) p t x p') :
    ∃ phases', CountInv key asks b (past ++ x.toList) p' phases' := by
  obtain ⟨phases', ht, hf⟩ := turned_of_moved h.following hm
  refine ⟨phases', hf, recorded_turned h.recorded ht, ?_, fun hone => ?_⟩
  · cases ht with
    | call hq hn ha hf => exact range_acts h.range ha
    | beside hm hx hr => exact knows_spares h.range (spares_fading hm key)
  · exact exact_turned (h.exact (oneByOne_of_append hone)) h.recorded hone ht

/-- **What counters come to.** Any number of calls step counters beside the cache, over any source
whose loads answer rows that they have seen, in any order of their steps; passes and second deletes
take their steps anywhere in between. When the calls on a key have answered, its row is a number
that lies no further from the first than the steps that succeeded, and if the calls on it did not
overlap, each of these steps counts. -/
theorem run_counted (w : Source ρ) (hw : ∀ key, Fetches key [] (w.load key)) (ttl : Duration)
    (asks : ι → Step × String) (tasks : κ → Background) (effect : ε → ρ → ρ) {s : Backed ρ}
    (hrow : s.rows key = some (.int b))
    (hcopy : ∀ v, s.engine.table.read s.instant key = .ok v → v = .int b)
    (turns : List (Turn (ι ⊕ κ) (ε × Nat)))
    (hp : (counters w ttl asks tasks s).run (elapse effect) turns = p)
    {answers : ι → Answer Unit}
    (hd : ∀ i, (asks i).2 = key → p.threads (.inl i) = some (.done (answers i))) :
    ∃ c : BoundedInt, p.state.rows key = some (.int c) ∧ c.kind = b.kind ∧
      b.val - tally asks (fun i => (answers i).isOk) key .down ≤ c.val ∧
      c.val ≤ b.val + tally asks (fun i => (answers i).isOk) key .up ∧
      (OneByOne key asks (Pool.history (elapse effect) turns (counters w ttl asks tasks s)) →
        c.val = b.val + tally asks (fun i => (answers i).isOk) key .up -
          tally asks (fun i => (answers i).isOk) key .down) := by
  have hzero (d : Step) : tally asks (writers fun _ => .seeking) key d = 0 :=
    Finset.card_eq_zero.mpr (Finset.filter_eq_empty_iff.mpr fun i _ h => Bool.noConfusion h.2)
  have hstart : CountInv key asks b [] (counters w ttl asks tasks s) fun _ => .seeking := by
    have hb : Range key asks b (writers fun _ => .seeking) (.int b) :=
      ⟨b, rfl, rfl, by rw [hzero]; simp, by rw [hzero]; simp⟩
    refine ⟨following_counters hw tasks s, ⟨fun _ _ => rfl, fun i e he => absurd he
      List.not_mem_nil⟩, ⟨⟨_, hrow, hb⟩, fun v hv => hcopy v hv ▸ hb, ?_⟩, fun _ => ⟨?_, ?_, ?_⟩⟩
    · exact fun i _ v hv => absurd hv List.not_mem_nil
    · exact ⟨b, hrow, rfl, by rw [hzero, hzero]; simp⟩
    · exact fun _ v hv => hcopy v hv ▸ hrow
    · exact fun i _ _ v hv => absurd hv List.not_mem_nil
  obtain ⟨phases, hinv⟩ := Pool.past_induction
    (I := fun p past => ∃ phases, CountInv key asks b past p phases)
    (fun p t x p' past h (hm : Pool.Moved (elapse effect) p t x p') =>
      h.elim fun phases h => countInv_moved h hm) turns ⟨_, hstart⟩
  rw [hp, List.nil_append] at hinv
  -- Whoever has answered without an error has written.
  have hok (d : Step) : tally asks (writers phases) key d =
      tally asks (fun i => (answers i).isOk) key d := by
    refine tally_congr (fun i hi => ?_) d
    rcases follows_done (hinv.following.calls i _ (hd i hi)) with ⟨hr, hφ⟩ | ⟨⟨e, hr⟩, hφ⟩
    · rw [writers, hr, hφ]
      rfl
    · rw [writers, hr, hφ]
      rfl
  obtain ⟨v, hv, c, rfl, hk, hlo, hhi⟩ := hinv.range.row
  rw [hok] at hlo hhi
  refine ⟨c, hv, hk, hlo, hhi, fun hone => ?_⟩
  obtain ⟨c', hc', -, hval⟩ := (hinv.exact hone).row
  obtain rfl := Value.int.inj (Option.some.inj (hv.symm.trans hc'))
  rw [hval, hok, hok]

end Counting

/-! ## Overlapping calls -/

omit [Journal ρ] [DecidableEq ι] [DecidableEq κ] in
theorem oneByOne_own {key : String} {i : ι} (h : ∀ e ∈ past, e.who = .inl i) :
    OneByOne key asks past := by
  rintro before e after rfl k j hk - - hjk ⟨e', he', hj⟩
  have hki := (h e (by simp)).symm.trans hk
  have hji := (h e' (List.mem_append_left _ he')).symm.trans hj
  exact absurd (Sum.inl.inj (hji.symm.trans hki)) hjk

omit [Journal ρ] [DecidableEq ι] [DecidableEq κ] in
/-- Steps of a call after calls that have answered. -/
theorem oneByOne_append {key : String} {i : ι}
    {later : List (Pool.Event (ι ⊕ κ) (Backed ρ) (Answer Unit))} (h : OneByOne key asks past)
    (hover : ∀ e ∈ past, ∃ e' ∈ past, e'.who = e.who ∧ e'.answer ≠ none)
    (hlater : ∀ e ∈ later, e.who = .inl i) : OneByOne key asks (past ++ later) := by
  intro before e after he k j hk hkey hjkey hjk hbegan
  -- A step of the later ones is the call's own.
  have own {between : List (Pool.Event (ι ⊕ κ) (Backed ρ) (Answer Unit))}
      (hb : before = past ++ between) (hl : later = between ++ e :: after) :
      ∃ e' ∈ before, e'.who = .inl j ∧ e'.answer ≠ none := by
    subst hb hl
    have hki : k = i := Sum.inl.inj (hk.symm.trans (hlater e (by simp)))
    obtain ⟨e', he', hj⟩ := hbegan
    rcases List.mem_append.mp he' with he' | he'
    · obtain ⟨e₂, he₂, hwho, hans⟩ := hover e' he'
      exact ⟨e₂, List.mem_append_left _ he₂, hwho.trans hj, hans⟩
    · have hji := hlater e' (List.mem_append_left _ he')
      exact absurd ((Sum.inl.inj (hj.symm.trans hji)).trans hki.symm) hjk
  rcases List.append_eq_append_iff.mp he with ⟨between, hb, hl⟩ | ⟨between, rfl, hl⟩
  · exact own hb hl
  · cases between with
    | nil => exact @own [] (by rw [List.append_nil, List.append_nil]) hl.symm
    | cons e₀ between =>
      obtain ⟨rfl, rfl⟩ := List.cons.inj hl
      exact h before e between rfl k j hk hkey hjkey hjk hbegan

end Pools

/-- Two steps of one number, one after the other. -/
theorem run_counted_two :
    let w : Source Session.State := .deciding (fun _ => .done none) fun _ _ => .done none
    let asks : Bool → Step × String := fun _ => (.up, "n")
    let tasks : Empty → Background := Empty.elim
    let effect : Unit → Session.State → Session.State := fun _ r => r
    let s : Backed Session.State :=
      ⟨0, .empty, fun _ => some (.int ⟨.int64, 0, by decide⟩), default⟩
    let all (i : Bool) : List (Turn (Bool ⊕ Empty) (Unit × Nat)) := List.replicate 6 (.go (.inl i))
    let p := (counters w .zero asks tasks s).run (elapse effect) (all false ++ all true)
    (∀ i, p.threads (.inl i) = some (.done (.ok ()))) ∧
      ∃ c : BoundedInt, p.state.rows "n" = some (.int c) ∧ c.val = 2 := by
  intro w asks tasks effect s all p
  have hd (i : Bool) : p.threads (.inl i) = some (.done (.ok ())) := by
    unfold p all s effect tasks asks w
    cases i <;> rfl
  have hone : OneByOne "n" asks (Pool.history (elapse effect) (all false ++ all true)
      (counters w .zero asks tasks s)) := by
    have own {i : Bool} {q : Pool (Bool ⊕ Empty) (Backed Session.State) (Answer Unit)} :
        ∀ e ∈ Pool.history (elapse effect) (all i) q, e.who = .inl i := fun e he =>
      Pool.who_of_mem_history _ (fun t ht => List.eq_of_mem_replicate ht) he
    rw [Pool.history_append]
    refine oneByOne_append (i := true) (oneByOne_own own) (fun e he => ?_) own
    obtain ⟨e', he', hans⟩ : ∃ e' ∈ Pool.history (elapse effect) (all false)
        (counters w .zero asks tasks s), e'.answer = some (.ok ()) :=
      ⟨_, List.getLast_mem (List.cons_ne_nil _ _), rfl⟩
    exact ⟨e', he', (own e' he').trans (own e he).symm, by rw [hans]; simp⟩
  have hrow : s.rows "n" = some (.int ⟨.int64, 0, by decide⟩) := rfl
  obtain ⟨c, hc, -, -, -, hval⟩ := run_counted (p := p) w (fetches_deciding _ _) .zero asks tasks
    effect hrow (fun v hv => by cases hv) (all false ++ all true) rfl fun i _ => hd i
  exact ⟨hd, c, hc, (hval hone).trans (by decide)⟩

/-- Two steps of one number, the second one begun before the first one has written: both succeed,
and the number has moved by one. -/
theorem counters_lose_step :
    let w : Source Session.State := .deciding (fun _ => .done none) fun _ _ => .done none
    let asks : Bool → Step × String := fun _ => (.up, "n")
    let tasks : Empty → Background := Empty.elim
    let effect : Unit → Session.State → Session.State := fun _ r => r
    let zero : BoundedInt := ⟨.int64, 0, by decide⟩
    let s : Backed Session.State := ⟨0, .empty, fun _ => some (.int zero), default⟩
    ¬ ∀ (turns : List (Turn (Bool ⊕ Empty) (Unit × Nat))) (answers : Bool → Answer Unit),
      (∀ i, ((counters w .zero asks tasks s).run (elapse effect) turns).threads (.inl i) =
        some (.done (answers i))) →
      ∃ c : BoundedInt,
        ((counters w .zero asks tasks s).run (elapse effect) turns).state.rows "n" =
          some (.int c) ∧
        c.val = zero.val + tally asks (fun i => (answers i).isOk) "n" .up -
          tally asks (fun i => (answers i).isOk) "n" .down := by
  intro w asks tasks effect zero s h
  let a : Turn (Bool ⊕ Empty) (Unit × Nat) := .go (.inl false)
  let b : Turn (Bool ⊕ Empty) (Unit × Nat) := .go (.inl true)
  let turns := [a, a, a, b, a, a, a, b, b]
  have hd (i : Bool) :
      ((counters w .zero asks tasks s).run (elapse effect) turns).threads (.inl i) =
        some (.done (.ok ())) := by
    unfold turns b a s zero effect tasks asks w
    cases i <;> rfl
  have hrow : ((counters w .zero asks tasks s).run (elapse effect) turns).state.rows "n" =
      some (.int ⟨.int64, 1, by decide⟩) := by
    unfold turns b a s zero effect tasks asks w
    rfl
  obtain ⟨c, hc, hval⟩ := h turns (fun _ => .ok ()) hd
  obtain rfl := Value.int.inj (Option.some.inj (hrow.symm.trans hc))
  revert hval
  decide

end LayeredCache.Backed

import LayeredCache.Proofs.Renewal
import Mathlib.Data.Finset.Card

/-!
# After the last reference

A refresh holds the sentinels' engine from its look for it until it has written. When nobody refers
to the preloading cache any more and no refresh holds the engine, the engine is gone for good: from
then on no refresh writes, wherever it is, and the loop calls for none once the pass that may be
under way is over. As long as one refresh is in the middle of its writes the engine is still there,
and another one may find it when its load has ended.

Results:
* `held_of_steps`, `holders_turned`: the engine is held by the refreshes that have found it and have
  not ended.
* `gone_turned`: what a turn does once the engine is gone.
* `run_orphaned`: no refresh writes and none is called for, in every schedule from then on.
* `dropped_midway`: a refresh that holds the engine when the last reference is dropped lets another
  one write, and a pass that is under way then calls for refreshes.
-/

namespace LayeredCache.Owned

variable {ι κ ρ ε : Type}

theorem alive_eq_false_iff {s : Owned κ ρ} :
    s.alive = false ↔ s.referred = false ∧ s.held = 0 := by
  simp [alive]

/-! ## Who holds the engine -/

/-- A refresh that has found the engine and has not ended. -/
def Worker.Holds : Worker κ ρ → Prop
  | .arming _ _ | .storing _ _ | .writing _ _ _ => True
  | _ => False

/-- What a step of a refresh is for the engine's being held. -/
inductive Holding (s s' : Owned κ ρ) (x x' : Worker κ ρ) : Prop
  | same (h : x'.Holds ↔ x.Holds) (hh : s'.held = s.held)
  | hold (ha : s.alive = true) (h : ¬ x.Holds) (h' : x'.Holds) (hh : s'.held = s.held + 1)
  | release (h : x.Holds) (h' : ¬ x'.Holds) (hh : s'.held = s.held - 1)

section Holders

variable [Journal ρ] {inner : Inner κ ρ} {load : Loader ρ} {c : Preload.Config} {ttl : Duration}
  {j : Nat} {s s' : Owned κ ρ} {x x' : Worker κ ρ}

theorem held_of_steps (hs : x.Steps inner load c ttl j s x' s') (hx : x.Went c j s) :
    Holding s s' x x' := by
  cases hs with
  | load hq =>
    obtain ⟨new, ⟨r, rfl⟩, -⟩ := reports_next? hx.2 hq
    exact .same Iff.rfl rfl
  | hold ha => exact .hold ha id trivial rfl
  | write hq =>
    obtain ⟨-, y, r, rfl⟩ := Process.keeps_next? ⟨s.inner, s.rest, rfl⟩ hx.1 hq
    exact .same Iff.rfl rfl
  | release => exact .release trivial id rfl
  | _ => exact .same Iff.rfl rfl

/-- The engine is held by these refreshes. -/
structure Holders (s : Owned κ ρ) (worker : Nat → Option (Worker κ ρ)) (H : Finset Nat) : Prop where
  held : s.held = H.card
  mem : ∀ j, j ∈ H ↔ ∃ x, worker j = some x ∧ x.Holds

variable {worker : Nat → Option (Worker κ ρ)} {H : Finset Nat}

omit [Journal ρ] in
/-- One refresh is at another stage, or given up, and holds the engine as before. -/
theorem holders_same {y : Option (Worker κ ρ)} (h : Holders s worker H) (hj : worker j = some x)
    (hy : (∃ z, y = some z ∧ z.Holds) ↔ x.Holds) (hh : s'.held = s.held) :
    Holders s' (Function.update worker j y) H := by
  refine ⟨hh.trans h.held, fun i => (h.mem i).trans ?_⟩
  by_cases hi : i = j
  · subst hi
    rw [Function.update_self, hy, hj]
    simp
  · rw [Function.update_of_ne hi]

omit [Journal ρ] in
theorem holders_insert {z : Worker κ ρ} (h : Holders s worker H) (hj : worker j = some x)
    (hx : ¬ x.Holds) (hz : z.Holds) (hh : s'.held = s.held + 1) :
    Holders s' (Function.update worker j (some z)) (insert j H) := by
  have hn : j ∉ H := by
    rw [h.mem, hj]
    rintro ⟨y, hy, hy'⟩
    exact hx (Option.some.inj hy ▸ hy')
  refine ⟨by rw [hh, h.held, Finset.card_insert_of_notMem hn], fun i => ?_⟩
  rw [Finset.mem_insert]
  by_cases hi : i = j
  · subst hi
    simpa using hz
  · rw [Function.update_of_ne hi, ← h.mem]
    simp [hi]

omit [Journal ρ] in
theorem holders_erase {y : Option (Worker κ ρ)} (h : Holders s worker H) (hj : worker j = some x)
    (hx : x.Holds) (hy : ∀ z, y = some z → ¬ z.Holds) (hh : s'.held = s.held - 1) :
    Holders s' (Function.update worker j y) (H.erase j) := by
  have hm : j ∈ H := (h.mem j).mpr ⟨x, hj, hx⟩
  refine ⟨by rw [hh, h.held, Finset.card_erase_of_mem hm], fun i => ?_⟩
  rw [Finset.mem_erase]
  by_cases hi : i = j
  · subst hi
    rw [Function.update_self]
    simp only [ne_eq, not_true_eq_false, false_and, false_iff]
    rintro ⟨z, hz, hz'⟩
    exact hy z hz hz'
  · rw [Function.update_of_ne hi, ← h.mem]
    simp [hi]

omit [Journal ρ] in
/-- When nobody holds the engine, no refresh is in the middle of its writes. -/
theorem not_holds (h : Holders s worker H) (h0 : s.held = 0) (hj : worker j = some x) :
    ¬ x.Holds := by
  intro hx
  have hm : j ∈ H := (h.mem j).mpr ⟨x, hj, hx⟩
  rw [h.held, Finset.card_eq_zero] at h0
  rw [h0] at hm
  exact absurd hm (Finset.notMem_empty j)

end Holders

/-! ## Turns -/

section Turns

variable [Journal ρ] {inner : Inner κ ρ} {load : Loader ρ} {c : Preload.Config} {ttl : Duration}
  {calls : ι → Call} {effect : ε → κ × ρ → κ × ρ} {s s' : Owned κ ρ} {crew crew' : Crew κ ρ}
  {t : Turn (Warm.Who ι) (Outer ε)}
  {x : Option (Pool.Event (Warm.Who ι) (Owned κ ρ) (Answer Reply))}

/-- **The engine is held by the refreshes that have found it and have not ended**, after every
turn. -/
theorem holders_turned (hwent : ∀ j x, crew.worker j = some x → x.Went c j s)
    (h : ∃ H, Holders s crew.worker H)
    (ht : Turned inner load c ttl calls effect s crew t x s' crew') :
    ∃ H, Holders s' crew'.worker H := by
  obtain ⟨H, hH⟩ := h
  have same {s' : Owned κ ρ} (hh : s'.held = s.held) : ∃ H, Holders s' crew.worker H :=
    ⟨H, hh.trans hH.held, hH.mem⟩
  cases ht with
  | still => exact ⟨H, hH⟩
  | client a hl => exact same hl.held
  | clientGone hl => exact same hl.held
  | @worker j y z s' a hy hs =>
    rcases held_of_steps hs (hwent j y hy) with ⟨hz, hh⟩ | ⟨-, hn, hz, hh⟩ | ⟨hy', hz, hh⟩
    · exact ⟨H, holders_same hH hy (by simpa using hz) hh⟩
    · exact ⟨insert j H, holders_insert hH hy hn hz hh⟩
    · exact ⟨H.erase j, holders_erase hH hy hy' (by simpa using hz) hh⟩
  | @workerGone j y s' hy hg =>
    cases hg with
    | unasked => exact ⟨H, holders_same hH hy (by simp [Worker.Holds]) rfl⟩
    | loading hr =>
      obtain ⟨r, rfl⟩ := hr
      exact ⟨H, holders_same hH hy (by simp [Worker.Holds]) rfl⟩
    | writing hr =>
      obtain ⟨y, r, rfl⟩ := hr
      exact ⟨H.erase j, holders_erase hH hy trivial (by simp) rfl⟩
  | loop a hx hs =>
    cases hs with
    | tick hp => cases hp <;> exact same rfl
    | _ => exact same rfl
  | loopGone => exact ⟨H, hH⟩
  | outside e => cases e <;> exact same rfl

/-- The loop is not in the middle of a pass: it waits for its tick, or is about to look for the
engine, or has ended. -/
def Beat.Between : Beat → Prop
  | .ticking _ _ => False
  | _ => True

/-- A turn of a refresh or of the sentinels' loop, be it a step or its end. -/
def Refreshing (t : Turn (Warm.Who ι) (Outer ε)) : Prop :=
  (∃ j, t = .go (.worker j) ∨ t = .drop (.worker j)) ∨ t = .go .loop ∨ t = .drop .loop

/-- What a turn does once the engine is gone. -/
structure Gone (s s' : Owned κ ρ) (t : Turn (Warm.Who ι) (Outer ε)) : Prop where
  gone : s'.alive = false
  deeds : ∃ ds : List (Nat × Deed), s'.deeds = s.deeds ++ ds ∧ ∀ d ∈ ds, ¬ d.2.Writes
  inner : Refreshing t → s'.inner = s.inner
  sentinel : ∀ j, t = .go (.worker j) ∨ t = .drop (.worker j) → s'.sentinel = s.sentinel

/-- **What a turn does once the engine is gone.** -/
theorem gone_turned (hwent : ∀ j x, crew.worker j = some x → x.Went c j s)
    (h : ∃ H, Holders s crew.worker H) (hg : s.alive = false)
    (ht : Turned inner load c ttl calls effect s crew t x s' crew') : Gone s s' t := by
  obtain ⟨H, hH⟩ := h
  obtain ⟨hf, h0⟩ := alive_eq_false_iff.mp hg
  have gone {s' : Owned κ ρ} (hr : s'.referred = s.referred) (hh : s'.held = s.held) :
      s'.alive = false := alive_eq_false_iff.mpr ⟨hr.trans hf, hh.trans h0⟩
  have quiet {s' : Owned κ ρ} (hd : s'.deeds = s.deeds) :
      ∃ ds : List (Nat × Deed), s'.deeds = s.deeds ++ ds ∧ ∀ d ∈ ds, ¬ d.2.Writes :=
    ⟨[], by rw [hd, List.append_nil], by simp⟩
  cases ht with
  | still => exact ⟨hg, quiet rfl, fun _ => rfl, fun _ _ => rfl⟩
  | client a hl =>
    exact ⟨gone hl.referred hl.held, quiet hl.deeds, by simp [Refreshing], by simp⟩
  | clientGone hl =>
    exact ⟨gone hl.referred hl.held, quiet hl.deeds, by simp [Refreshing], by simp⟩
  | @worker j y z s' a hy hs =>
    have hn := not_holds hH h0 hy
    cases hs with
    | begin | miss | see => exact ⟨hg, quiet rfl, fun _ => rfl, fun _ _ => rfl⟩
    | load hq =>
      obtain ⟨new, ⟨r, rfl⟩, hr⟩ := reports_next? (hwent j _ hy).2 hq
      refine ⟨gone rfl rfl, ⟨new.map (j, ·), rfl, fun d hd => ?_⟩, fun _ => rfl, fun _ _ => rfl⟩
      -- What a refresh does before it has a value is to call the loader.
      obtain ⟨d', hd', rfl⟩ := List.mem_map.mp hd
      obtain ⟨ds, v, hp, os, rfl, -⟩ := reports_prefix hr s
      have hm := hp.subset (List.mem_append_right _ hd')
      rcases mem_callsOf hm with rfl | ⟨r', rfl⟩ <;> exact id
    | hold ha => exact absurd (hg.symm.trans ha) (by simp)
    | gone =>
      exact ⟨gone rfl rfl, ⟨_, rfl, by simp [Deed.Writes]⟩, fun _ => rfl, fun _ _ => rfl⟩
    | arm | store | write | release => exact absurd trivial hn
  | @workerGone j y s' hy hgone =>
    have hn := not_holds hH h0 hy
    cases hgone with
    | unasked => exact ⟨hg, quiet rfl, fun _ => rfl, fun _ _ => rfl⟩
    | loading hr =>
      obtain ⟨r, rfl⟩ := hr
      exact ⟨gone rfl rfl, quiet rfl, fun _ => rfl, fun _ _ => rfl⟩
    | writing => exact absurd trivial hn
  | loop a hx hs =>
    cases hs with
    | tick hp => cases hp <;> exact ⟨gone rfl rfl, quiet rfl, fun _ => rfl, by simp⟩
    | _ => exact ⟨hg, quiet rfl, fun _ => rfl, by simp⟩
  | loopGone => exact ⟨hg, quiet rfl, fun _ => rfl, by simp⟩
  | outside e =>
    cases e with
    | others => exact ⟨gone rfl rfl, quiet rfl, by simp [Refreshing], by simp⟩
    | dropped =>
      exact ⟨alive_eq_false_iff.mpr ⟨rfl, h0⟩, quiet rfl, by simp [Refreshing], by simp⟩

/-- **The loop calls for no refresh** once the engine is gone, if it is between two passes. -/
theorem between_turned (hb : ∀ y, crew.loop = some y → y.Between) (hg : s.alive = false)
    (hwent : ∀ j x, crew.worker j = some x → x.Went c j s)
    (ht : Turned inner load c ttl calls effect s crew t x s' crew') :
    s'.refreshes = s.refreshes ∧ ∀ y, crew'.loop = some y → y.Between := by
  cases ht with
  | still => exact ⟨rfl, hb⟩
  | client a hl => exact ⟨hl.refreshes, hb⟩
  | clientGone hl => exact ⟨hl.refreshes, hb⟩
  | worker a hy hs => exact ⟨(works_of_steps hs (hwent _ _ hy)).refreshes, hb⟩
  | workerGone hy hgone => exact ⟨hgone.same.1, hb⟩
  | loop a hx hs =>
    have hbx := hb _ hx
    have ended {y' : Beat} (h : y'.Between) : ∀ y, some y' = some y → y.Between :=
      fun y hy => Option.some.inj hy ▸ h
    cases hs with
    | begin => exact ⟨rfl, ended trivial⟩
    | look ha => exact absurd (hg.symm.trans ha) (by simp)
    | quit => exact ⟨rfl, ended trivial⟩
    | tick => exact hbx.elim
  | loopGone => exact ⟨rfl, fun _ hy => by cases hy⟩
  | outside e => cases e <;> exact ⟨rfl, hb⟩

end Turns

/-! ## Runs -/

section Runs

variable [DecidableEq ι] [Journal ρ] {inner : Inner κ ρ} {load : Loader ρ} {c : Preload.Config}
  {ttl : Duration} {calls : ι → Call} {effect : ε → κ × ρ → κ × ρ}
  {p q : Pool (Warm.Who ι) (Owned κ ρ) (Answer Reply)}

variable (inner load c ttl calls) in
/-- Everyone is at his stage, and the engine is held by those who are to hold it. -/
def Minded (q : Pool (Warm.Who ι) (Owned κ ρ) (Answer Reply)) (crew : Crew κ ρ) : Prop :=
  Ordered inner load c ttl calls q crew ∧ ∃ H, Holders q.state crew.worker H

omit [DecidableEq ι] in
theorem minded_pool (n : Nat) {s : Owned κ ρ} (hs : Opened c ttl s) :
    Minded inner load c ttl calls (pool inner load c ttl calls n s) (crewOf κ ρ n) := by
  refine ⟨ordered_pool n hs, ∅, hs.held, fun j => ?_⟩
  constructor
  · exact fun h => absurd h (Finset.notMem_empty j)
  · rintro ⟨x, hx, h⟩
    obtain rfl := Option.some.inj hx
    exact h.elim

theorem minded_moved {t : Turn (Warm.Who ι) (Outer ε)}
    {x : Option (Pool.Event (Warm.Who ι) (Owned κ ρ) (Answer Reply))} {crew : Crew κ ρ}
    (h : Minded inner load c ttl calls p crew) (hm : Pool.Moved (happen effect) p t x q) :
    ∃ crew', Turned inner load c ttl calls effect p.state crew t x q.state crew' ∧
      Minded inner load c ttl calls q crew' := by
  obtain ⟨crew', ht, ho⟩ := turned_of_moved h.1 hm
  exact ⟨crew', ht, ho, holders_turned h.1.went h.2 ht⟩

theorem minded_run (h : ∃ crew, Minded inner load c ttl calls p crew)
    (ts : List (Turn (Warm.Who ι) (Outer ε))) :
    ∃ crew, Minded inner load c ttl calls (p.run (happen effect) ts) crew := by
  refine Pool.run_induction (I := fun p => ∃ crew, Minded inner load c ttl calls p crew) ?_ ts h
  rintro p t x q ⟨crew, hk⟩ hm
  obtain ⟨crew', -, hk'⟩ := minded_moved hk hm
  exact ⟨crew', hk'⟩

/-- **Once the engine is gone, no turn brings it back, and none of the deeds is a write.** -/
theorem gone_run (h : ∃ crew, Minded inner load c ttl calls p crew) (hg : p.state.alive = false)
    (ts : List (Turn (Warm.Who ι) (Outer ε))) :
    (p.run (happen effect) ts).state.alive = false ∧ ∃ ds : List (Nat × Deed),
      (p.run (happen effect) ts).state.deeds = p.state.deeds ++ ds ∧ ∀ d ∈ ds, ¬ d.2.Writes := by
  refine (Pool.run_induction (I := fun q => (∃ crew, Minded inner load c ttl calls q crew) ∧
    q.state.alive = false ∧ ∃ ds : List (Nat × Deed), q.state.deeds = p.state.deeds ++ ds ∧
      ∀ d ∈ ds, ¬ d.2.Writes) ?_ ts ⟨h, hg, [], by simp, by simp⟩).2
  rintro q t x q' ⟨⟨crew, hk⟩, hg, ds, hd, hw⟩ hm
  obtain ⟨crew', ht, hk'⟩ := minded_moved hk hm
  obtain ⟨hg', ⟨new, hd', hw'⟩, -, -⟩ := gone_turned hk.1.went hk.2 hg ht
  refine ⟨⟨crew', hk'⟩, hg', ds ++ new, ?_, fun d hm => ?_⟩
  · rw [hd', hd, List.append_assoc]
  · exact (List.mem_append.mp hm).elim (hw d) (hw' d)

/-- The loop is between two passes. -/
def BetweenPasses (p : Pool (Warm.Who ι) (Owned κ ρ) (Answer Reply)) : Prop :=
  ∀ y, p.threads .loop = some y → ∃ x : Beat, y = x.process ∧ x.Between

omit [DecidableEq ι] in
/-- A loop about to go through the steps of a stage is at that stage. -/
theorem minded_between {crew : Crew κ ρ} (h : Minded inner load c ttl calls p crew)
    (hb : BetweenPasses p) : ∃ crew', Minded inner load c ttl calls p crew' ∧
      ∀ y, crew'.loop = some y → y.Between := by
  obtain ⟨ho, hH⟩ := h
  cases hl : crew.loop with
  | none => exact ⟨crew, ⟨ho, hH⟩, by simp [hl]⟩
  | some y =>
    have hy : p.threads .loop = some y.process := by rw [ho.loop, hl]; rfl
    obtain ⟨x, hx, hbx⟩ := hb _ hy
    have some' {P : Beat → Prop} (h : P x) : ∀ y, some x = some y → P y :=
      fun y hy => Option.some.inj hy ▸ h
    refine ⟨{ crew with loop := some x }, ⟨?_, hH⟩, some' hbx⟩
    refine { ho with loop := hy.trans (congrArg some hx), tidy := some' fun n r he => ?_ }
    exact (he ▸ hbx).elim

omit [DecidableEq ι] [Journal ρ] in
theorem betweenPasses_of_awaiting {n : Nat} (h : p.threads .loop = some (ticks n)) :
    BetweenPasses p :=
  fun _ hy => ⟨.awaiting n, Option.some.inj (hy.symm.trans h), trivial⟩

/-- **Between two passes of the loop, no refresh is called for any more.** -/
theorem refreshes_run (h : ∃ crew, Minded inner load c ttl calls p crew)
    (hg : p.state.alive = false) (hb : BetweenPasses p)
    (ts : List (Turn (Warm.Who ι) (Outer ε))) :
    (p.run (happen effect) ts).state.refreshes = p.state.refreshes := by
  obtain ⟨crew, hk⟩ := h
  obtain ⟨crew', hk', hb'⟩ := minded_between hk hb
  refine (Pool.run_induction (I := fun q => ∃ crew, Minded inner load c ttl calls q crew ∧
    q.state.alive = false ∧ (∀ y, crew.loop = some y → y.Between) ∧
    q.state.refreshes = p.state.refreshes) ?_ ts ⟨crew', hk', hg, hb', rfl⟩).elim
    fun _ h => h.2.2.2
  rintro q t x q' ⟨crew, hk, hg, hb, hr⟩ hm
  obtain ⟨crew', ht, hk'⟩ := minded_moved hk hm
  obtain ⟨hr', hb'⟩ := between_turned hb hg hk.1.went ht
  exact ⟨crew', hk', (gone_turned hk.1.went hk.2 hg ht).gone, hb', hr'.trans hr⟩

variable (effect) in
/-- What is to be said of a schedule that follows `p`, where the engine is gone. -/
structure Orphaned (p : Pool (Warm.Who ι) (Owned κ ρ) (Answer Reply))
    (after : List (Turn (Warm.Who ι) (Outer ε))) : Prop where
  gone : (p.run (happen effect) after).state.alive = false
  /-- No refresh arms a sentinel or asks the inner cache to store a value. -/
  unwritten : ∀ d ∈ (p.run (happen effect) after).state.deeds.drop p.state.deeds.length,
    ¬ d.2.Writes
  /-- No refresh is called for, but by a pass that is under way already. -/
  refreshes : ∀ before rest, after = before ++ rest →
    BetweenPasses (p.run (happen effect) before) →
    (p.run (happen effect) after).state.refreshes =
      (p.run (happen effect) before).state.refreshes
  /-- No turn of a refresh or of the loop changes the inner cache, and none of a refresh the
  sentinels' engine. -/
  inner : ∀ before t rest, after = before ++ t :: rest → Refreshing t →
    ((p.run (happen effect) before).turn (happen effect) t).state.inner =
      (p.run (happen effect) before).state.inner
  sentinel : ∀ before t rest, after = before ++ t :: rest →
    (∃ j, t = .go (.worker j) ∨ t = .drop (.worker j)) →
    ((p.run (happen effect) before).turn (happen effect) t).state.sentinel =
      (p.run (happen effect) before).state.sentinel

/-- **Once the engine is gone, refreshes change nothing**: when the last reference to the preloading
cache has been dropped and no refresh is in the middle of its writes, then in every schedule from
there on no refresh writes, whether it is loading, trying again or has not begun, the loop calls
for no refresh but those of a pass that has begun before, and the inner cache changes only by what
others do. -/
theorem run_orphaned {n : Nat} {s : Owned κ ρ} {before : List (Turn (Warm.Who ι) (Outer ε))}
    (ho : Opened c ttl s)
    (hp : p = (pool inner load c ttl calls n s).run (happen effect) before)
    (hf : p.state.referred = false) (hh : p.state.held = 0)
    (after : List (Turn (Warm.Who ι) (Outer ε))) : Orphaned effect p after := by
  have hminded : ∃ crew, Minded inner load c ttl calls p crew :=
    hp ▸ minded_run ⟨_, minded_pool n ho⟩ before
  have hg : p.state.alive = false := alive_eq_false_iff.mpr ⟨hf, hh⟩
  have turn (ts : List (Turn (Warm.Who ι) (Outer ε))) (t : Turn (Warm.Who ι) (Outer ε)) :
      Gone (p.run (happen effect) ts).state
        ((p.run (happen effect) ts).turn (happen effect) t).state t := by
    obtain ⟨crew, hk⟩ := minded_run hminded ts
    obtain ⟨crew', ht, -⟩ := minded_moved hk (Pool.moved_turn (happen effect) _ t)
    exact gone_turned hk.1.went hk.2 (gone_run hminded hg ts).1 ht
  constructor
  case gone => exact (gone_run hminded hg after).1
  case unwritten =>
    obtain ⟨-, ds, hd, hw⟩ := gone_run hminded hg after
    rw [hd, List.drop_left]
    exact hw
  case refreshes =>
    rintro ts rest rfl hb
    rw [Pool.run_append]
    exact refreshes_run (minded_run hminded ts) (gone_run hminded hg ts).1 hb rest
  case inner => exact fun ts t _ _ ht => (turn ts t).inner ht
  case sentinel => exact fun ts t _ _ ⟨j, ht⟩ => (turn ts t).sentinel j ht

end Runs

/-! ## A load that ends too late -/

/-- The loader of a refresh is at work when the last reference is dropped. -/
def late : Pool (Warm.Who Bool) (Owned Engine Supply) (Answer Reply) :=
  (pool below Supply.load (brisk 0) (.ofSecs 1) putters 9 (made [.ok (.bool true)])).run
    (happen fun _ => id) (untilEviction false ++ List.replicate 3 (.go .loop) ++
      List.replicate 3 (.go (.worker 0)) ++ [.outside .dropped])

/-- The load succeeds. Ten seconds pass, and the loop's next tick is due. -/
def inVain : List (Turn (Warm.Who Bool) (Outer Unit)) :=
  List.replicate 3 (.go (.worker 0)) ++ [passing 10_000_000_000] ++ List.replicate 2 (.go .loop)

theorem run_orphaned_late :
    Orphaned (fun _ => id) late inVain ∧
      deedsOf 0 (late.run (happen fun _ => id) inVain).state =
        [.called "k", .answered "k" (.ok (.bool true)), .looked false] ∧
      (late.run (happen fun _ => id) inVain).state.refreshes = ["k"] := by
  have opened : Opened (brisk 0) (.ofSecs 1) (made [.ok (.bool true)]) := ⟨rfl, rfl, rfl, rfl⟩
  have orphaned : Orphaned (fun _ => id) late inVain := run_orphaned opened rfl rfl rfl inVain
  have waits : late.threads .loop = some (ticks 8) := by
    unfold ticks
    rfl
  have same : (late.run (happen fun _ => id) inVain).state.refreshes = late.state.refreshes :=
    orphaned.refreshes [] inVain rfl (betweenPasses_of_awaiting (by exact waits))
  exact ⟨orphaned, rfl, same⟩

/-! ## What is under way when the last reference is dropped -/

def putEach (i : Bool) : Call := .put (if i then "b" else "a") (.bool false) .zero

/-- Two keys are put, and their sentinels are evicted together. One of the two refreshes has found
the engine and the loader of the other one is at work when the last reference is dropped. -/
def halfway : Pool (Warm.Who Bool) (Owned Engine Supply) (Answer Reply) :=
  (pool below Supply.load (brisk 0) (.ofSecs 1) putEach 9
    (made [.ok (.bool true), .ok (.bool true)])).run (happen fun _ => id)
    (List.replicate 3 (.go (.client false)) ++ List.replicate 3 (.go (.client true)) ++
      [passing 2_000_000_000] ++ List.replicate 8 (.go .loop) ++
      List.replicate 6 (.go (.worker 0)) ++ List.replicate 3 (.go (.worker 1)) ++
      [.outside .dropped])

/-- The other load succeeds, and two seconds later the loop ticks. -/
def goesOn : List (Turn (Warm.Who Bool) (Outer Unit)) :=
  List.replicate 7 (.go (.worker 1)) ++ [passing 2_000_000_000] ++ List.replicate 7 (.go .loop)

/-- A sentinel is about to be evicted when the last reference is dropped, and there is no refresh
yet. -/
def evicting : Pool (Warm.Who Bool) (Owned Engine Supply) (Answer Reply) :=
  (pool below Supply.load (brisk 0) (.ofSecs 1) putters 9 (made [])).run (happen fun _ => id)
    (untilEviction false ++ [.outside .dropped])

/-- The sentinel is evicted, and the receiver is told. -/
def passesOn : List (Turn (Warm.Who Bool) (Outer Unit)) := List.replicate 3 (.go .loop)

/-- The last reference is dropped and every call has ended.

In `halfway` the load of refresh 1 has not. Yet that refresh writes to the inner cache, and the
sentinel that it arms calls for another refresh when it is evicted, for refresh 0 still holds the
engine.

In `evicting` nobody holds the engine. Yet the pass of the loop that is under way calls for a
refresh. -/
theorem dropped_midway :
    (halfway.state.referred = false ∧
      (∀ i, halfway.threads (.client i) = some (.done (.ok .nothing))) ∧
      deedsOf 1 halfway.state = [.called "a"] ∧
      (1, .stored "a" (.bool true) (.ofSecs 3)) ∈
        (halfway.run (happen fun _ => id) goesOn).state.deeds.drop halfway.state.deeds.length ∧
      (halfway.state.inner.table.find? "a").map Entry.value = some (.bool false) ∧
      ((halfway.run (happen fun _ => id) goesOn).state.inner.table.find? "a").map Entry.value =
        some (.bool true) ∧
      halfway.state.refreshes = ["b", "a"] ∧
      (halfway.run (happen fun _ => id) goesOn).state.refreshes = ["b", "a", "a"]) ∧
    evicting.state.referred = false ∧ evicting.state.held = 0 ∧ evicting.state.refreshes = [] ∧
      (evicting.run (happen fun _ => id) passesOn).state.refreshes = ["k"] := by
  refine ⟨⟨rfl, fun i => ?_, rfl, ?_, rfl, rfl, rfl, rfl⟩, rfl, rfl, rfl, rfl⟩
  · cases i <;> rfl
  · rw [show (halfway.run (happen fun _ => id) goesOn).state.deeds.drop
      halfway.state.deeds.length = [(1, .answered "a" (.ok (.bool true))), (1, .looked true),
        (1, .armed), (1, .stored "a" (.bool true) (.ofSecs 3))] from rfl]
    simp

end LayeredCache.Owned

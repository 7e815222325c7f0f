import LayeredCache.Proofs.Delayed
import LayeredCache.Session.State

/-!
# Second deletes happen once, when due

Every put that succeeds is followed by one second delete of its key, which begins when the interval
is over. Over the engine it is done with that; over a slower cache it is given up when its time is
over. A put that fails, or that is given up, is followed by none.

The order of everything else is left open: how many puts of the key overlap, who writes the engine
in between and what others do with it.

Results:
* `Stage.Steps.advances`: the clock when a second delete takes its steps.
* `Stage.Steps.swift`: over the engine, the last of them removes the entry of the key, and none of
  the others does anything.
* `run_deletes_again`: the errands are the puts that succeeded, and each is carried out once.
-/

namespace LayeredCache.Delayed

open Process

variable {ι ο ε ρ : Type}

/-! ## The clock at every stage -/

/-- Time does not run backwards. -/
def passing : Surroundings (Delayed ρ) :=
  .exact (fun s t => s.instant ≤ t.instant) (fun _ => Nat.le_refl _) Nat.le_trans

/-- The delete of the inner cache has begun when it was due, and ends as `r` does. -/
def Leads (w : Setting ρ) (j : Errand) (r : Process (Delayed ρ) (Answer Unit)) (s : Delayed ρ) :
    Prop :=
  ∃ s₁, s₁.instant = w.due j ∧
    ∀ o t, Runs passing r s o t → Runs passing (w.inner.delete j.key) s₁ o t

/-- The delete of the inner cache has begun when it was due, and has ended, with an answer or given
up. -/
def Over (w : Setting ρ) (j : Errand) (o : Option (Answer Unit)) (s : Delayed ρ) : Prop :=
  ∃ s₁, s₁.instant = w.due j ∧ Runs passing (w.inner.delete j.key) s₁ o s

theorem Leads.after {w : Setting ρ} {j : Errand} {r : Process (Delayed ρ) (Answer Unit)}
    {s s' : Delayed ρ} (h : Leads w j r s) (hs : s.instant ≤ s'.instant) : Leads w j r s' := by
  obtain ⟨s₁, h₁, hr⟩ := h
  exact ⟨s₁, h₁, fun o t ht => hr o t (ht.after hs)⟩

theorem Leads.ended {w : Setting ρ} {j : Errand} {r : Process (Delayed ρ) (Answer Unit)}
    {s s' : Delayed ρ} {o : Option (Answer Unit)} (h : Leads w j r s)
    (hr : Runs passing r s o s') : Over w j o s' := by
  obtain ⟨s₁, h₁, h⟩ := h
  exact ⟨s₁, h₁, h o s' hr⟩

/-- The delete of the inner cache is under way, with this left of it. -/
structure Underway (w : Setting ρ) (j : Errand) (r : Process (Delayed ρ) (Answer Unit))
    (s : Delayed ρ) : Prop where
  due : w.due j ≤ s.instant
  last : s.instant ≤ w.last j
  apart : Keeps Apart r
  leads : Leads w j r s

theorem Underway.at_instant {w : Setting ρ} {j : Errand} {r : Process (Delayed ρ) (Answer Unit)}
    {s s' : Delayed ρ} (h : Underway w j r s) (hs : s'.instant = s.instant) :
    Underway w j r s' :=
  ⟨hs ▸ h.due, hs ▸ h.last, h.apart, h.leads.after (Nat.le_of_eq hs.symm)⟩

/-- What the clock shows at a stage. -/
def Stage.On (w : Setting ρ) (j : Errand) (s : Delayed ρ) : Stage ρ → Prop
  | .idle | .called | .begun => s.instant = j.called
  | .sleeping t => t * nanosPerMilli = w.due j ∧ s.instant ≤ w.due j
  | .timing => s.instant = w.due j
  | .deleting l r => l * nanosPerMilli = w.last j ∧ r ≠ .done (.ok ()) ∧ Underway w j r s
  | .giving v c k => s.instant = w.last j ∧ Underway w j (.wait v c k) s
  | .failing => s.instant = w.last j ∧ Over w j none s
  | .ended => True

variable {w : Setting ρ} {n : Nat} {j : Errand} {x x' : Stage ρ} {s s' : Delayed ρ}

theorem Over.after {o : Option (Answer Unit)} (h : Over w j o s) (hs : s.instant ≤ s'.instant) :
    Over w j o s' := by
  obtain ⟨s₁, h₁, hr⟩ := h
  exact ⟨s₁, h₁, hr.before hs⟩

theorem Stage.On.at_instant (h : x.On w j s) (hs : s'.instant = s.instant) : x.On w j s' := by
  cases x with
  | idle => exact hs.trans h
  | called => exact hs.trans h
  | begun => exact hs.trans h
  | sleeping t => exact ⟨h.1, hs ▸ h.2⟩
  | timing => exact hs.trans h
  | deleting l r => exact ⟨h.1, h.2.1, h.2.2.at_instant hs⟩
  | giving v c k => exact ⟨hs.trans h.1, h.2.at_instant hs⟩
  | failing => exact ⟨hs.trans h.1, h.2.after (Nat.le_of_eq hs.symm)⟩
  | ended => trivial

/-- A second delete that has not ended is not beyond its time. -/
theorem Stage.On.le_last (h : x.On w j s) (hx : x ≠ .ended) : s.instant ≤ w.last j := by
  have called (hc : s.instant = j.called) : s.instant ≤ w.last j :=
    hc ▸ Nat.le_trans (called_le_due w j) (due_le_last w j)
  cases x with
  | idle => exact called h
  | called => exact called h
  | begun => exact called h
  | sleeping t => exact Nat.le_trans h.2 (due_le_last w j)
  | timing => exact Nat.le_trans (Nat.le_of_eq h) (due_le_last w j)
  | deleting l r => exact h.2.2.last
  | giving v c k => exact Nat.le_of_eq h.1
  | failing => exact Nat.le_of_eq h.1
  | ended => exact absurd rfl hx

theorem le_now_iff {t : Nat} : t ≤ Clock.now s ↔ t * nanosPerMilli ≤ s.instant :=
  Nat.le_div_iff_mul_le (by decide)

/-- A wait that is limited goes on at the limit at the latest. -/
theorem exists_due (v : Wait (Delayed ρ)) (l : Nat) :
    ∃ t ≤ l, (Wait.either v (.time l)).due = some t := by
  cases hv : v.due with
  | none => exact ⟨l, Nat.le_refl l, by simp [Wait.due, hv]⟩
  | some t => exact ⟨min t l, Nat.min_le_right t l, by simp [Wait.due, hv]⟩

/-! ## The steps of a second delete -/

/-- While time passes, a second delete stays on time. -/
theorem Stage.On.elapse [Journal ρ] {effect : ε → ρ → ρ} {y : ε × Nat} (h : x.On w j s)
    (hj : s.errands[n]? = some j) (hb : (x.process w n j.key).Blocked s)
    (hd : ∀ t, (x.process w n j.key).due = some t →
      (Delayed.elapse effect y s).instant ≤ t * nanosPerMilli) :
    x.On w j (Delayed.elapse effect y s) := by
  have hle : s.instant ≤ (Delayed.elapse effect y s).instant := Nat.le_add_right _ _
  cases x with
  | idle =>
    obtain ⟨hn, -⟩ := List.getElem?_eq_some_iff.mp hj
    exact absurd hn (of_decide_eq_false hb)
  | sleeping t => exact ⟨h.1, Nat.le_trans (hd t rfl) (Nat.le_of_eq h.1)⟩
  | deleting l r =>
    cases r with
    | done a =>
      cases a with
      | ok _ => exact absurd rfl h.2.1
      | error e => exact False.elim hb
    | act g k => exact False.elim hb
    | wait v c k =>
      have hlast : (Delayed.elapse effect y s).instant ≤ w.last j := by
        obtain ⟨t, htl, ht⟩ := exists_due v l
        exact h.1 ▸ Nat.le_trans (hd t ht) (Nat.mul_le_mul_right _ htl)
      exact ⟨h.1, h.2.1, Nat.le_trans h.2.2.due hle, hlast, h.2.2.apart, h.2.2.leads.after hle⟩
  | ended => trivial
  | _ => exact False.elim hb

/-- What a step of a second delete leaves behind. -/
structure Advances (w : Setting ρ) (j : Errand) (x' : Stage ρ) (s s' : Delayed ρ) :
    Prop where
  on : x'.On w j s'
  apart : Apart s s'
  window : s' = s ∨ w.due j ≤ s.instant ∧ s.instant ≤ w.last j
  ending : x' = .ended → ∃ o, Over w j o s' ∧ (o = none → s.instant = w.last j)

theorem after_of_ne {l : Nat} {r : Process (Delayed ρ) (Answer Unit)} (h : r ≠ .done (.ok ())) :
    Stage.after l r = .deleting l r := by
  cases r with
  | done a =>
    cases a with
    | ok _ => exact absurd rfl h
    | error e => rfl
  | act g k => rfl
  | wait v c k => rfl

theorem advances_after {l : Nat} {r : Process (Delayed ρ) (Answer Unit)}
    (hl : l * nanosPerMilli = w.last j) (hu : Underway w j r s') (ha : Apart s s')
    (hw : s' = s ∨ w.due j ≤ s.instant ∧ s.instant ≤ w.last j) :
    Advances w j (.after l r) s s' := by
  by_cases hr : r = .done (.ok ())
  · subst hr
    have hended : Over w j (some (.ok ())) s' := hu.leads.ended (.done (Nat.le_refl _))
    exact ⟨trivial, ha, hw, fun _ => ⟨_, hended, fun h => by cases h⟩⟩
  · rw [after_of_ne hr]
    exact ⟨⟨hl, hr, hu⟩, ha, hw, fun h => by cases h⟩

/-- **A second delete takes its steps on time**: it begins when it is due, and is given up at the
last moment. -/
theorem Stage.Steps.advances (h : Stage.Steps w j.key s x x' s') (ho : x.On w j s) :
    Advances w j x' s s' := by
  cases h with
  | wake => exact ⟨ho, .refl s, .inl rfl, fun h => by cases h⟩
  | see => exact ⟨ho, .refl s, .inl rfl, fun h => by cases h⟩
  | sleep =>
    have hc : s.instant = j.called := ho
    have hd : deadlineAfter w.interval s * nanosPerMilli = w.due j := by
      rw [Setting.due, ← hc]
      rfl
    exact ⟨⟨hd, hc ▸ called_le_due w j⟩, .refl s, .inl rfl, fun h => by cases h⟩
  | rise h =>
    have hd : s.instant = w.due j := Nat.le_antisymm ho.2 (ho.1 ▸ le_now_iff.mp h)
    exact ⟨hd, .refl s, .inl rfl, fun h => by cases h⟩
  | start =>
    have hd : s.instant = w.due j := ho
    have hl : deadlineAfter w.timeout s * nanosPerMilli = w.last j := by
      rw [Setting.last, ← hd]
      rfl
    have hu : Underway w j (w.inner.delete j.key) s :=
      ⟨Nat.le_of_eq hd.symm, hd ▸ due_le_last w j, w.apart _, s, hd, fun _ _ => id⟩
    exact advances_after hl hu (.refl s) (.inl rfl)
  | act l g k =>
    obtain ⟨hl, -, hu⟩ := ho
    obtain ⟨s₁, h₁, hr⟩ := hu.leads
    cases hu.apart with
    | act hg hk =>
      have hi : (g s).instant = s.instant := (hg s).1
      have hu' : Underway w j (k s) (g s) := by
        refine ⟨hi ▸ hu.due, hi ▸ hu.last, hk s, s₁, h₁, fun o t ht => hr o t ?_⟩
        exact .act (g := g) (passing.refl s) ht
      exact advances_after hl hu' (hg s) (.inr ⟨hu.due, hu.last⟩)
  | resume l c k h =>
    obtain ⟨hl, -, hu⟩ := ho
    obtain ⟨s₁, h₁, hr⟩ := hu.leads
    cases hu.apart with
    | wait _ hk =>
      refine advances_after hl ⟨hu.due, hu.last, hk s, s₁, h₁, fun o t ht => hr o t ?_⟩ (.refl s)
        (.inl rfl)
      exact .wait (passing.refl s) h ht
  | lapse c k h hn =>
    obtain ⟨hl, -, hu⟩ := ho
    have hlast : s.instant = w.last j := Nat.le_antisymm hu.last (hl ▸ le_now_iff.mp hn)
    exact ⟨⟨hlast, hu⟩, .refl s, .inl rfl, fun h => by cases h⟩
  | refuse l e h =>
    obtain ⟨-, -, hu⟩ := ho
    have hi : s'.instant = s.instant := h.apart.1
    refine ⟨trivial, h.apart, .inr ⟨hu.due, hu.last⟩, fun _ => ⟨some (.error e), ?_, fun h => by
      cases h⟩⟩
    exact hu.leads.ended (.done (Nat.le_of_eq hi.symm))
  | giveUp v c k =>
    obtain ⟨hl, hu⟩ := ho
    cases hu.apart with
    | wait hc _ =>
      have hi : (c s).instant = s.instant := (hc s).1
      have hover : Over w j none (c s) :=
        hu.leads.ended (.gone (passing.refl s) (passing.refl _))
      exact ⟨⟨hi.trans hl, hover⟩, hc s, .inr ⟨hu.due, hu.last⟩, fun h => by cases h⟩
  | fail h =>
    obtain ⟨hl, hover⟩ := ho
    have hi : s'.instant = s.instant := h.apart.1
    have hd : w.due j ≤ s.instant := hl ▸ due_le_last w j
    exact ⟨trivial, h.apart, .inr ⟨hd, Nat.le_of_eq hl⟩, fun _ =>
      ⟨none, hover.after (Nat.le_of_eq hi.symm), fun _ => hl⟩⟩

/-- A second delete that has answered has ended. -/
theorem ended_of_answer [Journal ρ] (ho : x.On w j s) {a : Answer Reply}
    (h : (x.process w n j.key).answer? = some a) : x = .ended := by
  cases x with
  | deleting l r =>
    cases r with
    | done b =>
      cases b with
      | ok _ => exact absurd rfl ho.2.1
      | error e => cases h
    | act g k => cases h
    | wait v c r => cases h
  | ended => rfl
  | _ => cases h

/-! ## Over the engine -/

/-- Over the engine, a delete is one step, taken when it is due. -/
def Stage.Swift (w : Setting ρ) (j : Errand) (s : Delayed ρ) : Stage ρ → Prop
  | .deleting _ r => r = w.inner.delete j.key ∧ s.instant = w.due j
  | .giving _ _ _ | .failing => False
  | _ => True

variable {evicted : String → Value → ρ → ρ}

theorem Stage.Swift.at_instant (h : x.Swift w j s) (hs : s'.instant = s.instant) :
    x.Swift w j s' := by
  cases x with
  | deleting l r => exact ⟨h.1, hs.trans h.2⟩
  | giving v c k => exact h
  | failing => exact h
  | _ => trivial

/-- A second delete over the engine that has not ended is not beyond the time at which it is due. -/
theorem Stage.Swift.le_due (h : x.Swift w j s) (ho : x.On w j s) (hx : x ≠ .ended) :
    s.instant ≤ w.due j := by
  have called (hc : s.instant = j.called) : s.instant ≤ w.due j := hc ▸ called_le_due w j
  cases x with
  | idle => exact called ho
  | called => exact called ho
  | begun => exact called ho
  | sleeping t => exact ho.2
  | timing => exact Nat.le_of_eq ho
  | deleting l r => exact Nat.le_of_eq h.2
  | giving v c k => exact h.elim
  | failing => exact h.elim
  | ended => exact absurd rfl hx

/-- Over the engine, time does not pass in the middle of a delete. -/
theorem Stage.Swift.of_blocked [Journal ρ] (h : x.Swift w j s)
    (hw : w.inner = (memory evicted).cache) (hb : (x.process w n j.key).Blocked s) :
    x.Swift w j s' := by
  cases x with
  | deleting l r =>
    obtain ⟨rfl, -⟩ := h
    rw [hw] at hb
    exact False.elim hb
  | giving v c k => exact h.elim
  | failing => exact h.elim
  | _ => trivial

/-- The entry of a key is gone, and no other. -/
def Wiped (key : String) (s s' : Delayed ρ) : Prop :=
  ∀ k, s'.engine.table.find? k = if k = key then none else s.engine.table.find? k

/-- **Over the engine, the last step of a second delete removes the entry of the key**, when it is
due, and the others do nothing. -/
theorem Stage.Steps.swift (h : Stage.Steps w j.key s x x' s') (ho : x.On w j s)
    (hs : x.Swift w j s) (hw : w.inner = (memory evicted).cache) : x'.Swift w j s' ∧
      (x' ≠ .ended ∧ s' = s ∨ x' = .ended ∧ s.instant = w.due j ∧ Wiped j.key s s') := by
  cases h with
  | wake => exact ⟨trivial, .inl ⟨nofun, rfl⟩⟩
  | see => exact ⟨trivial, .inl ⟨nofun, rfl⟩⟩
  | sleep => exact ⟨trivial, .inl ⟨nofun, rfl⟩⟩
  | rise h => exact ⟨trivial, .inl ⟨nofun, rfl⟩⟩
  | start =>
    have hne : w.inner.delete j.key ≠ .done (.ok ()) := by
      rw [hw]
      nofun
    rw [after_of_ne hne]
    exact ⟨⟨rfl, ho⟩, .inl ⟨nofun, rfl⟩⟩
  | act l g k =>
    obtain ⟨hr, hd⟩ := hs
    rw [hw] at hr
    obtain ⟨rfl, rfl⟩ := Process.act.inj hr
    exact ⟨trivial, .inr ⟨rfl, hd, fun k => Table.find?_erase _ _ _⟩⟩
  | resume l c k h =>
    obtain ⟨hr, -⟩ := hs
    rw [hw] at hr
    cases hr
  | lapse c k h hl =>
    obtain ⟨hr, -⟩ := hs
    rw [hw] at hr
    cases hr
  | refuse l e h =>
    obtain ⟨hr, -⟩ := hs
    rw [hw] at hr
    cases hr
  | giveUp v c k => exact hs.elim
  | fail h => exact hs.elim

/-! ## Errands and what came of them -/

section Run

variable [Journal ρ] [DecidableEq ι] [DecidableEq ο]

/-- A step of a put or of a second delete, or of somebody else. -/
abbrev Step (ι ο ρ : Type) := Pool.Event (Who ι ο) (Delayed ρ) (Answer Reply)

/-- The second delete that a step calls for: the put of the key has succeeded with it. -/
def calls (puts : ι → Put) (e : Step ι ο ρ) : Option Errand :=
  match e.who, e.answer with
  | .writer i, some (.ok _) => some ⟨(puts i).key, e.before.instant⟩
  | _, _ => none

/-- The steps with which a second delete has ended. -/
def endings (n : Nat) (h : List (Step ι ο ρ)) : List (Step ι ο ρ) :=
  h.filter fun e => decide (e.who = .worker n) && e.answer.isSome

/-- A step of a second delete is taken in time, and if it is the last one, then the delete of the
inner cache has ended, or is given up at the last moment. -/
structure Timely (w : Setting ρ) (j : Errand) (e : Step ι ο ρ) : Prop where
  window : e.after = e.before ∨ w.due j ≤ e.before.instant ∧ e.before.instant ≤ w.last j
  ending : e.answer.isSome → ∃ o, Over w j o e.after ∧ (o = none → e.before.instant = w.last j)

/-- Over the engine, a second delete that has come so far has removed the entry of its key when it
was due, once, if it has ended; and it has done nothing else. -/
structure Once (w : Setting ρ) (n : Nat) (j : Errand) (x : Stage ρ) (s : Delayed ρ)
    (past : List (Step ι ο ρ)) : Prop where
  swift : x.Swift w j s
  still : ∀ e ∈ past, e.who = .worker n → e.answer = none → e.after = e.before
  ends : x ≠ .ended ∧ endings n past = [] ∨ x = .ended ∧ ∃ e, endings n past = [e] ∧
    e.before.instant = w.due j ∧ Wiped j.key e.before e.after

/-- Where a second delete is, and what it has done. -/
inductive Here (w : Setting ρ) (n : Nat) (p : Pool (Who ι ο) (Delayed ρ) (Answer Reply))
    (past : List (Step ι ο ρ)) : Prop
  /-- It was not called for. -/
  | free (hj : p.state.errands[n]? = none) (hq : p.threads (.worker n) = some (worker w n))
      (hh : ∀ e ∈ past, e.who ≠ .worker n)
  | taken {j : Errand} {x : Stage ρ} (hj : p.state.errands[n]? = some j)
      (hq : p.threads (.worker n) = some (x.process w n j.key)) (ho : x.On w j p.state)
      (hh : ∀ e ∈ past, e.who = .worker n → Timely w j e)
      (hm : ∀ evicted, w.inner = (memory evicted).cache → Once w n j x p.state past)

variable {p p' : Pool (Who ι ο) (Delayed ρ) (Answer Reply)} {past more : List (Step ι ο ρ)}

omit [Journal ρ] in
theorem endings_append_of_ne (h : ∀ e ∈ more, e.who ≠ .worker n) :
    endings n (past ++ more) = endings n past := by
  have hm : endings n more = [] := by
    refine List.filter_eq_nil_iff.mpr fun e he => ?_
    simp [h e he]
  rw [endings, List.filter_append]
  change endings n past ++ endings n more = _
  rw [hm, List.append_nil]

omit [Journal ρ] [DecidableEq ι] [DecidableEq ο] in
theorem forall_append_of_ne {Q : Step ι ο ρ → Prop} (hp : ∀ e ∈ past, e.who = .worker n → Q e)
    (h : ∀ e ∈ more, e.who ≠ .worker n) : ∀ e ∈ past ++ more, e.who = .worker n → Q e := by
  intro e he hn
  rcases List.mem_append.mp he with he | he
  · exact hp e he hn
  · exact absurd hn (h e he)

omit [Journal ρ] in
/-- What others do keeps a second delete where it is. -/
theorem Once.others (h : Once w n j x s past) (hs : x.Swift w j s')
    (hm : ∀ e ∈ more, e.who ≠ .worker n) : Once w n j x s' (past ++ more) where
  swift := hs
  still := forall_append_of_ne h.still hm
  ends := by
    rw [endings_append_of_ne hm]
    exact h.ends

theorem Here.onward (h : Here w n p past) (hs : Onward p.state p'.state)
    (ht : p'.threads (.worker n) = p.threads (.worker n))
    (hm : ∀ e ∈ more, e.who ≠ .worker n) : Here w n p' (past ++ more) := by
  obtain ⟨hi, js, he, hjs⟩ := hs
  cases h with
  | free hj hq hh =>
    have hfree : ∀ e ∈ past ++ more, e.who ≠ .worker n := by
      intro e he
      rcases List.mem_append.mp he with he | he
      · exact hh e he
      · exact hm e he
    cases hj' : p'.state.errands[n]? with
    | none => exact .free hj' (ht.trans hq) hfree
    | some j =>
      have hmem : j ∈ js := by
        rw [he, List.getElem?_append_right (List.getElem?_eq_none_iff.mp hj)] at hj'
        exact List.mem_of_getElem? hj'
      have ho : (Stage.idle : Stage ρ).On w j p'.state := hi.trans (hjs j hmem).symm
      refine .taken (x := .idle) hj' (ht.trans hq) ho (fun e he hn => absurd hn (hfree e he))
        fun _ _ => ⟨trivial, fun e he hn => absurd hn (hfree e he), .inl ⟨nofun, ?_⟩⟩
      refine List.filter_eq_nil_iff.mpr fun e he => ?_
      simp [hfree e he]
  | @taken j x hj hq ho hh hm' =>
    have hj' : p'.state.errands[n]? = some j := by
      obtain ⟨hn, -⟩ := List.getElem?_eq_some_iff.mp hj
      rw [he, List.getElem?_append_left hn, hj]
    exact .taken hj' (ht.trans hq) (ho.at_instant hi) (forall_append_of_ne hh hm)
      fun evicted hw => (hm' evicted hw).others ((hm' evicted hw).swift.at_instant hi) hm

theorem Here.elapse {effect : ε → ρ → ρ} {y : ε × Nat} (h : Here w n p past)
    (hp : Prompt effect p (.outside y)) :
    Here w n ⟨Delayed.elapse effect y p.state, p.threads⟩ past := by
  cases h with
  | free hj hq hh => exact .free hj hq hh
  | @taken j x hj hq ho hh hm =>
    obtain ⟨hb, hd⟩ := hp n _ hq
    refine .taken (x := x) hj hq (ho.elapse hj hb hd) hh fun evicted hw => ?_
    have hs : x.Swift w j (Delayed.elapse effect y p.state) :=
      (hm evicted hw).swift.of_blocked hw hb
    exact ⟨hs, (hm evicted hw).still, (hm evicted hw).ends⟩

/-- Over the engine, a step of a second delete keeps what is known of it. -/
theorem Once.step (h : Once w n j x s past) (hx : Stage.Steps w j.key s x x' s')
    (ho : x.On w j s) (ho' : x'.On w j s') (hw : w.inner = (memory evicted).cache) :
    Once w n j x' s' (past ++ [⟨.worker n, s, s', (x'.process w n j.key).answer?⟩]) := by
  obtain ⟨hs', hcase⟩ := hx.swift ho h.swift hw
  have hnone : endings n past = [] := by
    rcases h.ends with ⟨-, he⟩ | ⟨rfl, -⟩
    · exact he
    · cases hx
  refine ⟨hs', fun e he hn ha => ?_, ?_⟩
  · rcases List.mem_append.mp he with he | he
    · exact h.still e he hn ha
    · obtain rfl := List.mem_singleton.mp he
      rcases hcase with ⟨-, rfl⟩ | ⟨rfl, -⟩
      · rfl
      · cases ha
  · rw [endings, List.filter_append]
    change _ ∧ endings n past ++ _ = _ ∨ _ ∧ ∃ e, endings n past ++ _ = _ ∧ _
    rw [hnone]
    rcases hcase with ⟨hne, -⟩ | ⟨rfl, hd, hwiped⟩
    · refine .inl ⟨hne, ?_⟩
      cases ha : (x'.process w n j.key).answer? with
      | none => simp
      | some a => exact absurd (ended_of_answer ho' ha) hne
    · refine .inr ⟨rfl, ⟨.worker n, s, s', some (.ok .nothing)⟩, ?_, hd, hwiped⟩
      simp [Stage.process, answer?]

/-- A step of the second delete itself. -/
theorem Here.step {q q' : Process (Delayed ρ) (Answer Reply)} (h : Here w n p past)
    (hq : p.threads (.worker n) = some q)
    (hs : q.next? p.state = some (q', s)) :
    Here w n ⟨s, Function.update p.threads (.worker n) (some q')⟩
      (past ++ [⟨.worker n, p.state, s, q'.answer?⟩]) ∧ Onward p.state s := by
  cases h with
  | free hj hq₁ hh =>
    -- It waits to be called for.
    rw [hq₁] at hq
    obtain rfl := Option.some.inj hq
    obtain ⟨hr, -, -⟩ := next?_wait hs
    exact absurd (List.getElem?_eq_none_iff.mp hj) (Nat.not_le.mpr (of_decide_eq_true hr))
  | @taken j x hj hq₁ ho hh hm =>
    rw [hq₁] at hq
    obtain rfl := Option.some.inj hq
    obtain ⟨x', rfl, hx⟩ := Stage.steps_of_next? hj hs
    have ha := hx.advances ho
    have htimely : Timely w j
        (⟨.worker n, p.state, s, (x'.process w n j.key).answer?⟩ : Step ι ο ρ) := by
      refine ⟨ha.window, fun hsome => ha.ending ?_⟩
      obtain ⟨a, ha'⟩ := Option.isSome_iff_exists.mp hsome
      exact ended_of_answer ha.on ha'
    refine ⟨.taken (j := j) (x := x') (by rw [← hj]; exact congrArg (·[n]?) ha.apart.2)
      (Function.update_self _ _ _) ha.on ?_ fun evicted hw => ?_, ha.apart.onward⟩
    · intro e he hn
      rcases List.mem_append.mp he with he | he
      · exact hh e he hn
      · obtain rfl := List.mem_singleton.mp he
        exact htimely
    · exact (hm evicted hw).step hx ho ha.on hw

/-! ## What everybody may do -/

omit [Journal ρ] in
theorem keeps_closing (key : String) (a : Answer Unit) :
    Keeps Onward (closing (ρ := ρ) key a) := by
  cases a with
  | ok _ => exact .act (onward_later key) fun _ => .done _
  | error e => exact .done _

theorem keeps_writer (w : Setting ρ) (x : Put) : Keeps Onward (writer w x) := by
  rw [writer_eq]
  have hp := keeps_put (fun _ _ => Elsewhere.apart) w (w.apart x.key) x.value
  exact keeps_bind (hp.mono fun _ _ => Apart.onward) (keeps_closing x.key)

theorem keeps_worker (w : Setting ρ) (n : Nat) : Keeps Apart (worker w n) := by
  refine .wait Apart.refl fun _ => .act Apart.refl fun s => ?_
  change Keeps Apart (carry w s.errands[n]?)
  cases s.errands[n]? with
  | none => exact .done _
  | some j =>
    refine keeps_bind (.act Apart.refl fun _ => .wait Apart.refl fun _ => ?_) fun _ => .done _
    change Keeps Apart (Stage.delete w j.key)
    refine keeps_bind (keeps_timeout Apart.refl (w.apart j.key) w.timeout) fun o => ?_
    cases o with
    | none => exact keeps_note _ _
    | some r =>
      cases r with
      | ok _ => exact .done _
      | error e => exact keeps_note _ _

/-- The others, and a second delete where it is. -/
structure Kept (w : Setting ρ) (n : Nat) (p : Pool (Who ι ο) (Delayed ρ) (Answer Reply))
    (past : List (Step ι ο ρ)) : Prop where
  others : ∀ i q, i ≠ .worker n → p.threads i = some q → Keeps Onward q
  here : Here w n p past

omit [Journal ρ] in
theorem Onward.refl (s : Delayed ρ) : Onward s s := (Apart.refl s).onward

/-- What every turn keeps. -/
theorem kept_moved {effect : ε → ρ → ρ} {t : Turn (Who ι ο) (ε × Nat)} {e : Option (Step ι ο ρ)}
    (hp : Prompt effect p t) (h : Kept w n p past)
    (hm : Pool.Moved (Delayed.elapse effect) p t e p') : Kept w n p' (past ++ e.toList) := by
  have others : ∀ i q, i ≠ .worker n → p'.threads i = some q → Keeps Onward q :=
    fun i q hi hq => (Pool.keeps_of_moved Onward.refl (fun q' => h.others i q' hi) hm).1 q hq
  refine ⟨others, ?_⟩
  cases hm with
  | still =>
    rw [Option.toList_none, List.append_nil]
    exact h.here
  | outside y =>
    rw [Option.toList_none, List.append_nil]
    exact h.here.elapse hp
  | @step i q q' s hq hs =>
    by_cases hi : i = .worker n
    · subst hi
      exact (h.here.step hq hs).1
    · obtain ⟨-, hon⟩ := keeps_next? (Onward.refl _) (h.others i q hi hq) hs
      refine h.here.onward hon (Function.update_of_ne (Ne.symm hi) _ _) fun e he => ?_
      obtain rfl := List.mem_singleton.mp he
      exact hi
  | @gone i v c k hq =>
    have hi : i ≠ .worker n := hp n
    cases h.others i _ hi hq with
    | wait hc _ =>
      exact h.here.onward (hc _) (Function.update_of_ne (Ne.symm hi) _ _) fun e he => by cases he

/-! ## The errands are the puts that succeeded -/

/-- The errands are those that the steps so far have called for. -/
structure Booked (puts : ι → Put) (p : Pool (Who ι ο) (Delayed ρ) (Answer Reply))
    (past : List (Step ι ο ρ)) : Prop where
  errands : p.state.errands = past.filterMap (calls puts)
  writers : ∀ i q, p.threads (.writer i) = some q → Writing (puts i).key q
  others : ∀ x q, (∀ i, x ≠ .writer i) → p.threads x = some q → Keeps Apart q

omit [Journal ρ] [DecidableEq ι] [DecidableEq ο] in
/-- Only a put that succeeds calls for a second delete. -/
theorem calls_eq_none {puts : ι → Put} {e : Step ι ο ρ}
    (h : ∀ i r, e.who = .writer i → e.answer ≠ some (.ok r)) : calls puts e = none := by
  unfold calls
  split
  · rename_i i r hi hr
    exact absurd hr (h i r hi)
  · rfl

omit [Journal ρ] [DecidableEq ι] [DecidableEq ο] in
/-- What the step of a process calls for is booked with it. -/
theorem errands_of_next? {puts : ι → Put} (h : Booked puts p past) {i : Who ι ο}
    {q q' : Process (Delayed ρ) (Answer Reply)} (hq : p.threads i = some q)
    (hs : q.next? p.state = some (q', s)) :
    s.errands = p.state.errands ++ (calls puts ⟨i, p.state, s, q'.answer?⟩).toList := by
  have none (ha : Apart p.state s)
      (hc : ∀ k r, i = .writer k → q'.answer? ≠ some (.ok r)) :
      s.errands = p.state.errands ++ (calls puts ⟨i, p.state, s, q'.answer?⟩).toList := by
    rw [calls_eq_none hc, Option.toList_none, List.append_nil]
    exact ha.2
  cases i with
  | writer k =>
    rcases ((h.writers k q hq).next? hs).2 with ⟨rfl, rfl⟩ | ⟨ha, hr⟩
    · rfl
    · exact none ha fun _ r _ => hr r
  | other o =>
    have hk := h.others (.other o) q (fun _ => nofun) hq
    exact none (keeps_next? (Apart.refl _) hk hs).2 fun _ _ hi => by cases hi
  | worker n =>
    have hk := h.others (.worker n) q (fun _ => nofun) hq
    exact none (keeps_next? (Apart.refl _) hk hs).2 fun _ _ hi => by cases hi

omit [Journal ρ] in
theorem booked_moved {puts : ι → Put} {effect : ε → ρ → ρ} {t : Turn (Who ι ο) (ε × Nat)}
    {e : Option (Step ι ο ρ)} (h : Booked puts p past)
    (hm : Pool.Moved (Delayed.elapse effect) p t e p') : Booked puts p' (past ++ e.toList) := by
  have others : ∀ x q, (∀ i, x ≠ .writer i) → p'.threads x = some q → Keeps Apart q :=
    fun x q hx hq => (Pool.keeps_of_moved Apart.refl (fun q' => h.others x q' hx) hm).1 q hq
  cases hm with
  | still =>
    rw [Option.toList_none, List.append_nil]
    exact h
  | outside y =>
    rw [Option.toList_none, List.append_nil]
    exact ⟨h.errands, h.writers, others⟩
  | @step i q q' s hq hs =>
    refine ⟨?_, fun k r hr => ?_, others⟩
    · rw [List.filterMap_append, ← h.errands, errands_of_next? h hq hs]
      cases hc : calls puts ⟨i, p.state, s, q'.answer?⟩ <;> simp [hc]
    · rcases Pool.update_eq_some hr with ⟨rfl, hr'⟩ | ⟨-, hr'⟩
      · obtain rfl := Option.some.inj hr'
        exact ((h.writers k q hq).next? hs).1
      · exact h.writers k r hr'
  | @gone i v c k hq =>
    rw [Option.toList_none, List.append_nil]
    have ha : Apart p.state (c p.state) := by
      cases i with
      | writer k => exact (h.writers k _ hq).abandon p.state
      | other o =>
        cases h.others (.other o) _ (fun _ => nofun) hq with
        | wait hc _ => exact hc _
      | worker n =>
        cases h.others (.worker n) _ (fun _ => nofun) hq with
        | wait hc _ => exact hc _
    refine ⟨ha.2.trans h.errands, fun k r hr => ?_, others⟩
    rcases Pool.update_eq_some hr with ⟨-, hr'⟩ | ⟨-, hr'⟩
    · cases hr'
    · exact h.writers k r hr'

/-! ## What a put does to the engine -/

omit [Journal ρ] in
/-- The entries of other keys are the same. -/
def Spares (key : String) (s t : Delayed ρ) : Prop :=
  ∀ k, k ≠ key → t.engine.table.find? k = s.engine.table.find? k

theorem spares_writer (hw : w.inner = (memory evicted).cache) (x : Put) :
    Keeps (Spares x.key) (writer w x) := by
  have he : ∀ s t : Delayed ρ, Elsewhere s t → Spares x.key s t := by
    rintro s t ⟨r, rfl⟩ k -
    rfl
  have hd : Keeps (Spares x.key) (w.inner.delete x.key) := by
    rw [hw]
    refine .act (fun s k hk => ?_) fun _ => .done _
    exact (Table.find?_erase _ _ _).trans (if_neg hk)
  rw [writer_eq]
  refine keeps_bind (keeps_put he w hd x.value) fun a => ?_
  cases a with
  | ok _ => exact .act (fun _ _ _ => rfl) fun _ => .done _
  | error e => exact .done _

/-! ## All of it -/

/-- What comes of an errand over any inner cache: its delete begins when it is due, and has no
effect once its time is over. -/
structure Bounded (w : Setting ρ) (p : Pool (Who ι ο) (Delayed ρ) (Answer Reply))
    (h : List (Step ι ο ρ)) (n : Nat) (j : Errand) : Prop where
  timely : ∀ e ∈ h, e.who = .worker n → Timely w j e
  stopped : w.last j < p.state.instant → ∃ a, p.threads (.worker n) = some (.done a)

/-- What comes of an errand over the engine: the entry of its key is removed once, when that is due,
and nothing else is done. -/
structure Deletes (w : Setting ρ) (p : Pool (Who ι ο) (Delayed ρ) (Answer Reply))
    (h : List (Step ι ο ρ)) (n : Nat) (j : Errand) : Prop where
  still : ∀ e ∈ h, e.who = .worker n → e.answer = none → e.after = e.before
  once : endings n h = [] ∧ p.state.instant ≤ w.due j ∨ ∃ e, endings n h = [e] ∧
    e.before.instant = w.due j ∧ Wiped j.key e.before e.after

/-- A second delete that was called for is at a stage. -/
theorem Kept.stage (h : Kept w n p past) (hj : p.state.errands[n]? = some j) :
    ∃ x : Stage ρ, p.threads (.worker n) = some (x.process w n j.key) ∧ x.On w j p.state ∧
      (∀ e ∈ past, e.who = .worker n → Timely w j e) ∧
      ∀ evicted, w.inner = (memory evicted).cache → Once w n j x p.state past := by
  cases h.here with
  | free hj' hq hh =>
    rw [hj] at hj'
    cases hj'
  | @taken j' x hj' hq ho hh hm =>
    obtain rfl := Option.some.inj (hj.symm.trans hj')
    exact ⟨x, hq, ho, hh, hm⟩

theorem Kept.bounded (h : Kept w n p past) (hj : p.state.errands[n]? = some j) :
    Bounded w p past n j := by
  obtain ⟨x, hq, ho, hh, -⟩ := h.stage hj
  refine ⟨hh, fun hlast => ?_⟩
  by_cases hx : x = .ended
  · subst hx
    exact ⟨_, hq⟩
  · exact absurd (ho.le_last hx) (Nat.not_le.mpr hlast)

theorem Kept.deletes (h : Kept w n p past) (hj : p.state.errands[n]? = some j)
    (hw : w.inner = (memory evicted).cache) : Deletes w p past n j := by
  obtain ⟨x, -, ho, -, hm⟩ := h.stage hj
  have honce := hm evicted hw
  refine ⟨honce.still, ?_⟩
  rcases honce.ends with ⟨hx, he⟩ | ⟨-, he⟩
  · exact .inl ⟨he, honce.swift.le_due ho hx⟩
  · exact .inr he

section Start

variable {puts : ι → Put} {others : ο → Process (Delayed ρ) (Answer Reply)}
  (ho : ∀ o, Keeps Apart (others o)) (hs : s.errands = [])

include ho hs

theorem kept_pool (n : Nat) : Kept w n (pool w puts others s) ([] : List (Step ι ο ρ)) := by
  have hj : (pool w puts others s).state.errands[n]? = none := by
    change s.errands[n]? = none
    rw [hs]
    rfl
  refine ⟨fun i q _ hq => ?_, .free hj rfl fun e he => absurd he List.not_mem_nil⟩
  cases i with
  | writer i =>
    obtain rfl := Option.some.inj hq
    exact keeps_writer w _
  | other o =>
    obtain rfl := Option.some.inj hq
    exact (ho o).mono fun _ _ => Apart.onward
  | worker m =>
    obtain rfl := Option.some.inj hq
    exact (keeps_worker w m).mono fun _ _ => Apart.onward

omit [DecidableEq ι] [DecidableEq ο] in
theorem booked_pool : Booked puts (pool w puts others s) ([] : List (Step ι ο ρ)) := by
  refine ⟨hs, fun i q hq => ?_, fun x q hx hq => ?_⟩
  · obtain rfl := Option.some.inj hq
    exact writing_writer w (puts i)
  · cases x with
    | writer i => exact absurd rfl (hx i)
    | other o =>
      obtain rfl := Option.some.inj hq
      exact ho o
    | worker n =>
      obtain rfl := Option.some.inj hq
      exact keeps_worker w n

end Start

/-- **Each put that succeeds is followed by one second delete of its key, when that is due**, and a
put that fails by none, whatever else is done in between: the errands are the puts that succeeded,
in order, and a second delete that was not called for does nothing. Over any inner cache, a second
delete has no effect once its time is over, and is given up then if it has not ended. Over the
engine, it removes whatever entry of the key there is when it is due, and does nothing to other
keys; nor does the put. -/
theorem run_deletes_again {effect : ε → ρ → ρ} (w : Setting ρ) (puts : ι → Put)
    {others : ο → Process (Delayed ρ) (Answer Reply)} (ho : ∀ o, Keeps Apart (others o))
    {s : Delayed ρ} (hs : s.errands = []) {turns : List (Turn (Who ι ο) (ε × Nat))}
    (ht : Pool.Along (elapse effect) (Prompt effect) turns (pool w puts others s)) :
    let p := (pool w puts others s).run (elapse effect) turns
    let h := Pool.history (elapse effect) turns (pool w puts others s)
    p.state.errands = h.filterMap (calls puts) ∧
    (∀ e ∈ h, ∀ n, e.who = .worker n → n < p.state.errands.length) ∧
    (∀ n j, p.state.errands[n]? = some j → Bounded w p h n j) ∧
    (∀ evicted, w.inner = (memory evicted).cache →
      (∀ n j, p.state.errands[n]? = some j → Deletes w p h n j) ∧
      ∀ e ∈ h, ∀ i, e.who = .writer i → Spares (puts i).key e.before e.after) := by
  intro p h
  have kept (n : Nat) : Kept w n p h :=
    Pool.along_past_induction (fun _ _ _ _ _ hok hk hm => kept_moved hok hk hm) turns ht
      (kept_pool ho hs n)
  have booked : Booked puts p h :=
    Pool.past_induction (fun _ _ _ _ _ hb hm => booked_moved hb hm) turns (booked_pool ho hs)
  refine ⟨booked.errands, fun e he n hn => ?_, fun n j hj => (kept n).bounded hj,
    fun evicted hw => ⟨fun n j hj => (kept n).deletes hj hw, fun e he i hi => ?_⟩⟩
  · cases (kept n).here with
    | free _ _ hh => exact absurd hn (hh e he)
    | taken hj _ _ _ _ => exact (List.getElem?_eq_some_iff.mp hj).1
  · refine Pool.related_of_mem_history (fun _ _ _ => rfl) turns (fun q hq => ?_) e he hi
    obtain rfl := Option.some.inj hq
    exact spares_writer hw (puts i)

end Run

/-! ## A racing write -/

/-- The engine, and a store that succeeds at once. The second delete comes after fifty
milliseconds. -/
def brisk : Setting Session.State where
  inner := (memory fun _ _ r => r).cache
  store _ _ := .done (.ok ())
  limit := none
  interval := .ofMillis 50
  timeout := .ofSecs 1
  apart _ := .act (fun _ => ⟨rfl, rfl⟩) fun _ => .done _
  elsewhere _ _ := .done _

/-- One writes the engine directly, the other reads through it. -/
def racing : Bool → Process (Delayed Session.State) (Answer Reply)
  | false => (Call.put "k" (.bool false) .zero).run brisk.inner
  | true =>
    (Call.get "k").run (ReadThrough.cache brisk.inner (fun _ => .done (.ok (.bool false))) .zero)

def onePut (_ : Unit) : Put := ⟨"k", .bool true, .zero⟩

/-- The state at first. -/
def atFirst : Delayed Session.State := ⟨0, .empty, [], default⟩

/-- A put, a write that comes after it, and the second delete. -/
def race : List (Turn (Who Unit Bool) (Unit × Nat)) :=
  List.replicate 2 (.go (.writer ())) ++ [.go (.other false)] ++
    List.replicate 3 (.go (.worker 0)) ++ [.outside ((), 50_000_000), .go (.other true)] ++
      List.replicate 3 (.go (.worker 0)) ++ [.outside ((), 1)]

theorem run_deletes_again_race :
    ∃ e ∈ Pool.history (elapse fun _ r => r) race (pool brisk onePut racing atFirst),
      e.who = .worker 0 ∧ e.before.instant = 50_000_000 ∧
        e.after.engine.table.find? "k" = none := by
  have ho (b : Bool) : Keeps Apart (racing b) := by
    cases b with
    | false => exact keeps_call (fun _ _ r => r) (.put "k" (.bool false) .zero)
    | true => exact keeps_readThrough (fun _ _ r => r) (fun _ => .done _) _ _
  have ht : Pool.Along (elapse fun _ r => r) (Prompt fun _ r => r) race
      (pool brisk onePut racing atFirst) := by
    refine ⟨trivial, trivial, trivial, trivial, trivial, trivial, fun n q hq => ?_, trivial,
      trivial, trivial, trivial, fun n q hq => ?_, trivial⟩
    · cases n with
      | zero =>
        change some ((Stage.sleeping 50).process brisk 0 "k") = some q at hq
        obtain rfl := Option.some.inj hq
        exact ⟨rfl, fun t h => by obtain rfl := Option.some.inj h; decide⟩
      | succ n =>
        change some (worker brisk (n + 1)) = some q at hq
        obtain rfl := Option.some.inj hq
        exact ⟨rfl, nofun⟩
    · cases n with
      | zero =>
        change some (Stage.ended.process brisk 0 "k") = some q at hq
        obtain rfl := Option.some.inj hq
        exact ⟨trivial, nofun⟩
      | succ n =>
        change some (worker brisk (n + 1)) = some q at hq
        obtain rfl := Option.some.inj hq
        exact ⟨rfl, nofun⟩
  obtain ⟨-, -, -, hm⟩ := run_deletes_again brisk onePut ho (s := atFirst) rfl ht
  rcases ((hm _ rfl).1 0 ⟨"k", 0⟩ rfl).once with ⟨-, hle⟩ | ⟨e, he, hdue, hwiped⟩
  · have hlate : ¬ 50_000_001 ≤ brisk.due ⟨"k", 0⟩ := by decide
    exact absurd hle hlate
  · have hmem := List.mem_filter.mp (he ▸ List.mem_singleton_self e)
    have hwho : e.who = .worker 0 := of_decide_eq_true (Bool.and_eq_true_iff.mp hmem.2).1
    exact ⟨e, hmem.1, hwho, hdue, (hwiped "k").trans (if_pos rfl)⟩

/-- The engine behind a delay of two hundred milliseconds. A second delete is given thirty. -/
def lagging : Setting Session.State where
  inner := { brisk.inner with
    delete := fun key => do
      Process.sleep (.ofMillis 200)
      brisk.inner.delete key }
  store := brisk.store
  limit := none
  interval := .ofMillis 20
  timeout := .ofMillis 30
  apart key := .act Apart.refl fun _ => .wait Apart.refl fun _ => brisk.apart key
  elsewhere := brisk.elsewhere

/-- A second delete that takes too long: what was written meanwhile stays. -/
example :
    let turns : List (Turn (Who Unit Bool) (Unit × Nat)) :=
      [.go (.writer ()), .outside ((), 200_000_000)] ++ List.replicate 3 (.go (.writer ())) ++
        [.go (.other false)] ++ List.replicate 3 (.go (.worker 0)) ++
          [.outside ((), 20_000_000)] ++ List.replicate 3 (.go (.worker 0)) ++
            [.outside ((), 30_000_000)] ++ List.replicate 4 (.go (.worker 0))
    let p := (pool lagging onePut racing atFirst).run (elapse fun _ r => r) turns
    p.threads (.worker 0) = some (.done (.ok .nothing)) ∧
      (p.state.engine.table.find? "k").map (·.value) = some (.bool false) := ⟨rfl, rfl⟩

end LayeredCache.Delayed

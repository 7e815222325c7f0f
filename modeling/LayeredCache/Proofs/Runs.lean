import LayeredCache.Cache
import LayeredCache.Proofs.Pool
import Mathlib.Data.List.Forall2

/-!
# Runs of a process

A process never has the state to itself: between two of its steps others may change it. What they
may do, and when a wait may be over, are its surroundings. A run of the process in its surroundings
ends with an answer, or with the process given up.

A run is told from the process alone, by its constructors, so that a process put together from
others is followed part by part. In every pool a process goes through one of its runs.

`Maintains I Q p` says of the steps of `p` that they keep an invariant of the state, and that an
answer given while it holds satisfies `Q`.

Results:
* `runs_bind`, `runs_within`, `runs_both`, `runs_all`: the runs of a process put together. Of
  processes side by side, each has a run of its own, the others being part of its surroundings.
* `runs_part_iff`: a process over a part of the state runs as it does alone.
* `runs_of_maintains`: an invariant of the steps and of the surroundings holds at the end of a run.
* `runs_of_pool`: what a process goes through in a pool is a run.
-/

namespace LayeredCache

namespace Slot

variable {σ α : Type}

/-- Putting back what was read changes nothing, and what is put last stays. -/
structure Exact (slot : Slot σ α) : Prop where
  set_get : ∀ s, slot.set (slot.get s) s = s
  set_set : ∀ a b s, slot.set a (slot.set b s) = slot.set a s

end Slot

/-- What goes on beside a process. -/
structure Surroundings (σ : Type) [Clock σ] where
  /-- What may become of the state between two steps of the process. -/
  moves : σ → σ → Prop
  /-- When a wait of the process may be over. -/
  ripe : Wait σ → σ → Prop
  refl : ∀ s, moves s s
  trans : ∀ {s t u}, moves s t → moves t u → moves s u
  ripe_of_ready : ∀ {w : Wait σ} {s}, w.ready s = true → ripe w s
  /-- Of two waits, one of which may be over, it is the second one if it is not the first. -/
  ripe_of_either : ∀ {v w : Wait σ} {s}, ripe (.either v w) s → v.ready s = false → ripe w s

namespace Surroundings

variable {σ : Type} [Clock σ]

/-- A wait is over only if the state is ready. -/
def exact (moves : σ → σ → Prop) (refl : ∀ s, moves s s)
    (trans : ∀ {s t u}, moves s t → moves t u → moves s u) : Surroundings σ :=
  ⟨moves, fun w s => w.ready s = true, refl, trans, id, fun {v w s} h hv => by
    change (v.ready s || w.ready s) = true at h
    rwa [hv, Bool.false_or] at h⟩

/-- Others keep `I`; any wait may be over at any time. -/
def holding (I : σ → Prop) : Surroundings σ :=
  ⟨fun s t => I s → I t, fun _ _ => True, fun _ => id, fun h h' hs => h' (h hs), fun _ => trivial,
    fun _ _ => trivial⟩

/-- Anything may happen between two steps. -/
def anything : Surroundings σ := exact (fun _ _ => True) (fun _ => trivial) fun _ _ => trivial

variable {ρ : Type} [Clock ρ]

/-- Others work on a part of the state alone. A wait is over only if the state is ready. -/
def around (E : Surroundings ρ) {slot : Slot σ ρ} (h : slot.Exact) : Surroundings σ :=
  .exact (fun s t => ∃ r, E.moves (slot.get s) r ∧ t = slot.set r s)
    (fun s => ⟨slot.get s, E.refl _, (h.set_get s).symm⟩)
    fun {s t u} ⟨r, hr, ht⟩ ⟨r', hr', hu⟩ => by
      subst ht
      rw [slot.get_set] at hr'
      rw [h.set_set] at hu
      exact ⟨r', E.trans hr hr', hu⟩

end Surroundings

namespace Process

variable {σ α β : Type} [Clock σ] {E : Surroundings σ}

/-- The process goes from one state to another and ends there, with an answer or given up. -/
inductive Runs (E : Surroundings σ) : Process σ α → σ → Option α → σ → Prop
  | done {a : α} {s t : σ} (h : E.moves s t) : Runs E (.done a) s (some a) t
  | act {g : σ → σ} {k : σ → Process σ α} {s s' t : σ} {o : Option α} (h : E.moves s s')
      (hk : Runs E (k s') (g s') o t) : Runs E (.act g k) s o t
  | wait {w : Wait σ} {c : σ → σ} {k : σ → Process σ α} {s s' t : σ} {o : Option α}
      (h : E.moves s s') (hw : E.ripe w s') (hk : Runs E (k s') s' o t) :
      Runs E (.wait w c k) s o t
  | gone {w : Wait σ} {c : σ → σ} {k : σ → Process σ α} {s s' t : σ} (h : E.moves s s')
      (ht : E.moves (c s') t) : Runs E (.wait w c k) s none t

/-- Whatever comes before a run in its surroundings is part of it. -/
theorem Runs.after {p : Process σ α} {s s' t : σ} {o : Option α} (h : E.moves s s')
    (hp : Runs E p s' o t) : Runs E p s o t := by
  cases hp with
  | done h' => exact .done (E.trans h h')
  | act h' hk => exact .act (E.trans h h') hk
  | wait h' hw hk => exact .wait (E.trans h h') hw hk
  | gone h' ht => exact .gone (E.trans h h') ht

/-- Whatever comes after a run in its surroundings is part of it. -/
theorem Runs.before {p : Process σ α} {s t t' : σ} {o : Option α} (hp : Runs E p s o t)
    (h : E.moves t t') : Runs E p s o t' := by
  induction hp with
  | done h' => exact .done (E.trans h' h)
  | act h' _ ih => exact .act h' (ih h)
  | wait h' hw _ ih => exact .wait h' hw (ih h)
  | gone h' ht => exact .gone h' (E.trans ht h)

/-- If the steps of a process are moves of its surroundings, then so is a run of it. -/
theorem moves_of_runs {p : Process σ α} {s t : σ} {o : Option α} (hk : Keeps E.moves p)
    (hp : Runs E p s o t) : E.moves s t := by
  induction hp with
  | done h => exact h
  | act h _ ih =>
    cases hk with
    | act hg hk => exact E.trans h (E.trans (hg _) (ih (hk _)))
  | wait h _ _ ih =>
    cases hk with
    | wait hc hk => exact E.trans h (ih (hk _))
  | gone h ht =>
    cases hk with
    | wait hc hk => exact E.trans h (E.trans (hc _) ht)

omit [Clock σ] in
theorem keeps_anything (p : Process σ α) : Keeps (fun _ _ => True) p := by
  induction p with
  | done a => exact .done a
  | act g k ih => exact .act (fun _ => trivial) ih
  | wait w c k ih => exact .wait (fun _ => trivial) ih

/-- What a process does alone is a run in any surroundings. -/
theorem runs_of_advance {p : Process σ α} {s : σ} {a : α} (h : (p.advance s).1 = .done a) :
    Runs E p s (some a) (p.advance s).2 := by
  induction p generalizing s with
  | done b =>
    obtain rfl := Process.done.inj h
    exact .done (E.refl s)
  | act g k ih => exact .act (E.refl s) (ih s h)
  | wait w c k ih =>
    unfold advance at h ⊢
    by_cases hw : w.ready s = true
    · rw [if_pos hw] at h ⊢
      exact .wait (E.refl s) (E.ripe_of_ready hw) (ih s h)
    · rw [if_neg hw] at h
      cases h

/-! ## Runs of processes put together -/

theorem Runs.bind {p : Process σ α} {f : α → Process σ β} {s s' t : σ} {a : α} {o : Option β}
    (hp : Runs E p s (some a) s') (hf : Runs E (f a) s' o t) : Runs E (p.bind f) s o t := by
  generalize ho : some a = oa at hp
  induction hp with
  | done h =>
    obtain rfl := Option.some.inj ho
    exact hf.after h
  | act h _ ih => exact .act h (ih hf ho)
  | wait h hw _ ih => exact .wait h hw (ih hf ho)
  | gone h ht => cases ho

/-- A process followed by another: the first one answers, or is given up. -/
theorem runs_bind {p : Process σ α} {f : α → Process σ β} {s t : σ} {o : Option β}
    (h : Runs E (p.bind f) s o t) :
    (∃ a s', Runs E p s (some a) s' ∧ Runs E (f a) s' o t) ∨ o = none ∧ Runs E p s none t := by
  induction p generalizing s with
  | done a => exact .inl ⟨a, s, .done (E.refl s), h⟩
  | act g k ih =>
    cases h with
    | act h hk =>
      rcases ih _ hk with ⟨a, s', hp, hf⟩ | ⟨rfl, hp⟩
      · exact .inl ⟨a, s', .act h hp, hf⟩
      · exact .inr ⟨rfl, .act h hp⟩
  | wait w c k ih =>
    cases h with
    | wait h hw hk =>
      rcases ih _ hk with ⟨a, s', ha, hf⟩ | ⟨rfl, hn⟩
      · exact .inl ⟨a, s', .wait h hw ha, hf⟩
      · exact .inr ⟨rfl, .wait h hw hn⟩
    | gone h ht => exact .inr ⟨rfl, .gone h ht⟩

/-- An answer of a process followed by another comes after an answer of the first one. -/
theorem runs_bind_some {p : Process σ α} {f : α → Process σ β} {s t : σ} {b : β}
    (h : Runs E (p.bind f) s (some b) t) :
    ∃ a s', Runs E p s (some a) s' ∧ Runs E (f a) s' (some b) t := by
  rcases runs_bind h with h | ⟨h, -⟩
  · exact h
  · cases h

theorem runs_bind_iff {p : Process σ α} {f : α → Process σ β} {s t : σ} {b : β} :
    Runs E (p.bind f) s (some b) t ↔
      ∃ a s', Runs E p s (some a) s' ∧ Runs E (f a) s' (some b) t :=
  ⟨runs_bind_some, fun ⟨_, _, hp, hf⟩ => hp.bind hf⟩

theorem runs_map {f : α → β} {p : Process σ α} {s t : σ} {b : β}
    (h : Runs E (f <$> p) s (some b) t) : ∃ a, Runs E p s (some a) t ∧ f a = b := by
  obtain ⟨a, s', hp, hf⟩ := runs_bind_some h
  cases hf with
  | done h => exact ⟨a, hp.before h, rfl⟩

theorem runs_look {k : σ → Process σ α} {s t : σ} {o : Option α} (h : Runs E (look k) s o t) :
    ∃ s', E.moves s s' ∧ Runs E (k s') s' o t := by
  cases h with
  | act h hk => exact ⟨_, h, hk⟩

theorem runs_wait {w : Wait σ} {c : σ → σ} {k : σ → Process σ α} {s t : σ} {a : α}
    (h : Runs E (.wait w c k) s (some a) t) :
    ∃ s', E.moves s s' ∧ E.ripe w s' ∧ Runs E (k s') s' (some a) t := by
  cases h with
  | wait h hw hk => exact ⟨_, h, hw, hk⟩

/-- The process runs until it answers or is given up: at its limit, or from outside. -/
theorem runs_within {p : Process σ α} {l : Nat} {s t : σ} {o : Option (Option α)}
    (h : Runs E (p.within l) s o t) : Runs E p s o.join t := by
  induction p generalizing s with
  | done a =>
    cases h with
    | done h => exact .done h
  | act g k ih =>
    cases h with
    | act h hk => exact .act h (ih _ hk)
  | wait w c k ih =>
    cases h with
    | gone h ht => exact .gone h ht
    | @wait _ _ _ _ s' _ _ h hw hk =>
      dsimp only at hk
      by_cases hr : w.ready s' = true
      · rw [if_pos hr] at hk
        exact .wait h (E.ripe_of_ready hr) (ih _ hk)
      · rw [if_neg hr] at hk
        cases hk with
        | act h₂ hk =>
          cases hk with
          | done h₃ => exact .gone (E.trans h h₂) h₃

theorem runs_timeout {p : Process σ α} {d : Duration} {s t : σ} {o : Option (Option α)}
    (h : Runs E (p.timeout d) s o t) : Runs E p s o.join t := by
  cases h with
  | act h hk => exact (runs_within hk).after h

/-! ## Runs over a part of the state -/

section Part

variable {ρ : Type} [Clock ρ] {F : Surroundings ρ} {slot : Slot σ ρ}

/-- **A process over a part of the state runs as it does alone**, and leaves the rest as it is. -/
theorem runs_part_iff (h : slot.Exact) (hc : ∀ s, Clock.now s = Clock.now (slot.get s))
    (hE : ∀ w r, F.ripe w r ↔ w.ready r = true) {p : Process ρ α} {s t : σ} {o : Option α} :
    Runs (F.around h) (p.embed slot) s o t ↔
      Runs F p (slot.get s) o (slot.get t) ∧ t = slot.set (slot.get t) s := by
  have ripe (w : Wait ρ) (r : ρ) (s : σ) :
      (waitFor slot w).ready (slot.set r s) = true ↔ F.ripe w r := by
    rw [ready_waitFor hc, slot.get_set, hE]
  have modify_set (g : ρ → ρ) (r : ρ) (s : σ) :
      slot.modify g (slot.set r s) = slot.set (g r) s := by
    rw [Slot.modify, slot.get_set, h.set_set]
  constructor
  · intro hr
    induction p generalizing s with
    | done a =>
      cases hr with
      | done hm =>
        obtain ⟨r, hr, rfl⟩ := hm
        rw [slot.get_set]
        exact ⟨.done hr, rfl⟩
    | act g k ih =>
      cases hr with
      | act hm hk =>
        obtain ⟨r, hr, rfl⟩ := hm
        obtain ⟨hp, ht⟩ := ih _ hk
        rw [modify_set] at hp ht
        rw [slot.get_set, slot.get_set] at hp
        rw [h.set_set] at ht
        exact ⟨.act hr hp, ht⟩
    | wait w c k ih =>
      cases hr with
      | wait hm hw hk =>
        obtain ⟨r, hr, rfl⟩ := hm
        obtain ⟨hp, ht⟩ := ih _ hk
        rw [slot.get_set] at hp
        rw [h.set_set] at ht
        exact ⟨.wait hr ((ripe w r s).mp hw) hp, ht⟩
      | gone hm ht =>
        obtain ⟨r, hr, rfl⟩ := hm
        obtain ⟨r', hr', rfl⟩ := ht
        rw [modify_set] at hr' ⊢
        rw [slot.get_set] at hr'
        rw [slot.get_set, h.set_set]
        exact ⟨.gone hr hr', rfl⟩
  · rintro ⟨hr, ht⟩
    rw [ht]
    generalize slot.get t = r₂ at hr
    generalize hs : slot.get s = r₁ at hr
    clear ht
    induction hr generalizing s with
    | done hm => exact .done ⟨_, hs ▸ hm, rfl⟩
    | @act g k r r' r₂ o hm _ ih =>
      refine .act ⟨r', hs ▸ hm, rfl⟩ ?_
      have hk := ih (s := slot.set (g r') s) (slot.get_set _ _)
      rw [h.set_set] at hk
      rw [modify_set, slot.get_set]
      exact hk
    | @wait w c k r r' r₂ o hm hw _ ih =>
      refine .wait ⟨r', hs ▸ hm, rfl⟩ ((ripe w r' s).mpr hw) ?_
      have hk := ih (s := slot.set r' s) (slot.get_set _ _)
      rw [h.set_set] at hk
      rw [slot.get_set]
      exact hk
    | @gone w c k r r' r₂ hm ht =>
      refine .gone ⟨r', hs ▸ hm, rfl⟩ ⟨r₂, ?_, ?_⟩
      · rw [modify_set, slot.get_set]
        exact ht
      · rw [modify_set, h.set_set]

end Part

/-! ## Processes side by side -/

section Keeping

variable {R : σ → σ → Prop} (hR : ∀ s, R s s) (hT : ∀ {s t u}, R s t → R t u → R s u)

omit [Clock σ] in
theorem keeps_map {f : α → β} {p : Process σ α} (hp : Keeps R p) : Keeps R (f <$> p) :=
  keeps_bind hp fun a => .done (f a)

theorem keeps_within {p : Process σ α} (hp : Keeps R p) (l : Nat) : Keeps R (p.within l) := by
  induction hp with
  | done a => exact .done _
  | act hg _ ih => exact .act hg ih
  | wait hc _ ih =>
    refine .wait hc fun s => ?_
    split
    · exact ih s
    · exact .act hc fun _ => .done none

include hR

omit [Clock σ] in
theorem keeps_look {k : σ → Process σ α} (hk : ∀ s, Keeps R (k s)) : Keeps R (look k) := .act hR hk

theorem keeps_timeout {p : Process σ α} (hp : Keeps R p) (d : Duration) : Keeps R (p.timeout d) :=
  keeps_look hR fun _ => keeps_within hp _

include hT

theorem keeps_beside {w : Wait σ} {c : σ → σ} (hc : ∀ s, R s (c s))
    {resume : σ → Process σ β → Process σ α} {alone : β → σ → Process σ α}
    (hr : ∀ s q, Keeps R q → Keeps R (resume s q)) (ha : ∀ b s, Keeps R (alone b s))
    {q : Process σ β} (hq : Keeps R q) : Keeps R (q.beside w c resume alone) := by
  induction hq with
  | done b => exact .wait hc (ha b)
  | act hg _ ih => exact .act hg ih
  | @wait v c' k hc' hk ih =>
    refine keeps_look hR fun s => ?_
    split
    · exact ih s
    · refine .wait (fun s => hT (hc s) (hc' _)) fun s => ?_
      split
      · exact hr s _ (.wait hc' hk)
      · exact ih s

/-- Processes side by side change the state as each of them does. -/
theorem keeps_both {p : Process σ α} {q : Process σ β} (hp : Keeps R p) (hq : Keeps R q) :
    Keeps R (p.both q) := by
  induction hp generalizing q with
  | done a => exact keeps_map hq
  | act hg _ ih => exact .act hg fun s => ih s hq
  | wait hc hk ih =>
    refine keeps_look hR fun s => ?_
    split
    · exact ih s hq
    · exact keeps_beside hR hT hc (fun s _ => ih s) (fun b s => keeps_map (hk s)) hq

theorem keeps_all {ps : List (Process σ α)} (h : ∀ p ∈ ps, Keeps R p) : Keeps R (all ps) := by
  induction ps with
  | nil => exact .done []
  | cons p ps ih =>
    have hps := ih fun q hq => h q (List.mem_cons_of_mem _ hq)
    exact keeps_map (keeps_both hR hT (h p List.mem_cons_self) hps)

end Keeping

theorem runs_beside {w : Wait σ} {c : σ → σ} {k : σ → Process σ α} (hk : ∀ s, Keeps E.moves (k s))
    {a : α} {b : β} {resume : σ → Process σ β → Process σ (α × β)}
    {alone : β → σ → Process σ (α × β)} {t : σ}
    (hr : ∀ s' q s, Keeps E.moves q → Runs E (resume s' q) s (some (a, b)) t →
      Runs E (k s') s (some a) t ∧ Runs E q s (some b) t)
    (ha : ∀ b' s' s, Runs E (alone b' s') s (some (a, b)) t →
      Runs E (k s') s (some a) t ∧ b' = b)
    {q : Process σ β} (hq : Keeps E.moves q) {s : σ}
    (h : Runs E (q.beside w c resume alone) s (some (a, b)) t) :
    Runs E (.wait w c k) s (some a) t ∧ Runs E q s (some b) t := by
  induction q generalizing s with
  | done b' =>
    cases h with
    | wait h hw hp =>
      obtain ⟨hp', rfl⟩ := ha _ _ _ hp
      exact ⟨.wait h hw hp', .done (E.trans h (moves_of_runs (hk _) hp'))⟩
  | act g l ih =>
    cases hq with
    | act hg hq =>
      cases h with
      | act h hl =>
        obtain ⟨hp', hq'⟩ := ih _ (hq _) hl
        exact ⟨hp'.after (E.trans h (hg _)), .act h hq'⟩
  | wait v c' l ih =>
    cases hq with
    | wait hc' hq =>
      obtain ⟨s₁, h₁, hl⟩ := runs_look h
      by_cases hv : v.ready s₁ = true
      · rw [if_pos hv] at hl
        obtain ⟨hp', hq'⟩ := ih _ (hq _) hl
        exact ⟨hp'.after h₁, .wait h₁ (E.ripe_of_ready hv) hq'⟩
      · rw [if_neg hv] at hl
        obtain ⟨s₂, h₂, hvw, hl⟩ := runs_wait hl
        have hm := E.trans h₁ h₂
        by_cases hw : w.ready s₂ = true
        · rw [if_pos hw] at hl
          obtain ⟨hp', hq'⟩ := hr _ _ _ (.wait hc' hq) hl
          exact ⟨.wait hm (E.ripe_of_ready hw) hp', hq'.after hm⟩
        · rw [if_neg hw] at hl
          obtain ⟨hp', hq'⟩ := ih _ (hq _) hl
          have hripe := E.ripe_of_either hvw (Bool.eq_false_iff.mpr hw)
          exact ⟨hp'.after hm, .wait hm hripe hq'⟩

/-- **Of two processes side by side, each has a run of its own.** The steps of the other one are
among the moves of its surroundings. -/
theorem runs_both {p : Process σ α} {q : Process σ β} (hp : Keeps E.moves p)
    (hq : Keeps E.moves q) {s t : σ} {a : α} {b : β} (h : Runs E (p.both q) s (some (a, b)) t) :
    Runs E p s (some a) t ∧ Runs E q s (some b) t := by
  induction p generalizing q s with
  | done a' =>
    obtain ⟨b', h', he⟩ := runs_map h
    obtain ⟨rfl, rfl⟩ := Prod.mk.inj he
    exact ⟨.done (moves_of_runs hq h'), h'⟩
  | act g k ih =>
    cases hp with
    | act hg hp =>
      cases h with
      | act h hk =>
        obtain ⟨hp', hq'⟩ := ih _ (hp _) hq hk
        exact ⟨.act h hp', hq'.after (E.trans h (hg _))⟩
  | wait w c k ih =>
    cases hp with
    | wait hc hp =>
      obtain ⟨s₁, h₁, hk⟩ := runs_look h
      by_cases hw : w.ready s₁ = true
      · rw [if_pos hw] at hk
        obtain ⟨hp', hq'⟩ := ih _ (hp _) hq hk
        exact ⟨.wait h₁ (E.ripe_of_ready hw) hp', hq'.after h₁⟩
      · rw [if_neg hw] at hk
        have ha : ∀ b' s' s, Runs E ((·, b') <$> k s') s (some (a, b)) t →
            Runs E (k s') s (some a) t ∧ b' = b := by
          intro b' s' s hs
          obtain ⟨a', hp', he⟩ := runs_map hs
          obtain ⟨rfl, rfl⟩ := Prod.mk.inj he
          exact ⟨hp', rfl⟩
        obtain ⟨hp', hq'⟩ := runs_beside hp (fun _ _ _ hq' => ih _ (hp _) hq') ha hq hk
        exact ⟨hp'.after h₁, hq'.after h₁⟩

/-- **Of processes side by side, each has a run of its own, with its own answer.** -/
theorem runs_all {ps : List (Process σ α)} (hk : ∀ p ∈ ps, Keeps E.moves p) {s t : σ}
    {as : List α} (h : Runs E (all ps) s (some as) t) :
    List.Forall₂ (fun p a => Runs E p s (some a) t) ps as := by
  induction ps generalizing as with
  | nil =>
    cases h with
    | done h => exact .nil
  | cons p ps ih =>
    obtain ⟨⟨a, as'⟩, hb, rfl⟩ := runs_map h
    have hps : ∀ q ∈ ps, Keeps E.moves q := fun q hq => hk q (List.mem_cons_of_mem _ hq)
    have hall := keeps_all E.refl E.trans hps
    obtain ⟨hp, hr⟩ := runs_both (hk p List.mem_cons_self) hall hb
    exact .cons hp (ih hps hr)

/-! ## Invariants -/

/-- The steps of the process, and giving it up, keep `I`; an answer given while `I` holds satisfies
`Q`. -/
inductive Maintains (I : σ → Prop) (Q : α → Prop) : Process σ α → Prop
  | done {a : α} (h : Q a) : Maintains I Q (.done a)
  | act {g : σ → σ} {k : σ → Process σ α} (hg : ∀ s, I s → I (g s))
      (hk : ∀ s, I s → Maintains I Q (k s)) : Maintains I Q (.act g k)
  | wait {w : Wait σ} {c : σ → σ} {k : σ → Process σ α} (hc : ∀ s, I s → I (c s))
      (hk : ∀ s, I s → Maintains I Q (k s)) : Maintains I Q (.wait w c k)

section Maintaining

variable {I : σ → Prop} {Q : α → Prop} {S : β → Prop}

/-- **An invariant of the steps and of the surroundings holds at the end of a run**, and the answer
is as it should be. -/
theorem runs_of_maintains {p : Process σ α} (hp : Maintains I Q p)
    (hE : ∀ s t, E.moves s t → I s → I t) {s t : σ} {o : Option α} (h : Runs E p s o t)
    (hs : I s) : I t ∧ ∀ a, o = some a → Q a := by
  induction h with
  | done h =>
    cases hp with
    | done hq =>
      refine ⟨hE _ _ h hs, fun a ha => ?_⟩
      obtain rfl := Option.some.inj ha
      exact hq
  | act h _ ih =>
    cases hp with
    | act hg hk =>
      have hs' := hE _ _ h hs
      exact ih (hk _ hs') (hg _ hs')
  | wait h _ _ ih =>
    cases hp with
    | wait hc hk =>
      have hs' := hE _ _ h hs
      exact ih (hk _ hs') hs'
  | gone h ht =>
    cases hp with
    | wait hc hk => exact ⟨hE _ _ ht (hc _ (hE _ _ h hs)), fun a ha => by cases ha⟩

theorem maintains_next? {p q : Process σ α} {s t : σ} (hp : Maintains I Q p) (hs : I s)
    (h : p.next? s = some (q, t)) : Maintains I Q q ∧ I t := by
  cases hp with
  | done => cases h
  | act hg hk =>
    obtain ⟨rfl, rfl⟩ := next?_act h
    exact ⟨hk s hs, hg s hs⟩
  | wait hc hk =>
    obtain ⟨-, rfl, rfl⟩ := next?_wait h
    exact ⟨hk _ hs, hs⟩

omit [Clock σ] in
theorem Maintains.mono {p : Process σ α} {Q' : α → Prop} (hp : Maintains I Q p)
    (h : ∀ a, Q a → Q' a) : Maintains I Q' p := by
  induction hp with
  | done hq => exact .done (h _ hq)
  | act hg _ ih => exact .act hg ih
  | wait hc _ ih => exact .wait hc ih

omit [Clock σ] in
theorem maintains_bind {p : Process σ α} {f : α → Process σ β} (hp : Maintains I Q p)
    (hf : ∀ a, Q a → Maintains I S (f a)) : Maintains I S (p.bind f) := by
  induction hp with
  | done hq => exact hf _ hq
  | act hg _ ih => exact .act hg ih
  | wait hc _ ih => exact .wait hc ih

omit [Clock σ] in
theorem maintains_map {p : Process σ α} {f : α → β} (hp : Maintains I Q p)
    (hf : ∀ a, Q a → S (f a)) : Maintains I S (f <$> p) :=
  maintains_bind hp fun a ha => .done (hf a ha)

omit [Clock σ] in
/-- A process whose steps keep `I` from every state maintains it. -/
theorem maintains_of_keeps {R : σ → σ → Prop} {p : Process σ α} (hp : Keeps R p)
    (hR : ∀ s t, R s t → I s → I t) : Maintains I (fun _ => True) p := by
  induction hp with
  | done a => exact .done trivial
  | act hg _ ih => exact .act (fun s hs => hR s _ (hg s) hs) fun s _ => ih s
  | wait hc _ ih => exact .wait (fun s hs => hR s _ (hc s) hs) fun s _ => ih s

omit [Clock σ] in
/-- What happens apart from an invariant keeps it beside another one. -/
theorem Maintains.and_keeps {J : σ → Prop} {R : σ → σ → Prop} {p : Process σ α}
    (hp : Maintains I Q p) (hk : Keeps R p) (hR : ∀ s t, R s t → J s → J t) :
    Maintains (fun s => I s ∧ J s) Q p := by
  induction hp with
  | done hq => exact .done hq
  | act hg _ ih =>
    cases hk with
    | act hg' hk =>
      exact .act (fun s hs => ⟨hg s hs.1, hR s _ (hg' s) hs.2⟩) fun s hs => ih s hs.1 (hk s)
  | wait hc _ ih =>
    cases hk with
    | wait hc' hk =>
      exact .wait (fun s hs => ⟨hc s hs.1, hR s _ (hc' s) hs.2⟩) fun s hs => ih s hs.1 (hk s)

omit [Clock σ] in
theorem maintains_look {k : σ → Process σ α} (hk : ∀ s, I s → Maintains I Q (k s)) :
    Maintains I Q (look k) := .act (fun _ hs => hs) hk

theorem maintains_within {p : Process σ α} (hp : Maintains I Q p) (l : Nat) :
    Maintains I (fun o => ∀ a, o = some a → Q a) (p.within l) := by
  induction hp with
  | done hq =>
    refine .done fun a ha => ?_
    obtain rfl := Option.some.inj ha
    exact hq
  | act hg _ ih => exact .act hg ih
  | wait hc _ ih =>
    refine .wait hc fun s hs => ?_
    split
    · exact ih s hs
    · exact .act hc fun _ _ => .done fun a ha => by cases ha

theorem maintains_timeout {p : Process σ α} (hp : Maintains I Q p) (d : Duration) :
    Maintains I (fun o => ∀ a, o = some a → Q a) (p.timeout d) :=
  maintains_look fun _ _ => maintains_within hp _

omit [Clock σ] in
theorem maintains_guarded {p : Process σ α} {leave : σ → σ} (hp : Maintains I Q p)
    (hl : ∀ s, I s → I (leave s)) : Maintains I Q (p.guarded leave) := by
  induction hp with
  | done hq => exact .act hl fun _ _ => .done hq
  | act hg _ ih => exact .act hg ih
  | wait hc _ ih => exact .wait (fun s hs => hl _ (hc s hs)) ih

theorem maintains_beside {w : Wait σ} {c : σ → σ} (hc : ∀ s, I s → I (c s))
    {resume : σ → Process σ β → Process σ α} {alone : β → σ → Process σ α}
    (hr : ∀ s q, I s → Maintains I S q → Maintains I Q (resume s q))
    (ha : ∀ b s, I s → S b → Maintains I Q (alone b s)) {q : Process σ β}
    (hq : Maintains I S q) : Maintains I Q (q.beside w c resume alone) := by
  induction hq with
  | done hb => exact .wait hc fun s hs => ha _ s hs hb
  | act hg _ ih => exact .act hg ih
  | @wait v c' k hc' hk ih =>
    refine maintains_look fun s hs => ?_
    split
    · exact ih s hs
    · refine .wait (fun s hs => hc' _ (hc s hs)) fun s hs => ?_
      split
      · exact hr s _ hs (.wait hc' hk)
      · exact ih s hs

theorem maintains_both {p : Process σ α} {q : Process σ β} (hp : Maintains I Q p)
    (hq : Maintains I S q) : Maintains I (fun x => Q x.1 ∧ S x.2) (p.both q) := by
  induction hp generalizing q with
  | done ha => exact maintains_map hq fun _ hb => ⟨ha, hb⟩
  | act hg _ ih => exact .act hg fun s hs => ih s hs hq
  | wait hc hk ih =>
    refine maintains_look fun s hs => ?_
    split
    · exact ih s hs hq
    · refine maintains_beside hc (fun s _ hs => ih s hs) (fun b s hs hb => ?_) hq
      exact maintains_map (hk s hs) fun _ ha => ⟨ha, hb⟩

/-- Processes side by side maintain what each of them does, and each gives its own answer. -/
theorem maintains_all {κ : Type} {f : κ → Process σ α} {T : κ → α → Prop} {ks : List κ}
    (h : ∀ k ∈ ks, Maintains I (T k) (f k)) :
    Maintains I (List.Forall₂ T ks) (all (ks.map f)) := by
  induction ks with
  | nil => exact .done .nil
  | cons k ks ih =>
    have hks := ih fun j hj => h j (List.mem_cons_of_mem _ hj)
    exact maintains_map (maintains_both (h k List.mem_cons_self) hks) fun _ hx => .cons hx.1 hx.2

end Maintaining

/-! ## Runs in a pool -/

theorem next?_runs {p q : Process σ α} {s s' t : σ} {o : Option α} (h : p.next? s = some (q, s'))
    (hq : Runs E q s' o t) : Runs E p s o t := by
  cases p with
  | done a => simp [next?] at h
  | act g k =>
    obtain ⟨rfl, rfl⟩ := next?_act h
    exact .act (E.refl s) hq
  | wait w c k =>
    obtain ⟨hr, rfl, rfl⟩ := next?_wait h
    exact .wait (E.refl s') (E.ripe_of_ready hr) hq

/-- The process has come so far in a run: with what remains of it, or given up. -/
def Came (E : Surroundings σ) (p : Process σ α) (s : σ) (s' : σ) : Option (Process σ α) → Prop
  | some q => ∀ o t, Runs E q s' o t → Runs E p s o t
  | none => Runs E p s none s'

theorem came_moves {p : Process σ α} {s s₁ s₂ : σ} {r : Option (Process σ α)}
    (h : Came E p s s₁ r) (hm : E.moves s₁ s₂) : Came E p s s₂ r := by
  cases r with
  | some q => exact fun o t hr => h o t (hr.after hm)
  | none => exact Runs.before h hm

variable {ι ε : Type} [DecidableEq ι] {effect : ε → σ → σ}

/-- **In a pool a process goes through one of its runs**, if the others' steps and what happens
from outside are among the moves of its surroundings. -/
theorem runs_of_pool {p : Pool ι σ α} {i : ι} {q : Process σ α} (hq : p.threads i = some q)
    (ho : ∀ j r, j ≠ i → p.threads j = some r → Keeps E.moves r)
    (he : ∀ e s, E.moves s (effect e s)) (ts : List (Turn ι ε)) :
    Came E q p.state (p.run effect ts).state ((p.run effect ts).threads i) := by
  refine (Pool.run_induction (I := fun p' => Came E q p.state p'.state (p'.threads i) ∧
    ∀ j r, j ≠ i → p'.threads j = some r → Keeps E.moves r) ?_ ts
    ⟨hq ▸ fun _ _ h => h, ho⟩).1
  rintro p₁ t x p₂ ⟨hc, ho⟩ hm
  refine ⟨?_, fun j r hj hr => (Pool.keeps_of_moved E.refl (fun r' => ho j r' hj) hm).1 r hr⟩
  cases hm with
  | still => exact hc
  | outside e => exact came_moves hc (he e _)
  | @step k r r' s' hr hs =>
    by_cases hk : k = i
    · subst hk
      rw [hr] at hc
      change Came E q p.state s' (Function.update p₁.threads k (some r') k)
      rw [Function.update_self]
      exact fun o t h => hc o t (next?_runs hs h)
    · change Came E q p.state s' (Function.update p₁.threads k (some r') i)
      rw [Function.update_of_ne (Ne.symm hk)]
      exact came_moves hc (keeps_next? (E.refl _) (ho k r hk hr) hs).2
  | @gone k w c r hr =>
    by_cases hk : k = i
    · subst hk
      rw [hr] at hc
      change Came E q p.state (c p₁.state) (Function.update p₁.threads k none k)
      rw [Function.update_self]
      exact hc none _ (.gone (E.refl _) (E.refl _))
    · change Came E q p.state (c p₁.state) (Function.update p₁.threads k none i)
      rw [Function.update_of_ne (Ne.symm hk)]
      cases ho k _ hk hr with
      | wait hc' _ => exact came_moves hc (hc' _)

end Process
end LayeredCache

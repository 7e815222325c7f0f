import LayeredCache.Process.Basic
import LayeredCache.Slot

/-!
# The steps of a process

The step that a process takes next, what becomes of it when it is given up, and how its steps show
in a process that is put together from others: one after the other, or over a part of the state.

Results:
* `next?_bind_cases`, `next?_embed`, `next?_of_embed`: the steps of a process put together.
* `keeps_bind`, `keeps_next?`: a process whose steps all change the state in one way.
-/

namespace LayeredCache

namespace Process

variable {σ α β : Type}

/-- The next step of a process: what remains of it, and the state then. -/
def next? [Clock σ] : Process σ α → σ → Option (Process σ α × σ)
  | .done _, _ => none
  | .act g k, s => some (k s, g s)
  | .wait w _ k, s => if w.ready s then some (k s, s) else none

/-- What giving the process up does to the state, if it waits. -/
def abandon? : Process σ α → Option (σ → σ)
  | .wait _ c _ => some c
  | _ => none

/-- The answer of a process that has ended. -/
def answer? : Process σ α → Option α
  | .done a => some a
  | _ => none

/-- The process waits or has ended: it is not in the middle of its steps. -/
def AtRest : Process σ α → Prop
  | .act _ _ => False
  | _ => True

theorem next?_act [Clock σ] {g : σ → σ} {k : σ → Process σ α} {q : Process σ α} {s s' : σ}
    (h : (act g k).next? s = some (q, s')) : k s = q ∧ g s = s' :=
  Prod.mk.inj (Option.some.inj h)

theorem next?_wait [Clock σ] {w : Wait σ} {c : σ → σ} {k : σ → Process σ α} {q : Process σ α}
    {s s' : σ} (h : (wait w c k).next? s = some (q, s')) :
    w.ready s = true ∧ q = k s ∧ s' = s := by
  simp only [next?, Option.ite_none_right_eq_some, Option.some.injEq, Prod.mk.injEq] at h
  exact ⟨h.1, h.2.1.symm, h.2.2.symm⟩

/-- A process has one next step at most. -/
theorem next?_unique [Clock σ] {p q q' : Process σ α} {s t t' : σ} (h : p.next? s = some (q, t))
    (h' : p.next? s = some (q', t')) : q = q' ∧ t = t' :=
  Prod.mk.inj (Option.some.inj (h.symm.trans h'))

/-- A process followed by another takes the steps of the first one first. -/
theorem next?_bind [Clock σ] {p q : Process σ α} {s s' : σ} (h : p.next? s = some (q, s'))
    (f : α → Process σ β) : (p.bind f).next? s = some (q.bind f, s') := by
  cases p with
  | done a => simp [next?] at h
  | act g k =>
    obtain ⟨rfl, rfl⟩ := next?_act h
    rfl
  | wait w c k =>
    obtain ⟨hr, rfl, rfl⟩ := next?_wait h
    simp [bind, next?, hr]

theorem next?_bind_cases [Clock σ] {p : Process σ α} {f : α → Process σ β} {r : Process σ β}
    {s s' : σ} (h : (p.bind f).next? s = some (r, s')) :
    (∃ q, p.next? s = some (q, s') ∧ r = q.bind f) ∨
      ∃ a, p = .done a ∧ (f a).next? s = some (r, s') := by
  cases p with
  | done a => exact .inr ⟨a, rfl, h⟩
  | act g k =>
    obtain ⟨rfl, rfl⟩ := next?_act h
    exact .inl ⟨k s, rfl, rfl⟩
  | wait w c k =>
    obtain ⟨hr, rfl, rfl⟩ := next?_wait h
    exact .inl ⟨_, by simp [next?, hr], rfl⟩

/-- A guarded process takes its own steps, then leaves. -/
theorem next?_guarded_cases [Clock σ] {leave : σ → σ} {p r : Process σ α} {s s' : σ}
    (h : (p.guarded leave).next? s = some (r, s')) :
    (∃ q, p.next? s = some (q, s') ∧ r = q.guarded leave) ∨
      ∃ a, p = .done a ∧ r = .done a ∧ s' = leave s := by
  cases p with
  | done a =>
    obtain ⟨rfl, rfl⟩ := next?_act h
    exact .inr ⟨a, rfl, rfl, rfl⟩
  | act g k =>
    obtain ⟨rfl, rfl⟩ := next?_act h
    exact .inl ⟨k s, rfl, rfl⟩
  | wait w c k =>
    obtain ⟨hr, rfl, rfl⟩ := next?_wait h
    exact .inl ⟨_, by simp [next?, hr], rfl⟩

/-! ## Processes over a part of the state -/

/-- A wait for a part of the state. -/
def waitFor {ρ : Type} (slot : Slot σ ρ) : Wait ρ → Wait σ
  | .time t => .time t
  | .event ready => .event fun s => ready (slot.get s)
  | .either a b => .either (waitFor slot a) (waitFor slot b)

/-- A process over a part of the state, as one over the whole. -/
def embed {ρ : Type} (slot : Slot σ ρ) : Process ρ α → Process σ α
  | .done a => .done a
  | .act g k => .act (slot.modify g) fun s => (k (slot.get s)).embed slot
  | .wait w c k => .wait (waitFor slot w) (slot.modify c) fun s => (k (slot.get s)).embed slot

variable {ρ : Type} {slot : Slot σ ρ}

theorem next?_embed [Clock σ] {p : Process ρ α} {q : Process σ α} {s s' : σ}
    (h : (p.embed slot).next? s = some (q, s')) :
    ∃ p' : Process ρ α, q = p'.embed slot ∧ (s' = s ∨ ∃ r, s' = slot.set r s) := by
  cases p with
  | done a => simp [embed, next?] at h
  | act g k =>
    obtain ⟨rfl, rfl⟩ := next?_act h
    exact ⟨_, rfl, .inr ⟨_, rfl⟩⟩
  | wait w c k =>
    obtain ⟨-, rfl, rfl⟩ := next?_wait h
    exact ⟨_, rfl, .inl rfl⟩

/-- A wait for a part of the state whose clock shows the same. -/
theorem ready_waitFor [Clock σ] [Clock ρ] (hc : ∀ s, Clock.now s = Clock.now (slot.get s))
    (w : Wait ρ) (s : σ) : (waitFor slot w).ready s = w.ready (slot.get s) := by
  induction w with
  | time t => simp only [waitFor, Wait.ready, hc]
  | event ready => rfl
  | either a b iha ihb => rw [waitFor, Wait.ready, iha, ihb, Wait.ready]

/-- A step over a part of the state whose clock shows the same is a step of the part. -/
theorem next?_of_embed [Clock σ] [Clock ρ] (slot : Slot σ ρ)
    (hc : ∀ s, Clock.now s = Clock.now (slot.get s)) (hs : ∀ s, slot.set (slot.get s) s = s)
    {p : Process ρ α} {q : Process σ α} {s s' : σ} (h : (p.embed slot).next? s = some (q, s')) :
    ∃ p' r, q = p'.embed slot ∧ p.next? (slot.get s) = some (p', r) ∧ s' = slot.set r s := by
  cases p with
  | done a => simp [embed, next?] at h
  | act g k =>
    obtain ⟨rfl, rfl⟩ := next?_act h
    exact ⟨_, _, rfl, rfl, rfl⟩
  | wait w c k =>
    obtain ⟨hr, rfl, hs'⟩ := next?_wait h
    rw [ready_waitFor hc] at hr
    obtain rfl := hs'
    exact ⟨_, _, rfl, by simp [next?, hr], (hs _).symm⟩

theorem embed_eq_done {p : Process ρ α} {a : α} (h : p.embed slot = .done a) : p = .done a := by
  cases p with
  | done b =>
    obtain rfl := Process.done.inj h
    rfl
  | act g k => cases h
  | wait w c k => cases h

/-! ## What a process does to the state -/

/-- Every step of the process, and giving it up, changes the state by `R`. -/
inductive Keeps (R : σ → σ → Prop) : Process σ α → Prop
  | done (a : α) : Keeps R (.done a)
  | act {g : σ → σ} {k : σ → Process σ α} (hg : ∀ s, R s (g s)) (hk : ∀ s, Keeps R (k s)) :
      Keeps R (.act g k)
  | wait {w : Wait σ} {c : σ → σ} {k : σ → Process σ α} (hc : ∀ s, R s (c s))
      (hk : ∀ s, Keeps R (k s)) : Keeps R (.wait w c k)

variable {R : σ → σ → Prop}

theorem Keeps.mono {R' : σ → σ → Prop} {p : Process σ α} (hp : Keeps R p)
    (h : ∀ s t, R s t → R' s t) : Keeps R' p := by
  induction hp with
  | done a => exact .done a
  | act hg _ ih => exact .act (fun s => h s _ (hg s)) ih
  | wait hc _ ih => exact .wait (fun s => h s _ (hc s)) ih

theorem keeps_bind {p : Process σ α} {f : α → Process σ β} (hp : Keeps R p)
    (hf : ∀ a, Keeps R (f a)) : Keeps R (p.bind f) := by
  induction hp with
  | done a => exact hf a
  | act hg _ ih => exact .act hg ih
  | wait hc _ ih => exact .wait hc ih

/-- What a process keeps, its beginning keeps. -/
theorem keeps_of_bind {p : Process σ α} {f : α → Process σ β} (h : Keeps R (p.bind f)) :
    Keeps R p := by
  induction p with
  | done a => exact .done a
  | act g k ih =>
    cases h with
    | act hg hk => exact .act hg fun s => ih s (hk s)
  | wait w c k ih =>
    cases h with
    | wait hc hk => exact .wait hc fun s => ih s (hk s)

theorem keeps_embed (hR : ∀ g s, R s (slot.modify g s)) (p : Process ρ α) :
    Keeps R (p.embed slot) := by
  induction p with
  | done a => exact .done a
  | act g k ih => exact .act (hR g) fun s => ih _
  | wait w c k ih => exact .wait (hR c) fun s => ih _

theorem keeps_next? [Clock σ] {p q : Process σ α} {s s' : σ} (hR : R s s) (hp : Keeps R p)
    (h : p.next? s = some (q, s')) : Keeps R q ∧ R s s' := by
  cases hp with
  | done a => simp [next?] at h
  | act hg hk =>
    obtain ⟨rfl, rfl⟩ := next?_act h
    exact ⟨hk s, hg s⟩
  | wait hc hk =>
    obtain ⟨-, rfl, rfl⟩ := next?_wait h
    exact ⟨hk _, hR⟩

end Process
end LayeredCache

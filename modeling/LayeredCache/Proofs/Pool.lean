import LayeredCache.Proofs.Process
import Mathlib.Logic.Function.Basic

/-!
# Pools

A pool is a set of processes over one state, in any number and in any order of steps. A turn lets
one process take its next step, gives a waiting process up, or changes the state from outside (time
passes, somebody else works on it). A schedule is a list of turns; whatever holds after every
schedule holds in every interleaving.

A process that has nothing to do at its turn stays as it is, so every list of turns is a schedule.

Results:
* `moved_turn`: what one turn can do to a pool, and the step it is in the history.
* `run_induction`, `fold_induction`: what every turn keeps holds after every schedule.
-/

namespace LayeredCache

/-! ## Pools and turns -/

/-- Processes side by side; one that was given up is gone. -/
structure Pool (ι σ α : Type) where
  state : σ
  threads : ι → Option (Process σ α)

/-- What can happen next in a pool. -/
inductive Turn (ι ε : Type) where
  /-- A process takes its next step. -/
  | go (i : ι)
  /-- A waiting process is given up. -/
  | drop (i : ι)
  /-- The state changes from outside. -/
  | outside (e : ε)

namespace Pool

variable {ι ε σ α : Type} [DecidableEq ι] [Clock σ] (effect : ε → σ → σ)

/-- The pool after a turn. -/
def turn (p : Pool ι σ α) : Turn ι ε → Pool ι σ α
  | .go i =>
    match (p.threads i).bind (·.next? p.state) with
    | some (q, s) => ⟨s, Function.update p.threads i (some q)⟩
    | none => p
  | .drop i =>
    match (p.threads i).bind (·.abandon?) with
    | some c => ⟨c p.state, Function.update p.threads i none⟩
    | none => p
  | .outside e => ⟨effect e p.state, p.threads⟩

/-- The pool after a schedule. -/
def run (p : Pool ι σ α) (ts : List (Turn ι ε)) : Pool ι σ α := ts.foldl (turn effect) p

/-- A step of a process: the state before and after, and the answer if the process ended. -/
structure Event (ι σ α : Type) where
  who : ι
  before : σ
  after : σ
  answer : Option α

/-- The step that a process takes at a turn. -/
def event? (p : Pool ι σ α) : Turn ι ε → Option (Event ι σ α)
  | .go i =>
    match (p.threads i).bind (·.next? p.state) with
    | some (q, s) => some ⟨i, p.state, s, q.answer?⟩
    | none => none
  | _ => none

/-- The steps that processes take in a schedule, in order. -/
def history : List (Turn ι ε) → Pool ι σ α → List (Event ι σ α)
  | [], _ => []
  | t :: ts, p => (p.event? t).toList ++ history ts (p.turn effect t)

theorem turn_go {p : Pool ι σ α} {i : ι} {q q' : Process σ α} {s : σ} (hq : p.threads i = some q)
    (hs : q.next? p.state = some (q', s)) :
    p.turn effect (.go i) = ⟨s, Function.update p.threads i (some q')⟩ := by
  simp [turn, hq, hs]

omit [DecidableEq ι] in
theorem event?_go {p : Pool ι σ α} {i : ι} {q q' : Process σ α} {s : σ} (hq : p.threads i = some q)
    (hs : q.next? p.state = some (q', s)) :
    p.event? (.go i : Turn ι ε) = some ⟨i, p.state, s, q'.answer?⟩ := by
  simp [event?, hq, hs]

/-- What a turn can do to a pool. -/
inductive Moved (p : Pool ι σ α) : Turn ι ε → Option (Event ι σ α) → Pool ι σ α → Prop
  | still (t : Turn ι ε) : Moved p t none p
  | step {i : ι} {q q' : Process σ α} {s : σ} (hq : p.threads i = some q)
      (hs : q.next? p.state = some (q', s)) :
      Moved p (.go i) (some ⟨i, p.state, s, q'.answer?⟩)
        ⟨s, Function.update p.threads i (some q')⟩
  | gone {i : ι} {w : Wait σ} {c : σ → σ} {k : σ → Process σ α}
      (hq : p.threads i = some (.wait w c k)) :
      Moved p (.drop i) none ⟨c p.state, Function.update p.threads i none⟩
  | outside (e : ε) : Moved p (.outside e) none ⟨effect e p.state, p.threads⟩

theorem moved_turn (p : Pool ι σ α) (t : Turn ι ε) :
    Moved effect p t (p.event? t) (p.turn effect t) := by
  cases t with
  | go i =>
    cases hq : p.threads i with
    | none =>
      rw [show p.turn effect (.go i) = p by simp [turn, hq],
        show p.event? (.go i : Turn ι ε) = none by simp [event?, hq]]
      exact .still _
    | some q =>
      cases hs : q.next? p.state with
      | none =>
        rw [show p.turn effect (.go i) = p by simp [turn, hq, hs],
          show p.event? (.go i : Turn ι ε) = none by simp [event?, hq, hs]]
        exact .still _
      | some x =>
        rw [turn_go effect hq hs, event?_go hq hs]
        exact .step hq hs
  | drop i =>
    cases hq : p.threads i with
    | none =>
      rw [show p.turn effect (.drop i) = p by simp [turn, hq]]
      exact .still _
    | some q =>
      cases q with
      | wait w c k =>
        rw [show p.turn effect (.drop i) = ⟨c p.state, Function.update p.threads i none⟩ by
          simp [turn, hq, Process.abandon?]]
        exact .gone hq
      | done a =>
        rw [show p.turn effect (.drop i) = p by simp [turn, hq, Process.abandon?]]
        exact .still _
      | act g k =>
        rw [show p.turn effect (.drop i) = p by simp [turn, hq, Process.abandon?]]
        exact .still _
  | outside e => exact .outside e

theorem run_append (p : Pool ι σ α) (ts us : List (Turn ι ε)) :
    p.run effect (ts ++ us) = (p.run effect ts).run effect us := List.foldl_append

theorem history_append (ts us : List (Turn ι ε)) (p : Pool ι σ α) :
    history effect (ts ++ us) p = history effect ts p ++ history effect us (p.run effect ts) := by
  induction ts generalizing p with
  | nil => rfl
  | cons t ts ih => rw [List.cons_append, history, history, ih, List.append_assoc]; rfl

/-- What there is after a turn of thread `i`: what the turn has put there, or what was elsewhere. -/
theorem update_eq_some {β : Type} {f : ι → Option β} {i j : ι} {y : Option β} {b : β}
    (h : Function.update f i y j = some b) : j = i ∧ y = some b ∨ j ≠ i ∧ f j = some b := by
  by_cases hj : j = i
  · subst hj
    rw [Function.update_self] at h
    exact .inl ⟨rfl, h⟩
  · rw [Function.update_of_ne hj] at h
    exact .inr ⟨hj, h⟩

omit [Clock σ] in
/-- Threads that are at stages are so after a turn by which one of them is at another stage, or
gone. -/
theorem update_eq_map {κ β : Type} [DecidableEq κ] {threads : ι → Option (Process σ α)}
    {e : κ → ι} (he : Function.Injective e) {stages : κ → Option β} {f : κ → β → Process σ α}
    (h : ∀ j, threads (e j) = (stages j).map (f j)) (i : κ) (y : Option β) (j : κ) :
    Function.update threads (e i) (y.map (f i)) (e j) =
      (Function.update stages i y j).map (f j) := by
  by_cases hj : j = i
  · subst hj
    rw [Function.update_self, Function.update_self]
  · rw [Function.update_of_ne (he.ne hj), Function.update_of_ne hj]
    exact h j

/-- Where one process alone takes turns, all steps are its own. -/
theorem who_of_mem_history {i : ι} {ts : List (Turn ι ε)} (h : ∀ t ∈ ts, t = .go i)
    {p : Pool ι σ α} {e : Event ι σ α} (he : e ∈ history effect ts p) : e.who = i := by
  induction ts generalizing p with
  | nil => exact absurd he List.not_mem_nil
  | cons t ts ih =>
    obtain rfl := h t List.mem_cons_self
    rcases List.mem_append.mp he with he | he
    · have hm := moved_turn effect p (.go i)
      rw [Option.mem_toList.mp he] at hm
      generalize p.turn effect (.go i) = p' at hm
      cases hm with
      | step _ _ => rfl
    · exact ih (fun t ht => h t (List.mem_cons_of_mem _ ht)) he

variable {effect}

/-- What every turn keeps holds after every schedule. -/
theorem run_induction {I : Pool ι σ α → Prop}
    (h : ∀ p t x p', I p → Moved effect p t x p' → I p') :
    ∀ (ts : List (Turn ι ε)) {p : Pool ι σ α}, I p → I (p.run effect ts)
  | [], _, hp => hp
  | t :: ts, p, hp => run_induction h ts (h p t _ _ hp (moved_turn effect p t))

/-- An answer stands. -/
theorem threads_run_done {i : ι} {a : α} (ts : List (Turn ι ε)) {p : Pool ι σ α}
    (h : p.threads i = some (.done a)) : (p.run effect ts).threads i = some (.done a) := by
  refine run_induction (I := fun p' => p'.threads i = some (.done a)) ?_ ts h
  rintro p t x p' h hm
  cases hm with
  | still => exact h
  | outside => exact h
  | @step j q q' s hq hs =>
    by_cases hi : i = j
    · subst hi
      obtain rfl := Option.some.inj (h.symm.trans hq)
      cases hs
    · exact (Function.update_of_ne hi ..).trans h
  | @gone j w c k hq =>
    by_cases hi : i = j
    · subst hi
      cases h.symm.trans hq
    · exact (Function.update_of_ne hi ..).trans h

/-- What every turn keeps, with a record kept of the steps, holds after every schedule with the
record of its history. -/
theorem fold_induction {κ : Type} {note : κ → Event ι σ α → κ} {I : Pool ι σ α → κ → Prop}
    (h : ∀ p t x p' a, I p a → Moved effect p t x p' → I p' (x.toList.foldl note a)) :
    ∀ (ts : List (Turn ι ε)) {p : Pool ι σ α} {a : κ}, I p a →
      I (p.run effect ts) ((history effect ts p).foldl note a)
  | [], _, _, hp => hp
  | t :: ts, p, a, hp => by
    rw [history, List.foldl_append]
    exact fold_induction h ts (h p t _ _ a hp (moved_turn effect p t))

/-- The same with the history so far at hand. -/
theorem history_induction {κ : Type} {note : κ → Event ι σ α → κ}
    {I : Pool ι σ α → κ → List (Event ι σ α) → Prop}
    (h : ∀ p t x p' a past, I p a past → Moved effect p t x p' →
      I p' (x.toList.foldl note a) (past ++ x.toList)) :
    ∀ (ts : List (Turn ι ε)) {p : Pool ι σ α} {a : κ} {past : List (Event ι σ α)}, I p a past →
      I (p.run effect ts) ((history effect ts p).foldl note a) (past ++ history effect ts p)
  | [], _, _, past, hp => by
    rw [history, List.append_nil]
    exact hp
  | t :: ts, p, a, past, hp => by
    rw [history, List.foldl_append, ← List.append_assoc]
    exact history_induction h ts (h p t _ _ a past hp (moved_turn effect p t))

/-- The same with the history alone. -/
theorem past_induction {I : Pool ι σ α → List (Event ι σ α) → Prop}
    (h : ∀ p t x p' past, I p past → Moved effect p t x p' → I p' (past ++ x.toList)) :
    ∀ (ts : List (Turn ι ε)) {p : Pool ι σ α} {past : List (Event ι σ α)}, I p past →
      I (p.run effect ts) (past ++ history effect ts p)
  | [], _, past, hp => by
    rw [history, List.append_nil]
    exact hp
  | t :: ts, p, past, hp => by
    rw [history, ← List.append_assoc]
    exact past_induction h ts (h p t _ _ past hp (moved_turn effect p t))

variable (effect) in
/-- Every turn of a schedule is taken where `ok` allows it. -/
def Along (ok : Pool ι σ α → Turn ι ε → Prop) : List (Turn ι ε) → Pool ι σ α → Prop
  | [], _ => True
  | t :: ts, p => ok p t ∧ Along ok ts (p.turn effect t)

/-- A schedule is tried by running it. -/
def decidableAlong {ok : Pool ι σ α → Turn ι ε → Prop} [∀ p t, Decidable (ok p t)] :
    ∀ (ts : List (Turn ι ε)) (p : Pool ι σ α), Decidable (Along effect ok ts p)
  | [], _ => .isTrue trivial
  | t :: ts, p =>
    have : Decidable (Along effect ok ts (p.turn effect t)) := decidableAlong ts _
    inferInstanceAs (Decidable (ok p t ∧ Along effect ok ts (p.turn effect t)))

instance {ok : Pool ι σ α → Turn ι ε → Prop} [∀ p t, Decidable (ok p t)] (ts : List (Turn ι ε))
    (p : Pool ι σ α) : Decidable (Along effect ok ts p) := decidableAlong ts p

theorem along_trivial : ∀ (ts : List (Turn ι ε)) {p : Pool ι σ α},
    Along effect (fun _ _ => True) ts p
  | [], _ => trivial
  | _ :: ts, _ => ⟨trivial, along_trivial ts⟩

theorem along_append_iff {ok : Pool ι σ α → Turn ι ε → Prop} {us : List (Turn ι ε)} :
    ∀ {ts : List (Turn ι ε)} {p : Pool ι σ α}, Along effect ok (ts ++ us) p ↔
      Along effect ok ts p ∧ Along effect ok us (p.run effect ts)
  | [], _ => ⟨fun h => ⟨trivial, h⟩, fun h => h.2⟩
  | _ :: _, _ => (and_congr_right fun _ => along_append_iff).trans and_assoc.symm

/-- What every turn of a schedule keeps where it is allowed holds after the schedule. -/
theorem along_induction {ok : Pool ι σ α → Turn ι ε → Prop} {I : Pool ι σ α → Prop} :
    ∀ (ts : List (Turn ι ε)) {p : Pool ι σ α},
      (∀ p t x p', t ∈ ts → ok p t → I p → Moved effect p t x p' → I p') →
      Along effect ok ts p → I p → I (p.run effect ts)
  | [], _, _, _, hp => hp
  | t :: ts, p, h, ha, hp => by
    refine along_induction ts (fun q u x q' hu => h q u x q' (List.mem_cons_of_mem _ hu)) ha.2 ?_
    exact h p t _ _ List.mem_cons_self ha.1 hp (moved_turn effect p t)

/-- The same with the history so far at hand. -/
theorem along_past_induction {ok : Pool ι σ α → Turn ι ε → Prop}
    {I : Pool ι σ α → List (Event ι σ α) → Prop}
    (h : ∀ p t x p' past, ok p t → I p past → Moved effect p t x p' → I p' (past ++ x.toList)) :
    ∀ (ts : List (Turn ι ε)) {p : Pool ι σ α} {past : List (Event ι σ α)},
      Along effect ok ts p → I p past → I (p.run effect ts) (past ++ history effect ts p)
  | [], _, past, _, hp => by
    rw [history, List.append_nil]
    exact hp
  | t :: ts, p, past, ha, hp => by
    rw [history, ← List.append_assoc]
    exact along_past_induction h ts ha.2 (h p t _ _ past ha.1 hp (moved_turn effect p t))

theorem along_forall {κ : Type} {ok : κ → Pool ι σ α → Turn ι ε → Prop} :
    ∀ {ts : List (Turn ι ε)} {p : Pool ι σ α}, (∀ k, Along effect (ok k) ts p) →
      Along effect (fun p t => ∀ k, ok k p t) ts p
  | [], _, _ => trivial
  | _ :: _, _, h => ⟨fun k => (h k).1, along_forall fun k => (h k).2⟩

/-- A condition that is only asked for in some case. -/
theorem along_of_imp {T : Prop} {ok : Pool ι σ α → Turn ι ε → Prop} :
    ∀ {ts : List (Turn ι ε)} {p : Pool ι σ α}, (T → Along effect ok ts p) →
      Along effect (fun p t => T → ok p t) ts p
  | [], _, _ => trivial
  | _ :: _, _, h => ⟨fun ht => (h ht).1, along_of_imp fun ht => (h ht).2⟩

/-- A process whose steps change the state in one way does so at every turn. -/
theorem keeps_of_moved {R : σ → σ → Prop} (hR : ∀ s, R s s) {i : ι} {p p' : Pool ι σ α}
    {t : Turn ι ε} {x : Option (Event ι σ α)} (hk : ∀ q, p.threads i = some q → q.Keeps R)
    (hm : Moved effect p t x p') : (∀ q, p'.threads i = some q → q.Keeps R) ∧
      ∀ e ∈ x, e.who = i → R e.before e.after := by
  cases hm with
  | still => exact ⟨hk, fun e he => by cases he⟩
  | outside => exact ⟨hk, fun e he => by cases he⟩
  | @step j r r' s hr hs =>
    refine ⟨fun q hq => ?_, fun e he hi => ?_⟩
    · rcases update_eq_some hq with ⟨rfl, hq'⟩ | ⟨-, hq'⟩
      · obtain rfl := Option.some.inj hq'
        exact (Process.keeps_next? (hR _) (hk _ hr) hs).1
      · exact hk q hq'
    · obtain rfl := Option.some.inj he
      obtain rfl : j = i := hi
      exact (Process.keeps_next? (hR _) (hk _ hr) hs).2
  | gone hr =>
    refine ⟨fun q hq => ?_, fun e he => by cases he⟩
    rcases update_eq_some hq with ⟨-, hq'⟩ | ⟨-, hq'⟩
    · cases hq'
    · exact hk q hq'

theorem related_of_mem_history {R : σ → σ → Prop} (hR : ∀ s, R s s) {i : ι} :
    ∀ (ts : List (Turn ι ε)) {p : Pool ι σ α}, (∀ q, p.threads i = some q → q.Keeps R) →
      ∀ e ∈ history effect ts p, e.who = i → R e.before e.after
  | [], _, _, _, he, _ => absurd he List.not_mem_nil
  | t :: ts, p, hk, e, he, hi => by
    obtain ⟨hk', hx⟩ := keeps_of_moved hR hk (moved_turn effect p t)
    rcases List.mem_append.mp he with he | he
    · exact hx e (Option.mem_toList.mp he) hi
    · exact related_of_mem_history hR ts hk' e he hi

end Pool
end LayeredCache

import LayeredCache.Process.Join
import LayeredCache.Proofs.Runs
import Mathlib.Data.List.Forall2

/-!
# Processes in company

What a process comes to when others change the state beside it. What it does itself is such as
others may do, too, so that processes side by side keep each other company.

`Fulfils C Q p s` says that `p`, begun in `s`, answers only where `Q` holds of the answer and the
state, and goes on to hold. A wait may be over at any time.

Before it first rests, a process may look at some keys, one after the other, in steps of another
kind. `Opens C see Q ks p s` says that it looks at those of `ks`, in this order and no others, and
that it then fulfils `Q`, which may depend on the instants of the looks. A process that opens beside
others does so before the whole of them first rests.

Results:
* `fulfils_bind`, `fulfils_both`: processes one after the other and side by side.
* `opens_both`, `opens_all`: processes that open one after the other.
* `opens_of_run`: what a process alone in a pool has come to after a schedule.
* `exists_answer`: a process whose waits can all be ended from outside can be made to answer.
-/

namespace LayeredCache

/-- What may be done to the state. -/
structure Company (σ : Type) where
  /-- What a process does, by a step or when it is given up. -/
  own : σ → σ → Prop
  /-- What others may do beside it. -/
  moves : σ → σ → Prop
  refl : ∀ s, own s s
  trans : ∀ {s t u}, own s t → own t u → own s u
  moves_trans : ∀ {s t u}, moves s t → moves t u → moves s u
  moves_of_own : ∀ {s t}, own s t → moves s t

theorem Company.moves_refl {σ : Type} (C : Company σ) (s : σ) : C.moves s s :=
  C.moves_of_own (C.refl s)

theorem Company.moves_own {σ : Type} (C : Company σ) {s t u : σ} (h : C.moves s t)
    (ht : C.own t u) : C.moves s u := C.moves_trans h (C.moves_of_own ht)

namespace Process

variable {σ α β : Type} {C : Company σ} {Q : α → σ → Prop} {S : β → σ → Prop}

/-- The process answers only where `Q` holds, and goes on to hold. -/
inductive Fulfils (C : Company σ) (Q : α → σ → Prop) : Process σ α → σ → Prop
  | done {a : α} {s : σ} (h : ∀ t, C.moves s t → Q a t) : Fulfils C Q (.done a) s
  | act {g : σ → σ} {k : σ → Process σ α} {s : σ} (hg : ∀ t, C.moves s t → C.own t (g t))
      (hk : ∀ t, C.moves s t → Fulfils C Q (k t) (g t)) : Fulfils C Q (.act g k) s
  | wait {w : Wait σ} {c : σ → σ} {k : σ → Process σ α} {s : σ}
      (hc : ∀ t, C.moves s t → C.own t (c t)) (hk : ∀ t, C.moves s t → Fulfils C Q (k t) t) :
      Fulfils C Q (.wait w c k) s

theorem fulfils_done {a : α} {s : σ} (h : Fulfils C Q (.done a) s) : Q a s := by
  cases h with
  | done h => exact h s (C.moves_refl s)

/-- What others do does not matter. -/
theorem Fulfils.after {p : Process σ α} {s t : σ} (h : Fulfils C Q p s) (hm : C.moves s t) :
    Fulfils C Q p t := by
  cases h with
  | done h => exact .done fun u hu => h u (C.moves_trans hm hu)
  | act hg hk =>
    exact .act (fun u hu => hg u (C.moves_trans hm hu)) fun u hu => hk u (C.moves_trans hm hu)
  | wait hc hk =>
    exact .wait (fun u hu => hc u (C.moves_trans hm hu)) fun u hu => hk u (C.moves_trans hm hu)

/-- What holds and goes on to hold may be had beside. -/
theorem Fulfils.and {p : Process σ α} {s : σ} {P : σ → Prop} (h : Fulfils C Q p s)
    (hP : ∀ t, C.moves s t → P t) : Fulfils C (fun a t => Q a t ∧ P t) p s := by
  induction h with
  | done h => exact .done fun t ht => ⟨h t ht, hP t ht⟩
  | act hg _ ih =>
    refine .act hg fun t ht => ih t ht fun u hu => hP u ?_
    exact C.moves_trans (C.moves_own ht (hg t ht)) hu
  | wait hc _ ih => exact .wait hc fun t ht => ih t ht fun u hu => hP u (C.moves_trans ht hu)

/-! ## Processes put together -/

theorem fulfils_bind {p : Process σ α} {f : α → Process σ β} {s : σ} (hp : Fulfils C Q p s)
    (hf : ∀ a t, C.moves s t → (∀ u, C.moves t u → Q a u) → Fulfils C S (f a) t) :
    Fulfils C S (p.bind f) s := by
  induction hp with
  | @done a s h => exact hf a s (C.moves_refl s) h
  | act hg _ ih =>
    refine .act hg fun t ht => ih t ht fun a u hu => hf a u ?_
    exact C.moves_trans (C.moves_own ht (hg t ht)) hu
  | wait hc _ ih => exact .wait hc fun t ht => ih t ht fun a u hu => hf a u (C.moves_trans ht hu)

theorem fulfils_map {p : Process σ α} {f : α → β} {s : σ} (hp : Fulfils C Q p s)
    (hf : ∀ a t, C.moves s t → Q a t → S (f a) t) : Fulfils C S (f <$> p) s :=
  fulfils_bind hp fun a _ ht ha => .done fun u hu => hf a u (C.moves_trans ht hu) (ha u hu)

theorem fulfils_look {k : σ → Process σ α} {s : σ}
    (hk : ∀ t, C.moves s t → Fulfils C Q (k t) t) : Fulfils C Q (look k) s :=
  .act (fun t _ => C.refl t) hk

/-- A process over a part of the state, with an invariant of that part. -/
theorem fulfils_embed {ρ : Type} {slot : Slot σ ρ} {I : ρ → Prop} {A : α → Prop}
    {p : Process ρ α} (hp : Maintains I A p) {s : σ} (hI : ∀ t, C.moves s t → I (slot.get t))
    (hm : ∀ t r, C.moves s t → I r → C.own t (slot.set r t)) :
    Fulfils C (fun a _ => A a) (p.embed slot) s := by
  induction hp generalizing s with
  | done h => exact .done fun _ _ => h
  | @act g k hg _ ih =>
    have step (t : σ) (ht : C.moves s t) : C.own t (slot.modify g t) := hm t _ ht (hg _ (hI t ht))
    refine .act step fun t ht => ?_
    have hnext := C.moves_own ht (step t ht)
    exact ih _ (hI t ht) (fun u hu => hI u (C.moves_trans hnext hu))
      fun u r hu hr => hm u r (C.moves_trans hnext hu) hr
  | @wait w c k hc _ ih =>
    refine .wait (fun t ht => hm t _ ht (hc _ (hI t ht))) fun t ht => ?_
    exact ih _ (hI t ht) (fun u hu => hI u (C.moves_trans ht hu))
      fun u r hu hr => hm u r (C.moves_trans ht hu) hr

variable [Clock σ]

theorem fulfils_beside {γ : Type} {V : γ → σ → Prop} {w : Wait σ} {c : σ → σ}
    {resume : σ → Process σ β → Process σ γ} {alone : β → σ → Process σ γ} {q : Process σ β} {s : σ}
    (hc : ∀ t, C.moves s t → C.own t (c t))
    (hr : ∀ q t, C.moves s t → Fulfils C S q t → Fulfils C V (resume t q) t)
    (ha : ∀ b t, C.moves s t → (∀ u, C.moves t u → S b u) → Fulfils C V (alone b t) t)
    (hq : Fulfils C S q s) : Fulfils C V (q.beside w c resume alone) s := by
  induction hq with
  | done h => exact .wait hc fun t ht => ha _ t ht fun u hu => h u (C.moves_trans ht hu)
  | act hg _ ih =>
    refine .act hg fun t ht => ?_
    have hm := C.moves_own ht (hg t ht)
    exact ih t ht (fun u hu => hc u (C.moves_trans hm hu))
      (fun q u hu => hr q u (C.moves_trans hm hu)) fun b u hu => ha b u (C.moves_trans hm hu)
  | @wait v c' k s hc' hk ih =>
    have on (t : σ) (ht : C.moves s t) : Fulfils C V ((k t).beside w c resume alone) t :=
      ih t ht (fun u hu => hc u (C.moves_trans ht hu))
        (fun q u hu => hr q u (C.moves_trans ht hu)) fun b u hu => ha b u (C.moves_trans ht hu)
    refine fulfils_look fun t ht => ?_
    split
    · exact on t ht
    · refine .wait (fun u hu => ?_) fun u hu => ?_
      · have hu' := C.moves_trans ht hu
        have hown := hc u hu'
        exact C.trans hown (hc' _ (C.moves_own hu' hown))
      · have hu' := C.moves_trans ht hu
        split
        · exact hr _ u hu' (.wait (fun y hy => hc' y (C.moves_trans hu' hy))
            fun y hy => hk y (C.moves_trans hu' hy))
        · exact on u hu'

/-- **Of two processes side by side, each comes to what it comes to alone.** -/
theorem fulfils_both {p : Process σ α} {q : Process σ β} {s : σ} (hp : Fulfils C Q p s)
    (hq : Fulfils C S q s) : Fulfils C (fun x t => Q x.1 t ∧ S x.2 t) (p.both q) s := by
  induction hp generalizing q with
  | done h => exact fulfils_map (hq.and h) fun b t _ hb => ⟨hb.2, hb.1⟩
  | act hg _ ih => exact .act hg fun t ht => ih t ht (hq.after (C.moves_own ht (hg t ht)))
  | @wait w c k s hc hk ih =>
    refine fulfils_look fun t ht => ?_
    split
    · exact ih t ht (hq.after ht)
    · refine fulfils_beside (fun u hu => hc u (C.moves_trans ht hu))
        (fun q u hu hq => ih u (C.moves_trans ht hu) hq) (fun b u hu hb => ?_) (hq.after ht)
      exact fulfils_map ((hk u (C.moves_trans ht hu)).and hb) fun a x _ ha => ha

/-! ## Openings -/

section Opening

variable {κ : Type} {see : κ → σ → σ} {ks : List κ} {Z : List (κ × Nat) → α → σ → Prop}

/-- Before it first rests, the process looks at the keys of the list, one after the other; then it
fulfils `Z` for these looks. -/
inductive Opens (C : Company σ) (see : κ → σ → σ) :
    (List (κ × Nat) → α → σ → Prop) → List κ → Process σ α → σ → Prop
  | opened {Z : List (κ × Nat) → α → σ → Prop} {p : Process σ α} {s : σ}
      (h : Fulfils C (Z []) p s) : Opens C see Z [] p s
  | act {Z : List (κ × Nat) → α → σ → Prop} {ks : List κ} {g : σ → σ} {k : σ → Process σ α} {s : σ}
      (hg : ∀ t, C.moves s t → C.own t (g t))
      (hk : ∀ t, C.moves s t → Opens C see Z ks (k t) (g t)) : Opens C see Z ks (.act g k) s
  | see {Z : List (κ × Nat) → α → σ → Prop} {key : κ} {ks : List κ} {k : σ → Process σ α} {s : σ}
      (hk : ∀ t, C.moves s t →
        Opens C see (fun xs => Z ((key, Clock.instant t) :: xs)) ks (k t) (see key t)) :
      Opens C see Z (key :: ks) (.act (see key) k) s

theorem Opens.after {p : Process σ α} {s t : σ} (h : Opens C see Z ks p s) (hm : C.moves s t) :
    Opens C see Z ks p t := by
  cases h with
  | opened h => exact .opened (h.after hm)
  | act hg hk =>
    exact .act (fun u hu => hg u (C.moves_trans hm hu)) fun u hu => hk u (C.moves_trans hm hu)
  | see hk => exact .see fun u hu => hk u (C.moves_trans hm hu)

/-- A process that rests has looked at everything. -/
theorem Opens.at_rest {p : Process σ α} {s : σ} (h : Opens C see Z ks p s) (hr : p.AtRest) :
    ks = [] ∧ Fulfils C (Z []) p s := by
  cases h with
  | opened h => exact ⟨rfl, h⟩
  | act => exact absurd hr id
  | see => exact absurd hr id

theorem opens_bind {V : List (κ × Nat) → β → σ → Prop} {p : Process σ α} {f : α → Process σ β}
    {s : σ} (hp : Opens C see Z ks p s)
    (hf : ∀ xs a t, (∀ u, C.moves t u → Z xs a u) → Fulfils C (V xs) (f a) t) :
    Opens C see V ks (p.bind f) s := by
  induction hp generalizing V with
  | opened h => exact .opened (fulfils_bind h fun a t _ ha => hf [] a t ha)
  | act hg _ ih => exact .act hg fun t ht => ih t ht hf
  | see _ ih => exact .see fun t ht => ih t ht fun xs => hf _

theorem opens_map {V : List (κ × Nat) → β → σ → Prop} {p : Process σ α} {f : α → β} {s : σ}
    (hp : Opens C see Z ks p s) (hf : ∀ xs a t, Z xs a t → V xs (f a) t) :
    Opens C see V ks (f <$> p) s :=
  opens_bind hp fun xs a _ ha => .done fun u hu => hf xs a u (ha u hu)

/-- What holds and goes on to hold may be had beside. -/
theorem Opens.and {p : Process σ α} {s : σ} {P : σ → Prop} (h : Opens C see Z ks p s)
    (hsee : ∀ key t, C.moves t (see key t)) (hP : ∀ t, C.moves s t → P t) :
    Opens C see (fun xs a t => Z xs a t ∧ P t) ks p s := by
  induction h with
  | opened h => exact .opened (h.and hP)
  | act hg _ ih =>
    refine .act hg fun t ht => ih t ht fun u hu => hP u ?_
    exact C.moves_trans (C.moves_own ht (hg t ht)) hu
  | @see _ key _ _ _ _ ih =>
    refine .see fun t ht => ih t ht fun u hu => hP u ?_
    exact C.moves_trans (C.moves_trans ht (hsee key t)) hu

theorem opens_beside {γ : Type} {V : List (κ × Nat) → β → σ → Prop}
    {U : List (κ × Nat) → γ → σ → Prop} {w : Wait σ} {c : σ → σ}
    {resume : σ → Process σ β → Process σ γ} {alone : β → σ → Process σ γ} {q : Process σ β} {s : σ}
    (hsee : ∀ key t, C.moves t (see key t)) (hc : ∀ t, C.moves s t → C.own t (c t))
    (hr : ∀ xs q t, C.moves s t → Fulfils C (V xs) q t → Fulfils C (U xs) (resume t q) t)
    (ha : ∀ xs b t, C.moves s t → (∀ u, C.moves t u → V xs b u) → Fulfils C (U xs) (alone b t) t)
    (hq : Opens C see V ks q s) : Opens C see U ks (q.beside w c resume alone) s := by
  -- The other process goes on only when this one rests, so it finds it opened.
  induction hq generalizing U with
  | opened h => exact .opened (fulfils_beside hc (hr []) (ha []) h)
  | act hg _ ih =>
    refine .act hg fun t ht => ?_
    have hm := C.moves_own ht (hg t ht)
    exact ih t ht (fun u hu => hc u (C.moves_trans hm hu))
      (fun xs q u hu => hr xs q u (C.moves_trans hm hu))
      fun xs b u hu => ha xs b u (C.moves_trans hm hu)
  | @see _ key _ _ _ _ ih =>
    refine .see fun t ht => ?_
    have hm := C.moves_trans ht (hsee key t)
    exact ih t ht (fun u hu => hc u (C.moves_trans hm hu))
      (fun xs q u hu => hr _ q u (C.moves_trans hm hu))
      fun xs b u hu => ha _ b u (C.moves_trans hm hu)

/-- **A process that opens beside one that has done so.** -/
theorem opens_both {V : List (κ × Nat) → β → σ → Prop} {p : Process σ α} {q : Process σ β} {s : σ}
    (hsee : ∀ key t, C.moves t (see key t)) (hp : Fulfils C Q p s) (hq : Opens C see V ks q s) :
    Opens C see (fun xs x t => Q x.1 t ∧ V xs x.2 t) ks (p.both q) s := by
  induction hp generalizing q with
  | done h => exact opens_map (hq.and hsee h) fun xs b t hb => ⟨hb.2, hb.1⟩
  | act hg _ ih => exact .act hg fun t ht => ih t ht (hq.after (C.moves_own ht (hg t ht)))
  | @wait w c k s hc hk ih =>
    refine .act (fun t _ => C.refl t) fun t ht => ?_
    split
    · exact ih t ht (hq.after ht)
    · refine opens_beside hsee (fun u hu => hc u (C.moves_trans ht hu))
        (fun xs q u hu hq => ?_) (fun xs b u hu hb => ?_) (hq.after ht)
      · exact fulfils_both (hk u (C.moves_trans ht hu)) hq
      · exact fulfils_map ((hk u (C.moves_trans ht hu)).and hb) fun a x _ ha => ha

/-- **Processes side by side that each look at their key first** look at all of them, in order,
before they rest. -/
theorem opens_all {R : κ × Nat → α → σ → Prop} {f : κ → Process σ α} {next : κ → σ → Process σ α}
    {s : σ} (hsee : ∀ key t, C.moves t (see key t)) (hf : ∀ k, f k = .act (see k) (next k))
    (h : ∀ k ∈ ks, ∀ t, C.moves s t → Fulfils C (R (k, Clock.instant t)) (next k t) (see k t)) :
    Opens C see (fun xs as t => xs.map Prod.fst = ks ∧ List.Forall₂ (fun x a => R x a t) xs as) ks
      (all (ks.map f)) s := by
  induction ks with
  | nil => exact .opened (.done fun _ _ => ⟨rfl, .nil⟩)
  | cons k ks ih =>
    have hks := ih fun j hj => h j (List.mem_cons_of_mem _ hj)
    rw [List.map_cons, hf]
    refine .see fun t ht => ?_
    have hboth := opens_both hsee (h k List.mem_cons_self t ht)
      (hks.after (C.moves_trans ht (hsee k t)))
    exact opens_map hboth fun xs as u hu => ⟨congrArg (k :: ·) hu.2.1, .cons hu.1 hu.2.2⟩

end Opening

/-! ## Alone in a pool -/

section Alone

variable {κ ε : Type} {see : κ → σ → σ} {effect : ε → σ → σ} {ks : List κ}
  {Z : List (κ × Nat) → α → σ → Prop}

/-- A step of a process is one of its own or a look at the next key. -/
theorem opens_next? {p q : Process σ α} {s t : σ} (h : Opens C see Z ks p s)
    (hn : p.next? s = some (q, t)) :
    (C.own s t ∧ Opens C see Z ks q t) ∨
      ∃ key rest, ks = key :: rest ∧ t = see key s ∧
        Opens C see (fun xs => Z ((key, Clock.instant s) :: xs)) rest q t := by
  cases h with
  | opened h =>
    cases h with
    | done => cases hn
    | act hg hk =>
      obtain ⟨rfl, rfl⟩ := next?_act hn
      exact .inl ⟨hg s (C.moves_refl s), .opened (hk s (C.moves_refl s))⟩
    | wait hc hk =>
      obtain ⟨-, rfl, rfl⟩ := next?_wait hn
      exact .inl ⟨C.refl t, .opened (hk t (C.moves_refl t))⟩
  | act hg hk =>
    obtain ⟨rfl, rfl⟩ := next?_act hn
    exact .inl ⟨hg s (C.moves_refl s), hk s (C.moves_refl s)⟩
  | see hk =>
    obtain ⟨rfl, rfl⟩ := next?_act hn
    exact .inr ⟨_, _, rfl, rfl, hk s (C.moves_refl s)⟩

omit [Clock σ] in
theorem thread_update (f : Unit → Option (Process σ α)) (s : σ) (i : Unit)
    (y : Option (Process σ α)) :
    (⟨s, Function.update f i y⟩ : Pool Unit σ α).threads () = y := by
  cases i
  change Function.update f () y () = y
  simp only [Function.update_self]

/-- **What a process alone in a pool has come to after a schedule**, if the state keeps a record of
its looks: it has looked at the first of its keys. -/
theorem opens_of_run {record : σ → List (κ × Nat)}
    (hsee : ∀ key s, C.moves s (see key s) ∧
      record (see key s) = record s ++ [(key, Clock.instant s)])
    (hown : ∀ s t, C.own s t → record t = record s) (heffect : ∀ e s, C.own s (effect e s))
    {p : Pool Unit σ α} (h : ∀ q, p.threads () = some q →
      Opens C see (fun xs => Z (record p.state ++ xs)) ks q p.state) (ts : List (Turn Unit ε)) :
    let p' := p.run effect ts
    C.moves p.state p'.state ∧ ∃ seen left, seen.map Prod.fst ++ left = ks ∧
      record p'.state = record p.state ++ seen ∧ ∀ q, p'.threads () = some q →
        Opens C see (fun xs => Z (record p'.state ++ xs)) left q p'.state := by
  refine Pool.run_induction (I := fun p' => C.moves p.state p'.state ∧ ∃ seen left,
    seen.map Prod.fst ++ left = ks ∧ record p'.state = record p.state ++ seen ∧
      ∀ q, p'.threads () = some q →
        Opens C see (fun xs => Z (record p'.state ++ xs)) left q p'.state) ?_ ts
    ⟨C.moves_refl _, [], ks, rfl, (List.append_nil _).symm, h⟩
  rintro p₁ t x p₂ ⟨hm, seen, left, hks, hr, h⟩ hmoved
  cases hmoved with
  | still => exact ⟨hm, seen, left, hks, hr, h⟩
  | outside e =>
    have hown' := heffect e p₁.state
    have hsame : record (effect e p₁.state) = record p₁.state := hown _ _ hown'
    refine ⟨C.moves_own hm hown', seen, left, hks, hsame.trans hr, fun q hq => ?_⟩
    rw [hsame]
    exact (h q hq).after (C.moves_of_own hown')
  | step hq hn =>
    rcases opens_next? (h _ hq) hn with ⟨hown', hopens⟩ | ⟨key, rest, rfl, rfl, hopens⟩
    · have hsame := hown _ _ hown'
      refine ⟨C.moves_own hm hown', seen, left, hks, hsame.trans hr, fun q' hq' => ?_⟩
      obtain rfl := Option.some.inj ((thread_update _ _ _ _).symm.trans hq')
      rw [hsame]
      exact hopens
    · obtain ⟨hmove, hrecord⟩ := hsee key p₁.state
      refine ⟨C.moves_trans hm hmove, seen ++ [(key, Clock.instant p₁.state)], rest, ?_, ?_,
        fun q' hq' => ?_⟩
      · rw [List.map_append, List.append_assoc]
        exact hks
      · rw [hrecord, hr, List.append_assoc]
      · obtain rfl := Option.some.inj ((thread_update _ _ _ _).symm.trans hq')
        simpa only [hrecord, List.append_assoc, List.singleton_append] using hopens
  | gone hq =>
    obtain ⟨rfl, hf⟩ := (h _ hq).at_rest trivial
    cases hf with
    | wait hc hk =>
      have hown' := hc _ (C.moves_refl _)
      refine ⟨C.moves_own hm hown', seen, [], hks, (hown _ _ hown').trans hr, fun q' hq' => ?_⟩
      cases (thread_update _ _ _ _).symm.trans hq'

/-! ## Answers -/

/-- Every wait of the process can be ended from outside. -/
inductive Endable (effect : ε → σ → σ) : Process σ α → Prop
  | done (a : α) : Endable effect (.done a)
  | act {g : σ → σ} {k : σ → Process σ α} (hk : ∀ s, Endable effect (k s)) :
      Endable effect (.act g k)
  | wait {w : Wait σ} {c : σ → σ} {k : σ → Process σ α}
      (hw : ∀ s, ∃ es : List ε, w.ready (es.foldl (fun s e => effect e s) s) = true)
      (hk : ∀ s, Endable effect (k s)) : Endable effect (.wait w c k)

theorem endable_bind {p : Process σ α} {f : α → Process σ β} (hp : Endable effect p)
    (hf : ∀ a, Endable effect (f a)) : Endable effect (p.bind f) := by
  induction hp with
  | done a => exact hf a
  | act _ ih => exact .act ih
  | wait hw _ ih => exact .wait hw ih

theorem endable_map {p : Process σ α} {f : α → β} (hp : Endable effect p) :
    Endable effect (f <$> p) := endable_bind hp fun a => .done (f a)

theorem endable_beside {γ : Type} {w : Wait σ} {c : σ → σ}
    {resume : σ → Process σ β → Process σ γ} {alone : β → σ → Process σ γ} {q : Process σ β}
    (hw : ∀ s, ∃ es : List ε, w.ready (es.foldl (fun s e => effect e s) s) = true)
    (hr : ∀ s q, Endable effect q → Endable effect (resume s q))
    (ha : ∀ b s, Endable effect (alone b s)) (hq : Endable effect q) :
    Endable effect (q.beside w c resume alone) := by
  induction hq with
  | done b => exact .wait hw (ha b)
  | act _ ih => exact .act ih
  | @wait v c' k hv hk ih =>
    refine .act fun s => ?_
    split
    · exact ih s
    · refine .wait (fun s => ?_) fun s => ?_
      · obtain ⟨es, hes⟩ := hw s
        exact ⟨es, by rw [Wait.ready, hes, Bool.true_or]⟩
      · split
        · exact hr s _ (.wait hv hk)
        · exact ih s

theorem endable_both {p : Process σ α} {q : Process σ β} (hp : Endable effect p)
    (hq : Endable effect q) : Endable effect (p.both q) := by
  induction hp generalizing q with
  | done a => exact endable_map hq
  | act _ ih => exact .act fun s => ih s hq
  | wait hw hk ih =>
    refine .act fun s => ?_
    split
    · exact ih s hq
    · exact endable_beside hw (fun s _ => ih s) (fun _ s => endable_map (hk s)) hq

theorem endable_all {ps : List (Process σ α)} (h : ∀ p ∈ ps, Endable effect p) :
    Endable effect (all ps) := by
  induction ps with
  | nil => exact .done []
  | cons p ps ih =>
    exact endable_map (endable_both (h p List.mem_cons_self) (ih fun q hq =>
      h q (List.mem_cons_of_mem _ hq)))

theorem endable_next? {p q : Process σ α} {s t : σ} (h : Endable effect p)
    (hn : p.next? s = some (q, t)) : Endable effect q := by
  cases h with
  | done => cases hn
  | act hk =>
    obtain ⟨rfl, rfl⟩ := next?_act hn
    exact hk s
  | wait _ hk =>
    obtain ⟨-, rfl, rfl⟩ := next?_wait hn
    exact hk _

end Alone

/-! ### One thread among others -/

section Threads

variable {ι ε : Type} [DecidableEq ι] {effect : ε → σ → σ} {ok : Pool ι σ α → Turn ι ε → Prop}
  {i : ι}

theorem endable_run {p : Pool ι σ α} (h : ∀ q, p.threads i = some q → Endable effect q)
    (ts : List (Turn ι ε)) :
    ∀ q, (p.run effect ts).threads i = some q → Endable effect q := by
  refine Pool.run_induction (I := fun p' => ∀ q, p'.threads i = some q → Endable effect q) ?_ ts h
  rintro p₁ t x p₂ h hm q hq
  cases hm with
  | still => exact h q hq
  | outside e => exact h q hq
  | step hr hn =>
    rcases Pool.update_eq_some hq with ⟨rfl, hr'⟩ | ⟨-, hq'⟩
    · obtain rfl := Option.some.inj hr'
      exact endable_next? (h _ hr) hn
    · exact h q hq'
  | gone =>
    rcases Pool.update_eq_some hq with ⟨-, hr'⟩ | ⟨-, hq'⟩
    · cases hr'
    · exact h q hq'

/-- A schedule in which nothing but the state changes. -/
theorem along_outside {q : Process σ α} (hr : q.AtRest)
    (hout : ∀ p e q, p.threads i = some q → q.AtRest → ok p (.outside e)) :
    ∀ (es : List ε) {p : Pool ι σ α}, p.threads i = some q →
      Pool.Along effect ok (es.map .outside) p ∧
        p.run effect (es.map .outside) = ⟨es.foldl (fun s e => effect e s) p.state, p.threads⟩
  | [], _, _ => ⟨trivial, rfl⟩
  | e :: es, p, hq => by
    obtain ⟨ha, he⟩ := along_outside hr hout es (p := ⟨effect e p.state, p.threads⟩) hq
    exact ⟨⟨hout p e q hq hr, ha⟩, he⟩

/-- **A process whose waits can all be ended from outside can be made to answer**, while the others
stay where they are. -/
theorem exists_answer (threads : ι → Option (Process σ α))
    (hgo : ∀ p : Pool ι σ α, (∀ j ≠ i, p.threads j = threads j) → ok p (.go i))
    (hout : ∀ p e q, p.threads i = some q → q.AtRest → ok p (.outside e)) {q : Process σ α}
    (h : Endable effect q) {p : Pool ι σ α} (hp : ∀ j ≠ i, p.threads j = threads j)
    (hq : p.threads i = some q) :
    ∃ ts, Pool.Along effect ok ts p ∧ ∃ a, (p.run effect ts).threads i = some (.done a) := by
  have others {p : Pool ι σ α} (hp : ∀ j ≠ i, p.threads j = threads j)
      (y : Option (Process σ α)) (j : ι) (hj : j ≠ i) :
      Function.update p.threads i y j = threads j :=
    (Function.update_of_ne hj ..).trans (hp j hj)
  induction h generalizing p with
  | done a => exact ⟨[], trivial, a, hq⟩
  | @act g k hk ih =>
    have hnext : (Process.act g k).next? p.state = some (k p.state, g p.state) := rfl
    have hturn := Pool.turn_go effect hq hnext
    have hthere : (p.turn effect (.go i)).threads i = some (k p.state) := by
      rw [hturn]
      exact Function.update_self ..
    have hothers : ∀ j ≠ i, (p.turn effect (.go i)).threads j = threads j := by
      rw [hturn]
      exact others hp _
    obtain ⟨ts, ha, a, he⟩ := ih p.state hothers hthere
    exact ⟨.go i :: ts, ⟨hgo p hp, ha⟩, a, he⟩
  | @wait w c k hw hk ih =>
    obtain ⟨es, hes⟩ := hw p.state
    have hrest : (Process.wait w c k).AtRest := trivial
    obtain ⟨ha, he⟩ := along_outside hrest hout es hq
    have hthen : (p.run effect (es.map .outside)).threads i = some (.wait w c k) := by
      rw [he]
      exact hq
    have hstill : ∀ j ≠ i, (p.run effect (es.map .outside)).threads j = threads j := by
      rw [he]
      exact hp
    have hready : w.ready (p.run effect (es.map .outside)).state = true := by
      rw [he]
      exact hes
    have hturn := Pool.turn_go effect hthen (if_pos hready)
    have hthere : ((p.run effect (es.map .outside)).turn effect (.go i)).threads i =
        some (k (p.run effect (es.map .outside)).state) := by
      rw [hturn]
      exact Function.update_self ..
    have hothers : ∀ j ≠ i,
        ((p.run effect (es.map .outside)).turn effect (.go i)).threads j = threads j := by
      rw [hturn]
      exact others hstill _
    obtain ⟨ts, hb, a, hend⟩ := ih _ hothers hthere
    refine ⟨es.map .outside ++ .go i :: ts, Pool.along_append_iff.mpr ⟨ha, hgo _ hstill, hb⟩, a, ?_⟩
    rw [Pool.run_append]
    exact hend

/-- The same for a process alone. -/
theorem exists_ending {q : Process σ α} (h : Endable effect q) {p : Pool Unit σ α}
    (hq : p.threads () = some q) :
    ∃ ts a, (p.run effect ts).threads () = some (.done a) := by
  have hanswer : ∃ ts, Pool.Along effect (fun _ _ => True) ts p ∧
      ∃ a, (p.run effect ts).threads () = some (.done a) :=
    exists_answer p.threads (fun _ _ => trivial) (fun _ _ _ _ _ => trivial) h (fun _ _ => rfl) hq
  obtain ⟨ts, -, a, ha⟩ := hanswer
  exact ⟨ts, a, ha⟩

end Threads

end Process
end LayeredCache

import LayeredCache.Layer.Guard
import LayeredCache.Proofs.Memory
import LayeredCache.Session.State

/-!
# Filter guards over a memory engine

A guard whose filter is the exact set of the keys that were added to it, over a memory engine. Any
number of its calls run side by side in a pool. Between any two steps time may pass, and whatever
else works on the engine may leave it in any state: entries expire, are reclaimed, deleted or
cleared. Nobody but the guard adds to the filter, and nothing is ever taken out of it.

A get goes through stages: the engine, the filter, the loader, the engine again. What it has done so
far is told by its own steps. The filter grows, so a key that it has known at the test is known
until the get is over, and adding it once more changes nothing; this is why only a put can make a
key known.

Results:
* `goes_of_next?`: the stages that a get goes through.
* `follows_of_told`: what the stages come to for the loader.
* `run_shielded`: the filter, the loads, and every get of any run.
-/

namespace LayeredCache

/-- An engine behind a guard, and its clock. -/
structure Shielded (ρ : Type) where
  instant : Nat
  engine : Engine
  /-- The keys that the filter knows. -/
  known : List String
  /-- The keys that the loader was called for, the last one first. -/
  loads : List String
  rest : ρ

/-- A process may end with an answer, whatever the state answers it. -/
inductive Process.MayEnd {σ α : Type} : Process σ α → α → Prop
  | done (a : α) : MayEnd (.done a) a
  | act {g : σ → σ} {k : σ → Process σ α} {a : α} (s : σ) (h : MayEnd (k s) a) :
      MayEnd (.act g k) a
  | wait {w : Wait σ} {c : σ → σ} {k : σ → Process σ α} {a : α} (s : σ) (h : MayEnd (k s) a) :
      MayEnd (.wait w c k) a

namespace Shielded

open Process

variable {ι ρ : Type}

instance : Clock (Shielded ρ) := ⟨Shielded.instant⟩

instance [Journal ρ] : Journal (Shielded ρ) :=
  ⟨fun v t s => { s with rest := Journal.note v t s.rest }⟩

def rested : Slot (Shielded ρ) ρ := ⟨Shielded.rest, fun r s => { s with rest := r }, fun _ _ => rfl⟩

/-- The engine as a cache. What is evicted from it is handed to nobody. -/
def memory : Memory (Shielded ρ) :=
  ⟨⟨Shielded.engine, fun e s => { s with engine := e }, fun _ _ => rfl⟩, fun _ _ => id⟩

/-- The filter: the exact set of the keys that were added. -/
def exact : Guard.Membership (Shielded ρ) where
  test key s := (s.known.contains key, s)
  add key s := { s with known := if s.known.contains key then s.known else key :: s.known }

/-- A call of the loader, recorded. -/
def source (load : Loader ρ) : Loader (Shielded ρ) := fun key => do
  Process.change fun s => { s with loads := key :: s.loads }
  (load key).embed rested

/-- What the engine answers for a key. -/
def read (s : Shielded ρ) (key : String) : Answer Value := s.engine.table.read s.instant key

/-- The state after a put. -/
def stored (key : String) (v : Value) (ttl : Duration) (s : Shielded ρ) : Shielded ρ :=
  { s with engine := { s.engine with table := s.engine.table.put s.instant key v ttl } }

/-- What happens elsewhere: time passes, and others leave the engine and the rest as they like. -/
structure Outer (ρ : Type) where
  elapsed : Nat
  engine : Engine
  rest : ρ

def happen (x : Outer ρ) (s : Shielded ρ) : Shielded ρ :=
  { s with instant := s.instant + x.elapsed, engine := x.engine, rest := x.rest }

section Guarded

variable [Journal ρ] (load : Loader ρ) (policy : Guard.Policy)

/-- The engine behind its guard. -/
def guard : Cache (Shielded ρ) := Guard.cache memory.cache (source load) exact policy

/-- Calls of the guard, none of them begun. -/
def pool (calls : ι → Call) (s : Shielded ρ) : Pool ι (Shielded ρ) (Answer Reply) :=
  ⟨s, fun i => some ((calls i).run (guard load policy))⟩

end Guarded

theorem mem_add_iff {key k : String} {s : Shielded ρ} :
    k ∈ (exact.add key s).known ↔ k ∈ s.known ∨ k = key := by
  change k ∈ (if s.known.contains key then s.known else key :: s.known) ↔ _
  by_cases h : s.known.contains key
  · rw [if_pos h]
    refine ⟨.inl, ?_⟩
    rintro (hk | rfl)
    · exact hk
    · exact List.contains_iff_mem.mp h
  · rw [if_neg h, List.mem_cons, or_comm]

/-- Adding a key again changes nothing. -/
theorem add_of_mem {key : String} {s : Shielded ρ} (h : key ∈ s.known) : exact.add key s = s := by
  change { s with known := if s.known.contains key then s.known else key :: s.known } = s
  rw [if_pos (List.contains_iff_mem.mpr h)]

open Session.State in
/-- The exact filter of a session tests and adds in the same way. -/
theorem exact_of_session {i : Nat} {t : Session.State} {s : Shielded ρ}
    (h : (filterSlot i).get t = .exact s.known) (key : String) :
    ((membership i).test key t).1 = (exact.test key s).1 ∧
      (filterSlot i).get ((membership i).test key t).2 = .exact s.known ∧
      (filterSlot i).get ((membership i).add key t) = .exact (exact.add key s).known := by
  have htest : (membership i).test key t =
      (s.known.contains key, t.record .filterTest key none) := by
    change testFilter i key t = _
    unfold testFilter
    rw [h]
  have hadd : (membership i).add key t =
      ((filterSlot i).set (.exact (exact.add key s).known) t).record .filterAdd key none := by
    change addFilter i key t = _
    unfold addFilter
    rw [h]
    rfl
  refine ⟨?_, ?_, ?_⟩
  · rw [htest]
    rfl
  · rw [htest]
    exact h
  · rw [hadd]
    exact (filterSlot i).get_set _ t

/-! ## The stages of a get -/

/-- How far a get has come. -/
inductive Stage (ρ : Type) where
  | begun
  /-- The engine has failed with `x`. -/
  | missed (x : CacheError)
  /-- The filter has let it pass. -/
  | admitted
  /-- The loader is at work, or has ended. -/
  | loading (p : Process ρ (Except Cause Value))
  /-- The loaded value is stored, and its key has to be added. -/
  | adding (v : Value)
  | ended (r : Answer Value)

/-- A get that answers as a call. -/
def answered (p : Process (Shielded ρ) (Answer Value)) : Process (Shielded ρ) (Answer Reply) :=
  p.bind fun r => .done (r.map .value)

/-- What becomes of an answer of the loader that was offered to the engine. -/
def enroll (policy : Guard.Policy) (key : String) :
    Answer Value → Process (Shielded ρ) (Answer Value)
  | .error e => .done (.error e)
  | .ok v => if policy.addOnLoad then .act (exact.add key) fun _ => .done (.ok v)
    else .done (.ok v)

section Stages

variable [Journal ρ] (load : Loader ρ) (policy : Guard.Policy) (key : String)

/-- An answer of the loader is offered to the engine. -/
def offer (a : Except Cause Value) : Process (Shielded ρ) (Answer Value) :=
  Loader.keep memory.cache policy.ttl "Bloom filter cache could not cache key" key a

/-- The loader is called, and what it answers is kept. -/
def fetch : Process (Shielded ρ) (Answer Value) :=
  ((source load key).bind (offer policy key)).bind (enroll policy key)

/-- What remains of a get. -/
def Stage.process : Stage ρ → Process (Shielded ρ) (Answer Value)
  | .begun => (guard load policy).get key
  | .missed x => (Process.step (exact.test key)).bind fun known =>
    if known then fetch load policy key else .done (.error x)
  | .admitted => fetch load policy key
  | .loading p => ((p.embed rested).bind (offer policy key)).bind (enroll policy key)
  | .adding v => .act (exact.add key) fun _ => .done (.ok v)
  | .ended r => .done r

/-- One step of a get. -/
inductive Goes (s : Shielded ρ) : Stage ρ → Stage ρ → Shielded ρ → Prop
  | hit {v : Value} (h : s.read key = .ok v) : Goes s .begun (.ended (.ok v)) s
  | miss {x : CacheError} (h : s.read key = .error x) : Goes s .begun (.missed x) s
  | pass {x : CacheError} (h : key ∈ s.known) : Goes s (.missed x) .admitted s
  | reject {x : CacheError} (h : key ∉ s.known) : Goes s (.missed x) (.ended (.error x)) s
  | call : Goes s .admitted (.loading (load key)) { s with loads := key :: s.loads }
  | load {p p' : Process ρ (Except Cause Value)} (r : ρ) (h : ∀ a, MayEnd p' a → MayEnd p a) :
      Goes s (.loading p) (.loading p') { s with rest := r }
  | store {v : Value} {x : Stage ρ} (h : x = .adding v ∨ x = .ended (.ok v)) :
      Goes s (.loading (.done (.ok v))) x (stored key v policy.ttl s)
  | add (v : Value) : Goes s (.adding v) (.ended (.ok v)) (exact.add key s)

variable {load policy key}

/-- **A get goes through its stages.** -/
theorem goes_of_next? {x : Stage ρ} {s s' : Shielded ρ} {q : Process (Shielded ρ) (Answer Value)}
    (h : (x.process load policy key).next? s = some (q, s')) :
    ∃ x' : Stage ρ, q = x'.process load policy key ∧ Goes load policy key s x x' s' := by
  cases x with
  | begun =>
    obtain ⟨rfl, rfl⟩ := next?_act h
    cases hr : s.read key with
    | ok v =>
      refine ⟨.ended (.ok v), ?_, .hit hr⟩
      change Process.bind (.done (s.read key)) _ = _
      rw [hr]
      rfl
    | error x =>
      refine ⟨.missed x, ?_, .miss hr⟩
      change Process.bind (.done (s.read key)) _ = _
      rw [hr]
      rfl
  | missed x =>
    obtain ⟨rfl, rfl⟩ := next?_act h
    by_cases hk : key ∈ s.known
    · exact ⟨.admitted, if_pos (List.contains_iff_mem.mpr hk), .pass hk⟩
    · exact ⟨.ended (.error x), if_neg (mt List.contains_iff_mem.mp hk), .reject hk⟩
  | admitted =>
    obtain ⟨rfl, rfl⟩ := next?_act h
    exact ⟨.loading (load key), rfl, .call⟩
  | loading p =>
    cases p with
    | act g k =>
      obtain ⟨rfl, rfl⟩ := next?_act h
      exact ⟨.loading (k s.rest), rfl, .load _ fun a ha => .act s.rest ha⟩
    | wait w c k =>
      obtain ⟨-, rfl, rfl⟩ := next?_wait h
      exact ⟨.loading (k s'.rest), rfl, .load _ fun a ha => .wait s'.rest ha⟩
    | done a =>
      cases a with
      | error c => cases h
      | ok v =>
        obtain ⟨rfl, rfl⟩ := next?_act h
        by_cases hp : policy.addOnLoad
        · exact ⟨.adding v, if_pos hp, .store (.inl rfl)⟩
        · exact ⟨.ended (.ok v), if_neg hp, .store (.inr rfl)⟩
  | adding v =>
    obtain ⟨rfl, rfl⟩ := next?_act h
    exact ⟨.ended (.ok v), rfl, .add v⟩
  | ended r => cases h

end Stages

/-! ## What a get has done -/

/-- A step of a call. -/
abbrev Move (ι ρ : Type) := Pool.Event ι (Shielded ρ) (Answer Reply)

/-- The engine has failed with `x`, and nothing has changed. -/
def Misses (key : String) (x : CacheError) (e : Move ι ρ) : Prop :=
  e.before.read key = .error x ∧ e.after = e.before

/-- The loader was called. -/
def Loads (key : String) (e : Move ι ρ) : Prop :=
  e.after = { e.before with loads := key :: e.before.loads }

/-- The loader has worked. -/
def Elsewhere (e : Move ι ρ) : Prop := ∃ r, e.after = { e.before with rest := r }

/-- The engine has missed, and the filter has known the key when it was asked then. -/
def Admitted (key : String) (es : List (Move ι ρ)) : Prop :=
  ∃ d e rest x, es = d :: e :: rest ∧ Misses key x d ∧ key ∈ e.before.known

/-- A miss, a test that was passed, and a call of the loader. -/
structure Called (key : String) (d e f : Move ι ρ) : Prop where
  missed : ∃ x, Misses key x d
  known : key ∈ e.before.known
  still : e.after = e.before
  loads : Loads key f

section Courses

variable (load : Loader ρ) (policy : Guard.Policy) (key : String)

/-- How a get has ended, by its steps; without an answer it was given up. -/
inductive Outcome : List (Move ι ρ) → Option (Answer Reply) → Prop
  /-- The key was live. -/
  | hit {d : Move ι ρ} {v : Value} (hr : d.before.read key = .ok v) (hd : d.after = d.before) :
      Outcome [d] (some (.ok (.value v)))
  /-- The key was not known: the error of the engine is answered, and nothing has changed. -/
  | rejected {d e : Move ι ρ} {x : CacheError} (hd : Misses key x d) (hk : key ∉ e.before.known)
      (he : e.after = e.before) : Outcome [d, e] (some (.error x))
  /-- The loader has failed, and nothing but its call has changed. -/
  | failed {d e f : Move ι ρ} {es : List (Move ι ρ)} {c : Cause} (h : Called key d e f)
      (hes : ∀ g ∈ es, Elsewhere g) (hc : MayEnd (load key) (.error c)) :
      Outcome (d :: e :: f :: es) (some (.error (.loadFailed key c)))
  /-- What was loaded was put into the engine, and nothing else has changed. -/
  | cached {d e f g : Move ι ρ} {es last : List (Move ι ρ)} {v : Value} (h : Called key d e f)
      (hes : ∀ g ∈ es, Elsewhere g) (hv : MayEnd (load key) (.ok v))
      (hg : g.after = stored key v policy.ttl g.before) (hlast : ∀ e ∈ last, e.after = e.before) :
      Outcome (d :: e :: f :: (es ++ g :: last)) (some (.ok (.value v)))
  | abandoned {d e f : Move ι ρ} {es : List (Move ι ρ)} (h : Called key d e f)
      (hes : ∀ g ∈ es, Elsewhere g) : Outcome (d :: e :: f :: es) none

/-- What has led to a stage. -/
inductive Told : List (Move ι ρ) → Stage ρ → Prop
  | begun : Told [] .begun
  | missed {d : Move ι ρ} {x : CacheError} (hd : Misses key x d) : Told [d] (.missed x)
  | admitted {d e : Move ι ρ} {x : CacheError} (hd : Misses key x d) (hk : key ∈ e.before.known)
      (he : e.after = e.before) : Told [d, e] .admitted
  | loading {d e f : Move ι ρ} {es : List (Move ι ρ)} {p : Process ρ (Except Cause Value)}
      (h : Called key d e f) (hes : ∀ g ∈ es, Elsewhere g)
      (hp : ∀ a, MayEnd p a → MayEnd (load key) a) : Told (d :: e :: f :: es) (.loading p)
  | adding {d e f g : Move ι ρ} {es : List (Move ι ρ)} {v : Value} (h : Called key d e f)
      (hes : ∀ g ∈ es, Elsewhere g) (hv : MayEnd (load key) (.ok v))
      (hg : g.after = stored key v policy.ttl g.before) :
      Told (d :: e :: f :: (es ++ [g])) (.adding v)
  | ended {es : List (Move ι ρ)} {r : Answer Value}
      (h : Outcome load policy key es (some (r.map .value))) : Told es (.ended r)

variable {load policy key}

/-- **What the next step adds to the story.** -/
theorem told_of_goes {es : List (Move ι ρ)} {x x' : Stage ρ} {e : Move ι ρ}
    (h : Told load policy key es x) (hgrow : ∀ d ∈ es, d.before.known ⊆ e.before.known)
    (hg : Goes load policy key e.before x x' e.after) : Told load policy key (es ++ [e]) x' := by
  obtain ⟨i, s, s', o⟩ := e
  change Goes load policy key s x x' s' at hg
  cases hg with
  | hit hr =>
    cases h
    exact .ended (.hit hr rfl)
  | miss hr =>
    cases h
    exact .missed ⟨hr, rfl⟩
  | pass hk =>
    cases h with
    | missed hd => exact .admitted hd hk rfl
  | reject hk =>
    cases h with
    | missed hd => exact .ended (.rejected hd hk rfl)
  | call =>
    cases h with
    | admitted hd hk he =>
      exact .loading ⟨⟨_, hd⟩, hk, he, rfl⟩ (fun g hg => absurd hg List.not_mem_nil) fun _ => id
  | load r hp =>
    cases h with
    | loading h hes hp' =>
      refine .loading h (fun g hg => ?_) fun a ha => hp' a (hp a ha)
      rcases List.mem_append.mp hg with hg | hg
      · exact hes g hg
      · obtain rfl := List.mem_singleton.mp hg
        exact ⟨r, rfl⟩
  | store hx =>
    cases h with
    | loading h hes hp =>
      rcases hx with rfl | rfl
      · exact .adding h hes (hp _ (.done _)) rfl
      · exact .ended (.cached h hes (hp _ (.done _)) rfl fun _ he => absurd he List.not_mem_nil)
  | add v =>
    cases h with
    | @adding d e f g es _ h hes hv hg =>
      have hknown : key ∈ s.known := hgrow e (List.mem_cons_of_mem _ List.mem_cons_self) h.known
      have hlast : ∀ m ∈ [(⟨i, s, exact.add key s, o⟩ : Move ι ρ)], m.after = m.before := by
        intro m hm
        obtain rfl := List.mem_singleton.mp hm
        exact add_of_mem hknown
      have hall : d :: e :: f :: (es ++ [g]) ++ [(⟨i, s, exact.add key s, o⟩ : Move ι ρ)] =
          d :: e :: f :: (es ++ g :: [⟨i, s, exact.add key s, o⟩]) := by simp
      rw [hall]
      exact .ended (.cached h hes hv hg hlast)

/-- The story of a stage at which a get has ended. -/
theorem outcome_of_told {es : List (Move ι ρ)} {x : Stage ρ} {r : Answer Value} [Journal ρ]
    (h : Told load policy key es x) (hr : x.process load policy key = .done r) :
    Outcome load policy key es (some (r.map .value)) := by
  cases h with
  | ended h =>
    obtain rfl := Process.done.inj hr
    exact h
  | @loading d e f es p h hes hp =>
    cases p with
    | act g k => cases hr
    | wait w c p => cases hr
    | done a =>
      cases a with
      | error c =>
        obtain rfl := Process.done.inj hr
        exact .failed h hes (hp _ (.done _))
      | ok v => cases hr
  | _ => cases hr

/-- The story of a stage at which a get can be given up. -/
theorem abandoned_of_told {es : List (Move ι ρ)} {x : Stage ρ} [Journal ρ]
    {w : Wait (Shielded ρ)} {c : Shielded ρ → Shielded ρ}
    {k : Shielded ρ → Process (Shielded ρ) (Answer Value)} (h : Told load policy key es x)
    (hw : x.process load policy key = .wait w c k) :
    Outcome load policy key es none ∧ ∀ s, ∃ r, c s = { s with rest := r } := by
  cases h with
  | @loading d e f es p h hes hp =>
    cases p with
    | act g k => cases hw
    | wait w' c' k' =>
      obtain ⟨-, rfl, -⟩ := Process.wait.inj hw
      exact ⟨.abandoned h hes, fun s => ⟨c' s.rest, rfl⟩⟩
    | done a => cases a <;> cases hw
  | _ => cases hw

/-! ## What the stages come to for the loader -/

/-- What a get has done before it calls the loader, or from then on. -/
inductive Course (key : String) : List (Move ι ρ) → Prop
  | uncalled {es : List (Move ι ρ)} (hlen : es.length ≤ 2) (hes : ∀ e ∈ es, e.after = e.before) :
      Course key es
  | called {d e f : Move ι ρ} {rest : List (Move ι ρ)} (h : Called key d e f)
      (hrest : ∀ g ∈ rest, g.after.known = g.before.known) : Course key (d :: e :: f :: rest)

theorem Elsewhere.known {e : Move ι ρ} (h : Elsewhere e) : e.after.known = e.before.known := by
  obtain ⟨r, hr⟩ := h
  rw [hr]

theorem known_stored {v : Value} {ttl : Duration} {g : Move ι ρ}
    (h : g.after = stored key v ttl g.before) : g.after.known = g.before.known := by
  rw [h]
  rfl

theorem known_of_still {e : Move ι ρ} (h : e.after = e.before) :
    e.after.known = e.before.known := congrArg Shielded.known h

theorem not_loads_of_still {e : Move ι ρ} (h : e.after = e.before) : ¬ Loads key e := fun hl =>
  List.cons_ne_self _ _ (congrArg Shielded.loads (hl.symm.trans h))

theorem course_cached {d e f g : Move ι ρ} {es last : List (Move ι ρ)} {v : Value}
    (h : Called key d e f) (hes : ∀ m ∈ es, Elsewhere m)
    (hg : g.after = stored key v policy.ttl g.before) (hlast : ∀ m ∈ last, m.after = m.before) :
    Course key (d :: e :: f :: (es ++ g :: last)) := by
  refine .called h fun m hm => ?_
  rcases List.mem_append.mp hm with hm | hm
  · exact (hes m hm).known
  · rcases List.mem_cons.mp hm with rfl | hm
    · exact known_stored hg
    · exact known_of_still (hlast m hm)

theorem course_of_outcome {es : List (Move ι ρ)} {o : Option (Answer Reply)}
    (h : Outcome load policy key es o) : Course key es := by
  cases h with
  | hit hr hd => exact .uncalled (by simp) (by simpa using hd)
  | rejected hd hk he => exact .uncalled (by simp) (by simpa using ⟨hd.2, he⟩)
  | failed h hes hc => exact .called h fun g hg => (hes g hg).known
  | abandoned h hes => exact .called h fun g hg => (hes g hg).known
  | cached h hes hv hg hlast => exact course_cached h hes hg hlast

theorem course_of_told {es : List (Move ι ρ)} {x : Stage ρ} (h : Told load policy key es x) :
    Course key es := by
  cases h with
  | begun => exact .uncalled (Nat.zero_le _) fun _ he => absurd he List.not_mem_nil
  | missed hd => exact .uncalled (by simp) (by simpa using hd.2)
  | admitted hd hk he => exact .uncalled (by simp) (by simpa using ⟨hd.2, he⟩)
  | loading h hes hp => exact .called h fun g hg => (hes g hg).known
  | ended h => exact course_of_outcome h
  | adding h hes hv hg => exact course_cached h hes hg fun _ hm => absurd hm List.not_mem_nil

theorem Course.known {es : List (Move ι ρ)} (h : Course key es) :
    ∀ e ∈ es, e.after.known = e.before.known := by
  cases h with
  | uncalled hlen hes => exact fun e he => known_of_still (hes e he)
  | called h hrest =>
    intro m hm
    obtain ⟨x, hx⟩ := h.missed
    simp only [List.mem_cons] at hm
    rcases hm with rfl | rfl | rfl | hm
    · exact known_of_still hx.2
    · exact known_of_still h.still
    · rw [h.loads]
    · exact hrest m hm

/-- The loader is called for a key that was let pass. -/
theorem Course.admitted {es : List (Move ι ρ)} (h : Course key es) (hl : ∃ e ∈ es, Loads key e) :
    Admitted key es := by
  cases h with
  | uncalled hlen hes =>
    obtain ⟨e, he, hl⟩ := hl
    exact absurd hl (not_loads_of_still (hes e he))
  | @called d e f rest h hrest =>
    obtain ⟨x, hx⟩ := h.missed
    exact ⟨d, e, f :: rest, x, rfl, hx, h.known⟩

theorem Course.brief {es : List (Move ι ρ)} (h : Course key es)
    (hl : ∀ e ∈ es, ¬ Loads key e) : es.length ≤ 2 ∧ ∀ e ∈ es, e.after = e.before := by
  cases h with
  | uncalled hlen hes => exact ⟨hlen, hes⟩
  | called h _ => exact absurd h.loads (hl _ (by simp))

/-- Whatever was let pass and is over has called the loader. -/
theorem loads_of_outcome {es : List (Move ι ρ)} {o : Option (Answer Reply)}
    (h : Outcome load policy key es o) (ha : Admitted key es) : ∃ e ∈ es, Loads key e := by
  have hf {d e f : Move ι ρ} {es : List (Move ι ρ)} (h : Called key d e f) :
      ∃ m ∈ d :: e :: f :: es, Loads key m := ⟨f, by simp, h.loads⟩
  cases h with
  | hit =>
    obtain ⟨d, e, rest, x, hes, -⟩ := ha
    cases hes
  | rejected _ hk _ =>
    obtain ⟨d, e, rest, x, hes, -, hk'⟩ := ha
    cases hes
    exact absurd hk' hk
  | failed h _ _ => exact hf h
  | cached h _ _ _ _ => exact hf h
  | abandoned h _ => exact hf h

/-- A process that has answered, or takes a step at its next turn. -/
def Prompt {σ α : Type} : Process σ α → Prop
  | .wait _ _ _ => False
  | _ => True

/-- What holds of a get at any time: of its steps so far, and of what remains of it if it was not
given up. -/
structure Follows (load : Loader ρ) (policy : Guard.Policy) (key : String) (es : List (Move ι ρ))
    (y : Option (Process (Shielded ρ) (Answer Reply))) : Prop where
  /-- It leaves the filter as it is. -/
  known : ∀ e ∈ es, e.after.known = e.before.known
  /-- The loader is called only for a key that was let pass. -/
  loads : (∃ e ∈ es, Loads key e) → Admitted key es
  /-- Until then nothing is changed, and the get answers or comes to the loader within two steps,
  without a wait. -/
  prompt : (∀ e ∈ es, ¬ Loads key e) →
    es.length ≤ 2 ∧ (∀ e ∈ es, e.after = e.before) ∧ ∃ q, y = some q ∧ Prompt q
  /-- It waits for nothing but its loader, and can be given up there only. -/
  waits : ∀ w c k, y = some (.wait w c k) → Outcome load policy key es none
  /-- How it ends; for a key that was let pass, the loader has been called by then. -/
  ends : ∀ o, y = o.map .done →
    Outcome load policy key es o ∧ (Admitted key es → ∃ e ∈ es, Loads key e)

theorem answered_eq_done {p : Process (Shielded ρ) (Answer Value)} {a : Answer Reply}
    (h : answered p = .done a) : ∃ r, p = .done r ∧ a = r.map .value := by
  cases p with
  | done r => exact ⟨r, rfl, (Process.done.inj h).symm⟩
  | act g k => cases h
  | wait w c k => cases h

theorem answered_eq_wait {p : Process (Shielded ρ) (Answer Value)} {w : Wait (Shielded ρ)}
    {c : Shielded ρ → Shielded ρ} {k : Shielded ρ → Process (Shielded ρ) (Answer Reply)}
    (h : answered p = .wait w c k) : ∃ k', p = .wait w c k' := by
  cases p with
  | done r => cases h
  | act g k => cases h
  | wait w c k =>
    obtain ⟨rfl, rfl, -⟩ := Process.wait.inj h
    exact ⟨k, rfl⟩

section Following

variable [Journal ρ] {es : List (Move ι ρ)} {x : Stage ρ}

theorem prompt_of_told (h : Told load policy key es x) (hl : ∀ e ∈ es, ¬ Loads key e) :
    Prompt (answered (x.process load policy key)) := by
  cases h with
  | loading h _ _ => exact absurd h.loads (hl _ (by simp))
  | _ => trivial

theorem follows_of_told (h : Told load policy key es x) :
    Follows load policy key es (some (answered (x.process load policy key))) where
  known := (course_of_told h).known
  loads := (course_of_told h).admitted
  prompt hl := ⟨((course_of_told h).brief hl).1, ((course_of_told h).brief hl).2, _, rfl,
    prompt_of_told h hl⟩
  waits w c k hq := by
    obtain ⟨k', hp⟩ := answered_eq_wait (Option.some.inj hq)
    exact (abandoned_of_told h hp).1
  ends o ho := by
    cases o with
    | none => cases ho
    | some a =>
      obtain ⟨r, hr, rfl⟩ := answered_eq_done (Option.some.inj ho)
      have := outcome_of_told h hr
      exact ⟨this, loads_of_outcome this⟩

omit [Journal ρ] in
theorem follows_of_abandoned (h : Outcome load policy key es none) :
    Follows load policy key es none where
  known := (course_of_outcome h).known
  loads := (course_of_outcome h).admitted
  prompt hl := by
    cases h with
    | abandoned h _ => exact absurd h.loads (hl _ (by simp))
  waits w c q hq := by cases hq
  ends o ho := by
    cases o with
    | none => exact ⟨h, loads_of_outcome h⟩
    | some a => cases ho

end Following

end Courses

/-! ## Calls side by side -/

section Side

variable [Journal ρ] {load : Loader ρ} {policy : Guard.Policy} {c : Call} {s s' : Shielded ρ}
  {es : List (Move ι ρ)}

/-- A put that has succeeded below and has to add its key. -/
def enrolling (key : String) : Process (Shielded ρ) (Answer Reply) :=
  .act (exact.add key) fun _ => .done (.ok .nothing)

/-- What may remain of a call after some steps; nothing does of one that was given up. -/
inductive Remains (load : Loader ρ) (policy : Guard.Policy) :
    Call → List (Move ι ρ) → Option (Process (Shielded ρ) (Answer Reply)) → Prop
  | get {key : String} {es : List (Move ι ρ)} {x : Stage ρ} (h : Told load policy key es x) :
      Remains load policy (.get key) es (some (answered (x.process load policy key)))
  | gone {key : String} {es : List (Move ι ρ)} (h : Outcome load policy key es none) :
      Remains load policy (.get key) es none
  | begun {c : Call} {es : List (Move ι ρ)} (hc : ∀ key, c ≠ .get key) :
      Remains load policy c es (some (c.run (guard load policy)))
  | enrolling {key : String} {v : Value} {ttl : Duration} {es : List (Move ι ρ)}
      (hp : policy.addOnPut = true) :
      Remains load policy (.put key v ttl) es (some (enrolling key))
  | ended {c : Call} {es : List (Move ι ρ)} (hc : ∀ key, c ≠ .get key) (a : Answer Reply) :
      Remains load policy c es (some (.done a))

/-- What a step of a call does to the filter and to the record of loads. -/
structure Changes (policy : Guard.Policy) (c : Call) (e : Move ι ρ) : Prop where
  /-- The filter grows by the key of a put that succeeds, if it is told to. -/
  known : ∀ key, key ∈ e.after.known ↔ key ∈ e.before.known ∨
    policy.addOnPut = true ∧ (∃ v ttl, c = .put key v ttl) ∧ e.answer = some (.ok .nothing)
  loads : ∀ key ∈ e.after.loads, key ∈ e.before.loads ∨ key ∈ e.before.known

theorem remains_run (c : Call) : Remains load policy c ([] : List (Move ι ρ))
    (some (c.run (guard load policy))) := by
  cases c with
  | get key => exact .get .begun
  | _ => exact .begun fun key h => by cases h

omit [Journal ρ] in
/-- A step that leaves the filter alone and is not the end of a put that has to add its key. -/
theorem known_iff_of_same {e : Move ι ρ} (hk : e.after.known = e.before.known)
    (hput : policy.addOnPut = true → ∀ key v ttl, c = .put key v ttl →
      e.answer ≠ some (.ok .nothing)) (key : String) :
    key ∈ e.after.known ↔ key ∈ e.before.known ∨
      policy.addOnPut = true ∧ (∃ v ttl, c = .put key v ttl) ∧ e.answer = some (.ok .nothing) := by
  rw [hk]
  refine ⟨.inl, ?_⟩
  rintro (h | ⟨hp, ⟨v, ttl, hc⟩, ha⟩)
  · exact h
  · exact absurd ha (hput hp key v ttl hc)

omit [Journal ρ] in
/-- A step of a get. -/
theorem changes_of_goes {key : String} {x x' : Stage ρ} {e : Move ι ρ}
    (h : Told load policy key es x) (hgrow : ∀ d ∈ es, d.before.known ⊆ e.before.known)
    (hg : Goes load policy key e.before x x' e.after) : Changes policy (.get key) e where
  known := by
    have hcourse := course_of_told (told_of_goes h hgrow hg)
    refine known_iff_of_same (hcourse.known e (by simp)) fun _ k v ttl hc => ?_
    cases hc
  loads k hk := by
    obtain ⟨i, t, t', o⟩ := e
    change Goes load policy key t x x' t' at hg
    cases hg with
    | call =>
      cases h with
      | @admitted d e _ hd hknown he =>
        rcases List.mem_cons.mp hk with rfl | hk
        · exact .inr (hgrow e (by simp) hknown)
        · exact .inl hk
    | _ => exact .inl hk

/-- Calls other than gets and puts go to the engine. -/
theorem run_guard (hget : ∀ key, c ≠ .get key) (hput : ∀ key v ttl, c ≠ .put key v ttl) :
    c.run (guard load policy) = c.run memory.cache := by
  cases c with
  | get key => exact absurd rfl (hget key)
  | put key v ttl => exact absurd rfl (hput key v ttl)
  | _ => rfl

omit [Journal ρ] in
theorem same_of_touches (h : memory.Touches s s') : s'.known = s.known ∧ s'.loads = s.loads := by
  rcases h with rfl | ⟨e, rfl, -⟩
  · exact ⟨rfl, rfl⟩
  · exact ⟨rfl, rfl⟩

/-- The first step of a put: the engine stores the value. -/
theorem next?_put {key : String} {v : Value} {ttl : Duration}
    {q : Process (Shielded ρ) (Answer Reply)}
    (h : ((Call.put key v ttl).run (guard load policy)).next? s = some (q, s')) :
    s' = stored key v ttl s ∧
      q = if policy.addOnPut then enrolling key else .done (.ok .nothing) := by
  obtain ⟨rfl, rfl⟩ := next?_act h
  refine ⟨rfl, ?_⟩
  by_cases hp : policy.addOnPut
  · rw [if_pos hp, if_pos hp]
    rfl
  · rw [if_neg hp, if_neg hp]
    rfl

/-- **What one step of a call does**, and what remains of the call then. -/
theorem remains_of_next? {q q' : Process (Shielded ρ) (Answer Reply)} (i : ι)
    (hr : Remains load policy c es (some q)) (hgrow : ∀ d ∈ es, d.before.known ⊆ s.known)
    (h : q.next? s = some (q', s')) :
    Remains load policy c (es ++ [⟨i, s, s', q'.answer?⟩]) (some q') ∧
      Changes policy c (⟨i, s, s', q'.answer?⟩ : Move ι ρ) := by
  cases hr with
  | get ht =>
    rcases next?_bind_cases h with ⟨p, hp, rfl⟩ | ⟨a, -, hn⟩
    · obtain ⟨x', rfl, hg⟩ := goes_of_next? hp
      exact ⟨.get (told_of_goes ht hgrow hg), changes_of_goes ht hgrow hg⟩
    · cases hn
  | @enrolling key v ttl _ hp =>
    obtain ⟨rfl, rfl⟩ := next?_act h
    refine ⟨.ended (fun _ h => by cases h) _, fun k => mem_add_iff.trans (or_congr_right ?_),
      fun k hk => .inl hk⟩
    constructor
    · rintro rfl
      exact ⟨hp, ⟨v, ttl, rfl⟩, rfl⟩
    · rintro ⟨-, ⟨v', ttl', hc⟩, -⟩
      exact (Call.put.inj hc).1.symm
  | ended hc a => cases h
  | begun hc =>
    by_cases hput : ∃ key v ttl, c = .put key v ttl
    · obtain ⟨key, v, ttl, rfl⟩ := hput
      obtain ⟨rfl, rfl⟩ := next?_put h
      by_cases hp : policy.addOnPut
      · rw [if_pos hp]
        refine ⟨.enrolling hp, known_iff_of_same rfl fun _ _ _ _ _ ha => ?_,
          fun k hk => .inl hk⟩
        cases ha
      · rw [if_neg hp]
        exact ⟨.ended hc _, known_iff_of_same rfl fun h => absurd h hp, fun k hk => .inl hk⟩
    · rw [run_guard hc fun key v ttl h => hput ⟨key, v, ttl, h⟩] at h
      obtain ⟨a, rfl, ht, -⟩ := memory.does_of_next? h
      obtain ⟨hk, hl⟩ := same_of_touches ht
      exact ⟨.ended hc a, known_iff_of_same hk fun _ key v ttl h => absurd ⟨key, v, ttl, h⟩ hput,
        fun k hk' => .inl (hl ▸ hk')⟩

/-- A call that is given up has waited for its loader. -/
theorem remains_of_wait {w : Wait (Shielded ρ)} {a : Shielded ρ → Shielded ρ}
    {k : Shielded ρ → Process (Shielded ρ) (Answer Reply)}
    (h : Remains load policy c es (some (.wait w a k))) :
    Remains load policy c es none ∧ ∀ s, ∃ r, a s = { s with rest := r } := by
  generalize hw : some (Process.wait w a k) = y at h
  cases h with
  | get ht =>
    obtain ⟨k', hp⟩ := answered_eq_wait (Option.some.inj hw).symm
    obtain ⟨ho, ha⟩ := abandoned_of_told ht hp
    exact ⟨.gone ho, ha⟩
  | begun hc =>
    cases c with
    | get key => exact absurd rfl (hc key)
    | _ => cases hw
  | _ => cases hw

/-! ## A run -/

variable [DecidableEq ι]

/-- The steps of one call. -/
def own (i : ι) (past : List (Move ι ρ)) : List (Move ι ρ) := past.filter fun e => e.who = i

omit [Journal ρ] in
theorem own_append_self {i : ι} {past : List (Move ι ρ)} {e : Move ι ρ} (h : e.who = i) :
    own i (past ++ [e]) = own i past ++ [e] := by simp [own, h]

omit [Journal ρ] in
theorem own_append_of_ne {i : ι} {past : List (Move ι ρ)} {e : Move ι ρ} (h : e.who ≠ i) :
    own i (past ++ [e]) = own i past := by simp [own, h]

/-- A put of the key has succeeded. -/
def Puts (calls : ι → Call) (key : String) (e : Move ι ρ) : Prop :=
  (∃ v ttl, calls e.who = .put key v ttl) ∧ e.answer = some (.ok .nothing)

/-- What every turn keeps, in a run from `s`. -/
structure Held (load : Loader ρ) (policy : Guard.Policy) (calls : ι → Call) (s : Shielded ρ)
    (p : Pool ι (Shielded ρ) (Answer Reply)) (past : List (Move ι ρ)) : Prop where
  known : ∀ key, key ∈ p.state.known ↔
    key ∈ s.known ∨ policy.addOnPut = true ∧ ∃ e ∈ past, Puts calls key e
  loads : ∀ key ∈ p.state.loads, key ∈ s.loads ∨ key ∈ p.state.known
  /-- What the filter has known, it knows. -/
  grows : ∀ e ∈ past, e.before.known ⊆ p.state.known
  threads : ∀ i, Remains load policy (calls i) (own i past) (p.threads i)

variable {calls : ι → Call} {p p' : Pool ι (Shielded ρ) (Answer Reply)} {past : List (Move ι ρ)}

theorem held_of_moved {t : Turn ι (Outer ρ)} {x : Option (Move ι ρ)}
    (h : Held load policy calls s p past) (hm : Pool.Moved happen p t x p') :
    Held load policy calls s p' (past ++ x.toList) := by
  cases hm with
  | still =>
    rw [Option.toList_none, List.append_nil]
    exact h
  | outside e =>
    rw [Option.toList_none, List.append_nil]
    exact ⟨h.known, h.loads, h.grows, h.threads⟩
  | @gone i w a k hq =>
    rw [Option.toList_none, List.append_nil]
    obtain ⟨hgone, ha⟩ := remains_of_wait (hq ▸ h.threads i)
    obtain ⟨r, hr⟩ := ha p.state
    rw [hr]
    refine ⟨h.known, h.loads, h.grows, fun j => ?_⟩
    by_cases hji : j = i
    · subst hji
      simpa only [Function.update_self] using hgone
    · simpa only [Function.update_of_ne hji] using h.threads j
  | @step i q q' s' hq hs =>
    have hgrow : ∀ e ∈ own i past, e.before.known ⊆ p.state.known :=
      fun e he => h.grows e (List.mem_filter.mp he).1
    obtain ⟨hr, hc⟩ := remains_of_next? i (hq ▸ h.threads i) hgrow hs
    have hle : p.state.known ⊆ s'.known := fun k hk => (hc.known k).mpr (.inl hk)
    rw [Option.toList_some]
    refine ⟨fun k => ?_, fun k hk => ?_, fun e he => ?_, fun j => ?_⟩
    · refine (hc.known k).trans ?_
      rw [h.known k, or_assoc, ← and_or_left]
      simp only [List.mem_append, List.mem_singleton, or_and_right, exists_or, exists_eq_left]
      rfl
    · rcases hc.loads k hk with hk | hk
      · exact (h.loads k hk).imp_right fun hk => hle hk
      · exact .inr (hle hk)
    · rcases List.mem_append.mp he with he | he
      · exact fun k hk => hle (h.grows e he hk)
      · obtain rfl := List.mem_singleton.mp he
        exact hle
    · by_cases hji : j = i
      · subst hji
        simpa only [Function.update_self, own_append_self] using hr
      · have hown : own j (past ++ [⟨i, p.state, s', q'.answer?⟩]) = own j past :=
          own_append_of_ne (Ne.symm hji)
        simpa only [Function.update_of_ne hji, hown] using h.threads j

theorem held_begun (calls : ι → Call) (s : Shielded ρ) :
    Held load policy calls s (pool load policy calls s) [] where
  known k := by simp [pool]
  loads k hk := .inl hk
  grows e he := absurd he List.not_mem_nil
  threads i := remains_run (calls i)

/-- **A guard shields its loader.** After any schedule the filter knows the keys that it has known
at first and, if puts are told to add theirs, the keys whose puts have succeeded. The loader has
been called for none but known keys, and each get has followed its course. -/
theorem run_shielded (load : Loader ρ) (policy : Guard.Policy) (calls : ι → Call) (s : Shielded ρ)
    (ts : List (Turn ι (Outer ρ))) :
    let p := (pool load policy calls s).run happen ts
    let past := Pool.history happen ts (pool load policy calls s)
    (∀ key, key ∈ p.state.known ↔
        key ∈ s.known ∨ policy.addOnPut = true ∧ ∃ e ∈ past, Puts calls key e) ∧
      (∀ key ∈ p.state.loads, key ∈ s.loads ∨ key ∈ p.state.known) ∧
      ∀ i key, calls i = .get key →
        Follows load policy key (own i past) (p.threads i) := by
  intro p past
  have h : Held load policy calls s p ([] ++ past) :=
    Pool.past_induction (fun _ _ _ _ _ h hm => held_of_moved h hm) ts (held_begun calls s)
  rw [List.nil_append] at h
  refine ⟨h.known, h.loads, fun i key hi => ?_⟩
  have hr := h.threads i
  rw [hi] at hr
  generalize own i past = es at hr ⊢
  generalize p.threads i = y at hr ⊢
  cases hr with
  | get ht => exact follows_of_told ht
  | gone ho => exact follows_of_abandoned ho
  | begun hc => exact absurd rfl (hc key)
  | ended hc => exact absurd rfl (hc key)

end Side

/-- One key has expired and is loaded again; another one was never added. -/
theorem run_shielded_expired :
    let load : Loader Session.State := fun _ => .done (.ok (.bool true))
    let policy : Guard.Policy := ⟨.zero, true, true⟩
    let engine : Engine :=
      { Engine.empty with table := Table.empty.put 0 "a" (.bool false) (.ofNanos 1) }
    let calls (known : Bool) : Call := .get (if known then "a" else "b")
    let s : Shielded Session.State := ⟨0, engine, ["a"], [], default⟩
    let ts : List (Turn Bool (Outer Session.State)) :=
      .outside ⟨2, engine, default⟩ ::
        (List.replicate 5 (.go true) ++ List.replicate 2 (.go false))
    let p := (pool load policy calls s).run happen ts
    let past := Pool.history happen ts (pool load policy calls s)
    p.threads true = some (.done (.ok (.value (.bool true)))) ∧
      p.threads false = some (.done (.error (.keyAbsent "b"))) ∧
      Outcome load policy "a" (own true past) (some (.ok (.value (.bool true)))) ∧
      Outcome load policy "b" (own false past) (some (.error (.keyAbsent "b"))) ∧
      "b" ∉ p.state.loads := by
  intro load policy engine calls s ts p past
  obtain ⟨hknown, hloads, hgets⟩ := run_shielded load policy calls s ts
  have ha : p.threads true = some (.done (.ok (.value (.bool true)))) := rfl
  have hb : p.threads false = some (.done (.error (.keyAbsent "b"))) := rfl
  refine ⟨ha, hb, ((hgets true "a" rfl).ends (some _) ha).1,
    ((hgets false "b" rfl).ends (some _) hb).1, fun h => ?_⟩
  rcases hloads "b" h with h | h
  · exact absurd h List.not_mem_nil
  · rcases (hknown "b").mp h with h | ⟨-, e, -, ⟨v, ttl, hput⟩, -⟩
    · exact absurd h (by decide)
    · cases hput

end Shielded
end LayeredCache

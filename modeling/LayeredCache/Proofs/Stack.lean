import LayeredCache.Proofs.Runs
import LayeredCache.Session.Stack

/-!
# Stacks of decorators

A decorator is a layer with everything it works with: its collaborators and the parts of the state
that it keeps for itself. A stack has any number of them, in any order, over a memory cache.

Results:
* `cacheOf_eq_stack`: the layers of a session over its memory engine are a stack of decorators.
* `runs_get_onto`: what a layer finds below it, it answers.
-/

namespace LayeredCache

variable {σ : Type}

/-- A layer with what it works with. -/
inductive Decorator (σ : Type) where
  | cacheAside (reader : Loader σ) (writer : Store σ) (ttl : Duration)
  | readThrough (load : Loader σ) (ttl : Duration)
  | writeThrough (store : Store σ)
  | writeDelete (store : Store σ) (limit : Option Duration)
  | writeDoubleDelete (store : Store σ) (limit : Option Duration) (later : String → σ → σ)
  | writeBack
  | singleflight (load : Loader σ) (ttl : Duration) (flights : Slot σ Flights)
  | randomExpire (draw : σ → Duration × σ)
  | guard (load : Loader σ) (filter : Guard.Membership σ) (policy : Guard.Policy)
  | preload (sentinel : Memory σ) (realTtl sentinelTtl : Duration)

variable [Clock σ] [Journal σ]

namespace Decorator

/-- The layer over a cache. -/
def onto (d : Decorator σ) (inner : Cache σ) : Cache σ :=
  match d with
  | .cacheAside reader writer ttl => CacheAside.cache inner reader writer ttl
  | .readThrough load ttl => ReadThrough.cache inner load ttl
  | .writeThrough store => WriteThrough.cache inner store
  | .writeDelete store limit => WriteDelete.cache inner store limit
  | .writeDoubleDelete store limit later => WriteDelete.doubleCache inner store limit later
  | .writeBack => inner
  | .singleflight load ttl flights => Singleflight.cache inner load ttl flights
  | .randomExpire draw => RandomExpire.cache inner draw
  | .guard load filter policy => Guard.cache inner load filter policy
  | .preload sentinel realTtl sentinelTtl => Preload.cache inner sentinel realTtl sentinelTtl

omit [Clock σ] [Journal σ] in
/-- The layer reads batches key by key when the batch below fails. -/
def readsThrough : Decorator σ → Bool
  | .readThrough _ _ => true
  | _ => false

end Decorator

/-- The layers, given from the top down, over a memory cache. -/
def stack (m : Memory σ) : List (Decorator σ) → Cache σ
  | [] => m.cache
  | d :: ds => d.onto (stack m ds)

/-! ## The layers of a session -/

namespace Session

/-- The decorator that layer `i` of a session is. A layer with an engine of its own is none, nor is
one that was not built. -/
def Layer.decorator? (i : Nat) : Layer → Option (Decorator State)
  | .memory _ | .registry _ _ | .faulty _ => none
  | .cacheAside ttl => some (.cacheAside State.loader State.store ttl)
  | .readThrough ttl => some (.readThrough State.loader ttl)
  | .writeThrough => some (.writeThrough State.store)
  | .writeDelete limit => some (.writeDelete State.store limit)
  | .writeDoubleDelete _ _ limit => some (.writeDoubleDelete State.store limit fun key =>
      State.launch (.secondDelete i key))
  | .writeBack => some .writeBack
  | .singleflight ttl => some (.singleflight State.loader ttl (State.flightsSlot i))
  | .randomExpire offset => some (.randomExpire fun s =>
      match offset with
      | some d => (d, s)
      | none => State.drawOffset s)
  | .guard policy _ _ [] => some (.guard State.loader (State.membership i) policy)
  | .guard _ _ _ (_ :: _) => none
  | .preload config =>
    match config.sentinelTtl with
    | .ok ttl => some (.preload (State.sentinel i) config.realTtl ttl)
    | .error _ => none

theorem onto_of_decorator? {i : Nat} {l : Layer} {d : Decorator State}
    (h : l.decorator? i = some d) (inner : Cache State) : l.onto i inner = d.onto inner := by
  cases l with
  | memory watched => cases h
  | registry name payload => cases h
  | faulty faults => cases h
  | guard policy size keys missing =>
    cases missing with
    | nil =>
      cases h
      rfl
    | cons p ps => cases h
  | preload config =>
    simp only [Layer.decorator?] at h
    cases ht : config.sentinelTtl with
    | error e => simp [ht] at h
    | ok ttl =>
      rw [ht] at h
      cases h
      simp only [Layer.onto, ht, Decorator.onto]
  | _ =>
    cases h
    rfl

/-- The decorators over the memory engine at the bottom of a session, from the top down. -/
def decorators? : List Layer → Option (List (Decorator State))
  | [] => none
  | [.memory _] => some []
  | l :: below => do return (← l.decorator? below.length) :: (← decorators? below)

/-- A session whose layers are decorators over a memory engine runs their stack. -/
theorem cacheOf_eq_stack {layers : List Layer} {ds : List (Decorator State)}
    (h : decorators? layers = some ds) : cacheOf layers = stack (State.memory 0) ds := by
  induction layers generalizing ds with
  | nil => cases h
  | cons l below ih =>
    unfold decorators? at h
    split at h
    · cases h
    · cases h
      rename_i heq
      cases heq
      rfl
    · rename_i heq
      cases heq
      obtain ⟨d, hd, h⟩ := Option.bind_eq_some_iff.mp h
      obtain ⟨ds', hds, h⟩ := Option.bind_eq_some_iff.mp h
      obtain rfl := Option.some.inj h
      rw [cacheOf_cons, ih hds, onto_of_decorator? hd, stack]

end Session

/-! ## Reads of one key -/

open Process

/-- A layer reads the cache below it first. -/
theorem get_onto (d : Decorator σ) (inner : Cache σ) (key : String) :
    (d.onto inner).get key = inner.get key ∨
      ∃ f, (d.onto inner).get key = (inner.get key).bind f ∧
        ∀ v, f (.ok v) = .done (.ok v) := by
  cases d with
  | cacheAside reader writer ttl => exact .inr ⟨_, rfl, fun _ => rfl⟩
  | readThrough load ttl => exact .inr ⟨_, rfl, fun _ => rfl⟩
  | singleflight load ttl flights => exact .inr ⟨_, rfl, fun _ => rfl⟩
  | guard load filter policy => exact .inr ⟨_, rfl, fun _ => rfl⟩
  | _ => exact .inl rfl

variable {E : Surroundings σ}

/-- The steps of the read below are steps of the layer's read. -/
theorem keeps_get_below {R : σ → σ → Prop} {d : Decorator σ} {inner : Cache σ} {key : String}
    (h : Keeps R ((d.onto inner).get key)) : Keeps R (inner.get key) := by
  rcases get_onto d inner key with hg | ⟨f, hg, -⟩
  · exact hg ▸ h
  · rw [hg] at h
    exact keeps_of_bind h

/-- **What a layer finds below it, it answers.** -/
theorem runs_get_onto (d : Decorator σ) {inner : Cache σ} {key : String} {s t : σ} {v : Value}
    (h : Runs E (inner.get key) s (some (.ok v)) t) :
    Runs E ((d.onto inner).get key) s (some (.ok v)) t := by
  rcases get_onto d inner key with hg | ⟨f, hg, hf⟩
  · exact hg.symm ▸ h
  · rw [hg]
    refine Runs.bind h ?_
    rw [hf]
    exact .done (E.refl t)

end LayeredCache

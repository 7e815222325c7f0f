import LayeredCache.Cache

/-!
# Filter guard

A membership filter stands in front of the loader: a miss on a key that was never added fails
without a load. Loaded and written keys are added, unless that is switched off.

A guard is put together from three parts, and the first missing one is named. The filter is one of
them: a test and an addition, each one step, and nothing else is asked of it.

Results:
* `assemble_eq_ok_iff`: a guard is built exactly when no part is missing.
-/

namespace LayeredCache.Guard

variable {σ : Type}

/-- A membership filter in a state. Keys that were added always pass the test. -/
structure Membership (σ : Type) where
  test : String → σ → Bool × σ
  add : String → σ → σ

/-- How a guard treats loaded and written keys. -/
structure Policy where
  /-- The time that loaded values are kept for. -/
  ttl : Duration
  addOnLoad : Bool
  addOnPut : Bool

/-- A part of a guard that has to be given. -/
inductive Part where
  | inner
  | loader
  | filter
  deriving DecidableEq, Repr

def Part.name : Part → String
  | .inner => "inner cache"
  | .loader => "loader"
  | .filter => "bloom filter"

variable [Journal σ]

/-- The cached value, else the loaded one if the filter knows the key, else the inner error. -/
def get (inner : Cache σ) (load : Loader σ) (filter : Membership σ) (policy : Policy)
    (key : String) : Process σ (Answer Value) := do
  match ← inner.get key with
  | .ok v => return .ok v
  | .error miss =>
    if ← Process.step (filter.test key) then
      match ← load.fetch inner policy.ttl "Bloom filter cache could not cache key" key with
      | .error e => return .error e
      | .ok v =>
        if policy.addOnLoad then Process.change (filter.add key)
        return .ok v
    else return .error miss

omit [Journal σ] in
/-- Writes a value, and adds its key if that succeeded. -/
def put (inner : Cache σ) (filter : Membership σ) (policy : Policy) (key : String) (v : Value)
    (ttl : Duration) : Process σ (Answer Unit) := do
  match ← inner.put key v ttl with
  | .error e => return .error e
  | .ok () =>
    if policy.addOnPut then Process.change (filter.add key)
    return .ok ()

/-- Guards the loader. -/
def cache (inner : Cache σ) (load : Loader σ) (filter : Membership σ) (policy : Policy) : Cache σ :=
  { inner with
    get := get inner load filter policy
    put := put inner filter policy }

/-- A guard from its parts. -/
def assemble (inner : Option (Cache σ)) (load : Option (Loader σ))
    (filter : Option (Membership σ)) (policy : Policy) : Answer (Cache σ) :=
  let missing (p : Part) : CacheError := .invalidFilterConfig (p.name ++ " is required")
  match inner, load, filter with
  | none, _, _ => .error (missing .inner)
  | _, none, _ => .error (missing .loader)
  | _, _, none => .error (missing .filter)
  | some i, some l, some f => .ok (cache i l f policy)

theorem assemble_eq_ok_iff {inner : Option (Cache σ)} {load : Option (Loader σ)}
    {filter : Option (Membership σ)} {policy : Policy} {c : Cache σ} :
    assemble inner load filter policy = .ok c ↔
      ∃ i l f, inner = some i ∧ load = some l ∧ filter = some f ∧ c = cache i l f policy := by
  cases inner <;> cases load <;> cases filter <;> simp [assemble, eq_comm]

end LayeredCache.Guard

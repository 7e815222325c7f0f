import LayeredCache.Cache

/-!
# Cache aside

Reads that miss go to a reader and fill the cache; writes go to a writer and drop the cached copy.
A counter is stepped in the source: it is read through the cache, stepped, written, and dropped.
Nothing is held from one of these steps to the next.
-/

namespace LayeredCache.CacheAside

variable {σ : Type}

/-- Drops the cached copy of a key that is there. -/
def invalidate (inner : Cache σ) (key : String) : Process σ (Answer Unit) := do
  match ← inner.isExist key with
  | .error e => return .error e
  | .ok false => return .ok ()
  | .ok true => inner.delete key

/-- The cached value, else the source's, which has to be cached. -/
def get (inner : Cache σ) (reader : Loader σ) (ttl : Duration) (key : String) :
    Process σ (Answer Value) := do
  match ← inner.get key with
  | .ok v => return .ok v
  | .error _ =>
    match ← reader key with
    | .error c => return .error (.loadFailed key c)
    | .ok v =>
      match ← inner.put key v ttl with
      | .error e => return .error e
      | .ok () => return .ok v

/-- Writes to the source, then drops the cached copy. -/
def put (inner : Cache σ) (writer : Store σ) (key : String) (v : Value) :
    Process σ (Answer Unit) := do
  match ← writer key v with
  | .error c => return .error (.persistFailed key c)
  | .ok () => invalidate inner key

/-- Reads, steps and writes back a counter. -/
def step (inner : Cache σ) (reader : Loader σ) (writer : Store σ) (ttl : Duration) (s : Step)
    (key : String) : Process σ (Answer Unit) := do
  match ← get inner reader ttl key with
  | .error e => return .error e
  | .ok v =>
    match v.step key s with
    | .error e => return .error e
    | .ok v' => put inner writer key v'

/-- Reads beside the source and writes to it. -/
def cache (inner : Cache σ) (reader : Loader σ) (writer : Store σ) (ttl : Duration) : Cache σ :=
  { inner with
    get := get inner reader ttl
    put := fun key v _ => put inner writer key v
    step := step inner reader writer ttl }

end LayeredCache.CacheAside

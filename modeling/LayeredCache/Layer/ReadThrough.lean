import LayeredCache.Cache

/-!
# Read through

On a miss the cache itself loads the value and writes it back. A batch that fails is read again
key by key, side by side. So a key may be looked at twice, and between the two looks whatever may
happen to it may happen; two slots of one key are two reads, each of which may load.
-/

namespace LayeredCache.ReadThrough

variable {σ : Type} [Clock σ] [Journal σ]

omit [Clock σ] in
/-- The cached value, else the loaded one. -/
def get (inner : Cache σ) (load : Loader σ) (ttl : Duration) (key : String) :
    Process σ (Answer Value) := do
  match ← inner.get key with
  | .ok v => return .ok v
  | .error _ => load.fetch inner ttl "Read-through could not cache key" key

/-- The cached batch, else every key by itself. -/
def getMulti (inner : Cache σ) (load : Loader σ) (ttl : Duration) (keys : List String) :
    Process σ (Answer (List (Option Value))) := do
  match ← inner.getMulti keys with
  | .ok vs => return .ok vs
  | .error _ =>
    let outcomes ← Process.all (keys.map (get inner load ttl))
    return Batch.collect (keys.zip outcomes)

/-- Loads what the inner cache misses and keeps it for `ttl`. -/
def cache (inner : Cache σ) (load : Loader σ) (ttl : Duration) : Cache σ :=
  { inner with
    get := get inner load ttl
    getMulti := getMulti inner load ttl }

end LayeredCache.ReadThrough

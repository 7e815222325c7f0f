import LayeredCache.Cache

/-!
# Write through

A value is written to the source of truth first and cached only if that succeeded. Where the cache
refuses, the source keeps the value.
-/

namespace LayeredCache.WriteThrough

variable {σ : Type}

/-- Writes to the source, then to the inner cache. -/
def put (inner : Cache σ) (store : Store σ) (key : String) (v : Value) (ttl : Duration) :
    Process σ (Answer Unit) := do
  match ← store key v with
  | .error c => return .error (.persistFailed key c)
  | .ok () => inner.put key v ttl

/-- Writes through to the source. -/
def cache (inner : Cache σ) (store : Store σ) : Cache σ := { inner with put := put inner store }

end LayeredCache.WriteThrough

import LayeredCache.Cache

/-!
# Random expiry

Keys written together should not expire together, so each time to live gets an offset. A zero time
still means forever. Where the offset comes from is a parameter: what is proved holds of any offset
that may be drawn.

Results:
* `isZero_spread`: an offset neither makes a finite time infinite nor the other way round.
-/

namespace LayeredCache.RandomExpire

variable {σ : Type}

/-- A time to live with an offset. -/
def spread (offset ttl : Duration) : Duration := if ttl.isZero then ttl else ttl.add offset

/-- The `n`-th of the standard offsets: three to eight whole seconds, in turn. -/
def standardOffset (n : Nat) : Duration := .ofSecs (3 + n % 6)

/-- Adds an offset, drawn for each finite time, to the time to live of what is put. -/
def cache (inner : Cache σ) (draw : σ → Duration × σ) : Cache σ :=
  { inner with
    put := fun key v ttl => do
      if ttl.isZero then inner.put key v ttl
      else
        let offset ← Process.step draw
        inner.put key v (spread offset ttl) }

theorem isZero_spread (offset ttl : Duration) : (spread offset ttl).isZero = ttl.isZero := by
  unfold spread
  split
  · rfl
  · rename_i h
    have hl := ttl.lt_limit
    simp only [Duration.isZero, beq_iff_eq] at h
    rw [Bool.eq_iff_iff]
    simp only [Duration.isZero, beq_iff_eq, Duration.toNanos_add, Duration.maxNanos]
    omega

end LayeredCache.RandomExpire

import LayeredCache.Layer.Memory

/-!
# Write back

Values are written to the source only when the memory engine evicts them. Closing the cache hands
over what is left: the expired entries by a reclamation pass, then the live ones, which are taken
out first so that no later pass hands them over again. A cache is closed once.

The pass and the drain look at the clock each for itself. That the entries handed over are written
is for the receiver to see to.
-/

namespace LayeredCache.WriteBack

variable {σ : Type} [Clock σ]

/-- Takes the live entries out and hands them to the receiver; answers how many. -/
def flush (m : Memory σ) : Process σ Nat := do
  let out ← m.drainLive
  m.hand out
  return out.length

/-- Hands over every remaining entry; answers how many. Later calls do nothing. -/
def close (m : Memory σ) (closed : Slot σ Bool) : Process σ Nat := do
  if ← Process.step (closed.update fun c => (c, true)) then return 0
  let reclaimed ← m.reclaim
  let flushed ← flush m
  return reclaimed + flushed

end LayeredCache.WriteBack

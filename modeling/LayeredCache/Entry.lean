import LayeredCache.Value.Basic
import LayeredCache.Duration

/-!
# Entries

A stored value with the instant it was stored at and how long it lives. An entry is expired once
strictly more than its lifespan has passed; a zero lifespan means forever. Instants count
nanoseconds from an origin on which nothing depends. At an instant before the creation of an entry
no time has passed for it.

Results:
* `isExpiredAt_iff`: what being expired means.
* `isExpiredAt_mono`: once expired, an entry stays expired.
* `remaining?_eq_none_iff`: only an entry that lives forever has no remaining time.
-/

namespace LayeredCache

structure Entry where
  value : Value
  created : Nat
  lifespan : Duration

namespace Entry

/-- Strictly more than the lifespan has passed at `now`. -/
def isExpiredAt (e : Entry) (now : Nat) : Bool :=
  !e.lifespan.isZero && decide (e.lifespan.toNanos < now - e.created)

/-- The rest of the lifespan at `now`, nothing if the entry lives forever. -/
def remaining? (e : Entry) (now : Nat) : Option Duration :=
  if e.lifespan.isZero then none
  else some ⟨e.lifespan.toNanos - (now - e.created),
    Nat.lt_of_le_of_lt (Nat.sub_le _ _) e.lifespan.lt_limit⟩

theorem isExpiredAt_iff {e : Entry} {now : Nat} :
    e.isExpiredAt now = true ↔
      e.lifespan.toNanos ≠ 0 ∧ e.created + e.lifespan.toNanos < now := by
  simp only [isExpiredAt, Duration.isZero, Bool.and_eq_true, Bool.not_eq_true', beq_eq_false_iff_ne,
    decide_eq_true_eq]
  omega

theorem isExpiredAt_mono {e : Entry} {now later : Nat} (h : now ≤ later)
    (he : e.isExpiredAt now = true) : e.isExpiredAt later = true := by
  rw [isExpiredAt_iff] at he ⊢
  omega

theorem remaining?_eq_none_iff {e : Entry} {now : Nat} :
    e.remaining? now = none ↔ e.lifespan.toNanos = 0 := by
  simp [remaining?, Duration.isZero]

end Entry
end LayeredCache

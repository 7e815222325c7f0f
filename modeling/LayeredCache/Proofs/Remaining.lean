import LayeredCache.Proofs.Seconds

/-!
# What remains of an entry

How long an entry still lives tells when it is expired: it is alive as long as no more than that
passes, and expired from the next nanosecond on. An entry counts nanoseconds; worked out in seconds
and nanoseconds, with carries and borrows, both answers are the same.

Results:
* `isExpiredAt_add_iff`: when an entry with a rest is expired.
* `Words.isExpiredAt_eq`, `Words.remaining?_eq`: expiry and rest in two words.
* `remaining_foretells`: what the rest tells about the end.
-/

namespace LayeredCache
namespace Entry

variable {e : Entry} {now i : Nat} {x r : Duration}

/-! ## The rest and the end -/

theorem remaining?_eq_some_iff : e.remaining? now = some r ↔
    e.lifespan.toNanos ≠ 0 ∧ r.toNanos = e.lifespan.toNanos - (now - e.created) := by
  obtain ⟨n, hn⟩ := r
  unfold remaining?
  split
  case isTrue h => simp [Duration.isZero_iff.mp h]
  case isFalse h =>
    rw [Duration.isZero_iff] at h
    rw [Option.some.injEq, Duration.mk.injEq]
    exact ⟨fun hr => ⟨h, hr.symm⟩, fun hr => hr.2.symm⟩

/-- At first an entry still has its whole lifespan. -/
theorem remaining?_created (e : Entry) :
    e.remaining? e.created = if e.lifespan.isZero then none else some e.lifespan := by
  unfold remaining?
  split
  case isTrue => rfl
  case isFalse => simp only [Nat.sub_self, Nat.sub_zero]

/-- An entry without a rest lives forever. -/
theorem not_isExpiredAt_of_remaining? (h : e.remaining? now = none) (i : Nat) :
    e.isExpiredAt i = false := by
  rw [← Bool.not_eq_true, isExpiredAt_iff]
  exact fun hx => hx.1 (remaining?_eq_none_iff.mp h)

/-- An entry is expired just when more time passes than what remains. If no time passes, the rest
does not tell: with nothing left, an entry may be alive or expired. -/
theorem isExpiredAt_add_iff (hnow : e.created ≤ now) (hx : Duration.zero < x)
    (h : e.remaining? now = some r) : e.isExpiredAt (now + x.toNanos) = true ↔ r < x := by
  obtain ⟨hlife, hr⟩ := remaining?_eq_some_iff.mp h
  have hpos : 0 < x.toNanos := hx
  rw [isExpiredAt_iff, Duration.lt_iff, hr]
  omega

/-- Nothing remains of an entry that is expired. -/
theorem remaining?_of_isExpiredAt (h : e.isExpiredAt now = true) :
    e.remaining? now = some Duration.zero := by
  obtain ⟨hlife, hlt⟩ := isExpiredAt_iff.mp h
  refine remaining?_eq_some_iff.mpr ⟨hlife, ?_⟩
  change 0 = _
  omega

theorem not_isExpiredAt_of_le (h : i ≤ e.created) : e.isExpiredAt i = false := by
  rw [← Bool.not_eq_true, isExpiredAt_iff]
  omega

/-! ## The same in two words -/

/-- The instant and the lifespan of an entry in two words each. -/
structure Words (e : Entry) where
  created : Split
  lifespan : Split
  toNanos_created : created.toNanos = e.created
  toDuration_lifespan : lifespan.toDuration = e.lifespan

namespace Words

/-- Strictly more than the lifespan has passed at `now`. -/
def isExpiredAt (w : Words e) (now : Split) : Bool :=
  !w.lifespan.isZero && w.lifespan.before (now.since w.created)

/-- The rest of the lifespan at `now`, nothing if the entry lives forever. -/
def remaining? (w : Words e) (now : Split) : Option Split :=
  if w.lifespan.isZero then none else some (w.lifespan.sub (now.since w.created))

theorem nonempty_of_created (h : e.created ≤ Duration.maxNanos) : Nonempty (Words e) := by
  have hlt : e.created < 0x1_0000_0000_0000_0000 * 1_000_000_000 := by
    unfold Duration.maxNanos at h
    omega
  obtain ⟨created, hc⟩ := Split.exists_toNanos_eq hlt
  obtain ⟨lifespan, hl⟩ := Split.exists_toNanos_eq e.lifespan.lt_limit
  obtain ⟨v, c, n, hn⟩ := e
  exact ⟨created, lifespan, hc, by rw [Split.toDuration, Duration.mk.injEq]; exact hl⟩

theorem toNanos_lifespan (w : Words e) : w.lifespan.toNanos = e.lifespan.toNanos :=
  congrArg Duration.toNanos w.toDuration_lifespan

theorem isZero_lifespan (w : Words e) : w.lifespan.isZero = e.lifespan.isZero := by
  rw [Bool.eq_iff_iff, Split.isZero_iff, Duration.isZero_iff, w.toNanos_lifespan]

theorem isExpiredAt_eq (w : Words e) (now : Split) :
    w.isExpiredAt now = e.isExpiredAt now.toNanos := by
  have hlt : w.lifespan.before (now.since w.created) =
      decide (e.lifespan.toNanos < now.toNanos - e.created) := by
    rw [Bool.eq_iff_iff, Split.before_iff, decide_eq_true_eq, Split.toNanos_since,
      w.toNanos_created, w.toNanos_lifespan]
  rw [isExpiredAt, Entry.isExpiredAt, w.isZero_lifespan, hlt]

theorem remaining?_eq (w : Words e) (now : Split) :
    (w.remaining? now).map Split.toDuration = e.remaining? now.toNanos := by
  have hsub : (w.lifespan.sub (now.since w.created)).toNanos =
      e.lifespan.toNanos - (now.toNanos - e.created) := by
    rw [Split.toNanos_sub, Split.toNanos_since, w.toNanos_created, w.toNanos_lifespan]
  unfold remaining? Entry.remaining?
  rw [w.isZero_lifespan]
  split
  case isTrue => rfl
  case isFalse => simp only [Option.map_some, Split.toDuration, hsub]

end Words

/-- **What remains of an entry tells when it is expired**: never if there is no rest, and otherwise
from the nanosecond after the rest on. Nothing remains of an expired entry, and it stays expired; up
to its creation an entry is alive, and at its creation its whole lifespan is left. Every entry that
is created within 2^64 seconds fits two words, and there all this comes out the same. -/
theorem remaining_foretells (e : Entry) (now : Nat) (x : Duration) (hnow : e.created ≤ now)
    (hx : Duration.zero < x) :
    (e.remaining? now = none → ∀ i, e.isExpiredAt i = false) ∧
    (∀ r, e.remaining? now = some r → (e.isExpiredAt (now + x.toNanos) = true ↔ r < x)) ∧
    (e.isExpiredAt now = true → e.remaining? now = some Duration.zero ∧
      ∀ later, now ≤ later → e.isExpiredAt later = true) ∧
    (∀ i, i ≤ e.created → e.isExpiredAt i = false) ∧
    e.remaining? e.created = (if e.lifespan.isZero then none else some e.lifespan) ∧
    (e.created ≤ Duration.maxNanos → Nonempty (Words e)) ∧
    ∀ (w : Words e) (n : Split),
      w.isExpiredAt n = e.isExpiredAt n.toNanos ∧
      (w.remaining? n).map Split.toDuration = e.remaining? n.toNanos ∧
      ∀ y later r, n.toNanos = now → y.toDuration = x → n.add? y = some later →
        w.remaining? n = some r → (w.isExpiredAt later = true ↔ r.before y = true) := by
  refine ⟨not_isExpiredAt_of_remaining?, fun r => isExpiredAt_add_iff hnow hx, fun h => ?_,
    fun i => not_isExpiredAt_of_le, remaining?_created e, Words.nonempty_of_created,
    fun w n => ⟨w.isExpiredAt_eq n, w.remaining?_eq n, ?_⟩⟩
  · exact ⟨remaining?_of_isExpiredAt h, fun later hle => isExpiredAt_mono hle h⟩
  · rintro y later r rfl rfl hsum hr
    have hrest : e.remaining? n.toNanos = some r.toDuration := by
      rw [← w.remaining?_eq, hr, Option.map_some]
    rw [w.isExpiredAt_eq, ← Split.add?_eq_some_iff.mp hsum, Split.before_iff]
    exact isExpiredAt_add_iff hnow hx hrest

/-- The lifespan of an entry is up just before the last second of the clock: it is alive with
nothing left, and a nanosecond later, after a carry, it is expired. -/
theorem remaining_foretells_lastSecond :
    let created : Split := ⟨1, 999_999_999, by decide⟩
    let lifespan : Split := ⟨0xFFFF_FFFF_FFFF_FFFD, 0, by decide⟩
    let e : Entry := ⟨.bool true, created.toNanos, lifespan.toDuration⟩
    let w : Words e := ⟨created, lifespan, rfl, rfl⟩
    let now : Split := ⟨0xFFFF_FFFF_FFFF_FFFE, 999_999_999, by decide⟩
    let later : Split := ⟨0xFFFF_FFFF_FFFF_FFFF, 0, by decide⟩
    let x : Split := ⟨0, 1, by decide⟩
    (e.created ≤ now.toNanos ∧ Duration.zero < x.toDuration ∧ now.add? x = some later) ∧
    e.remaining? now.toNanos = some Duration.zero ∧ e.isExpiredAt now.toNanos = false ∧
    e.isExpiredAt (now.toNanos + x.toNanos) = true ∧ w.isExpiredAt later = true := by
  intro created lifespan e w now later x
  have hnow : e.created ≤ now.toNanos := by decide
  have hx : Duration.zero < x.toDuration := by decide
  have hsum : now.add? x = some later := Split.add?_eq_some_iff.mpr (by decide)
  have hrest : e.remaining? now.toNanos = some Duration.zero := by decide
  obtain ⟨-, hend, -, -, -, -, hwords⟩ := remaining_foretells e now.toNanos x.toDuration hnow hx
  have hw : w.remaining? now = some Split.zero := by decide
  refine ⟨⟨hnow, hx, hsum⟩, hrest, by decide, (hend _ hrest).mpr hx, ?_⟩
  exact ((hwords w now).2.2 x later Split.zero rfl rfl hsum hw).mpr (by decide)

end Entry
end LayeredCache

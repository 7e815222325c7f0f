import LayeredCache.Proofs.Paced
import Mathlib.Data.Nat.Find

/-!
# Ticks that run when they are due

A reclamation loop whose ticks run when they are due removes what has expired before the instant of
the tick, and nothing else. So between two ticks every entry that does not live forever outlives the
last one: it was looked at then, or it has been put since.

The invariant counts the removals that have been made. While a tick is under way the clock stands
still, whatever others do, so what they put meanwhile is not expired.

Results:
* `due_eq`: the ticks come a period apart.
* `kept_task`, `kept_elapse`: tasks and the passing of time keep the invariant.
* `kept_loop`: so does a step of the loop, and what it takes out goes at the first tick after its
  expiry.
-/

namespace LayeredCache.Paced

/-! ## When ticks are due -/

/-- The instants of the ticks of a loop that was started at `t`, the start being number zero. -/
def due (t : Nat) (period : Duration) : Nat → Nat
  | 0 => t
  | n + 1 => deadline (due t period n) period

section Due

variable {t : Nat} {period : Duration}

/-- The ticks come a period apart, as long as instants can be counted. -/
theorem due_eq {n : Nat} (h : t + n * period.toNanos < 0x8000_0000_0000_0000 * 1_000_000_000) :
    due t period n = t + n * period.toNanos := by
  induction n with
  | zero => rw [due, Nat.zero_mul, Nat.add_zero]
  | succ n ih =>
    rw [Nat.succ_mul] at h ⊢
    rw [due, ih (by omega), deadline, if_pos (by omega), Nat.add_assoc]

theorem due_lt_succ (hp : 0 < period.toNanos) (n : Nat) : due t period n < due t period (n + 1) :=
  Loop.lt_deadline hp

theorem due_le_due (hp : 0 < period.toNanos) {i j : Nat} (h : i ≤ j) :
    due t period i ≤ due t period j := by
  induction h with
  | refl => exact Nat.le_refl _
  | step _ ih => exact Nat.le_trans ih (Nat.le_of_lt (due_lt_succ hp _))

/-- The first tick that is later than the expiry of the entry. -/
structure First (t : Nat) (period : Duration) (n : Nat) (e : Entry) : Prop where
  pos : 1 ≤ n
  mortal : e.lifespan.toNanos ≠ 0
  expired : e.created + e.lifespan.toNanos < due t period n
  least : ∀ i, 1 ≤ i → i < n → due t period i ≤ e.created + e.lifespan.toNanos

theorem First.unique {n m : Nat} {e : Entry} (h : First t period n e) (h' : First t period m e) :
    n = m := by
  rcases Nat.lt_trichotomy n m with hlt | rfl | hlt
  · exact absurd (h'.least n h.pos hlt) (by have := h.expired; omega)
  · rfl
  · exact absurd (h.least m h'.pos hlt) (by have := h'.expired; omega)

theorem le_due (hp : 0 < period.toNanos) (n : Nat) : n ≤ due t period n := by
  induction n with
  | zero => exact Nat.zero_le _
  | succ n ih => exact Nat.succ_le_of_lt (Nat.lt_of_le_of_lt ih (due_lt_succ hp n))

/-- There is such a tick for every entry that does not live forever. -/
theorem exists_first (hp : 0 < period.toNanos) {e : Entry} (hm : e.lifespan.toNanos ≠ 0) :
    ∃ n, First t period n e := by
  have hex : ∃ n, 1 ≤ n ∧ e.created + e.lifespan.toNanos < due t period n :=
    ⟨_, Nat.le_add_left 1 (e.created + e.lifespan.toNanos), le_due hp _⟩
  obtain ⟨hpos, hlt⟩ := Nat.find_spec hex
  refine ⟨Nat.find hex, hpos, hm, hlt, fun i hi hlt => ?_⟩
  exact Nat.le_of_not_lt fun h => Nat.find_min hex hlt ⟨hi, h⟩

/-- It comes at most a period after the expiry, or after the start if that is later. -/
theorem First.due_le {n : Nat} {e : Entry} (h : First t period n e)
    (hn : t + n * period.toNanos < 0x8000_0000_0000_0000 * 1_000_000_000) :
    due t period n ≤ max (e.created + e.lifespan.toNanos) t + period.toNanos := by
  obtain ⟨m, rfl⟩ : ∃ m, n = m + 1 := ⟨n - 1, by have := h.pos; omega⟩
  have hm : t + m * period.toNanos < 0x8000_0000_0000_0000 * 1_000_000_000 := by
    rw [Nat.succ_mul] at hn
    omega
  rw [due_eq hn, Nat.succ_mul]
  cases m with
  | zero => omega
  | succ m =>
    have hl := h.least (m + 1) (by omega) (by omega)
    rw [due_eq hm] at hl
    omega

end Due

/-! ## The clock and the loop -/

variable {t : Nat} {period : Duration} {s s' : Paced} {j : Nat} {y y' : Beat}

/-- The next tick of the loop is due at this instant. -/
def Ahead (period : Duration) (next : Nat) (s : Paced) : Prop :=
  ∃ l, s.solo.engine.loop = some l ∧ l.next = next ∧ l.period = period

/-- After `j` removals: where the loop is with the clock. From the scan on, a tick knows all keys
whose entries are expired. -/
def Beat.On (t : Nat) (period : Duration) (j : Nat) (s : Paced) : Beat → Prop
  | .awaiting _ => Ahead period (due t period (j + 1)) s ∧ due t period j ≤ s.solo.instant ∧
      s.solo.instant ≤ due t period (j + 1)
  | .looking _ | .ticking _ .rearm =>
    Ahead period (due t period (j + 1)) s ∧ s.solo.instant = due t period (j + 1)
  | .ticking _ .scan =>
    Ahead period (due t period (j + 2)) s ∧ s.solo.instant = due t period (j + 1)
  | .ticking _ (.evict keys) =>
    Ahead period (due t period (j + 2)) s ∧ s.solo.instant = due t period (j + 1) ∧
      ∀ key e, s.table.find? key = some e → e.isExpiredAt s.solo.instant = true → key ∈ keys
  | .ticking _ (.hand _) | .ticking _ (.deliver _ _) =>
    Ahead period (due t period (j + 1)) s ∧ s.solo.instant = due t period j
  | .ended => False

/-- Every entry that does not live forever outlives the tick. -/
def Outlive (t : Nat) (period : Duration) (j : Nat) (table : Table) : Prop :=
  j ≠ 0 → ∀ key e, table.find? key = some e → e.lifespan.toNanos ≠ 0 →
    due t period j ≤ e.created + e.lifespan.toNanos

/-- What every turn keeps while somebody refers to the cache; `j` removals have been made. -/
structure Kept (t : Nat) (period : Duration) (j : Nat) (s : Paced) (y : Beat) : Prop where
  started : s.solo.engine.started = true
  outlive : Outlive t period j s.table
  on : y.On t period j s

/-- The last tick is over, and the next one is still to come or under way. -/
theorem due_le_instant (hp : 0 < period.toNanos) (h : y.On t period j s) :
    due t period j ≤ s.solo.instant ∧ s.solo.instant ≤ due t period (j + 1) := by
  have := Nat.le_of_lt (due_lt_succ (t := t) hp j)
  cases y with
  | awaiting n => exact h.2
  | looking n => rw [h.2]; exact ⟨this, Nat.le_refl _⟩
  | ticking n stage =>
    cases stage with
    | rearm | scan => rw [h.2]; exact ⟨this, Nat.le_refl _⟩
    | evict keys => rw [h.2.1]; exact ⟨this, Nat.le_refl _⟩
    | hand | deliver => rw [h.2]; exact ⟨Nat.le_refl _, this⟩
  | ended => exact h.elim

/-- The loop waits for its next tick as soon as everything is handed over. -/
theorem on_after {n : Nat} {stage : Memory.Stage} (hp : 0 < period.toNanos)
    (h : (Beat.ticking n stage).On t period j s) : (Beat.after n stage).On t period j s := by
  cases stage with
  | deliver rest removed =>
    cases rest with
    | nil => exact ⟨h.1, due_le_instant hp h⟩
    | cons x rest => exact h
  | _ => exact h

/-! ## Tasks and time -/

/-- A task puts entries that are not expired yet, and keeps the instants of others. -/
theorem kept_task {task : Solo.Task} {r : Solo} (hp : 0 < period.toNanos)
    (h : Kept t period j s y) (hb : Beside task s.solo r) :
    Kept t period j { s with solo := r } y := by
  obtain ⟨hstarted, hloop⟩ := hb.loop h.started
  have hdue := (due_le_instant hp h.on).1
  -- An entry that is there was there before, with another value at most, or is put now.
  have origin {key : String} {e : Entry} (he : r.engine.table.find? key = some e) :
      s.solo.instant ≤ e.created ∨ ∃ v, s.table.find? key = some { e with value := v } := by
    have hf := hb.fate key
    rw [he] at hf
    change _ ∨ ∃ v, s.solo.engine.table.find? key = _
    generalize s.solo.engine.table.find? key = o at hf ⊢
    cases hf with
    | @kept e₀ v _ => exact .inr ⟨e₀.value, rfl⟩
    | stored => exact .inl (Nat.le_refl _)
  constructor
  case started => exact hstarted
  case outlive =>
    intro hj key e he hm
    rcases origin he with hnow | ⟨v, hbefore⟩
    · exact Nat.le_trans hdue (Nat.le_trans hnow (Nat.le_add_right ..))
    · exact h.outlive hj key { e with value := v } hbefore hm
  case on =>
    have ahead {next : Nat} (ha : Ahead period next s) :
        Ahead period next { s with solo := r } := by
      obtain ⟨l, hl, hn⟩ := ha
      exact ⟨l, hloop.trans hl, hn⟩
    have hon := h.on
    unfold Beat.On at hon ⊢
    simp only [hb.instant]
    split at hon
    · exact ⟨ahead hon.1, hon.2⟩
    · exact ⟨ahead hon.1, hon.2⟩
    · exact ⟨ahead hon.1, hon.2⟩
    · exact ⟨ahead hon.1, hon.2⟩
    · refine ⟨ahead hon.1, hon.2.1, fun key e he hx => ?_⟩
      rcases origin he with hnow | ⟨v, hbefore⟩
      · exact absurd (Entry.isExpiredAt_iff.mp hx).2 (by omega)
      · exact hon.2.2 key _ hbefore hx
    · exact ⟨ahead hon.1, hon.2⟩
    · exact ⟨ahead hon.1, hon.2⟩
    · exact hon

/-- Time passes up to the next tick. -/
theorem kept_elapse {n nanos : Nat} (h : Kept t period j s (.awaiting n))
    (hn : ∀ l ∈ s.solo.engine.loop, s.solo.instant + nanos ≤ l.next) :
    Kept t period j (happen (.elapse nanos) s) (.awaiting n) := by
  obtain ⟨⟨l, hl, hnext, hperiod⟩, hsince, -⟩ := h.on
  refine ⟨h.started, h.outlive, ⟨l, hl, hnext, hperiod⟩, ?_, ?_⟩
  · exact Nat.le_trans hsince (Nat.le_add_right ..)
  · have := hn l hl
    rw [hnext] at this
    exact this

/-! ## The loop -/

/-- A loop that ticks just when it is due keeps its phase. -/
theorem ahead_rearm {n : Nat} (h : Ahead period (due t period (n + 1)) s)
    (hi : s.solo.instant = due t period (n + 1)) :
    Ahead period (due t period (n + 2))
      { s with
        solo := Solo.memory.slot.modify (fun e => e.rearm (Clock.instant s.solo)) s.solo } := by
  obtain ⟨l, hl, hnext, hperiod⟩ := h
  have hadvance : (l.advance s.solo.instant).next = deadline l.next l.period := by
    rw [hi, ← hnext, Loop.advance, if_neg (by omega), if_neg (by omega), Nat.sub_self,
      Nat.zero_div, Nat.zero_mul, Nat.add_zero]
  refine ⟨l.advance s.solo.instant, ?_, ?_, (Loop.period_advance ..).trans hperiod⟩
  · change s.solo.engine.loop.map _ = _
    rw [hl, Option.map_some]
    rfl
  · rw [hadvance, hnext, hperiod]
    rfl

/-- A removal at a tick: the entries that are expired are gone, and the rest is as it was. -/
def Removes (t : Nat) (period : Duration) (j : Nat) (s s' : Paced) : Prop :=
  ∀ key, s'.table.find? key = s.table.find? key ∨ s'.table.find? key = none ∧
    ∃ e, s.table.find? key = some e ∧ First t period j e ∧ s.solo.instant = due t period j

/-- An entry that is expired at a tick was not expired at the one before. -/
theorem first_of_isExpiredAt {key : String} {e : Entry} (hp : 0 < period.toNanos)
    (ho : Outlive t period j s.table) (hi : s.solo.instant = due t period (j + 1))
    (he : s.table.find? key = some e) (hx : e.isExpiredAt s.solo.instant = true) :
    First t period (j + 1) e := by
  obtain ⟨hm, hlt⟩ := Entry.isExpiredAt_iff.mp hx
  refine ⟨Nat.le_add_left .., hm, hi ▸ hlt, fun i hpos hlt => ?_⟩
  exact Nat.le_trans (due_le_due hp (Nat.le_of_lt_succ hlt)) (ho (by omega) key e he hm)

/-- After a look at all entries, those that are left outlive the tick. -/
theorem outlive_of_not_isExpiredAt {table : Table} (hi : s.solo.instant = due t period j)
    (h : ∀ key e, table.find? key = some e → e.isExpiredAt s.solo.instant = false) :
    Outlive t period j table := by
  intro _ key e he hm
  have hx := h key e he
  rw [← Bool.not_eq_true, Entry.isExpiredAt_iff, hi] at hx
  omega

/-- What a removal that knows all expired keys leaves. -/
theorem removes_sweep {keys : List String} (s' : Paced) (hp : 0 < period.toNanos)
    (ho : Outlive t period j s.table) (hi : s.solo.instant = due t period (j + 1))
    (hk : ∀ key e, s.table.find? key = some e → e.isExpiredAt s.solo.instant = true → key ∈ keys)
    (h : s'.table = (Table.sweep s.solo.instant keys s.table).2) :
    Outlive t period (j + 1) s'.table ∧ Removes t period (j + 1) s s' := by
  constructor
  · refine outlive_of_not_isExpiredAt hi fun key e he => ?_
    rw [h, Table.find?_sweep] at he
    cases hx : e.isExpiredAt s.solo.instant with
    | false => rfl
    | true =>
      split at he
      · have := (Option.filter_eq_some_iff.mp he).2
        simp [hx] at this
      · exact absurd (hk key e he hx) ‹_›
  · intro key
    rw [h]
    rcases Table.find?_sweep_cases s.solo.instant keys s.table key with hk | ⟨hk, e, he, hx⟩
    · exact .inl hk
    · exact .inr ⟨hk, e, he, first_of_isExpiredAt hp ho hi he hx, hi⟩

/-- **What a step of the loop keeps and takes out.** -/
theorem kept_loop (hp : 0 < period.toNanos) (h : Kept t period j s y) (hr : s.referred = true)
    (hs : y.Steps s y' s') :
    ∃ j', j ≤ j' ∧ Kept t period j' s' y' ∧ Removes t period j' s s' := by
  have same {s' : Paced} (ht : s'.table = s.table) : Removes t period j s s' :=
    fun key => .inl (by rw [ht])
  have hon := h.on
  cases hs with
  | begin hd =>
    obtain ⟨ha, hsince, huntil⟩ := hon
    refine ⟨j, Nat.le_refl _, ⟨h.started, h.outlive, ha, ?_⟩, same rfl⟩
    obtain ⟨l, hl, hnext, -⟩ := ha
    rw [isDue, hl] at hd
    have hd : l.next ≤ s.solo.instant := by simpa using hd
    omega
  | look => exact ⟨j, Nat.le_refl _, ⟨h.started, h.outlive, hon⟩, same rfl⟩
  | quit hq => exact absurd (hr.symm.trans hq) (by simp)
  | @tick n stage stage' r hpass =>
    cases hpass with
    | rearm =>
      exact ⟨j, Nat.le_refl _, ⟨h.started, h.outlive, ahead_rearm hon.1 hon.2, hon.2⟩, same rfl⟩
    | scan hk =>
      refine ⟨j, Nat.le_refl _, ⟨h.started, h.outlive, hon.1, hon.2, fun key e he hx => ?_⟩,
        same rfl⟩
      rw [← hk]
      exact Table.mem_expiredKeys_iff.mpr ⟨e, he, hx⟩
    | clean hk =>
      have hnone (key : String) (e : Entry) (he : s.table.find? key = some e) :
          e.isExpiredAt s.solo.instant = false := by
        cases hx : e.isExpiredAt s.solo.instant with
        | false => rfl
        | true =>
          have hmem : key ∈ s.table.expiredKeys s.solo.instant :=
            Table.mem_expiredKeys_iff.mpr ⟨e, he, hx⟩
          exact absurd (hk ▸ hmem) List.not_mem_nil
      refine ⟨j + 1, Nat.le_succ j, ⟨h.started, outlive_of_not_isExpiredAt hon.2 hnone, ?_⟩,
        fun key => .inl rfl⟩
      exact on_after hp hon
    | evict keys =>
      obtain ⟨ha, hi, hk⟩ := hon
      obtain ⟨ho, hremoves⟩ := removes_sweep
        { s with solo := Solo.memory.slot.set (s.solo.engine.sweep s.solo.instant keys).2 s.solo }
        hp h.outlive hi hk rfl
      exact ⟨j + 1, Nat.le_succ j, ⟨h.started, ho, on_after hp ⟨ha, hi⟩⟩, hremoves⟩
    | hand | unwatched | deliver =>
      exact ⟨j, Nat.le_refl _, ⟨h.started, h.outlive, on_after hp hon⟩, same rfl⟩

end LayeredCache.Paced

import LayeredCache.Proofs.Watch

/-!
# What keeps a key fresh

What holds of a key of a preloading cache from its first put on, as far as it is to be seen: who
will renew the entry before it expires. At any time that is the sentinel, which the loop evicts
early enough; a tick that is handing the sentinel over; a refresh that has not written yet; or a
put that has not armed the sentinel yet.

Results:
* `good_beats`, `fresh_beats`: a step of the sentinels' loop keeps what holds.
* `fresh_arm`, `fresh_write`: so does a refresh.
* `fresh_elapse`: so does the passing of time, as long as nothing that is due is passed over.
-/

namespace LayeredCache

/-! ## The next tick -/

/-- The clock is thirty years or more short of the last instant that it can show. -/
def Countable (now : Nat) : Prop := farFuture now < 0x8000_0000_0000_0000 * 1_000_000_000

theorem deadline_le {now : Nat} {d : Duration} (h : Countable now) :
    deadline now d ≤ now + d.toNanos := by
  unfold Countable farFuture at h
  unfold deadline farFuture
  split <;> omega

/-- The tick after one that has run comes a period later at the latest. -/
theorem Loop.next_advance_le {l : Loop} {now : Nat} (hn : l.next ≤ now) (h : Countable now) :
    (l.advance now).next ≤ now + l.period.toNanos := by
  unfold Loop.advance
  split
  · exact deadline_le h
  · rw [if_neg (Nat.not_lt.mpr hn)]
    have hdiv := Nat.div_mul_le_self (now - l.next) l.period.toNanos
    have hc : Countable (l.next + (now - l.next) / l.period.toNanos * l.period.toNanos) := by
      unfold Countable farFuture at h ⊢
      omega
    have := deadline_le (d := l.period) hc
    simp only
    omega

namespace Warm

/-! ## The sentinels' loop -/

/-- The time that things may take beyond their due. -/
structure Slack where
  /-- How late a tick of the sentinels' loop may run. -/
  tick : Nat
  /-- How long a put may take between its two writes. -/
  put : Nat
  /-- How long a refresh may take after its tick, all attempts included. -/
  refresh : Nat

variable (k : String) (ttl : Duration) (period : Nat) (m : Slack)

/-- The key's sentinel was evicted by the tick and is still to be handed over. -/
def Handing : Option Ticker → Prop
  | some (.ticking _ (.hand out)) | some (.ticking _ (.deliver out _)) => ∃ v, (k, v) ∈ out
  | _ => False

/-- A refresh of the key that has not written yet. -/
def Pending (r : Refresh) : Prop := r.key = k ∧ r.written = false

/-- A sentinel stored at an instant is evicted by the first tick after its life at the latest. -/
def Paced (now next since : Nat) : Option Ticker → Prop
  | none | some (.awaiting _) => next ≤ since + ttl.toNanos + period
  | some (.ticking _ .rearm) | some (.ticking _ .scan) =>
    now ≤ since + ttl.toNanos + period + m.tick
  | some (.ticking _ (.evict keys)) =>
    now ≤ since + ttl.toNanos + period + m.tick ∧ (k ∈ keys ∨ now ≤ since + ttl.toNanos)
  | some (.ticking n (.hand out)) =>
    now ≤ since + ttl.toNanos ∧ (Handing k (some (.ticking n (.hand out))) → since = now)
  | some (.ticking n (.deliver out r)) =>
    now ≤ since + ttl.toNanos ∧ (Handing k (some (.ticking n (.deliver out r))) → since = now)

/-- The next tick is not overdue; it has come when a tick is about to set the one after it. -/
def Ahead (now next : Nat) : Option Ticker → Prop
  | some (.ticking _ .rearm) => next ≤ now
  | _ => now ≤ next + m.tick

/-- What holds at all times of the loop and of the key's sentinel. -/
structure Good (v : View) (l : Loop) (x : Option Ticker) : Prop where
  watched : v.watched = true
  loop : v.loop = some l
  every : l.period.toNanos = period
  countable : Countable v.now
  next_le : l.next ≤ v.now + period
  ahead : Ahead m v.now l.next x
  busy : ∀ n r, x ≠ some (.ticking n (.deliver [] r))
  asked : ∀ r ∈ v.refreshes, r.asked ≤ v.now
  life : ∀ a t, v.sentinel = some (a, t) → t = ttl
  born : ∀ a t, v.sentinel = some (a, t) → a ≤ v.now
  order : ∀ a t, v.sentinel = some (a, t) → ∀ r ∈ v.refreshes, Pending k r → r.asked ≤ a
  paced : ∀ a t, v.sentinel = some (a, t) → Paced k ttl period m v.now l.next a x

section Good

variable {k ttl period m} {v : View} {l : Loop} {x : Option Ticker}

theorem good_entry (h : Good k ttl period m v l x) (y : Option (Nat × Duration)) :
    Good k ttl period m { v with entry := y } l x :=
  { h with }

theorem good_disarm (h : Good k ttl period m v l x) :
    Good k ttl period m { v with sentinel := none } l x := by
  refine { h with life := ?_, born := ?_, order := ?_, paced := ?_ } <;>
    exact fun a t ha => absurd ha (by simp)

/-- A sentinel stored now is paced. -/
theorem paced_now {now next : Nat} (h : next ≤ now + period) :
    Paced k ttl period m now next now x := by
  match x with
  | none | some (.awaiting _) => simp only [Paced]; omega
  | some (.ticking _ .rearm) | some (.ticking _ .scan) => simp only [Paced]; omega
  | some (.ticking _ (.evict keys)) => exact ⟨by omega, .inr (by omega)⟩
  | some (.ticking _ (.hand out)) | some (.ticking _ (.deliver out _)) =>
    exact ⟨by omega, fun _ => rfl⟩

theorem good_arm (h : Good k ttl period m v l x) :
    Good k ttl period m { v with sentinel := some (v.now, ttl) } l x := by
  have stored {a : Nat} {t : Duration} (ha : some (v.now, ttl) = some (a, t)) :
      v.now = a ∧ ttl = t := Prod.mk.inj (Option.some.inj ha)
  refine { h with life := ?life, born := ?born, order := ?order, paced := ?paced }
  case life =>
    intro a t ha
    obtain ⟨-, rfl⟩ := stored ha
    rfl
  case born =>
    intro a t ha
    obtain ⟨rfl, -⟩ := stored ha
    exact Nat.le_refl _
  case order =>
    intro a t ha r hr _
    obtain ⟨rfl, -⟩ := stored ha
    exact h.asked r hr
  case paced =>
    intro a t ha
    obtain ⟨rfl, -⟩ := stored ha
    exact paced_now h.next_le

/-- No refresh is added, and none is undone. -/
theorem good_refreshes (h : Good k ttl period m v l x) {rs : List Refresh}
    (hrs : ∀ r' ∈ rs, ∃ r ∈ v.refreshes, r'.asked = r.asked ∧ (Pending k r' → Pending k r)) :
    Good k ttl period m { v with refreshes := rs } l x := by
  refine { h with asked := ?asked, order := ?order }
  case asked =>
    intro r' hr'
    obtain ⟨r, hr, ha, -⟩ := hrs r' hr'
    rw [ha]
    exact h.asked r hr
  case order =>
    intro a t hat r' hr' hp
    obtain ⟨r, hr, ha, hp'⟩ := hrs r' hr'
    rw [ha]
    exact h.order a t hat r hr (hp' hp)

/-- The loop is not at work. -/
def AtEase : Option Ticker → Prop
  | none | some (.awaiting _) => True
  | _ => False

theorem atEase_iff : AtEase x ↔ x = none ∨ ∃ n, x = some (.awaiting n) := by
  unfold AtEase
  split <;> simp_all

theorem good_elapse (h : Good k ttl period m v l x) (hx : AtEase x) {n : Nat}
    (hn : v.now + n ≤ l.next + m.tick) (hc : Countable (v.now + n)) :
    Good k ttl period m { v with now := v.now + n } l x := by
  have later : v.now ≤ v.now + n := Nat.le_add_right ..
  refine { h with
    countable := hc, next_le := ?next_le, ahead := ?ahead, asked := ?asked, born := ?born
    paced := ?paced }
  case next_le => exact Nat.le_trans h.next_le (Nat.add_le_add_right later _)
  case ahead => rcases atEase_iff.mp hx with rfl | ⟨m, rfl⟩ <;> exact hn
  case asked => exact fun r hr => Nat.le_trans (h.asked r hr) later
  case born => exact fun a t ha => Nat.le_trans (h.born a t ha) later
  case paced =>
    intro a t ha
    have hp := h.paced a t ha
    rcases atEase_iff.mp hx with rfl | ⟨m, rfl⟩ <;> exact hp

theorem handing_after {n r : Nat} {out : List (String × Value)} :
    Handing k (some (.after n (.deliver out r))) ↔ ∃ u, (k, u) ∈ out := by
  cases out with
  | nil => simp [Ticker.after, Handing]
  | cons y out => exact Iff.rfl

/-- After a step by which entries are handed over. -/
theorem good_after (h : Good k ttl period m v l x) {n r : Nat} {out : List (String × Value)}
    (hnow : v.now ≤ l.next + m.tick)
    (hp : ∀ a t, v.sentinel = some (a, t) →
      v.now ≤ a + ttl.toNanos ∧ ((∃ u, (k, u) ∈ out) → a = v.now)) :
    Good k ttl period m v l (some (.after n (.deliver out r))) := by
  have hn := h.next_le
  refine { h with ahead := ?ahead, busy := ?busy, paced := ?paced }
  case ahead => cases out <;> exact hnow
  case busy => cases out <;> simp [Ticker.after]
  case paced =>
    intro a t ha
    obtain ⟨hl, hh⟩ := hp a t ha
    cases out with
    | nil =>
      change l.next ≤ a + ttl.toNanos + period
      omega
    | cons y out => exact ⟨hl, hh⟩

/-- **A step of the sentinels' loop.** -/
theorem good_beats {x : Ticker} {x' : Ticker} {v' : View} (hw : 0 < ttl.toNanos)
    (h : Good k ttl period m v l (some x)) (hb : Beats k v x x' v') :
    ∃ l', Good k ttl period m v' l' (some x') := by
  have gone {a : Nat} {t : Duration} (ha : v.sentinel = some (a, t)) :
      Gone v.now (a, t) ↔ a + ttl.toNanos < v.now := by
    rw [h.life a t ha]
    exact and_iff_right (Nat.ne_of_gt hw)
  have hn := h.next_le
  cases hb with
  | begin hl hnow =>
    obtain rfl := Option.some.inj (h.loop.symm.trans hl)
    refine ⟨l, { h with ahead := hnow, busy := by simp, paced := fun a t ha => ?_ }⟩
    exact Nat.le_trans h.ahead (Nat.add_le_add_right (h.paced a t ha) _)
  | rearm =>
    refine ⟨l.advance v.now, { h with
      loop := ?loop, every := ?every, next_le := ?next_le, ahead := ?ahead, busy := by simp }⟩
    case loop => simp [h.loop]
    case every => rw [Loop.period_advance, h.every]
    case next_le =>
      rw [← h.every]
      exact Loop.next_advance_le h.ahead h.countable
    case ahead =>
      have hlt := Loop.lt_next_advance l v.now
      exact Nat.le_trans (Nat.le_of_lt hlt) (Nat.le_add_right ..)
  | scan hk =>
    refine ⟨l, { h with
      ahead := h.ahead, busy := by simp, paced := fun a t ha => ⟨h.paced a t ha, ?_⟩ }⟩
    by_cases hg : Gone v.now (a, t)
    · exact .inl (hk _ ha hg)
    · rw [gone ha] at hg
      exact .inr (by omega)
  | clean hg =>
    refine ⟨l, { h with ahead := h.ahead, busy := by simp, paced := fun a t ha => ?_ }⟩
    have hg := hg _ ha
    rw [gone ha] at hg
    simp only [Paced]
    omega
  | spare ho hg =>
    refine ⟨l, { h with
      ahead := h.ahead, busy := by simp
      paced := fun a t ha => ⟨?_, fun ⟨u, hu⟩ => absurd hu (ho u)⟩ }⟩
    rcases (h.paced a t ha).2 with hm | hl
    · have hg := hg _ ha hm
      rw [gone ha] at hg
      omega
    · exact hl
  | evict ho hy hg =>
    refine ⟨l, { h with
      ahead := h.ahead, busy := by simp, life := ?_, born := ?_, order := ?_, paced := ?_ }⟩ <;>
        exact fun a t ha => absurd ha (by simp)
  | hand hw => exact ⟨l, good_after h h.ahead fun a t ha => h.paced a t ha⟩
  | unwatched hw => exact absurd (h.watched.symm.trans hw) (by simp)
  | @deliver n y rest r =>
    have h' : Good k ttl period m
        { v with refreshes := v.refreshes ++ [⟨y.1, v.now, false, false⟩] } l
        (some (.ticking n (.deliver (y :: rest) r))) := by
      refine { h with asked := ?asked, order := ?order }
      case asked =>
        intro r hr
        rcases List.mem_append.mp hr with hr | hr
        · exact h.asked r hr
        · obtain rfl := List.mem_singleton.mp hr
          exact Nat.le_refl _
      case order =>
        intro a t ha r hr hp
        rcases List.mem_append.mp hr with hr | hr
        · exact h.order a t ha r hr hp
        · obtain rfl := List.mem_singleton.mp hr
          -- The sentinel that is there now was stored after the eviction.
          obtain rfl := hp.1
          exact Nat.le_of_eq ((h.paced a t ha).2 ⟨y.2, List.mem_cons_self⟩).symm
    refine ⟨l, good_after h' h.ahead fun a t ha => ⟨(h.paced a t ha).1, fun ⟨u, hu⟩ => ?_⟩⟩
    exact (h.paced a t ha).2 ⟨u, List.mem_cons_of_mem _ hu⟩

end Good

/-! ## Before the first put -/

/-- Nothing of the key is there. -/
structure Cold (v : View) (x : Option Ticker) : Prop where
  entry : v.entry = none
  sentinel : v.sentinel = none
  refreshes : ∀ r ∈ v.refreshes, r.key ≠ k
  still : ¬ Handing k x

variable {k} in
theorem cold_beats {v v' : View} {x x' : Ticker} (h : Cold k v (some x)) (hb : Beats k v x x' v') :
    Cold k v' (some x') := by
  cases hb with
  | begin hl hn => exact { h with still := id }
  | rearm => exact { h with still := id }
  | scan hk => exact { h with still := id }
  | clean hg => exact { h with still := id }
  | spare ho hg => exact { h with still := fun ⟨u, hu⟩ => ho u hu }
  | evict ho hy hg => exact absurd (h.sentinel.symm.trans hy) (by simp)
  | hand hw => exact { h with still := fun hh => h.still (handing_after.mp hh) }
  | unwatched hw => exact { h with still := id }
  | deliver y rest r =>
    refine { h with refreshes := fun r' hr' => ?_, still := fun hh => h.still ?_ }
    · rcases List.mem_append.mp hr' with hr' | hr'
      · exact h.refreshes r' hr'
      · obtain rfl := List.mem_singleton.mp hr'
        rintro rfl
        exact h.still ⟨y.2, List.mem_cons_self⟩
    · obtain ⟨u, hu⟩ := handing_after.mp hh
      exact ⟨u, List.mem_cons_of_mem _ hu⟩

/-! ## From the first put on -/

/-- The times of a preloading cache: between the life of a sentinel and the life of an entry there
is room for a period of the loop and for the slack. -/
structure Window (real ttl : Duration) (period : Nat) (m : Slack) : Prop where
  alive : 0 < ttl.toNanos
  fits : ttl.toNanos + period + (m.tick + m.put + m.refresh) ≤ real.toNanos

variable (real : Duration)

/-- **The entry stored at `since` is there, and somebody will renew it in time.** `midway` says that
a put has written the entry and not yet the sentinel. -/
structure Fresh (since : Nat) (v : View) (x : Option Ticker) (midway : Prop) : Prop where
  entry : v.entry = some (since, real)
  born : since ≤ v.now
  alive : v.now ≤ since + real.toNanos
  /-- Somebody will store the sentinel, or it is there. -/
  cover : v.sentinel ≠ none ∨ (∃ r ∈ v.refreshes, Pending k r ∧ r.armed = false) ∨ Handing k x ∨
    midway
  /-- Somebody will renew the entry in time. -/
  due : (∃ a t, v.sentinel = some (a, t) ∧ a ≤ since + m.put) ∨
    (∃ r ∈ v.refreshes, Pending k r ∧ r.asked + m.refresh ≤ since + real.toNanos) ∨
    (Handing k x ∧ v.now + m.refresh ≤ since + real.toNanos) ∨ midway
  recent : midway → v.now ≤ since + m.put

section Fresh

variable {k ttl period m real} {v v' : View} {l : Loop} {x : Option Ticker} {since : Nat}
  {midway midway' : Prop}

theorem fresh_put (v : View) (x : Option Ticker) (h : midway) :
    Fresh k m real v.now { v with entry := some (v.now, real) } x midway :=
  ⟨rfl, Nat.le_refl _, Nat.le_add_right .., .inr (.inr (.inr h)), .inr (.inr (.inr h)),
    fun _ => Nat.le_add_right ..⟩

theorem fresh_same (h : Fresh k m real since v x midway) (hm : midway' ↔ midway) :
    Fresh k m real since v x midway' := by
  rw [propext hm]
  exact h

/-- A put that has written the entry stores the sentinel. -/
theorem fresh_armed (h : Fresh k m real since v x midway) (hm : midway)
    (hm' : midway' → midway) :
    Fresh k m real since { v with sentinel := some (v.now, ttl) } x midway' :=
  ⟨h.entry, h.born, h.alive, .inl (by simp), .inl ⟨_, _, rfl, h.recent hm⟩,
    fun hm => h.recent (hm' hm)⟩

/-- The marks of other refreshes. -/
theorem mem_modify_of_ne {rs : List Refresh} {j : Nat} {f : Refresh → Refresh} {r : Refresh}
    (hr : r ∈ rs) (hj : rs[j]? ≠ some r) : r ∈ rs.modify j f := by
  obtain ⟨i, hi⟩ := List.mem_iff_getElem?.mp hr
  have hij : j ≠ i := by
    rintro rfl
    exact hj hi
  refine List.mem_iff_getElem?.mpr ⟨i, ?_⟩
  rw [List.getElem?_modify_ne _ _ hij, hi]

theorem mem_modify_self {rs : List Refresh} {j : Nat} {f : Refresh → Refresh} {r : Refresh}
    (hj : rs[j]? = some r) : f r ∈ rs.modify j f := by
  refine List.mem_iff_getElem?.mpr ⟨j, ?_⟩
  rw [List.getElem?_modify_eq, hj]
  rfl

theorem mem_of_mem_modify {rs : List Refresh} {j : Nat} {f : Refresh → Refresh} {r : Refresh}
    (hr : r ∈ rs.modify j f) : r ∈ rs ∨ ∃ r₀, rs[j]? = some r₀ ∧ r = f r₀ := by
  obtain ⟨i, hi⟩ := List.mem_iff_getElem?.mp hr
  by_cases hij : j = i
  · subst hij
    rw [List.getElem?_modify_eq] at hi
    obtain ⟨r₀, hr₀, rfl⟩ := Option.map_eq_some_iff.mp hi
    exact .inr ⟨r₀, hr₀, rfl⟩
  · rw [List.getElem?_modify_ne _ _ hij] at hi
    exact .inl (List.mem_iff_getElem?.mpr ⟨i, hi⟩)

/-- A refresh of another key marks what it has done. -/
theorem fresh_other (h : Fresh k m real since v x midway) {j : Nat} {r : Refresh}
    {f : Refresh → Refresh} (hr : v.refreshes[j]? = some r) (hk : r.key ≠ k) :
    Fresh k m real since { v with refreshes := v.refreshes.modify j f } x midway := by
  have other {r' : Refresh} (hr' : r' ∈ v.refreshes) (hp : Pending k r') :
      r' ∈ v.refreshes.modify j f := by
    refine mem_modify_of_ne hr' fun hj => hk ?_
    obtain rfl := Option.some.inj (hr.symm.trans hj)
    exact hp.1
  refine { h with
    cover := h.cover.imp_right (.imp_left ?_), due := h.due.imp_right (.imp_left ?_) }
  · rintro ⟨r', hr', hp, ha⟩
    exact ⟨r', other hr' hp, hp, ha⟩
  · rintro ⟨r', hr', hp, ha⟩
    exact ⟨r', other hr' hp, hp, ha⟩

/-- **A refresh renews the sentinel.** If the entry counted on the sentinel that was there, it
counts on the refresh now. -/
theorem fresh_arm (hw : Window real ttl period m) (hg : Good k ttl period m v l x)
    (h : Fresh k m real since v x midway) {j : Nat} {r : Refresh}
    (hr : v.refreshes[j]? = some r) (hp : Pending k r) :
    Fresh k m real since { v with
      sentinel := some (v.now, ttl)
      refreshes := v.refreshes.modify j Refresh.arm } x midway := by
  refine { h with cover := .inl (by simp), due := .inr ?_ }
  rcases h.due with ⟨a, t, ha, hle⟩ | ⟨r', hr', hp', hd⟩ | hh
  · refine .inl ⟨r.arm, mem_modify_self hr, hp, ?_⟩
    have ho := hg.order a t ha r (List.mem_of_getElem? hr) hp
    have hf := hw.fits
    change r.asked + m.refresh ≤ _
    omega
  · refine .inl ?_
    by_cases hj : v.refreshes[j]? = some r'
    · exact ⟨r'.arm, mem_modify_self hj, hp', hd⟩
    · exact ⟨r', mem_modify_of_ne hr' hj, hp', hd⟩
  · exact .inr hh

/-- **A refresh renews the entry.** If the sentinel is gone by then, another refresh was called
for. -/
theorem fresh_write (hw : Window real ttl period m) (hg : Good k ttl period m v l x)
    (h : Fresh k m real since v x midway) {j : Nat} {r : Refresh}
    (hr : v.refreshes[j]? = some r) (ha : r.armed = true) :
    Fresh k m real v.now { v with
      entry := some (v.now, real)
      refreshes := v.refreshes.modify j Refresh.write } x midway := by
  have hf := hw.fits
  have other {r' : Refresh} (hr' : r' ∈ v.refreshes) (ha' : r'.armed = false) :
      r' ∈ v.refreshes.modify j Refresh.write := by
    refine mem_modify_of_ne hr' fun hj => ?_
    obtain rfl := Option.some.inj (hr.symm.trans hj)
    exact absurd ha (by simp [ha'])
  refine ⟨rfl, Nat.le_refl _, Nat.le_add_right .., h.cover.imp_right (.imp_left ?_), ?_,
    fun _ => Nat.le_add_right ..⟩
  · rintro ⟨r', hr', hp, ha'⟩
    exact ⟨r', other hr' ha', hp, ha'⟩
  · rcases h.cover with hs | ⟨r', hr', hp, ha'⟩ | hh | hm
    · obtain ⟨⟨a, t⟩, hs⟩ := Option.ne_none_iff_exists'.mp hs
      exact .inl ⟨a, t, hs, Nat.le_trans (hg.born a t hs) (Nat.le_add_right ..)⟩
    · refine .inr (.inl ⟨r', other hr' ha', hp, ?_⟩)
      have := hg.asked r' hr'
      omega
    · exact .inr (.inr (.inl ⟨hh, by simp only; omega⟩))
    · exact .inr (.inr (.inr hm))

/-- **A step of the sentinels' loop.** A tick evicts the sentinel early enough. -/
theorem fresh_beats {x x' : Ticker} (hw : Window real ttl period m)
    (hg : Good k ttl period m v l (some x)) (h : Fresh k m real since v (some x) midway)
    (hb : Beats k v x x' v') : Fresh k m real since v' (some x') midway := by
  have still (hh : ¬ Handing k (some x)) {x' : Option Ticker} {lo : Option Loop} :
      Fresh k m real since { v with loop := lo } x' midway := by
    refine { h with cover := ?cover, due := ?due }
    case cover => exact h.cover.imp_right (.imp_right (.imp_left fun hh' => absurd hh' hh))
    case due => exact h.due.imp_right (.imp_right (.imp_left fun hh' => absurd hh'.1 hh))
  cases hb with
  | begin hl hn => exact still id
  | rearm => exact still id
  | scan hk => exact still id
  | clean hn => exact still id
  | spare ho hn => exact still id
  | @evict n keys out y ho hy hgone =>
    have hf := hw.fits
    have hp := hg.paced y.1 y.2 hy
    refine { h with cover := .inr (.inr (.inl ho)), due := .inr ?_ }
    rcases h.due with ⟨a, t, ha, hle⟩ | hr | hh | hm
    · obtain rfl := Option.some.inj (hy.symm.trans ha)
      refine .inr (.inl ⟨ho, ?_⟩)
      have := hp.1
      simp only at this ⊢
      omega
    · exact .inl hr
    · exact absurd hh.1 id
    · exact .inr (.inr hm)
  | @hand n out hw =>
    refine { h with
      cover := h.cover.imp_right (.imp_right (.imp_left ?_))
      due := h.due.imp_right (.imp_right (.imp_left ?_)) }
    · exact handing_after.mpr
    · exact .imp_left handing_after.mpr
  | unwatched hw => exact absurd (hg.watched.symm.trans hw) (by simp)
  | @deliver n y rest r =>
    have old {r' : Refresh} (hr' : r' ∈ v.refreshes) :
        r' ∈ v.refreshes ++ [⟨y.1, v.now, false, false⟩] := List.mem_append_left _ hr'
    have new : (⟨y.1, v.now, false, false⟩ : Refresh) ∈
        v.refreshes ++ [⟨y.1, v.now, false, false⟩] :=
      List.mem_append_right _ (List.mem_singleton_self _)
    have split (hh : Handing k (some (.ticking n (.deliver (y :: rest) r)))) :
        k = y.1 ∨ Handing k (some (.after n (.deliver rest r))) := by
      obtain ⟨u, hu⟩ := hh
      rcases List.mem_cons.mp hu with rfl | hu
      · exact .inl rfl
      · exact .inr (handing_after.mpr ⟨u, hu⟩)
    refine { h with cover := ?cover, due := ?due }
    case cover =>
      rcases h.cover with hs | ⟨r', hr', hp⟩ | hh | hm
      · exact .inl hs
      · exact .inr (.inl ⟨r', old hr', hp⟩)
      · rcases split hh with rfl | hh
        · exact .inr (.inl ⟨_, new, ⟨rfl, rfl⟩, rfl⟩)
        · exact .inr (.inr (.inl hh))
      · exact .inr (.inr (.inr hm))
    case due =>
      rcases h.due with hs | ⟨r', hr', hp⟩ | ⟨hh, hd⟩ | hm
      · exact .inl hs
      · exact .inr (.inl ⟨r', old hr', hp⟩)
      · rcases split hh with rfl | hh
        · exact .inr (.inl ⟨_, new, ⟨rfl, rfl⟩, hd⟩)
        · exact .inr (.inr (.inl ⟨hh, hd⟩))
      · exact .inr (.inr (.inr hm))

/-- **Time passes.** Whoever is to renew the entry does so before it expires. -/
theorem fresh_elapse (hw : Window real ttl period m) (hg : Good k ttl period m v l x)
    (h : Fresh k m real since v x midway) (hx : AtEase x) {n : Nat}
    (hm : midway → v.now + n ≤ since + m.put) (hn : v.now + n ≤ l.next + m.tick)
    (hr : ∀ r ∈ v.refreshes, Pending k r → v.now + n ≤ r.asked + m.refresh) :
    Fresh k m real since { v with now := v.now + n } x midway := by
  have hf := hw.fits
  have hh : ¬ Handing k x := by
    rcases atEase_iff.mp hx with rfl | ⟨m, rfl⟩ <;> exact id
  refine { h with
    born := Nat.le_trans h.born (Nat.le_add_right ..), alive := ?alive, due := ?due
    recent := hm }
  case alive =>
    rcases h.due with ⟨a, t, ha, hle⟩ | ⟨r, hr', hp, hd⟩ | ⟨hh', -⟩ | hm'
    · have hp : l.next ≤ a + ttl.toNanos + period := by
        have hp := hg.paced a t ha
        rcases atEase_iff.mp hx with rfl | ⟨m, rfl⟩ <;> exact hp
      simp only
      omega
    · exact Nat.le_trans (hr r hr' hp) hd
    · exact absurd hh' hh
    · have := hm hm'
      simp only
      omega
  case due => exact h.due.imp_right (.imp_right (.imp_left fun hh' => absurd hh'.1 hh))

end Fresh

end Warm
end LayeredCache

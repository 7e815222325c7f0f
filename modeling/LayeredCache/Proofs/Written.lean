import LayeredCache.Proofs.Stack

/-!
# What is put is what is read

The layers that cache what is put, in any order over a memory engine, and what a put through the
top leaves in the engine: the entry of the key alone is new, with the value as it is and with the
time to live that the layers have made of the one asked for, from the top down. As long as the
entry is not expired, every read through the top finds it in the engine.

Results:
* `puts_onto`, `puts_stack`: what a put does below a layer, and below a whole stack.
* `isZero_lifespan`: without a preloading layer, a finite time stays finite, and none is shortened.
* `serves_onto`, `serves_stack`: reads and puts of other keys leave alone what a key shows.
* `put_then_read`: the two together.
-/

namespace LayeredCache

open Process

variable {σ : Type} [Clock σ]

/-! ## Apart from an engine -/

namespace Memory

variable (m : Memory σ)

/-- The table and the clock stay as they are. -/
def Spares (s t : σ) : Prop :=
  (m.slot.get t).table = (m.slot.get s).table ∧ Clock.instant t = Clock.instant s

/-- Others leave the table alone while time passes. -/
def quiet : Surroundings σ :=
  .exact
    (fun s t => (m.slot.get t).table = (m.slot.get s).table ∧ Clock.instant s ≤ Clock.instant t)
    (fun _ => ⟨rfl, Nat.le_refl _⟩)
    fun h h' => ⟨h'.1.trans h.1, Nat.le_trans h.2 h'.2⟩

/-- What a read of the key finds. -/
def Shows (key : String) (v : Value) (s : σ) : Prop :=
  (m.slot.get s).table.read (Clock.instant s) key = .ok v

/-- The process always succeeds, if others leave the table alone. -/
structure Succeeds (p : Process σ (Except Cause Unit)) : Prop where
  ends : ∀ s, ∃ t, Runs m.quiet p s (some (.ok ())) t
  only : ∀ s r t, Runs m.quiet p s (some r) t → r = .ok ()

/-- The clock and the journal are apart from the engine. -/
structure Sound [Journal σ] : Prop where
  clock : ∀ e s, Clock.instant (m.slot.set e s) = Clock.instant s
  notes : ∀ severity text s, m.Spares s (Journal.note severity text s)

variable {m}

theorem quiet_of_spares {s t : σ} (h : m.Spares s t) : m.quiet.moves s t :=
  ⟨h.1, Nat.le_of_eq h.2.symm⟩

theorem quiet_of_keeps {α : Type} {p : Process σ α} (h : Keeps m.Spares p) :
    Keeps m.quiet.moves p := h.mono fun _ _ => quiet_of_spares

theorem shows_of_spares {key : String} {v : Value} {s t : σ} (h : m.Spares s t)
    (hs : m.Shows key v s) : m.Shows key v t := by
  unfold Shows
  rw [h.1, h.2]
  exact hs

end Memory

variable [Journal σ]

namespace Decorator

/-- A layer that caches what is put, and whose collaborators leave the engine alone. What it stores
elsewhere, it stores successfully. -/
inductive Apart (m : Memory σ) : Decorator σ → Prop
  | readThrough {load : Loader σ} {ttl : Duration} (hl : ∀ k, Keeps m.Spares (load k)) :
      Apart m (.readThrough load ttl)
  | writeThrough {store : Store σ} (hk : ∀ k v, Keeps m.Spares (store k v))
      (hs : ∀ k v, m.Succeeds (store k v)) : Apart m (.writeThrough store)
  | writeBack : Apart m .writeBack
  | singleflight {load : Loader σ} {ttl : Duration} {flights : Slot σ Flights}
      (hl : ∀ k, Keeps m.Spares (load k)) (hf : ∀ f s, m.Spares s (flights.set f s)) :
      Apart m (.singleflight load ttl flights)
  | randomExpire {draw : σ → Duration × σ} (hd : ∀ s, m.Spares s (draw s).2) :
      Apart m (.randomExpire draw)
  | guard {load : Loader σ} {filter : Guard.Membership σ} {policy : Guard.Policy}
      (hl : ∀ k, Keeps m.Spares (load k)) (ht : ∀ k s, m.Spares s (filter.test k s).2)
      (ha : ∀ k s, m.Spares s (filter.add k s)) : Apart m (.guard load filter policy)
  | preload {sentinel : Memory σ} {realTtl sentinelTtl : Duration}
      (hs : ∀ e s, m.Spares s (sentinel.slot.set e s)) :
      Apart m (.preload sentinel realTtl sentinelTtl)

omit [Clock σ] [Journal σ] in
/-- The layer passes the time to live on as it is. -/
def keepsTtl : Decorator σ → Bool
  | .randomExpire _ | .preload _ _ _ => false
  | _ => true

/-- What a layer makes of a time to live. -/
inductive Rewrites : Decorator σ → Duration → Duration → Prop
  | forever {draw : σ → Duration × σ} {ttl : Duration} (h : ttl.isZero = true) :
      Rewrites (.randomExpire draw) ttl ttl
  | offset {draw : σ → Duration × σ} {ttl : Duration} (s : σ) (h : ttl.isZero = false) :
      Rewrites (.randomExpire draw) ttl (ttl.add (draw s).1)
  | preload (sentinel : Memory σ) (realTtl sentinelTtl ttl : Duration) :
      Rewrites (.preload sentinel realTtl sentinelTtl) ttl realTtl
  | same {d : Decorator σ} (h : d.keepsTtl = true) (ttl : Duration) : Rewrites d ttl ttl

end Decorator

/-- What layers make of a time to live, from the top down. -/
inductive Lifespan : List (Decorator σ) → Duration → Duration → Prop
  | engine (ttl : Duration) : Lifespan [] ttl ttl
  | layer {d : Decorator σ} {ds : List (Decorator σ)} {ttl mid life : Duration}
      (h : d.Rewrites ttl mid) (hs : Lifespan ds mid life) : Lifespan (d :: ds) ttl life

/-! ## Puts -/

namespace Memory

omit [Journal σ] in
/-- From `s` to `t`, the entry of the key was stored with a time to live that satisfies `R`, and
nothing else has changed in the table. -/
def Stored (m : Memory σ) (key : String) (v : Value) (R : Duration → Prop) (s t : σ) : Prop :=
  ∃ now life, R life ∧ Clock.instant s ≤ now ∧ now ≤ Clock.instant t ∧
    (m.slot.get t).table = (m.slot.get s).table.put now key v life

variable {m : Memory σ} {key : String} {v : Value} {R S : Duration → Prop} {s s' t t' : σ}

omit [Journal σ] in
theorem Stored.before (h : m.Stored key v R s t) (ht : m.quiet.moves t t') :
    m.Stored key v R s t' := by
  obtain ⟨now, life, hr, h₁, h₂, he⟩ := h
  exact ⟨now, life, hr, h₁, Nat.le_trans h₂ ht.2, ht.1.trans he⟩

omit [Journal σ] in
theorem Stored.after (hs : m.quiet.moves s s') (h : m.Stored key v R s' t) :
    m.Stored key v R s t := by
  obtain ⟨now, life, hr, h₁, h₂, he⟩ := h
  rw [hs.1] at he
  exact ⟨now, life, hr, Nat.le_trans hs.2 h₁, h₂, he⟩

omit [Journal σ] in
theorem Stored.mono (h : m.Stored key v R s t) (hr : ∀ life, R life → S life) :
    m.Stored key v S s t := by
  obtain ⟨now, life, hl, h⟩ := h
  exact ⟨now, life, hr life hl, h⟩

end Memory

/-- A put through the cache succeeds, stores the entry of its key, and makes of the time to live
what `R` says. -/
structure Puts (m : Memory σ) (c : Cache σ) (R : Duration → Duration → Prop) : Prop where
  ends : ∀ key v ttl s, ∃ t, Runs m.quiet (c.put key v ttl) s (some (.ok ())) t
  only : ∀ {key v ttl s r t}, Runs m.quiet (c.put key v ttl) s (some r) t →
    r = .ok () ∧ m.Stored key v (R ttl) s t

section Putting

variable {m : Memory σ} {inner : Cache σ} {R : Duration → Duration → Prop}

theorem puts_cache (hm : m.Sound) : Puts m m.cache (fun ttl life => ttl = life) where
  ends key v ttl s := ⟨_, .act (m.quiet.refl s) (.done (m.quiet.refl _))⟩
  only {key v ttl s r t} h := by
    cases h with
    | @act _ _ _ s' _ _ hs hk =>
      cases hk with
      | done ht =>
        refine ⟨rfl, Clock.instant s', ttl, rfl, hs.2, ?_, ?_⟩
        · exact Nat.le_trans (Nat.le_of_eq (hm.clock _ s').symm) ht.2
        · rw [ht.1, Slot.get_modify, hs.1]

omit [Journal σ] in
theorem Puts.mono {S : Duration → Duration → Prop} (h : Puts m inner R)
    (hr : ∀ ttl life, R ttl life → S ttl life) : Puts m inner S where
  ends := h.ends
  only hp := ⟨(h.only hp).1, (h.only hp).2.mono (hr _)⟩

omit [Journal σ] in
theorem puts_writeThrough (h : Puts m inner R) {store : Store σ}
    (hk : ∀ k v, Keeps m.Spares (store k v)) (hs : ∀ k v, m.Succeeds (store k v)) :
    Puts m (WriteThrough.cache inner store) R where
  ends key v ttl s := by
    obtain ⟨u, hu⟩ := (hs key v).ends s
    obtain ⟨t, ht⟩ := h.ends key v ttl u
    exact ⟨t, Runs.bind hu ht⟩
  only {key v ttl s r t} hp := by
    obtain ⟨a, u, hu, hf⟩ := runs_bind_some hp
    obtain rfl := (hs key v).only s a u hu
    have hm : m.quiet.moves s u := moves_of_runs (Memory.quiet_of_keeps (hk key v)) hu
    exact ⟨(h.only hf).1, (h.only hf).2.after hm⟩

omit [Journal σ] in
theorem puts_randomExpire (h : Puts m inner R) {draw : σ → Duration × σ}
    (hd : ∀ s, m.Spares s (draw s).2) :
    Puts m (RandomExpire.cache inner draw)
      (fun ttl life => ∃ mid, (Decorator.randomExpire draw).Rewrites ttl mid ∧ R mid life) where
  ends key v ttl s := by
    cases hz : ttl.isZero with
    | true =>
      obtain ⟨t, ht⟩ := h.ends key v ttl s
      exact ⟨t, by simpa only [RandomExpire.cache, hz, if_true] using ht⟩
    | false =>
      obtain ⟨t, ht⟩ := h.ends key v (RandomExpire.spread (draw s).1 ttl) (draw s).2
      refine ⟨t, ?_⟩
      simp only [RandomExpire.cache, hz, Bool.false_eq_true, if_false]
      exact .act (m.quiet.refl s) ht
  only {key v ttl s r t} hp := by
    simp only [RandomExpire.cache] at hp
    cases hz : ttl.isZero with
    | true =>
      rw [if_pos hz] at hp
      exact ⟨(h.only hp).1, (h.only hp).2.mono fun life hl => ⟨ttl, .forever hz, hl⟩⟩
    | false =>
      rw [if_neg (by simp [hz])] at hp
      cases hp with
      | @act _ _ _ s' _ _ hs hk =>
        have hm := m.quiet.trans hs (Memory.quiet_of_spares (hd s'))
        refine ⟨(h.only hk).1, ((h.only hk).2.mono fun life hl => ⟨_, ?_, hl⟩).after hm⟩
        unfold RandomExpire.spread
        rw [if_neg (by simp [hz])]
        exact .offset s' hz

theorem puts_guard (h : Puts m inner R) {load : Loader σ} {filter : Guard.Membership σ}
    {policy : Guard.Policy} (ha : ∀ k s, m.Spares s (filter.add k s)) :
    Puts m (Guard.cache inner load filter policy) R where
  ends key v ttl s := by
    obtain ⟨t, ht⟩ := h.ends key v ttl s
    cases hp : policy.addOnPut with
    | true =>
      refine ⟨filter.add key t, Runs.bind ht ?_⟩
      simp only [hp, if_true]
      exact .act (m.quiet.refl t) (.done (m.quiet.refl _))
    | false =>
      refine ⟨t, Runs.bind ht ?_⟩
      simp only [hp, Bool.false_eq_true, if_false]
      exact .done (m.quiet.refl t)
  only {key v ttl s r t} hp := by
    obtain ⟨a, u, hu, hf⟩ := runs_bind_some hp
    obtain ⟨rfl, hst⟩ := h.only hu
    cases hadd : policy.addOnPut with
    | true =>
      simp only [hadd, if_true] at hf
      cases hf with
      | @act _ _ _ u' _ _ hu' hk =>
        cases hk with
        | done ht =>
          have hm := m.quiet.trans hu' (m.quiet.trans (Memory.quiet_of_spares (ha key u')) ht)
          exact ⟨rfl, hst.before hm⟩
    | false =>
      simp only [hadd, Bool.false_eq_true, if_false] at hf
      cases hf with
      | done ht => exact ⟨rfl, hst.before ht⟩

omit [Journal σ] in
theorem puts_preload (h : Puts m inner R) {sentinel : Memory σ} {realTtl sentinelTtl : Duration}
    (hs : ∀ e s, m.Spares s (sentinel.slot.set e s)) :
    Puts m (Preload.cache inner sentinel realTtl sentinelTtl) (fun _ life => R realTtl life) where
  ends key v ttl s := by
    obtain ⟨t, ht⟩ := h.ends key v realTtl s
    exact ⟨_, Runs.bind ht (.act (m.quiet.refl t) (.done (m.quiet.refl _)))⟩
  only {key v ttl s r t} hp := by
    obtain ⟨a, u, hu, hf⟩ := runs_bind_some hp
    obtain ⟨rfl, hst⟩ := h.only hu
    cases hf with
    | @act _ _ _ u' _ _ hu' hk =>
      cases hk with
      | done ht =>
        have hm := m.quiet.trans hu' (m.quiet.trans (Memory.quiet_of_spares (hs _ u')) ht)
        exact ⟨rfl, hst.before hm⟩

/-- **A put through a layer**: below it, the layer's time to live goes on. -/
theorem puts_onto {d : Decorator σ} (hd : d.Apart m) (h : Puts m inner R) :
    Puts m (d.onto inner) (fun ttl life => ∃ mid, d.Rewrites ttl mid ∧ R mid life) := by
  have same (hk : d.keepsTtl = true) (ttl life : Duration) (hr : R ttl life) :
      ∃ mid, d.Rewrites ttl mid ∧ R mid life := ⟨ttl, .same hk ttl, hr⟩
  cases hd with
  | readThrough hl => exact Puts.mono ⟨h.ends, h.only⟩ (same rfl)
  | writeThrough hk hs => exact (puts_writeThrough h hk hs).mono (same rfl)
  | writeBack => exact h.mono (same rfl)
  | singleflight hl hf => exact Puts.mono ⟨h.ends, h.only⟩ (same rfl)
  | randomExpire hd => exact puts_randomExpire h hd
  | guard hl ht ha => exact (puts_guard h ha).mono (same rfl)
  | preload hs =>
    exact (puts_preload h hs).mono fun ttl life hr => ⟨_, .preload _ _ _ ttl, hr⟩

theorem puts_stack (hm : m.Sound) : ∀ {ds : List (Decorator σ)}, (∀ d ∈ ds, d.Apart m) →
    Puts m (stack m ds) (Lifespan ds)
  | [], _ => (puts_cache hm).mono fun ttl life h => h ▸ .engine ttl
  | d :: ds, hds => by
    have ih := puts_stack hm fun d' hd' => hds d' (List.mem_cons_of_mem d hd')
    refine (puts_onto (hds d List.mem_cons_self) ih).mono ?_
    rintro ttl life ⟨mid, hr, hl⟩
    exact .layer hr hl

end Putting

omit [Clock σ] [Journal σ] in
/-- Without a preloading layer, a time to live is finite if the one asked for is, and no shorter. -/
theorem isZero_lifespan {ds : List (Decorator σ)} {ttl life : Duration} (h : Lifespan ds ttl life)
    (hp : ∀ d ∈ ds, d.keepsTtl = true ∨ ∃ draw, d = .randomExpire draw) :
    life.isZero = ttl.isZero ∧ ttl ≤ life := by
  induction h with
  | engine ttl => exact ⟨rfl, Nat.le_refl _⟩
  | @layer d ds ttl mid life h hs ih =>
    obtain ⟨hz, hle⟩ := ih fun d' hd' => hp d' (List.mem_cons_of_mem _ hd')
    have hmid : mid.isZero = ttl.isZero ∧ ttl ≤ mid := by
      cases h with
      | forever h => exact ⟨rfl, Nat.le_refl _⟩
      | same h ttl => exact ⟨rfl, Nat.le_refl _⟩
      | @offset draw ttl s h =>
        have hspread := RandomExpire.isZero_spread (draw s).1 ttl
        unfold RandomExpire.spread at hspread
        rw [if_neg (by simp [h])] at hspread
        refine ⟨hspread, ?_⟩
        have hl := ttl.lt_limit
        rw [Duration.le_iff, Duration.toNanos_add]
        unfold Duration.maxNanos
        omega
      | preload sentinel realTtl sentinelTtl ttl =>
        rcases hp _ List.mem_cons_self with h | ⟨draw, h⟩
        · simp [Decorator.keepsTtl] at h
        · cases h
    exact ⟨hz.trans hmid.1, Nat.le_trans hmid.2 hle⟩

/-! ## Reads -/

/-- The slots of a batch, whether or not it succeeds. -/
def slotsOf : Answer (List (Option Value)) → List (Option Value)
  | .ok slots => slots
  | .error (.multiGetFailed slots _) => slots
  | .error _ => []

/-- Every slot that names the key holds `v`. -/
def Fills (key : String) (v : Value) (keys : List String) (r : Answer (List (Option Value))) :
    Prop := ∀ i : Nat, keys[i]? = some key → (slotsOf r)[i]? = some (some v)

theorem slotsOf_collect (outcomes : List (String × Answer Value)) :
    slotsOf (Batch.collect outcomes) = Batch.slots outcomes := by
  unfold Batch.collect
  split <;> rfl

theorem fills_collect {key : String} {v : Value} {keys : List String}
    {outcomes : List (Answer Value)}
    (h : List.Forall₂ (fun k o => k = key → o = .ok v) keys outcomes) :
    Fills key v keys (Batch.collect (keys.zip outcomes)) := by
  unfold Fills
  rw [slotsOf_collect]
  induction h with
  | nil =>
    intro i hi
    simp at hi
  | cons ho _ ih =>
    intro i hi
    cases i with
    | zero =>
      have hk := Option.some.inj hi
      rw [ho hk]
      rfl
    | succ i => exact ih i hi

/-- What a key shows in the engine, reads through the cache find at once, and neither reads nor puts
of other keys change it. -/
structure Serves (m : Memory σ) (key : String) (v : Value) (c : Cache σ) : Prop where
  hit : ∀ s, m.Shows key v s → (c.get key).next? s = some (.done (.ok v), s)
  present : ∀ s, m.Shows key v s → (c.isExist key).next? s = some (.done (.ok true), s)
  own : Maintains (m.Shows key v) (fun o => o = .ok v) (c.get key)
  get : ∀ k, k ≠ key → Maintains (m.Shows key v) (fun _ => True) (c.get k)
  put : ∀ k v' ttl, k ≠ key → Maintains (m.Shows key v) (fun _ => True) (c.put k v' ttl)
  batch : ∀ keys, Maintains (m.Shows key v) (Fills key v keys) (c.getMulti keys)

section Serving

variable {m : Memory σ} {key : String} {v : Value} {inner : Cache σ}

omit [Journal σ] in
theorem isLive_of_shows {s : σ} (h : m.Shows key v s) :
    (m.slot.get s).table.isLive (Clock.instant s) key = true := by
  unfold Memory.Shows Table.read at h
  unfold Table.isLive
  cases he : (m.slot.get s).table.find? key with
  | none => simp [he] at h
  | some e =>
    cases hx : e.isExpiredAt (Clock.instant s) with
    | true => simp [he, hx] at h
    | false => simp [hx]

theorem shows_put (hm : m.Sound) {k : String} (hk : k ≠ key) (v' : Value) (ttl : Duration) {s : σ}
    (h : m.Shows key v s) : m.Shows key v (m.slot.modify (fun e =>
      { e with table := e.table.put (Clock.instant s) k v' ttl }) s) := by
  unfold Memory.Shows Slot.modify
  rw [hm.clock, m.slot.get_set]
  unfold Table.read Table.put
  rw [Table.find?_insert, if_neg (Ne.symm hk)]
  exact h

theorem serves_cache (hm : m.Sound) : Serves m key v m.cache where
  hit s h := congrArg (fun r => some (Process.done r, s)) h
  present s h := congrArg (fun b => some (Process.done (Except.ok b), s)) (isLive_of_shows h)
  own := .act (fun _ hs => hs) fun _ hs => .done hs
  get k _ := .act (fun _ hs => hs) fun _ _ => .done trivial
  put k v' ttl hk := .act (fun _ hs => shows_put hm hk v' ttl hs) fun _ _ => .done trivial
  batch keys := by
    refine .act (fun _ hs => hs) fun s hs => .done ?_
    unfold Table.readEach
    beta_reduce
    rw [List.map_prod_left_eq_zip]
    refine fills_collect ?_
    rw [List.forall₂_map_right_iff, List.forall₂_same]
    intro k _ hk
    rw [hk]
    exact hs

/-- A load of another key and the offer of its value. -/
theorem maintains_fetch (hm : m.Sound) (h : Serves m key v inner) {load : Loader σ}
    (hl : ∀ k, Keeps m.Spares (load k)) {k : String} (hk : k ≠ key) (ttl : Duration)
    (refused : String) :
    Maintains (m.Shows key v) (fun _ => True) (load.fetch inner ttl refused k) := by
  refine maintains_bind (maintains_of_keeps (hl k) fun _ _ => Memory.shows_of_spares) fun r _ => ?_
  cases r with
  | error c => exact .done trivial
  | ok v' =>
    refine maintains_bind (h.put k v' ttl hk) fun a _ => ?_
    cases a with
    | ok _ => exact .done trivial
    | error e =>
      exact .act (fun s hs => Memory.shows_of_spares (hm.notes _ _ s) hs) fun _ _ => .done trivial

theorem hit_onto (d : Decorator σ) (h : Serves m key v inner) {s : σ} (hs : m.Shows key v s) :
    ((d.onto inner).get key).next? s = some (.done (.ok v), s) := by
  rcases get_onto d inner key with hg | ⟨f, hg, hf⟩
  · rw [hg]
    exact h.hit s hs
  · rw [hg, next?_bind (h.hit s hs) f]
    exact congrArg (fun p => some (p, s)) (hf v)

theorem own_onto (d : Decorator σ) (h : Serves m key v inner) :
    Maintains (m.Shows key v) (fun o => o = .ok v) ((d.onto inner).get key) := by
  rcases get_onto d inner key with hg | ⟨f, hg, hf⟩
  · rw [hg]
    exact h.own
  · rw [hg]
    refine maintains_bind h.own fun o ho => ?_
    rw [ho, hf]
    exact .done rfl

theorem isExist_onto (d : Decorator σ) (inner : Cache σ) :
    (d.onto inner).isExist = inner.isExist := by
  cases d <;> rfl

theorem maintains_ride (hm : m.Sound) (h : Serves m key v inner) {load : Loader σ}
    (hl : ∀ k, Keeps m.Spares (load k)) {flights : Slot σ Flights}
    (hf : ∀ f s, m.Spares s (flights.set f s)) {k : String} (hk : k ≠ key) (ttl : Duration)
    (me : Nat) :
    Maintains (m.Shows key v) (fun _ => True)
      (Singleflight.ride inner load ttl flights k me) := by
  refine maintains_bind (maintains_look fun s _ => .done (Q := fun _ => True) trivial) fun o _ => ?_
  cases o with
  | some o => exact .done trivial
  | none =>
    refine maintains_bind (maintains_fetch hm h hl hk _ _) fun o _ => ?_
    exact .act (fun s => Memory.shows_of_spares (hf _ s)) fun _ _ => .done trivial

theorem maintains_share (hm : m.Sound) (h : Serves m key v inner) {load : Loader σ}
    (hl : ∀ k, Keeps m.Spares (load k)) {flights : Slot σ Flights}
    (hf : ∀ f s, m.Spares s (flights.set f s)) {k : String} (hk : k ≠ key) (ttl : Duration)
    (leave : Nat → Flights → Flights) :
    Maintains (m.Shows key v) (fun _ => True)
      (Singleflight.share leave inner load ttl flights k) := by
  have spared (f : σ → Flights) (s : σ) (hs : m.Shows key v s) :
      m.Shows key v (flights.set (f s) s) := Memory.shows_of_spares (hf _ s) hs
  refine .act (spared _) fun s _ => maintains_guarded ?_ (spared _)
  refine .act (spared _) fun _ _ => .wait (fun _ hs => hs) fun _ _ => ?_
  exact maintains_ride hm h hl hf hk ttl _

theorem maintains_guard (hm : m.Sound) (h : Serves m key v inner) {load : Loader σ}
    {filter : Guard.Membership σ} (policy : Guard.Policy) (hl : ∀ k, Keeps m.Spares (load k))
    (ht : ∀ k s, m.Spares s (filter.test k s).2) (ha : ∀ k s, m.Spares s (filter.add k s))
    {k : String} (hk : k ≠ key) :
    Maintains (m.Shows key v) (fun _ => True) (Guard.get inner load filter policy k) := by
  refine maintains_bind (h.get k hk) fun o _ => ?_
  cases o with
  | ok v' => exact .done trivial
  | error miss =>
    refine .act (fun s => Memory.shows_of_spares (ht k s)) fun s _ => ?_
    change Maintains _ _ (if (filter.test k s).1 = true then _ else _)
    split
    · refine maintains_bind (maintains_fetch hm h hl hk _ _) fun o _ => ?_
      cases o with
      | error e => exact .done trivial
      | ok v' =>
        dsimp only
        split
        · exact .act (fun s => Memory.shows_of_spares (ha k s)) fun _ _ => .done trivial
        · exact .done trivial
    · exact .done trivial

/-- Reads of other keys through a layer. -/
theorem get_onto_apart (hm : m.Sound) {d : Decorator σ} (hd : d.Apart m)
    (h : Serves m key v inner) {k : String} (hk : k ≠ key) :
    Maintains (m.Shows key v) (fun _ => True) ((d.onto inner).get k) := by
  cases hd with
  | readThrough hl =>
    refine maintains_bind (h.get k hk) fun o _ => ?_
    cases o with
    | ok v' => exact .done trivial
    | error e => exact maintains_fetch hm h hl hk _ _
  | singleflight hl hf =>
    refine maintains_bind (h.get k hk) fun o _ => ?_
    cases o with
    | ok v' => exact .done trivial
    | error e => exact maintains_share hm h hl hf hk _ _
  | guard hl ht ha => exact maintains_guard hm h _ hl ht ha hk
  | writeThrough hk' hs => exact h.get k hk
  | writeBack => exact h.get k hk
  | randomExpire hd => exact h.get k hk
  | preload hs => exact h.get k hk

theorem each_onto (hm : m.Sound) {d : Decorator σ} (hd : d.Apart m) (h : Serves m key v inner)
    (k : String) :
    Maintains (m.Shows key v) (fun o => k = key → o = .ok v) ((d.onto inner).get k) := by
  by_cases hk : k = key
  · rw [hk]
    exact (own_onto d h).mono fun o ho _ => ho
  · exact (get_onto_apart hm hd h hk).mono fun o _ hk' => absurd hk' hk

/-- Puts of other keys through a layer. -/
theorem put_onto_apart {d : Decorator σ} (hd : d.Apart m)
    (h : Serves m key v inner) {k : String} (hk : k ≠ key) (v' : Value) (ttl : Duration) :
    Maintains (m.Shows key v) (fun _ => True) ((d.onto inner).put k v' ttl) := by
  cases hd with
  | writeThrough hk' hs =>
    refine maintains_bind (maintains_of_keeps (hk' k v') fun _ _ => Memory.shows_of_spares)
      fun r _ => ?_
    cases r with
    | error c => exact .done trivial
    | ok _ => exact h.put k v' ttl hk
  | randomExpire hd =>
    change Maintains _ _ (if ttl.isZero = true then _ else _)
    split
    · exact h.put k v' ttl hk
    · exact .act (fun s => Memory.shows_of_spares (hd s)) fun s _ => h.put k v' _ hk
  | guard hl ht ha =>
    refine maintains_bind (h.put k v' ttl hk) fun r _ => ?_
    cases r with
    | error e => exact .done trivial
    | ok _ =>
      dsimp only
      split
      · exact .act (fun s => Memory.shows_of_spares (ha k s)) fun _ _ => .done trivial
      · exact .done trivial
  | @preload sentinel realTtl sentinelTtl hs =>
    refine maintains_bind (h.put k v' realTtl hk) fun r _ => ?_
    cases r with
    | error e => exact .done trivial
    | ok _ => exact .act (fun s => Memory.shows_of_spares (hs _ s)) fun _ _ => .done trivial
  | readThrough hl => exact h.put k v' ttl hk
  | singleflight hl hf => exact h.put k v' ttl hk
  | writeBack => exact h.put k v' ttl hk

/-- **Reads through a layer.** -/
theorem serves_onto (hm : m.Sound) {d : Decorator σ} (hd : d.Apart m)
    (h : Serves m key v inner) : Serves m key v (d.onto inner) where
  hit s hs := hit_onto d h hs
  present s hs := by
    rw [isExist_onto]
    exact h.present s hs
  own := own_onto d h
  get k hk := get_onto_apart hm hd h hk
  put k v' ttl hk := put_onto_apart hd h hk v' ttl
  batch keys := by
    have each := each_onto hm hd h
    cases hd with
    | readThrough hl =>
      refine maintains_bind (h.batch keys) fun r hr => ?_
      cases r with
      | ok vs => exact .done hr
      | error e =>
        exact maintains_bind (maintains_all fun k _ => each k) fun os hos =>
          .done (fills_collect hos)
    | _ => exact h.batch keys

theorem serves_stack (hm : m.Sound) : ∀ {ds : List (Decorator σ)}, (∀ d ∈ ds, d.Apart m) →
    Serves m key v (stack m ds)
  | [], _ => serves_cache hm
  | d :: _, hds =>
    serves_onto hm (hds d List.mem_cons_self)
      (serves_stack hm fun d' hd' => hds d' (List.mem_cons_of_mem d hd'))

end Serving

/-! ## A put and the reads after it -/

section Reading

variable {m : Memory σ}

omit [Journal σ] in
/-- An entry shows its value from the instant of its put on, until it is expired. -/
theorem shows_of_entry {key : String} {v : Value} {life : Duration} {s : σ}
    (h : (m.slot.get s).table.find? key = some ⟨v, Clock.instant s, life⟩) : m.Shows key v s := by
  have hx : (Entry.mk v (Clock.instant s) life).isExpiredAt (Clock.instant s) = false := by
    rw [Bool.eq_false_iff]
    intro hx
    have := (Entry.isExpiredAt_iff.mp hx).2
    simp only at this
    omega
  unfold Memory.Shows Table.read
  rw [h]
  simp [hx]

/-- **What is put is what is read.** A put through the top can end, and whenever it ends it has
succeeded: at some instant on the way the entry of the key was stored, with the value as it is and
the time to live that the layers have made of the one asked for, and no other entry has changed. At
that instant, as long as the entry is there, a read of the key is one step that finds the value,
leaves the state as it is and loads nothing; the key is present; and a batch fills every slot that
names the key with the value, unless the entry is taken away or expires before the batch is read. -/
theorem put_then_read (hm : m.Sound) {ds : List (Decorator σ)} (hds : ∀ d ∈ ds, d.Apart m)
    (key : String) (v : Value) (ttl : Duration) (s : σ) :
    (∃ t, Runs m.quiet ((stack m ds).put key v ttl) s (some (.ok ())) t) ∧
    ∀ r t, Runs m.quiet ((stack m ds).put key v ttl) s (some r) t → r = .ok () ∧
      ∃ now life, Lifespan ds ttl life ∧ Clock.instant s ≤ now ∧ now ≤ Clock.instant t ∧
        (m.slot.get t).table.find? key = some ⟨v, now, life⟩ ∧
        (∀ k, k ≠ key → (m.slot.get t).table.find? k = (m.slot.get s).table.find? k) ∧
        ∀ u, Clock.instant u = now → (m.slot.get u).table.find? key = some ⟨v, now, life⟩ →
          ((stack m ds).get key).next? u = some (.done (.ok v), u) ∧
          ((stack m ds).isExist key).next? u = some (.done (.ok true), u) ∧
          ∀ keys r' t',
            Runs (.holding (m.Shows key v)) ((stack m ds).getMulti keys) u (some r') t' →
            Fills key v keys r' := by
  have hp := puts_stack hm hds
  refine ⟨hp.ends key v ttl s, fun r t h => ?_⟩
  obtain ⟨rfl, now, life, hl, h₁, h₂, ht⟩ := hp.only h
  refine ⟨rfl, now, life, hl, h₁, h₂, ?_, ?_, ?_⟩
  · rw [ht, Table.put, Table.find?_insert, if_pos rfl]
  · intro k hk
    rw [ht, Table.put, Table.find?_insert, if_neg hk]
  · rintro u rfl hu
    have hs : m.Shows key v u := shows_of_entry hu
    have hserves : Serves m key v (stack m ds) := serves_stack hm hds
    refine ⟨hserves.hit u hs, hserves.present u hs, fun keys r' t' hr => ?_⟩
    exact (runs_of_maintains (hserves.batch keys) (fun _ _ h => h) hr hs).2 r' rfl

end Reading

/-! ## In a session -/

namespace Session

open State

theorem sound_memory (i : Nat) : (State.memory i).Sound := ⟨fun _ _ => rfl, fun _ _ _ => ⟨rfl, rfl⟩⟩

theorem spares_loader (i : Nat) (key : String) : Keeps (State.memory i).Spares (loader key) := by
  refine .act (fun _ => ⟨rfl, rfl⟩) fun _ => .act (fun _ => ⟨rfl, rfl⟩) fun _ => ?_
  refine .act (fun _ => ⟨rfl, rfl⟩) fun _ => .wait (fun _ => ⟨rfl, rfl⟩) fun _ => ?_
  exact .act (fun _ => ⟨rfl, rfl⟩) fun _ => .done _

/-- A store that writes at once. -/
def writer : Store State := fun key v => do
  Process.change (sourceSlot.modify (Source.setRow key v))
  return .ok ()

theorem spares_writer (i : Nat) (key : String) (v : Value) :
    Keeps (State.memory i).Spares (writer key v) := .act (fun _ => ⟨rfl, rfl⟩) fun _ => .done _

theorem succeeds_writer (i : Nat) (key : String) (v : Value) :
    (State.memory i).Succeeds (writer key v) where
  ends s := ⟨_, .act ((State.memory i).quiet.refl s) (.done ((State.memory i).quiet.refl _))⟩
  only s r t h := by
    cases h with
    | act h hk =>
      cases hk with
      | done ht => rfl

theorem spares_testFilter (i j : Nat) (key : String) (s : State) :
    (State.memory i).Spares s (testFilter j key s).2 := by
  unfold testFilter
  split <;> exact ⟨rfl, rfl⟩

theorem spares_addFilter (i j : Nat) (key : String) (s : State) :
    (State.memory i).Spares s (addFilter j key s) := by
  unfold addFilter
  split <;> exact ⟨rfl, rfl⟩

end Session

/-- Seven layers of a session over its memory engine. -/
def sevenLayers : List (Decorator Session.State) :=
  [.readThrough Session.State.loader .zero, .randomExpire Session.State.drawOffset,
    .guard Session.State.loader (Session.State.membership 5) ⟨.zero, true, true⟩,
    .preload (Session.State.sentinel 4) (.ofSecs 9) (.ofSecs 7), .writeThrough Session.writer,
    .singleflight Session.State.loader .zero (Session.State.flightsSlot 2), .writeBack]

theorem apart_sevenLayers : ∀ d ∈ sevenLayers, d.Apart (Session.State.memory 0) := by
  simp only [sevenLayers, List.forall_mem_cons, List.not_mem_nil, false_implies, implies_true,
    and_true]
  exact ⟨.readThrough (Session.spares_loader 0), .randomExpire fun _ => ⟨rfl, rfl⟩,
    .guard (Session.spares_loader 0) (Session.spares_testFilter 0 5) (Session.spares_addFilter 0 5),
    .preload fun _ _ => ⟨rfl, rfl⟩,
    .writeThrough (Session.spares_writer 0) (Session.succeeds_writer 0),
    .singleflight (Session.spares_loader 0) fun _ _ => ⟨rfl, rfl⟩, .writeBack⟩

/-- A second asked for at the top of the seven layers becomes the nine of the preloading one. -/
theorem put_then_read_sevenLayers :
    let m := Session.State.memory 0
    let c := stack m sevenLayers
    let t := ((c.put "a" Preload.marker (.ofSecs 1)).advance default).2
    (∃ life, Lifespan sevenLayers (.ofSecs 1) life ∧
      (m.slot.get t).table.find? "a" = some ⟨Preload.marker, 0, life⟩) ∧
    (c.get "a").next? t = some (.done (.ok Preload.marker), t) := by
  intro m c t
  have hd : ((c.put "a" Preload.marker (.ofSecs 1)).advance default).1 = .done (.ok ()) := by
    unfold c m
    rfl
  have ht : Clock.instant t = 0 := by
    unfold t c m
    rfl
  obtain ⟨-, hput⟩ := put_then_read (Session.sound_memory 0) apart_sevenLayers "a" Preload.marker
    (.ofSecs 1) default
  obtain ⟨-, now, life, hl, -, hn, he, -, hread⟩ := hput _ t (runs_of_advance hd)
  have hnow : now = 0 := Nat.le_zero.mp (Nat.le_trans hn (Nat.le_of_eq ht))
  obtain ⟨hget, -, -⟩ := hread t (ht.trans hnow.symm) he
  rw [hnow] at he
  exact ⟨⟨life, hl, he⟩, hget⟩

end LayeredCache

import LayeredCache.Proofs.Backed
import LayeredCache.Proofs.Memory

/-!
# The engine agrees with the rows

While nothing is written, every step of every call keeps the engine a copy of the rows: whatever
enters it was read from them. A write sets the row first, and from then on the entry of its key may
be behind; it is made good by a deletion or by the entry of the value written, before the call ends.

Results:
* `copies_setup`: the calls of a stack, but for writes, keep the engine a copy of the rows.
* `runs_of_commits`: a store that has not succeeded has written nothing.
* `coherent_put`, `coherent_call`: when a call has ended, the engine is a copy of the rows.
* `run_coherent`: and so it is after every sequence of calls, whatever goes on beside them.
-/

namespace LayeredCache.Backed

open Process

variable {ρ : Type}

/-! ## Copies of the rows -/

/-- Every entry that is not expired holds the row of its key. -/
def Coherent (s : Backed ρ) : Prop :=
  ∀ k e, s.engine.table.find? k = some e → e.isExpiredAt s.instant = false →
    s.rows k = some e.value

/-- The engine is a copy of these rows. -/
def Settled (rows : String → Option Value) (s : Backed ρ) : Prop := s.rows = rows ∧ Coherent s

/-- The engine is a copy of these rows, but for the entry of one key. -/
def Behind (key : String) (rows : String → Option Value) (s : Backed ρ) : Prop :=
  s.rows = rows ∧ ∀ k e, k ≠ key → s.engine.table.find? k = some e →
    e.isExpiredAt s.instant = false → rows k = some e.value

variable {rows : String → Option Value} {key : String} {v : Value} {s t : Backed ρ}

theorem unexpired_of_le {e : Entry} {now later : Nat} (h : now ≤ later)
    (he : e.isExpiredAt later = false) : e.isExpiredAt now = false := by
  rw [Bool.eq_false_iff] at he ⊢
  exact fun hx => he (Entry.isExpiredAt_mono h hx)

theorem settled_fading (h : fading.moves s t) (hs : Settled rows s) : Settled rows t := by
  obtain ⟨hrows, hle, hsub⟩ := h
  refine ⟨hrows.trans hs.1, fun k e he hx => ?_⟩
  rw [hrows]
  exact hs.2 k e (hsub k e he) (unexpired_of_le hle hx)

theorem behind_fading (h : fading.moves s t) (hs : Behind key rows s) : Behind key rows t := by
  obtain ⟨hrows, hle, hsub⟩ := h
  refine ⟨hrows.trans hs.1, fun k e hk he hx => ?_⟩
  exact hs.2 k e hk (hsub k e he) (unexpired_of_le hle hx)

theorem settled_elsewhere (h : Elsewhere s t) (hs : Settled rows s) : Settled rows t :=
  settled_fading (fading_of_elsewhere h) hs

theorem behind_of_settled (h : Settled rows s) (key : String) : Behind key rows s := by
  refine ⟨h.1, fun k e _ he hx => ?_⟩
  rw [← h.1]
  exact h.2 k e he hx

/-- With the row, the entry of its key falls behind. -/
theorem behind_writes (hs : Settled rows s) (h : Writes key v s t) :
    Behind key (Function.update rows key (some v)) t := by
  obtain ⟨r, rfl⟩ := h
  refine ⟨?_, fun k e hk he hx => ?_⟩
  · change Function.update s.rows key (some v) = _
    rw [hs.1]
  · rw [Function.update_of_ne hk, ← hs.1]
    exact hs.2 k e he hx

/-- Nothing falls behind where the row is as it was. -/
theorem settled_writes (hv : rows key = some v) (hs : Settled rows s) (h : Writes key v s t) :
    Settled rows t := by
  obtain ⟨r, rfl⟩ := h
  have hu : Function.update s.rows key (some v) = s.rows := by
    rw [Function.update_eq_self_iff, hs.1, hv]
  refine ⟨hu.trans hs.1, fun k e he hx => ?_⟩
  change Function.update s.rows key (some v) k = _
  rw [hu]
  exact hs.2 k e he hx

/-- The engine with another table. -/
def setTable (t : Table) (s : Backed ρ) : Backed ρ :=
  { s with engine := { s.engine with table := t } }

/-- Without its entry, nothing is behind. -/
theorem settled_erase (h : Behind key rows s) :
    Settled rows (setTable (s.engine.table.erase key) s) := by
  refine ⟨h.1, fun k e he hx => ?_⟩
  change (s.engine.table.erase key).find? k = some e at he
  rw [Table.find?_erase] at he
  by_cases hk : k = key
  · rw [if_pos hk] at he
    cases he
  · rw [if_neg hk] at he
    change s.rows k = _
    rw [h.1]
    exact h.2 k e hk he hx

/-- With the entry of the row, nothing is behind. -/
theorem settled_put (h : Behind key rows s) (hv : rows key = some v) (ttl : Duration) :
    Settled rows (setTable (s.engine.table.put s.instant key v ttl) s) := by
  refine ⟨h.1, fun k e he hx => ?_⟩
  change (s.engine.table.insert key ⟨v, s.instant, ttl⟩).find? k = some e at he
  change s.rows k = _
  rw [Table.find?_insert] at he
  rw [h.1]
  by_cases hk : k = key
  · rw [if_pos hk] at he
    obtain rfl := Option.some.inj he
    rw [hk, hv]
  · rw [if_neg hk] at he
    exact h.2 k e hk he hx

/-- With the entry expired or gone, nothing is behind. -/
theorem settled_of_dead (h : Behind key rows s)
    (hd : s.engine.table.isLive s.instant key = false) : Settled rows s := by
  refine ⟨h.1, fun k e he hx => ?_⟩
  rw [h.1]
  by_cases hk : k = key
  · subst hk
    unfold Table.isLive at hd
    simp [he, hx] at hd
  · exact h.2 k e hk he hx

theorem row_of_read (hs : Settled rows s) (h : s.engine.table.read s.instant key = .ok v) :
    rows key = some v := by
  unfold Table.read at h
  cases he : s.engine.table.find? key with
  | none => simp [he] at h
  | some e =>
    cases hx : e.isExpiredAt s.instant with
    | true => simp [he, hx] at h
    | false =>
      simp only [he, hx, Bool.false_eq_true, if_false, Except.ok.injEq] at h
      rw [← hs.1, hs.2 key e he hx, h]

/-! ## Calls that write nothing new -/

/-- As long as nothing but rows is put, the calls of the cache keep the engine a copy of the rows,
and what is read is the row. -/
structure Copies (c : Cache (Backed ρ)) : Prop where
  get : ∀ rows key,
    Maintains (Settled rows) (fun o => ∀ v, o = .ok v → rows key = some v) (c.get key)
  getMulti : ∀ rows keys, Maintains (Settled rows) (fun _ => True) (c.getMulti keys)
  put : ∀ rows key v ttl, rows key = some v →
    Maintains (Settled rows) (fun _ => True) (c.put key v ttl)
  delete : ∀ rows key, Maintains (Settled rows) (fun _ => True) (c.delete key)
  isExist : ∀ rows key, Maintains (Settled rows) (fun _ => True) (c.isExist key)
  clearAll : ∀ rows, Maintains (Settled rows) (fun _ => True) c.clearAll
  start : ∀ rows payload, Maintains (Settled rows) (fun _ => True) (c.start payload)

section Copying

variable (w : Source ρ)

/-- Starting the engine leaves its entries alone. -/
theorem fading_start (payload : String) (s : Backed ρ) :
    fading.moves s (match s.engine.startWith true s.instant payload with
      | .ok e => ((.ok () : Answer Unit), { s with engine := e })
      | .error e => (.error e, s)).2 := by
  cases he : s.engine.startWith true s.instant payload with
  | error x => exact fading.refl s
  | ok e =>
    refine ⟨rfl, Nat.le_refl _, fun k y hy => ?_⟩
    change e.table.find? k = some y at hy
    rw [(Memory.startWith_same he).1] at hy
    exact hy

theorem copies_memory : Copies (memory w).cache where
  get rows key := .act (fun _ hs => hs) fun s hs => .done fun v hv => row_of_read hs hv
  getMulti rows keys := .act (fun _ hs => hs) fun _ _ => .done trivial
  put rows key v ttl hv :=
    .act (fun _ hs => settled_put (behind_of_settled hs key) hv ttl) fun _ _ => .done trivial
  delete rows key :=
    .act (fun _ hs => settled_erase (behind_of_settled hs key)) fun _ _ => .done trivial
  isExist rows key := .act (fun _ hs => hs) fun _ _ => .done trivial
  clearAll rows := .act (fun s hs => ⟨hs.1, fun k e he _ => by cases he⟩) fun _ _ => .done trivial
  start rows payload :=
    .act (fun s hs => settled_fading (fading_start payload s) hs) fun _ _ => .done trivial

theorem maintains_load (rows : String → Option Value) (key : String) :
    Maintains (Settled rows) (fun r => ∀ v, r = .ok v → rows key = some v) (w.load key) := by
  refine (w.reads key rows).and_keeps (w.apart key) ?_
  rintro s t ⟨r, rfl⟩ h
  exact h

/-- A store of the row that is there. -/
theorem maintains_commits {p : Process (Backed ρ) (Except Cause Unit)} (hv : rows key = some v)
    (hp : Commits key v p) : Maintains (Settled rows) (fun _ => True) p := by
  induction hp with
  | fail c => exact .done trivial
  | @act g k last hg hk hw ih =>
    refine .act (fun s hs => ?_) fun s hs => ?_
    · by_cases hl : last s
      · exact settled_writes hv hs (hw s hl).1
      · exact settled_elsewhere (hg s hl) hs
    · by_cases hl : last s
      · rw [(hw s hl).2]
        exact .done trivial
      · exact ih s hl
  | wait hc _ ih => exact .wait (fun s hs => settled_elsewhere (hc s) hs) fun s _ => ih s

theorem maintains_store (hv : rows key = some v) :
    Maintains (Settled rows) (fun _ => True) (w.store key v) :=
  maintains_commits hv (w.commits key v)

variable [Journal ρ]

theorem maintains_note (rows : String → Option Value) (severity : Severity) (text : String) :
    Maintains (Settled rows) (fun _ => True) (note severity text : Process (Backed ρ) Unit) :=
  .act (fun _ hs => settled_elsewhere ⟨_, rfl⟩ hs) fun _ _ => .done trivial

variable {w} {inner : Cache (Backed ρ)}

omit [Journal ρ] in
/-- A write through of the row that is there. -/
theorem copies_writeThrough (h : Copies inner) : Copies (WriteThrough.cache inner w.store) where
  get := h.get
  getMulti := h.getMulti
  put rows key v ttl hv := by
    refine maintains_bind (maintains_store w hv) fun r _ => ?_
    cases r with
    | error c => exact .done trivial
    | ok _ => exact h.put rows key v ttl hv
  delete := h.delete
  isExist := h.isExist
  clearAll := h.clearAll
  start := h.start

omit [Journal ρ] in
theorem maintains_persist (hv : rows key = some v) (limit : Option Duration) :
    Maintains (Settled rows) (fun _ => True) (WriteDelete.persist w.store limit key v) := by
  cases limit with
  | none => exact maintains_store w hv
  | some d =>
    refine maintains_bind (maintains_timeout (maintains_store w hv) d) fun o _ => ?_
    cases o with
    | some r => exact .done trivial
    | none => exact .done trivial

/-- What follows on a store that has failed. -/
theorem maintains_failed (h : Copies inner) (rows : String → Option Value) (key : String)
    (c : Cause) :
    Maintains (Settled rows) (fun _ => True)
      (if c.isDeadline then do
        note .warning ("Store func for key " ++ key ++ " hit its deadline: " ++ c.text)
        inner.delete key
      else return .error (.persistFailed key c)) := by
  split
  · exact maintains_bind (maintains_note _ _ _) fun _ _ => h.delete rows key
  · exact .done trivial

theorem maintains_writeDelete (h : Copies inner) (hv : rows key = some v)
    (limit : Option Duration) :
    Maintains (Settled rows) (fun _ => True) (WriteDelete.put inner w.store limit key v) := by
  refine maintains_bind (maintains_persist hv limit) fun r _ => ?_
  cases r with
  | ok _ => exact h.delete rows key
  | error c => exact maintains_failed h rows key c

theorem copies_writeDelete (h : Copies inner) (limit : Option Duration) :
    Copies (WriteDelete.cache inner w.store limit) where
  get := h.get
  getMulti := h.getMulti
  put _ _ _ _ hv := maintains_writeDelete h hv limit
  delete := h.delete
  isExist := h.isExist
  clearAll := h.clearAll
  start := h.start

omit [Journal ρ] in
/-- What follows on a write that deletes twice. -/
theorem maintains_later (w : Source ρ) (rows : String → Option Value) (key : String)
    (r : Answer Unit) :
    Maintains (Settled rows) (fun _ => True) (match r with
      | .ok () => do
        change (rested.modify (w.later key))
        return .ok ()
      | .error e => return .error e : Process (Backed ρ) (Answer Unit)) := by
  cases r with
  | ok _ => exact .act (fun _ hs => settled_elsewhere ⟨_, rfl⟩ hs) fun _ _ => .done trivial
  | error e => exact .done trivial

theorem copies_writeDoubleDelete (h : Copies inner) (limit : Option Duration) :
    Copies
      (WriteDelete.doubleCache inner w.store limit fun key => rested.modify (w.later key)) where
  get := h.get
  getMulti := h.getMulti
  put rows key _ _ hv :=
    maintains_bind (maintains_writeDelete h hv limit) fun r _ => maintains_later w rows key r
  delete := h.delete
  isExist := h.isExist
  clearAll := h.clearAll
  start := h.start

theorem maintains_readThrough (h : Copies inner) (ttl : Duration) (rows : String → Option Value)
    (key : String) :
    Maintains (Settled rows) (fun o => ∀ v, o = .ok v → rows key = some v)
      (ReadThrough.get inner w.load ttl key) := by
  refine maintains_bind (h.get rows key) fun o ho => ?_
  cases o with
  | ok v => exact .done ho
  | error e =>
    refine maintains_bind (maintains_load w rows key) fun r hr => ?_
    cases r with
    | error c => exact .done fun v hv => by cases hv
    | ok v =>
      have hv : rows key = some v := hr v rfl
      have hok : ∀ v', (.ok v : Answer Value) = .ok v' → rows key = some v' := by
        intro v' hv'
        rw [← Except.ok.inj hv', hv]
      refine maintains_bind (h.put rows key v ttl hv) fun a _ => ?_
      cases a with
      | ok _ => exact .done hok
      | error e => exact maintains_bind (maintains_note _ _ _) fun _ _ => .done hok

theorem copies_readThrough (h : Copies inner) (ttl : Duration) :
    Copies (ReadThrough.cache inner w.load ttl) where
  get rows key := maintains_readThrough h ttl rows key
  getMulti rows keys := by
    refine maintains_bind (h.getMulti rows keys) fun r _ => ?_
    cases r with
    | ok vs => exact .done trivial
    | error e =>
      exact maintains_bind (maintains_all fun k _ => maintains_readThrough h ttl rows k)
        fun _ _ => .done trivial
  put := h.put
  delete := h.delete
  isExist := h.isExist
  clearAll := h.clearAll
  start := h.start

omit [Journal ρ] in
theorem maintains_invalidate (h : Copies inner) (rows : String → Option Value) (key : String) :
    Maintains (Settled rows) (fun _ => True) (CacheAside.invalidate inner key) := by
  refine maintains_bind (h.isExist rows key) fun r _ => ?_
  cases r with
  | error e => exact .done trivial
  | ok b =>
    cases b with
    | false => exact .done trivial
    | true => exact h.delete rows key

omit [Journal ρ] in
theorem copies_cacheAside (h : Copies inner) (ttl : Duration) :
    Copies (CacheAside.cache inner w.load w.store ttl) where
  get rows key := by
    refine maintains_bind (h.get rows key) fun o ho => ?_
    cases o with
    | ok v => exact .done ho
    | error e =>
      refine maintains_bind (maintains_load w rows key) fun r hr => ?_
      cases r with
      | error c => exact .done fun v hv => by cases hv
      | ok v =>
        refine maintains_bind (h.put rows key v ttl (hr v rfl)) fun a _ => ?_
        cases a with
        | error e => exact .done fun v hv => by cases hv
        | ok _ => exact .done fun v' hv' => by rw [← Except.ok.inj hv', hr v rfl]
  getMulti := h.getMulti
  put rows key v ttl hv := by
    refine maintains_bind (maintains_store w hv) fun r _ => ?_
    cases r with
    | error c => exact .done trivial
    | ok _ => exact maintains_invalidate h rows key
  delete := h.delete
  isExist := h.isExist
  clearAll := h.clearAll
  start := h.start

/-- **The calls of a stack keep the engine a copy of the rows**, as long as they put nothing
else. -/
theorem copies_setup (w : Source ρ) (x : Setup) : Copies (x.cache w) := by
  have hm := copies_memory w
  cases x with
  | cacheAside ttl => exact copies_cacheAside hm ttl
  | writeThrough ttl => exact copies_readThrough (copies_writeThrough hm) ttl
  | writeDelete ttl limit => exact copies_readThrough (copies_writeDelete hm limit) ttl
  | writeDoubleDelete ttl limit => exact copies_readThrough (copies_writeDoubleDelete hm limit) ttl

end Copying

/-! ## Writes -/

section Writing

/-- **A store that has not succeeded has written nothing**; where it has succeeded, the entry of its
key alone may be behind. -/
theorem runs_of_commits {p : Process (Backed ρ) (Except Cause Unit)} (hp : Commits key v p)
    {o : Option (Except Cause Unit)} (h : Runs fading p s o t) (hs : Settled rows s) :
    o = some (.ok ()) ∧ Behind key (Function.update rows key (some v)) t ∨
      o ≠ some (.ok ()) ∧ Settled rows t := by
  induction hp generalizing s with
  | fail c =>
    cases h with
    | done hm => exact .inr ⟨by simp, settled_fading hm hs⟩
  | @act g k last hg hk hw ih =>
    cases h with
    | @act _ _ _ s' _ _ hm hr =>
      have hs' := settled_fading hm hs
      by_cases hl : last s'
      · obtain ⟨hwrite, hdone⟩ := hw s' hl
        rw [hdone] at hr
        cases hr with
        | done ht => exact .inl ⟨rfl, behind_fading ht (behind_writes hs' hwrite)⟩
      · exact ih s' hl hr (settled_elsewhere (hg s' hl) hs')
  | wait hc _ ih =>
    cases h with
    | wait hm _ hr => exact ih _ hr (settled_fading hm hs)
    | gone hm ht =>
      have hs' := settled_elsewhere (hc _) (settled_fading hm hs)
      exact .inr ⟨by simp, settled_fading ht hs'⟩

variable {w : Source ρ}

theorem runs_of_store {r : Except Cause Unit} (h : Runs fading (w.store key v) s (some r) t)
    (hs : Settled rows s) :
    r = .ok () ∧ Behind key (Function.update rows key (some v)) t ∨
      (∃ c, r = .error c) ∧ Settled rows t := by
  rcases runs_of_commits (w.commits key v) h hs with ⟨hr, ht⟩ | ⟨hr, ht⟩
  · exact .inl ⟨Option.some.inj hr, ht⟩
  · cases r with
    | ok _ => exact absurd rfl hr
    | error c => exact .inr ⟨⟨c, rfl⟩, ht⟩

theorem runs_of_persist {limit : Option Duration} {r : Except Cause Unit}
    (h : Runs fading (WriteDelete.persist w.store limit key v) s (some r) t)
    (hs : Settled rows s) :
    r = .ok () ∧ Behind key (Function.update rows key (some v)) t ∨
      (∃ c, r = .error c) ∧ Settled rows t := by
  cases limit with
  | none => exact runs_of_store h hs
  | some d =>
    obtain ⟨o, s', hp, hf⟩ := runs_bind_some h
    have hp := runs_timeout hp
    cases o with
    | some r' =>
      cases hf with
      | done ht => exact runs_of_store (hp.before ht) hs
    | none =>
      cases hf with
      | done ht =>
        rcases runs_of_commits (w.commits key v) hp hs with ⟨ho, -⟩ | ⟨-, hs'⟩
        · cases ho
        · exact .inr ⟨⟨.timer, rfl⟩, settled_fading ht hs'⟩

/-- A deletion makes good. -/
theorem runs_delete {o : Option (Answer Unit)} (h : Runs fading ((memory w).cache.delete key) s o t)
    (hs : Behind key rows s) : Settled rows t := by
  cases h with
  | act hm hk =>
    cases hk with
    | done ht => exact settled_fading ht (settled_erase (behind_fading hm hs))

/-- The entry of the row makes good. -/
theorem runs_put {ttl : Duration} {o : Option (Answer Unit)}
    (h : Runs fading ((memory w).cache.put key v ttl) s o t) (hs : Behind key rows s)
    (hv : rows key = some v) : Settled rows t := by
  cases h with
  | act hm hk =>
    cases hk with
    | done ht => exact settled_fading ht (settled_put (behind_fading hm hs) hv ttl)

/-- An invalidation makes good: an entry that it spares is expired or gone. -/
theorem runs_invalidate {o : Option (Answer Unit)}
    (h : Runs fading (CacheAside.invalidate (memory w).cache key) s o t)
    (hs : Behind key rows s) : Settled rows t := by
  cases h with
  | @act _ _ _ s' _ _ hm hk =>
    have hs' := behind_fading hm hs
    change Runs _ (match (.ok (s'.engine.table.isLive s'.instant key) : Answer Bool) with
      | .error e => _
      | .ok false => _
      | .ok true => _) s' o t at hk
    cases hl : s'.engine.table.isLive s'.instant key with
    | false =>
      rw [hl] at hk
      cases hk with
      | done ht => exact settled_fading ht (settled_of_dead hs' hl)
    | true =>
      rw [hl] at hk
      exact runs_delete hk hs'

variable [Journal ρ]

theorem runs_writeDelete {limit : Option Duration} {r : Answer Unit}
    (h : Runs fading (WriteDelete.put (memory w).cache w.store limit key v) s (some r) t)
    (hs : Settled rows s) : ∃ rows', Settled rows' t := by
  obtain ⟨a, s', hp, hf⟩ := runs_bind_some h
  rcases runs_of_persist hp hs with ⟨rfl, hb⟩ | ⟨⟨c, rfl⟩, hs'⟩
  · exact ⟨_, runs_delete hf hb⟩
  · have hm := maintains_failed (copies_memory w) rows key c
    exact ⟨rows, (runs_of_maintains hm (fun _ _ => settled_fading) hf hs').1⟩

/-- **When a write has ended, the engine is a copy of the rows**, whatever became of it. -/
theorem coherent_put {x : Setup} {ttl : Duration} {r : Answer Unit}
    (h : Runs fading ((x.cache w).put key v ttl) s (some r) t) (hs : Coherent s) : Coherent t := by
  have hs : Settled s.rows s := ⟨rfl, hs⟩
  cases x with
  | cacheAside ttl' =>
    obtain ⟨a, s', hp, hf⟩ := runs_bind_some h
    rcases runs_of_store hp hs with ⟨rfl, hb⟩ | ⟨⟨c, rfl⟩, hs'⟩
    · exact (runs_invalidate hf hb).2
    · cases hf with
      | done ht => exact (settled_fading ht hs').2
  | writeThrough ttl' =>
    obtain ⟨a, s', hp, hf⟩ := runs_bind_some h
    rcases runs_of_store hp hs with ⟨rfl, hb⟩ | ⟨⟨c, rfl⟩, hs'⟩
    · exact (runs_put hf hb (Function.update_self ..)).2
    · cases hf with
      | done ht => exact (settled_fading ht hs').2
  | writeDelete ttl' limit =>
    obtain ⟨rows', ht⟩ := runs_writeDelete h hs
    exact ht.2
  | writeDoubleDelete ttl' limit =>
    obtain ⟨a, s', hp, hf⟩ := runs_bind_some h
    obtain ⟨rows', hs'⟩ := runs_writeDelete hp hs
    exact (runs_of_maintains (maintains_later w rows' key a) (fun _ _ => settled_fading) hf hs').1.2

end Writing

/-! ## Calls -/

section Calling

variable [Journal ρ] {w : Source ρ} {x : Setup}

/-- What holds when a call has ended: the engine is a copy of the rows, and a read of one key has
found nothing but its row. -/
def Ended (c : Call) (r : Answer Reply) (t : Backed ρ) : Prop :=
  Coherent t ∧ ∀ key v, c = .get key → r = .ok (.value v) → t.rows key = some v

omit [Journal ρ] in
/-- A call that puts nothing but rows. -/
theorem ended_of_maintains {α : Type} {c : Call} {p : Process (Backed ρ) α}
    {f : α → Answer Reply} {r : Answer Reply} (hp : Maintains (Settled s.rows) (fun _ => True) p)
    (hc : ∀ key, c ≠ .get key) (h : Runs fading (p.bind fun a => .done (f a)) s (some r) t)
    (hs : Coherent s) : Ended c r t := by
  obtain ⟨a, hrun, -⟩ := runs_map h
  have ht := (runs_of_maintains hp (fun _ _ => settled_fading) hrun ⟨rfl, hs⟩).1
  exact ⟨ht.2, fun key v hk _ => absurd hk (hc key)⟩

theorem ended_get {r : Answer Reply}
    (h : Runs fading ((Call.get key).run (x.cache w)) s (some r) t) (hs : Coherent s) :
    Ended (.get key) r t := by
  obtain ⟨a, hrun, rfl⟩ := runs_map h
  obtain ⟨ht, ha⟩ := runs_of_maintains ((copies_setup w x).get s.rows key)
    (fun _ _ => settled_fading) hrun ⟨rfl, hs⟩
  refine ⟨ht.2, fun key' v hk hr => ?_⟩
  obtain rfl := Call.get.inj hk
  cases a with
  | error e => cases hr
  | ok v' =>
    obtain rfl := Reply.value.inj (Except.ok.inj hr)
    rw [ht.1]
    exact ha _ rfl _ rfl

/-- A counter stepped beside the cache. -/
theorem coherent_step {d : Step} {ttl : Duration} {r : Answer Unit}
    (h : Runs fading (((Setup.cacheAside ttl).cache w).step d key) s (some r) t)
    (hs : Coherent s) : Coherent t := by
  obtain ⟨a, s', hg, hf⟩ := runs_bind_some h
  have hs' := (runs_of_maintains ((copies_setup w (.cacheAside ttl)).get s.rows key)
    (fun _ _ => settled_fading) hg ⟨rfl, hs⟩).1
  cases a with
  | error e =>
    cases hf with
    | done ht => exact (settled_fading ht hs').2
  | ok v =>
    dsimp only at hf
    cases hv : v.step key d with
    | error e =>
      rw [hv] at hf
      cases hf with
      | done ht => exact (settled_fading ht hs').2
    | ok v' =>
      rw [hv] at hf
      change Runs fading (((Setup.cacheAside ttl).cache w).put key v' ttl) s' _ t at hf
      exact coherent_put hf hs'.2

/-- **When a call has ended, the engine is a copy of the rows.** -/
theorem coherent_call {c : Call} (hc : x.Allows c) {r : Answer Reply}
    (h : Runs fading (c.run (x.cache w)) s (some r) t) (hs : Coherent s) : Ended c r t := by
  have hcopies := copies_setup w x
  have noGet {c' : Call} (hn : ∀ key, c' ≠ .get key) (ht : Coherent t) : Ended c' r t :=
    ⟨ht, fun key _ hk _ => absurd hk (hn key)⟩
  cases c with
  | get key => exact ended_get h hs
  | put key v ttl =>
    obtain ⟨a, hrun, -⟩ := runs_map h
    exact noGet (by simp) (coherent_put hrun hs)
  | step d key =>
    obtain ⟨a, hrun, -⟩ := runs_map h
    cases x with
    | cacheAside ttl => exact noGet (by simp) (coherent_step hrun hs)
    | writeThrough ttl => exact hc.elim
    | writeDelete ttl limit => exact hc.elim
    | writeDoubleDelete ttl limit => exact hc.elim
  | getMulti keys => exact ended_of_maintains (hcopies.getMulti s.rows keys) (by simp) h hs
  | delete key => exact ended_of_maintains (hcopies.delete s.rows key) (by simp) h hs
  | isExist key => exact ended_of_maintains (hcopies.isExist s.rows key) (by simp) h hs
  | clearAll => exact ended_of_maintains (hcopies.clearAll s.rows) (by simp) h hs
  | start payload => exact ended_of_maintains (hcopies.start s.rows payload) (by simp) h hs

/-- **When a sequence of calls has ended, the engine is a copy of the rows**, and if the last one
was a read of one key, it has found nothing but its row. -/
theorem coherent_inTurn {calls : List Call} (hc : ∀ c ∈ calls, x.Allows c)
    {rs : List (Answer Reply)} (h : Runs fading (inTurn (x.cache w) calls) s (some rs) t)
    (hs : Coherent s) : Coherent t ∧ ∀ key v, calls.getLast? = some (.get key) →
      rs.getLast? = some (.ok (.value v)) → t.rows key = some v := by
  induction calls generalizing s rs with
  | nil =>
    cases h with
    | done ht => exact ⟨(settled_fading ht ⟨rfl, hs⟩).2, fun key v hk _ => by cases hk⟩
  | cons c calls ih =>
    obtain ⟨r, s', hr, hrest⟩ := runs_bind_some h
    obtain ⟨rs', hrs, rfl⟩ := runs_map hrest
    have he := coherent_call (hc c List.mem_cons_self) hr hs
    obtain ⟨ht, hlast⟩ := ih (fun c' hc' => hc c' (List.mem_cons_of_mem c hc')) hrs he.1
    refine ⟨ht, fun key v hk hv => ?_⟩
    cases calls with
    | nil =>
      cases hrs with
      | done hm =>
        rw [hm.1]
        exact he.2 key v (Option.some.inj hk) (Option.some.inj hv)
    | cons c' calls =>
      obtain ⟨r', s₂, -, htail⟩ := runs_bind_some hrs
      obtain ⟨rs₂, -, rfl⟩ := runs_map htail
      exact hlast key v hk hv

end Calling

/-! ## Runs -/

variable [Journal ρ] {ι ε : Type} [DecidableEq ι]

/-- **The engine agrees with the rows after every sequence of calls.** The calls are made one after
the other, on an engine that was empty, over any source; reclamation passes and second deletes, in
any number, take their steps anywhere in between, and time passes. When the calls have ended, every
entry that is not expired holds the row of its key, and a read that was the last of them has found
nothing but the row of its key. Any point between two calls is the end of such a sequence. -/
theorem run_coherent (w : Source ρ) (x : Setup) {calls : List Call} (hc : ∀ c ∈ calls, x.Allows c)
    (tasks : ι → Background) (effect : ε → ρ → ρ) (now : Nat) (engine : Engine)
    (rows : String → Option Value) (rest : ρ) (turns : List (Turn (Option ι) (ε × Nat)))
    {p : Pool (Option ι) (Backed ρ) (List (Answer Reply))} {rs : List (Answer Reply)}
    (hp : (pool w x calls tasks ⟨now, { engine with table := .empty }, rows, rest⟩).run
      (elapse effect) turns = p) (hr : p.threads none = some (.done rs)) :
    (∀ k e, p.state.engine.table.find? k = some e → e.isExpiredAt p.state.instant = false →
      p.state.rows k = some e.value) ∧
    ∀ key v, calls.getLast? = some (.get key) → rs.getLast? = some (.ok (.value v)) →
      p.state.rows key = some v := by
  have ho : ∀ (j : Option ι) (q : Process (Backed ρ) (List (Answer Reply))), j ≠ none →
      (pool w x calls tasks ⟨now, { engine with table := .empty }, rows, rest⟩).threads j = some q →
      Keeps fading.moves q := by
    intro j q hj hq
    cases j with
    | none => exact absurd rfl hj
    | some i =>
      obtain rfl := Option.some.inj hq
      exact keeps_background w (tasks i)
  have hcame := runs_of_pool rfl ho (fading_elapse effect) turns
  rw [hp] at hcame
  change Came _ _ _ p.state (p.threads none) at hcame
  rw [hr] at hcame
  have hrun := hcame (some rs) p.state (.done (fading.refl _))
  exact coherent_inTurn hc hrun fun k e he _ => by cases he

/-- A write and a read beside the cache, with a pass begun in the middle of the read. -/
theorem run_coherent_cacheAside :
    let w : Source Session.State := .deciding (fun _ => .done none) fun _ _ => .done none
    let calls : List Call := [.put "a" (.bool true) .zero, .get "a"]
    let tasks : Unit → Background := fun _ => .pass
    let engine : Engine := .empty
    let effect : Unit → Session.State → Session.State := fun _ r => r
    let go : Turn (Option Unit) (Unit × Nat) := .go none
    let turns := [go, go, go, .go (some ()), .outside ((), 5), go, go, go]
    let p := (pool w (.cacheAside .zero) calls tasks
      ⟨0, { engine with table := .empty }, fun _ => none, default⟩).run (elapse effect) turns
    p.threads none = some (.done [.ok .nothing, .ok (.value (.bool true))]) ∧
      p.state.rows "a" = some (.bool true) := by
  intro w calls tasks engine effect go turns p
  have hc : ∀ c ∈ calls, (Setup.cacheAside .zero).Allows c := fun _ _ => trivial
  have hr : p.threads none = some (.done [.ok .nothing, .ok (.value (.bool true))]) := by
    unfold p turns go effect engine tasks calls w
    rfl
  have hrun := run_coherent (p := p) w (.cacheAside .zero) hc tasks effect 0 engine
    (fun _ => none) default turns rfl hr
  exact ⟨hr, hrun.2 "a" (.bool true) rfl rfl⟩

end LayeredCache.Backed

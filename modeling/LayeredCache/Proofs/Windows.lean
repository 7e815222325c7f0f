import LayeredCache.Proofs.Company
import LayeredCache.Proofs.Leased
import LayeredCache.Session.State

/-!
# The windows of a read-through cache

Reads of a key in turn through a read-through cache over a memory cache, with a loader that succeeds
in the end. What was loaded is written back, and from then on it is answered for the lifespan of the
cache; the first read that begins later loads anew. It does not matter when the expired entry is
reclaimed, and the time that a load takes does not count.

The instants are those of the history: a read begins with its look for the key, and one that calls
the loader ends with writing back what was loaded.

Results:
* `held_aside`: what leaves the key alone keeps a window open until its end.
* `inv_turned`: what every turn keeps.
* `run_windows`: which reads call the loader and what each of them answers, after every schedule.
-/

namespace LayeredCache.Leased

variable {ρ ε ι : Type}

/-- A step of a pool of reads, passes and tasks. -/
abbrev Event (ρ ι : Type) := Pool.Event (Who ι) (Leased ρ) (Answer Reply)

/-! ## When reads begin and end -/

section Instants

variable [DecidableEq ι]

/-- When read `n` looked for the key. -/
def begun (past : List (Event ρ ι)) (n : Nat) : Option Nat :=
  (past.find? fun x => x.who = .read n).map fun x => x.before.instant

/-- When read `n` ended, and with which answer. -/
def ended (past : List (Event ρ ι)) (n : Nat) : Option (Nat × Answer Reply) :=
  past.findSome? fun x =>
    if x.who = .read n then x.answer.map fun r => (x.before.instant, r) else none

variable {past : List (Event ρ ι)} {n t : Nat} {x : Option (Event ρ ι)}

theorem begun_append (h : begun past n = some t) (xs : List (Event ρ ι)) :
    begun (past ++ xs) n = some t := by
  obtain ⟨e, he, rfl⟩ := Option.map_eq_some_iff.mp h
  rw [begun, List.find?_append, he]
  rfl

theorem ended_append {y : Nat × Answer Reply} (h : ended past n = some y)
    (xs : List (Event ρ ι)) : ended (past ++ xs) n = some y := by
  rw [ended] at h ⊢
  rw [List.findSome?_append, h]
  rfl

/-- Steps of others do not begin or end a read. -/
theorem instants_of_ne (h : ∀ e ∈ x, e.who ≠ .read n) :
    begun (past ++ x.toList) n = begun past n ∧ ended (past ++ x.toList) n = ended past n := by
  cases x with
  | none => simp
  | some e =>
    have he : e.who ≠ .read n := h e rfl
    rw [begun, begun, ended, ended, List.find?_append, List.findSome?_append]
    simp [he]

theorem begun_step (h : begun past n = none) (s s' : Leased ρ) (r : Option (Answer Reply)) :
    begun (past ++ [event ι n s s' r]) n = some s.instant := by
  rw [begun, Option.map_eq_none_iff] at h
  rw [begun, List.find?_append, h]
  simp [event]

theorem ended_step (h : ended past n = none) (s s' : Leased ρ) (r : Option (Answer Reply)) :
    ended (past ++ [event ι n s s' r]) n = r.map fun r => (s.instant, r) := by
  rw [ended] at h ⊢
  rw [List.findSome?_append, h]
  cases r <;> simp [event]

end Instants

/-! ## When a load is due -/

/-- Read `m` is the last one before read `n` that called the loader. -/
structure Last (calls : List Nat) (m n : Nat) : Prop where
  mem : m ∈ calls
  lt : m < n
  le : ∀ i ∈ calls, i < n → i ≤ m

theorem Last.unique {calls : List Nat} {m m' n : Nat} (h : Last calls m n)
    (h' : Last calls m' n) : m = m' :=
  Nat.le_antisymm (h'.le m h.mem h.lt) (h.le m' h'.mem h'.lt)

/-- The same calls before read `n`. -/
theorem Last.congr {calls calls' : List Nat} {m n : Nat}
    (hc : ∀ i < n, i ∈ calls' ↔ i ∈ calls) (h : Last calls m n) : Last calls' m n :=
  ⟨(hc m h.lt).mpr h.mem, h.lt, fun i hi hn => h.le i ((hc i hn).mp hi) hn⟩

section Due

variable [DecidableEq ι]

/-- **Read `n`, begun at `t`, has to call the loader**: it is the first, or the value that was
loaded last had been written back strictly more than its lifespan before. -/
def Due (ttl : Duration) (calls : List Nat) (past : List (Event ρ ι)) (n t : Nat) : Prop :=
  n = 0 ∨ ∃ m w r, Last calls m n ∧ ended past m = some (w, r) ∧ ttl.toNanos ≠ 0 ∧
    w + ttl.toNanos < t

variable {ttl : Duration} {calls calls' : List Nat} {past : List (Event ρ ι)} {n t : Nat}

theorem due_iff {m w : Nat} {r : Answer Reply} (h : Last calls m n)
    (hw : ended past m = some (w, r)) :
    Due ttl calls past n t ↔ ttl.toNanos ≠ 0 ∧ w + ttl.toNanos < t := by
  constructor
  · rintro (rfl | ⟨m', w', r', h', hw', hlt⟩)
    · exact absurd h.lt (Nat.not_lt_zero m)
    · obtain rfl := h.unique h'
      obtain ⟨rfl, -⟩ := Prod.mk.inj (Option.some.inj (hw.symm.trans hw'))
      exact hlt
  · exact fun hlt => .inr ⟨m, w, r, h, hw, hlt⟩

/-- What happens later does not matter, where the reads before have ended. -/
theorem due_congr (hc : ∀ i < n, i ∈ calls' ↔ i ∈ calls)
    (hp : ∀ i < n, ∃ y, ended past i = some y) (xs : List (Event ρ ι)) :
    Due ttl calls' (past ++ xs) n t ↔ Due ttl calls past n t := by
  refine or_congr Iff.rfl (exists_congr fun m => exists_congr fun w => exists_congr fun r => ?_)
  constructor
  · rintro ⟨h, hw, hlt⟩
    obtain ⟨y, hy⟩ := hp m h.lt
    obtain rfl := Option.some.inj ((ended_append hy xs).symm.trans hw)
    exact ⟨h.congr fun i hi => (hc i hi).symm, hy, hlt⟩
  · rintro ⟨h, hw, hlt⟩
    exact ⟨h.congr hc, ended_append hw xs, hlt⟩

end Due

/-! ## The window -/

/-- A value that was written back at `w`: it is there, or it is expired and gone. -/
def Held (c : Setting ρ) (w : Nat) (v : Value) (s : Leased ρ) : Prop :=
  s.find? c.key = some ⟨v, w, c.ttl⟩ ∨
    s.find? c.key = none ∧ c.ttl.toNanos ≠ 0 ∧ w + c.ttl.toNanos < s.instant

/-- The key is not there, or expired. -/
def Void (key : String) (s : Leased ρ) : Prop :=
  ∀ e, s.find? key = some e → e.isExpiredAt s.instant = true

variable {c : Setting ρ} {I : ρ → Prop} {s s' : Leased ρ}

theorem held_aside {w : Nat} {v : Value} (h : Held c w v s) (ha : Aside I c.key s s') :
    Held c w v s' := by
  have hle := ha.instant
  rcases h with h | ⟨h, hl, hlt⟩
  · rcases ha.entry with he | ⟨he, hx⟩
    · exact .inl (he.trans h)
    · exact .inr ⟨he, Entry.isExpiredAt_iff.mp (hx _ h)⟩
  · rcases ha.entry with he | ⟨he, -⟩
    · exact .inr ⟨he.trans h, hl, by omega⟩
    · exact .inr ⟨he, hl, by omega⟩

theorem void_aside {key : String} (h : Void key s) (ha : Aside I key s s') : Void key s' := by
  intro e hs
  rcases ha.entry with he | ⟨he, -⟩
  · exact Entry.isExpiredAt_mono ha.instant (h e (he.symm.trans hs))
  · cases hs.symm.trans he

theorem read_eq_ok_iff {key : String} {v : Value} : s.read key = .ok v ↔
    ∃ e, s.find? key = some e ∧ e.isExpiredAt s.instant = false ∧ e.value = v := by
  unfold read Table.read find?
  cases s.engine.table.find? key with
  | none => simp
  | some e => cases hx : e.isExpiredAt s.instant <;> simp [hx]

/-- Within the window the value is answered. -/
theorem read_held {w : Nat} {v v' : Value} (h : Held c w v s) (hr : s.read c.key = .ok v') :
    v' = v ∧ ¬ (c.ttl.toNanos ≠ 0 ∧ w + c.ttl.toNanos < s.instant) := by
  obtain ⟨e, he, hx, rfl⟩ := read_eq_ok_iff.mp hr
  rcases h with h | ⟨h, -⟩
  · obtain rfl := Option.some.inj (he.symm.trans h)
    refine ⟨rfl, fun hlt => ?_⟩
    rw [Entry.isExpiredAt_iff.mpr hlt] at hx
    cases hx
  · cases he.symm.trans h

/-- Only after the window the value is not answered. -/
theorem miss_held {w : Nat} {v : Value} {e : CacheError} (h : Held c w v s)
    (hr : s.read c.key = .error e) : c.ttl.toNanos ≠ 0 ∧ w + c.ttl.toNanos < s.instant := by
  rcases h with h | ⟨-, hlt⟩
  · refine Entry.isExpiredAt_iff.mp (?_ : Entry.isExpiredAt ⟨v, w, c.ttl⟩ s.instant = true)
    by_contra hx
    have := read_eq_ok_iff.mpr ⟨_, h, by simpa using hx, rfl⟩
    cases this.symm.trans hr
  · exact hlt

/-! ## What every turn keeps -/

section Invariant

variable [DecidableEq ι]

/-- What is known of a read that has answered. -/
structure Told (c : Setting ρ) (s : Leased ρ) (past : List (Event ρ ι)) (n : Nat)
    (r : Answer Reply) : Prop where
  /-- It has called the loader exactly if that was due. -/
  called : ∃ t, begun past n = some t ∧ (n ∈ s.calls ↔ Due c.ttl s.calls past n t)
  ends : ∃ w, ended past n = some (w, r)
  /-- It has answered what was loaded last, by itself or by a read before. -/
  loaded : ∃ m v, Last s.calls m (n + 1) ∧ s.loads m = some (.ok v) ∧ r = .ok (.value v)

/-- What is known, before read `k`, of the value that was loaded last. -/
def Window (c : Setting ρ) (s : Leased ρ) (past : List (Event ρ ι)) (k : Nat) : Prop :=
  k = 0 ∧ Void c.key s ∨ ∃ m w v, Last s.calls m k ∧ ended past m = some (w, .ok (.value v)) ∧
    s.loads m = some (.ok v) ∧ Held c w v s

/-- Read `k` has missed the key, as was due. -/
def Missed (c : Setting ρ) (s : Leased ρ) (past : List (Event ρ ι)) (k : Nat) : Prop :=
  ∃ t, begun past k = some t ∧ Due c.ttl s.calls past k t

/-- What is known of the read whose turn it is. -/
def Underway (c : Setting ρ) (I : ρ → Prop) (s : Leased ρ) (past : List (Event ρ ι)) (k : Nat) :
    Option (Phase ρ) → Prop
  | some .fresh => begun past k = none ∧ k ∉ s.calls
  | some .missed => Missed c s past k ∧ k ∉ s.calls
  | some (.loading q) => Missed c s past k ∧ k ∈ s.calls ∧ q.Keeps (Apart I c.key) ∧
      q.Maintains (fun s => I s.rest) fun r => ∃ v, r = .ok v
  | some (.storing v) => Missed c s past k ∧ k ∈ s.calls ∧ s.loads k = some (.ok v)
  | some (.ended _) => False
  | none => Missed c s past k ∧ k ∈ s.calls

/-- A read that called the loader ends with writing back what was loaded. -/
def Written (c : Setting ρ) (x : Event ρ ι) : Prop :=
  ∀ n r, x.who = .read n → n ∈ x.before.calls → x.answer = some r →
    ∃ v, r = .ok (.value v) ∧ x.after.find? c.key = some ⟨v, x.before.instant, c.ttl⟩

/-- What every turn keeps. -/
structure Inv (c : Setting ρ) (I : ρ → Prop) (s : Leased ρ) (past : List (Event ρ ι))
    (answers : List (Answer Reply)) (phase : Option (Phase ρ)) : Prop where
  rest : I s.rest
  calls : ∀ i ∈ s.calls, i ≤ answers.length
  increasing : s.calls.Pairwise (· < ·)
  ahead : ∀ n, answers.length < n → begun past n = none
  unended : ∀ n, answers.length ≤ n → ended past n = none
  told : ∀ n r, answers[n]? = some r → Told c s past n r
  window : Window c s past answers.length
  underway : Underway c I s past answers.length phase
  written : ∀ x ∈ past, Written c x

variable {past : List (Event ρ ι)} {answers : List (Answer Reply)} {phase : Option (Phase ρ)}
  {k n : Nat}

theorem Inv.ends (h : Inv c I s past answers phase) :
    ∀ i < answers.length, ∃ y, ended past i = some y := fun i hi =>
  have ⟨_, hw⟩ := (h.told i _ (List.getElem?_eq_getElem hi)).ends
  ⟨_, hw⟩

/-- What is known of reads that have answered stays so. -/
theorem Inv.told_later (h : Inv c I s past answers phase)
    (hc : ∀ i < answers.length, i ∈ s'.calls ↔ i ∈ s.calls)
    (hl : ∀ i < answers.length, s'.loads i = s.loads i) (xs : List (Event ρ ι)) :
    ∀ n r, answers[n]? = some r → Told c s' (past ++ xs) n r := by
  intro n r hr
  have hn := (List.getElem?_eq_some_iff.mp hr).1
  obtain ⟨⟨t, ht, hcalled⟩, ⟨w, hw⟩, ⟨m, v, hm, hv, hrv⟩⟩ := h.told n r hr
  refine ⟨⟨t, begun_append ht xs, ?_⟩, ⟨w, ended_append hw xs⟩, m, v, ?_, ?_, hrv⟩
  · rw [hc n hn, due_congr (fun i hi => hc i (by omega)) fun i hi => h.ends i (by omega)]
    exact hcalled
  · exact hm.congr fun i hi => hc i (by omega)
  · rw [hl m (by have := hm.lt; omega)]
    exact hv

theorem Inv.window_later (h : Inv c I s past answers phase)
    (hc : ∀ i < answers.length, i ∈ s'.calls ↔ i ∈ s.calls)
    (hl : ∀ i < answers.length, s'.loads i = s.loads i)
    (hheld : ∀ w v, Held c w v s → Held c w v s') (hvoid : Void c.key s → Void c.key s')
    (xs : List (Event ρ ι)) : Window c s' (past ++ xs) answers.length := by
  rcases h.window with ⟨h₀, hv⟩ | ⟨m, w, v, hm, hw, hv, hh⟩
  · exact .inl ⟨h₀, hvoid hv⟩
  · exact .inr ⟨m, w, v, hm.congr hc, ended_append hw xs, (hl m hm.lt).trans hv, hheld w v hh⟩

theorem Inv.missed_later (h : Inv c I s past answers phase) (hm : Missed c s past answers.length)
    (hc : ∀ i < answers.length, i ∈ s'.calls ↔ i ∈ s.calls) (xs : List (Event ρ ι)) :
    Missed c s' (past ++ xs) answers.length := by
  obtain ⟨t, ht, hdue⟩ := hm
  exact ⟨t, begun_append ht xs, (due_congr hc h.ends xs).mpr hdue⟩

/-! ### Steps by which no read ends -/

/-- Read `k` does not end with the step, and no later one begins or ends. -/
structure Silent (k : Nat) (past : List (Event ρ ι)) (x : Option (Event ρ ι)) : Prop where
  begun : ∀ n, k < n → begun (past ++ x.toList) n = begun past n
  ended : ∀ n, k ≤ n → ended (past ++ x.toList) n = ended past n
  answer : ∀ e ∈ x, ∀ n, e.who = .read n → e.answer = none

theorem silent_of_ne {x : Option (Event ρ ι)} (h : ∀ e ∈ x, ∀ n, e.who ≠ .read n) :
    Silent k past x :=
  ⟨fun n _ => (instants_of_ne fun e he => h e he n).1,
    fun n _ => (instants_of_ne fun e he => h e he n).2, fun e he n hn => absurd hn (h e he n)⟩

omit [DecidableEq ι] in
theorem ne_of_event {s s' : Leased ρ} {r : Option (Answer Reply)} (hn : n ≠ k) :
    ∀ e ∈ some (event ι k s s' r), e.who ≠ .read n := by
  intro e he hw
  obtain rfl := Option.some.inj he
  exact hn (Who.read.inj hw).symm

/-- A step of a read that does not answer. -/
theorem silent_step (he : ended past k = none) (s s' : Leased ρ) :
    Silent k past (some (event ι k s s' none)) := by
  refine ⟨fun n hn => (instants_of_ne (ne_of_event (by omega))).1, fun n hn => ?_,
    fun e he n _ => ?_⟩
  · by_cases hk : n = k
    · subst hk
      rw [he]
      exact ended_step he s s' none
    · exact (instants_of_ne (ne_of_event hk)).2
  · obtain rfl := Option.some.inj he
    rfl

omit [DecidableEq ι] in
theorem written_append {x : Option (Event ρ ι)} (h : ∀ x ∈ past, Written c x)
    (hx : ∀ e ∈ x, Written c e) : ∀ e ∈ past ++ x.toList, Written c e := by
  intro e he
  rcases List.mem_append.mp he with he | he
  · exact h e he
  · exact hx e (Option.mem_toList.mp he)

/-- A silent step, by which the records of earlier reads and the window stay. -/
theorem Inv.silent {x : Option (Event ρ ι)} {phase' : Option (Phase ρ)}
    (h : Inv c I s past answers phase) (hx : Silent answers.length past x) (hrest : I s'.rest)
    (hc : ∀ i < answers.length, i ∈ s'.calls ↔ i ∈ s.calls)
    (hl : ∀ i < answers.length, s'.loads i = s.loads i)
    (hheld : ∀ w v, Held c w v s → Held c w v s') (hvoid : Void c.key s → Void c.key s')
    (hcalls : ∀ i ∈ s'.calls, i ≤ answers.length) (hincreasing : s'.calls.Pairwise (· < ·))
    (hunderway : Underway c I s' (past ++ x.toList) answers.length phase') :
    Inv c I s' (past ++ x.toList) answers phase' where
  rest := hrest
  calls := hcalls
  increasing := hincreasing
  ahead n hn := (hx.begun n hn).trans (h.ahead n hn)
  unended n hn := (hx.ended n hn).trans (h.unended n hn)
  told := h.told_later hc hl _
  window := h.window_later hc hl hheld hvoid _
  underway := hunderway
  written := written_append h.written fun e he n _ hw _ hr =>
    nomatch (hx.answer e he n hw).symm.trans hr

/-- A silent step by which the key is left alone. -/
theorem Inv.aside {x : Option (Event ρ ι)} {phase' : Option (Phase ρ)}
    (h : Inv c I s past answers phase) (hx : Silent answers.length past x)
    (ha : Aside I c.key s s')
    (hunderway : Underway c I s' (past ++ x.toList) answers.length phase') :
    Inv c I s' (past ++ x.toList) answers phase' :=
  h.silent hx (ha.rest h.rest) (fun i _ => by rw [ha.calls]) (fun i _ => by rw [ha.loads])
    (fun _ _ hh => held_aside hh ha) (fun hv => void_aside hv ha)
    (fun i hi => h.calls i (ha.calls ▸ hi)) (ha.calls ▸ h.increasing) hunderway

/-- What is known of the read whose turn it is stays known while others go on. -/
theorem Inv.underway_aside {x : Option (Event ρ ι)} (h : Inv c I s past answers phase)
    (hx : ∀ e ∈ x, ∀ n, e.who ≠ .read n) (ha : Aside I c.key s s') :
    Underway c I s' (past ++ x.toList) answers.length phase := by
  have missed (hm : Missed c s past answers.length) :
      Missed c s' (past ++ x.toList) answers.length :=
    h.missed_later hm (fun i _ => by rw [ha.calls]) x.toList
  have hu := h.underway
  cases phase with
  | none => exact ⟨missed hu.1, ha.calls ▸ hu.2⟩
  | some phase =>
    cases phase with
    | fresh => exact ⟨(instants_of_ne fun e he => hx e he _).1.trans hu.1, ha.calls ▸ hu.2⟩
    | missed => exact ⟨missed hu.1, ha.calls ▸ hu.2⟩
    | loading q => exact ⟨missed hu.1, ha.calls ▸ hu.2.1, hu.2.2⟩
    | storing v => exact ⟨missed hu.1, ha.calls ▸ hu.2.1, ha.loads ▸ hu.2.2⟩
    | ended r => exact hu

/-! ### Steps of a read -/

/-- A read that misses the key has to load. -/
theorem Inv.due_of_miss (h : Inv c I s past answers phase) {e : CacheError}
    (hr : s.read c.key = .error e) : Due c.ttl s.calls past answers.length s.instant := by
  rcases h.window with ⟨h₀, -⟩ | ⟨m, w, v, hm, hw, -, hh⟩
  · exact .inl h₀
  · exact (due_iff hm hw).mpr (miss_held hh hr)

/-- **A step of a read that does not end it.** -/
theorem inv_step {ph ph' : Phase ρ} (h : Inv c I s past answers (some ph))
    (hs : ph.Steps c answers.length s ph' s') (hr : ph'.answer? = none)
    (hload : (c.load c.key).Keeps (Apart I c.key))
    (hok : (c.load c.key).Maintains (fun s => I s.rest) fun r => ∃ v, r = .ok v) :
    Inv c I s' (past ++ [event ι answers.length s s' none]) answers (some ph') := by
  have silent := silent_step (h.unended _ (Nat.le_refl _)) s s'
  have hu := h.underway
  cases hs with
  | hit => cases hr
  | @miss e hmiss =>
    refine h.silent silent h.rest (fun i _ => Iff.rfl) (fun i _ => rfl) (fun _ _ => id) id h.calls
      h.increasing ⟨⟨s.instant, begun_step hu.1 s s none, ?_⟩, hu.2⟩
    exact (due_congr (fun i _ => Iff.rfl) h.ends _).mpr (h.due_of_miss hmiss)
  | call =>
    obtain ⟨hm, hnot⟩ := hu
    have hlt (i : Nat) (hi : i ∈ s.calls) : i < answers.length :=
      Nat.lt_of_le_of_ne (h.calls i hi) fun he => hnot (he ▸ hi)
    have hc (i : Nat) (hi : i < answers.length) :
        i ∈ s.calls ++ [answers.length] ↔ i ∈ s.calls := by
      simp [Nat.ne_of_lt hi]
    refine h.silent silent h.rest hc (fun i _ => rfl) (fun _ _ => id) id (fun i hi => ?_) ?_
      ⟨h.missed_later hm hc _, List.mem_append_right _ List.mem_cons_self, hload, hok⟩
    · rcases List.mem_append.mp hi with hi | hi
      · exact h.calls i hi
      · exact Nat.le_of_eq (List.mem_singleton.mp hi)
    · refine List.pairwise_append.mpr
        ⟨h.increasing, List.pairwise_singleton .., fun i hi j hj => ?_⟩
      obtain rfl := List.mem_singleton.mp hj
      exact hlt i hi
  | load hn =>
    obtain ⟨hm, hmem, hk, hmaintains⟩ := hu
    obtain ⟨hk', ha⟩ := Process.keeps_next? (Apart.refl _) hk hn
    refine h.aside silent ha.2 ⟨h.missed_later hm (fun i _ => by rw [ha.2.calls]) _,
      ha.2.calls ▸ hmem, hk', ?_⟩
    exact (Process.maintains_next? hmaintains h.rest hn).1
  | come r =>
    obtain ⟨hm, hmem, -, hmaintains⟩ := hu
    cases hmaintains with
    | done hv =>
      obtain ⟨v, rfl⟩ := hv
      refine h.silent silent h.rest (fun i _ => Iff.rfl) (fun i hi => ?_) (fun _ _ => id) id
        h.calls h.increasing ⟨h.missed_later hm (fun i _ => Iff.rfl) _, hmem, ?_⟩
      · exact Function.update_of_ne (Nat.ne_of_lt hi) ..
      · exact Function.update_self ..
  | store => cases hr

/-- **A read ends**: it has called the loader exactly if that was due, and the window is of the
value that it answers. -/
theorem inv_ended {t m w : Nat} {v : Value} (h : Inv c I s past answers phase) (hrest : I s'.rest)
    (hcalls : s'.calls = s.calls) (hloads : s'.loads = s.loads)
    (hb : begun (past ++ [event ι answers.length s s' (some (.ok (.value v)))]) answers.length =
      some t)
    (hdue : answers.length ∈ s.calls ↔ Due c.ttl s.calls past answers.length t)
    (hm : Last s.calls m (answers.length + 1))
    (hw : ended (past ++ [event ι answers.length s s' (some (.ok (.value v)))]) m =
      some (w, .ok (.value v)))
    (hv : s.loads m = some (.ok v)) (hh : Held c w v s')
    (hwritten : Written c (event ι answers.length s s' (some (.ok (.value v))))) :
    Inv c I s' (past ++ [event ι answers.length s s' (some (.ok (.value v)))])
      (answers ++ [.ok (.value v)]) (some .fresh) := by
  have hlen : (answers ++ [(.ok (.value v) : Answer Reply)]).length = answers.length + 1 :=
    List.length_append
  have hnone : answers.length + 1 ∉ s.calls := fun hi => by have := h.calls _ hi; omega
  have hnext (n : Nat) (hn : answers.length < n) :
      begun (past ++ [event ι answers.length s s' (some (.ok (.value v)))]) n = begun past n ∧
        ended (past ++ [event ι answers.length s s' (some (.ok (.value v)))]) n = ended past n :=
    instants_of_ne (ne_of_event (Nat.ne_of_gt hn))
  have hc (i : Nat) : i ∈ s'.calls ↔ i ∈ s.calls := by rw [hcalls]
  constructor
  case rest => exact hrest
  case calls =>
    rw [hlen]
    exact fun i hi => Nat.le_succ_of_le (h.calls i ((hc i).mp hi))
  case increasing => exact hcalls ▸ h.increasing
  case ahead =>
    intro n hn
    exact (hnext n (by omega)).1.trans (h.ahead n (by omega))
  case unended =>
    intro n hn
    exact (hnext n (by omega)).2.trans (h.unended n (by omega))
  case told =>
    intro n r hr
    rcases Nat.lt_or_ge n answers.length with hn | hn
    · rw [List.getElem?_append_left hn] at hr
      exact h.told_later (fun i _ => hc i) (fun i _ => by rw [hloads]) _ n r hr
    · obtain rfl : n = answers.length := by
        have := (List.getElem?_eq_some_iff.mp hr).1
        omega
      rw [List.getElem?_concat_length] at hr
      obtain rfl := Option.some.inj hr
      refine ⟨⟨t, hb, ?_⟩, ⟨s.instant, ?_⟩, m, v, hcalls ▸ hm, hloads ▸ hv, rfl⟩
      · rw [hc, due_congr (fun i _ => hc i) h.ends]
        exact hdue
      · exact ended_step (h.unended _ (Nat.le_refl _)) s s' _
  case window =>
    rw [hlen]
    exact .inr ⟨m, w, v, hcalls ▸ hm, hw, hloads ▸ hv, hh⟩
  case underway =>
    rw [hlen]
    exact ⟨(hnext _ (by omega)).1.trans (h.ahead _ (by omega)), hcalls ▸ hnone⟩
  case written =>
    refine written_append (x := some _) h.written fun e he => ?_
    obtain rfl := Option.some.inj he
    exact hwritten

/-- **The step with which a read ends.** -/
theorem inv_answer {ph : Phase ρ} {r : Answer Reply} (h : Inv c I s past answers (some ph))
    (hs : ph.Steps c answers.length s (.ended r) s') :
    Inv c I s' (past ++ [event ι answers.length s s' (some r)]) (answers ++ [r]) (some .fresh) := by
  have hu := h.underway
  generalize hp : Phase.ended r = ph' at hs
  cases hs with
  | @hit v hr =>
    obtain rfl := Phase.ended.inj hp
    -- There is a window, and it is open.
    rcases h.window with ⟨-, hv⟩ | ⟨m, w, v', hm, hw, hv, hh⟩
    · obtain ⟨e, he, hx, -⟩ := read_eq_ok_iff.mp hr
      exact absurd (hx.symm.trans (hv e he)) (by simp)
    · obtain ⟨rfl, hopen⟩ := read_held hh hr
      refine inv_ended h h.rest rfl rfl (begun_step hu.1 s s _) ?_ ⟨hm.mem, by have := hm.lt; omega,
        fun i hi hlt => ?_⟩ (ended_append hw _) hv hh fun n r hn hi => ?_
      · exact iff_of_false hu.2 fun hdue => hopen ((due_iff hm hw).mp hdue)
      · refine hm.le i hi (Nat.lt_of_le_of_ne (Nat.le_of_lt_succ hlt) ?_)
        rintro rfl
        exact hu.2 hi
      · obtain rfl := Who.read.inj hn
        exact absurd hi hu.2
  | come r' =>
    obtain ⟨-, -, -, hmaintains⟩ := hu
    cases hmaintains with
    | done hv =>
      obtain ⟨v, rfl⟩ := hv
      cases hp
  | miss | call | load => cases hp
  | store v =>
    obtain rfl := Phase.ended.inj hp
    obtain ⟨⟨t, ht, hdue⟩, hmem, hv⟩ := hu
    have hstored : (stored c.key v c.ttl s).find? c.key = some ⟨v, s.instant, c.ttl⟩ :=
      (Table.find?_insert ..).trans (if_pos rfl)
    refine inv_ended h h.rest rfl rfl (begun_append ht _) (iff_of_true hmem hdue)
      ⟨hmem, Nat.lt_succ_self _, fun i hi hlt => Nat.le_of_lt_succ hlt⟩
      (ended_step (h.unended _ (Nat.le_refl _)) s _ _) hv (.inl hstored) fun n r hn _ ha => ?_
    obtain rfl := Option.some.inj ha
    exact ⟨v, rfl, hstored⟩

/-- **What every turn keeps.** -/
theorem inv_turned {x : Option (Event ρ ι)} {answers' : List (Answer Reply)}
    {phase' : Option (Phase ρ)} (hload : (c.load c.key).Keeps (Apart I c.key))
    (hok : (c.load c.key).Maintains (fun s => I s.rest) fun r => ∃ v, r = .ok v)
    (h : Inv c I s past answers phase) (ht : Turned c I s answers phase x s' answers' phase') :
    Inv c I s' (past ++ x.toList) answers' phase' := by
  cases ht with
  | aside hx ha => exact h.aside (silent_of_ne hx) ha (h.underway_aside hx ha)
  | step hs hr => exact inv_step h hs hr hload hok
  | answer hs => exact inv_answer h hs
  | gone =>
    obtain ⟨hm, hmem, hk, -⟩ := h.underway
    cases hk with
    | wait hc _ =>
      have ha := (hc s).2
      refine h.aside (silent_of_ne fun e he => nomatch he) ha ⟨?_, ha.calls ▸ hmem⟩
      exact h.missed_later hm (fun i _ => by rw [ha.calls]) _

theorem inv_pool (hrest : I s.rest) (hcalls : s.calls = []) (hvoid : Void c.key s) :
    Inv c I s ([] : List (Event ρ ι)) [] (some .fresh) where
  rest := hrest
  calls _ hi := absurd (hcalls ▸ hi) List.not_mem_nil
  increasing := hcalls ▸ List.Pairwise.nil
  ahead _ _ := rfl
  unended _ _ := rfl
  told _ _ hr := nomatch hr
  window := .inl ⟨rfl, hvoid⟩
  underway := ⟨rfl, hcalls ▸ List.not_mem_nil⟩
  written _ hx := absurd hx List.not_mem_nil

/-- Whoever has called the loader had to. -/
theorem Inv.missed (h : Inv c I s past answers phase) (hn : n ∈ s.calls) : Missed c s past n := by
  rcases Nat.lt_or_ge n answers.length with hlt | hge
  · obtain ⟨t, ht, hcalled⟩ := (h.told n _ (List.getElem?_eq_getElem hlt)).called
    exact ⟨t, ht, hcalled.mp hn⟩
  · obtain rfl := Nat.le_antisymm (h.calls n hn) hge
    have hu := h.underway
    cases phase with
    | none => exact hu.1
    | some ph =>
      cases ph with
      | fresh => exact absurd hn hu.2
      | missed | loading | storing => exact hu.1
      | ended => exact hu.elim

end Invariant

/-! ## Runs -/

section Runs

variable [Journal ρ] {c : Setting ρ}

/-- If every wait of the load can be ended, then so can every wait of a read. -/
theorem endable_read {effect : ε × Nat → Leased ρ → Leased ρ}
    (h : Process.Endable effect (c.load c.key)) (n : Nat) :
    Process.Endable effect ((Call.get c.key).run (c.cache n)) := by
  refine .act fun s => ?_
  change Process.Endable effect (reply (Process.bind (.done (s.read c.key)) _))
  refine Process.endable_bind ?_ fun r => .done _
  cases s.read c.key with
  | ok v => exact .done _
  | error e =>
    change Process.Endable effect ((source n c.load c.key).bind (Phase.keep c))
    refine Process.endable_bind (.act fun _ => ?_) fun r => ?_
    · change Process.Endable effect ((c.load c.key).bind (came n))
      exact Process.endable_bind h fun r => .act fun _ => .done r
    · cases r with
      | error e => exact .done _
      | ok v => exact .act fun _ => .done _

variable [DecidableEq ι] {I : ρ → Prop}

omit [DecidableEq ι] in
/-- Where reads have answered, their threads say so. -/
theorem Crew.answer {p : Pool (Who ι) (Leased ρ) (Answer Reply)} {answers : List (Answer Reply)}
    {phase : Option (Phase ρ)} (h : Crew c I p answers phase) {n : Nat} {r : Answer Reply}
    (hr : p.threads (.read n) = some (.done r)) : answers[n]? = some r := by
  rcases Nat.lt_trichotomy n answers.length with hn | rfl | hn
  · have hget := List.getElem?_eq_getElem hn
    have := hr.symm.trans (h.before n _ hget)
    rw [hget, Process.done.inj (Option.some.inj this)]
  · exact absurd hr (h.not_done r)
  · cases hr.symm.trans (h.after n hn)

/-- **Which reads call the loader, and what they answer.** The key is not live at first, the loads
succeed in the end, and nothing but the reads writes the key. Whenever a read has answered, it has
called the loader exactly if it is the first, or if it began strictly more than the lifespan after
the value that was loaded last had been written back, which never happens if the lifespan is zero;
and it has answered the value that was loaded last. If every wait of a load can be ended, then the
read whose turn it is can be brought to an answer. -/
theorem run_windows (c : Setting ρ) (tasks : ι → Process (Leased ρ) (Answer Reply))
    (effect : ε → ρ → ρ) (s₀ : Leased ρ) (ts : List (Turn (Who ι) (ε × Nat)))
    (hload : (c.load c.key).Keeps (Apart I c.key))
    (hok : (c.load c.key).Maintains (fun s => I s.rest) fun r => ∃ v, r = .ok v)
    (htasks : ∀ i, (tasks i).Keeps (Apart I c.key))
    (hreceive : ∀ k v r, I r → I (c.receive k v r)) (heffect : ∀ x r, I r → I (effect x r))
    (hrest : I s₀.rest) (hcalls : s₀.calls = []) (hvoid : Void c.key s₀)
    (ht : Pool.Along (elapse effect) InTurn ts (c.pool tasks s₀)) :
    let p := (c.pool tasks s₀).run (elapse effect) ts
    let past := Pool.history (elapse effect) ts (c.pool tasks s₀)
    (∀ n r, p.threads (.read n) = some (.done r) → Told c p.state past n r) ∧
      (∀ n ∈ p.state.calls, Missed c p.state past n) ∧
      p.state.calls.Pairwise (· < ·) ∧
      (∀ x ∈ past, Written c x) ∧
      (Process.Endable (elapse effect) (c.load c.key) → ∀ n q,
        (∀ m < n, ∃ r, p.threads (.read m) = some (.done r)) → p.threads (.read n) = some q →
          ∃ us, Pool.Along (elapse effect) InTurn (ts ++ us) (c.pool tasks s₀) ∧
            ∃ r, (p.run (elapse effect) us).threads (.read n) = some (.done r)) := by
  intro p past
  obtain ⟨answers, phase, hcrew, hinv⟩ : ∃ answers phase, Crew c I p answers phase ∧
      Inv c I p.state past answers phase := by
    refine Pool.along_past_induction (I := fun p past => ∃ answers phase,
      Crew c I p answers phase ∧ Inv c I p.state past answers phase) ?_ ts ht
      ⟨[], some .fresh, crew_pool htasks hreceive s₀, inv_pool hrest hcalls hvoid⟩
    rintro p t x p' past hin ⟨answers, phase, hcrew, hinv⟩ hm
    obtain ⟨answers', phase', hcrew', hturned⟩ := turned_of_moved heffect hcrew hin hm
    exact ⟨answers', phase', hcrew', inv_turned hload hok hinv hturned⟩
  refine ⟨fun n r hr => hinv.told n r (hcrew.answer hr), fun n hn => hinv.missed hn,
    hinv.increasing, hinv.written, fun hends n q hbefore hq => ?_⟩
  have hread : ∀ q, (c.pool tasks s₀).threads (.read n) = some q →
      Process.Endable (elapse effect) q := by
    intro q hq
    obtain rfl := Option.some.inj hq
    exact endable_read hends n
  have hanswer : ∃ us, Pool.Along (elapse effect) InTurn us p ∧
      ∃ r, (p.run (elapse effect) us).threads (.read n) = some (.done r) := by
    refine Process.exists_answer p.threads (fun p' hp' => ?_) (fun _ _ _ _ _ => trivial)
      (Process.endable_run hread ts q hq) (fun _ _ => rfl) hq
    intro m hm
    have hne : (.read m : Who ι) ≠ .read n := fun h => Nat.ne_of_lt hm (Who.read.inj h)
    rw [hp' _ hne]
    exact hbefore m hm
  obtain ⟨us, ha, hr⟩ := hanswer
  exact ⟨us, Pool.along_append_iff.mpr ⟨ht, ha⟩, hr⟩

end Runs

/-! ### A value that is loaded anew -/

/-- Every load lasts until the clock shows 1 ms, and tells whether it is the first. -/
def slow : Setting Session.State where
  load _ := .wait (.time 1) id fun s => .done (.ok (.bool (s.calls.length == 1)))
  ttl := ⟨7, by decide⟩
  key := "a"
  receive _ _ r := r

/-- Reads of a key, and a put of another one beside them. -/
def rereading : Pool (Who Unit) (Leased Session.State) (Answer Reply) :=
  slow.pool (fun _ => (Call.put "b" (.bool true) .zero).run (memory slow.receive).cache)
    ⟨0, .empty, [], fun _ => none, default⟩

/-- One read loads the key, and one finds it 7 ns after it was written back. Another 1 ns later the
key is reclaimed, and the next read loads it anew. -/
def reread : List (Turn (Who Unit) (Unit × Nat)) :=
  [.go (.read 0), .go (.read 0), .outside ((), nanosPerMilli), .go (.read 0), .go (.read 0),
    .go (.read 0), .go (.read 0), .go (.task ()), .outside ((), 7), .go (.read 1),
    .outside ((), 1), .go (.pass 0), .go (.pass 0)] ++ List.replicate 6 (.go (.read 2))

theorem run_windows_reread :
    Pool.Along (elapse fun _ r => r) InTurn reread rereading ∧
      let p := rereading.run (elapse fun _ r => r) reread
      let past := Pool.history (elapse fun _ r => r) reread rereading
      p.state.calls = [0, 2] ∧ Told slow p.state past 1 (.ok (.value (.bool true))) ∧
        Told slow p.state past 2 (.ok (.value (.bool false))) := by
  have hok : Pool.Along (elapse fun _ r => r) InTurn reread rereading := by decide +kernel
  have hload : (slow.load slow.key).Keeps (Apart (fun _ => True) slow.key) :=
    .wait Apart.refl fun _ => .done _
  have hsucceeds : (slow.load slow.key).Maintains (fun _ => True) fun r => ∃ v, r = .ok v :=
    .wait (fun _ _ => trivial) fun _ _ => .done ⟨_, rfl⟩
  have hvoid : Void slow.key rereading.state := fun _ he => by cases he
  have hother : ¬ Writes slow.key (.put "b" (.bool true) .zero) :=
    show "b" ≠ "a" from by decide
  obtain ⟨htold, -⟩ := run_windows (I := fun _ => True) slow _ (fun (_ : Unit) r => r) _ reread
    hload hsucceeds (fun _ => keeps_call hother) (fun _ _ _ _ => trivial) (fun _ _ _ => trivial)
    trivial rfl hvoid hok
  exact ⟨hok, by decide +kernel, htold 1 _ rfl, htold 2 _ rfl⟩

end LayeredCache.Leased

import LayeredCache.Entry
import LayeredCache.Batch
import LayeredCache.Value.Step

/-!
# The entry table

The entries of the memory engine, one for each key. Reading never changes the table: an expired
entry stays until it is overwritten, deleted or reclaimed. Reclamation works in two phases, a scan
for expired keys and their removal, between which the table may change; the removal checks each
key again.

The entries stand in a list. Their order is seen only in what a pass hands over and in what a drain
lists.

Results:
* `find?_insert`, `find?_erase`, `find?_filter`, `find?_setValue`, `find?_sweep`: what each
  operation does to the entry of a key.
* `mem_sweep_iff`: removal takes an entry exactly if it is asked for it and it is expired by then.
* `mem_drainLive_iff`: the drain takes an entry exactly if it is not expired.
-/

namespace LayeredCache

/-- Entries by key. -/
structure Table where
  entries : List (String × Entry)
  nodup : (entries.map Prod.fst).Nodup

namespace Table

def empty : Table := ⟨[], List.nodup_nil⟩

instance : Inhabited Table := ⟨empty⟩

/-- The number of entries, expired ones included. -/
def size (t : Table) : Nat := t.entries.length

/-- The entry of a key, expired or not. -/
def find? (t : Table) (key : String) : Option Entry := t.entries.lookup key

/-- Keeps the entries that satisfy `p`. -/
def filter (t : Table) (p : String → Entry → Bool) : Table :=
  ⟨t.entries.filter fun x => p x.1 x.2, t.nodup.sublist (List.filter_sublist.map Prod.fst)⟩

/-- Removes the entry of a key. -/
def erase (t : Table) (key : String) : Table := t.filter fun k _ => k != key

theorem not_mem_erase (t : Table) (key : String) : key ∉ (t.erase key).entries.map Prod.fst := by
  simp [erase, filter]

/-- Stores an entry, in place of any other of its key. -/
def insert (t : Table) (key : String) (e : Entry) : Table :=
  ⟨(key, e) :: (t.erase key).entries,
    List.nodup_cons.mpr ⟨not_mem_erase t key, (t.erase key).nodup⟩⟩

/-- Replaces the value of a key's entry, which keeps its creation and lifespan. -/
def setValue (t : Table) (key : String) (v : Value) : Table :=
  ⟨t.entries.map fun x => if x.1 = key then (x.1, { x.2 with value := v }) else x, by
    have h : (t.entries.map fun x => if x.1 = key then (x.1, { x.2 with value := v }) else x).map
        Prod.fst = t.entries.map Prod.fst := by
      rw [List.map_map]
      refine List.map_congr_left fun x _ => ?_
      simp only [Function.comp_apply]
      split <;> rfl
    rw [h]
    exact t.nodup⟩

/-! ## Operations at an instant -/

/-- The value of a key that is there and not expired. -/
def read (t : Table) (now : Nat) (key : String) : Answer Value :=
  match t.find? key with
  | none => .error (.keyAbsent key)
  | some e => if e.isExpiredAt now then .error (.keyExpired key) else .ok e.value

/-- Every key at the same instant. -/
def readEach (t : Table) (now : Nat) (keys : List String) : Answer (List (Option Value)) :=
  Batch.collect (keys.map fun k => (k, t.read now k))

/-- The key is there and not expired. -/
def isLive (t : Table) (now : Nat) (key : String) : Bool :=
  (t.find? key).any fun e => !e.isExpiredAt now

/-- Stores a value for `ttl` from now on. -/
def put (t : Table) (now : Nat) (key : String) (v : Value) (ttl : Duration) : Table :=
  t.insert key ⟨v, now, ttl⟩

/-- Steps the value of a live key. -/
def step (t : Table) (now : Nat) (key : String) (s : Step) : Answer Table := do
  let v ← t.read now key
  return t.setValue key (← v.step key s)

/-! ## Reclamation -/

/-- The scan: the keys whose entries are expired. -/
def expiredKeys (t : Table) (now : Nat) : List String :=
  (t.entries.filter fun x => x.2.isExpiredAt now).map Prod.fst

/-- The removal: takes out those of the keys whose entries are expired by now. -/
def sweep (now : Nat) : List String → Table → List (String × Value) × Table
  | [], t => ([], t)
  | k :: ks, t =>
    match t.find? k with
    | some e =>
      if e.isExpiredAt now then
        let (out, t') := sweep now ks (t.erase k)
        ((k, e.value) :: out, t')
      else sweep now ks t
    | none => sweep now ks t

/-- Takes out every entry that is not expired. -/
def drainLive (t : Table) (now : Nat) : List (String × Value) × Table :=
  ((t.entries.filter fun x => !x.2.isExpiredAt now).map fun x => (x.1, x.2.value),
    t.filter fun _ e => e.isExpiredAt now)

/-! ## What the operations do to the entry of a key -/

theorem lookup_eq_some_iff {l : List (String × Entry)} (h : (l.map Prod.fst).Nodup) {k : String}
    {e : Entry} : l.lookup k = some e ↔ (k, e) ∈ l := by
  induction l with
  | nil => simp
  | cons x r ih =>
    obtain ⟨k', e'⟩ := x
    rw [List.map_cons, List.nodup_cons] at h
    by_cases hk : k = k'
    · subst hk
      simp only [List.lookup_cons, beq_self_eq_true, Option.some.injEq, List.mem_cons,
        Prod.mk.injEq, true_and]
      constructor
      · exact fun h => .inl h.symm
      · rintro (h' | h')
        · exact h'.symm
        · exact absurd (List.mem_map_of_mem (f := Prod.fst) h') h.1
    · simp only [List.lookup_cons, beq_false_of_ne hk, List.mem_cons, Prod.mk.injEq, hk, false_and,
        false_or]
      exact ih h.2

theorem find?_eq_some_iff {t : Table} {k : String} {e : Entry} :
    t.find? k = some e ↔ (k, e) ∈ t.entries := lookup_eq_some_iff t.nodup

theorem find?_empty (k : String) : empty.find? k = none := rfl

theorem find?_filter (t : Table) (p : String → Entry → Bool) (k : String) :
    (t.filter p).find? k = (t.find? k).filter (p k) := by
  refine Option.ext fun e => ?_
  rw [Option.filter_eq_some_iff, find?_eq_some_iff, find?_eq_some_iff]
  simp [filter]

theorem find?_erase (t : Table) (k k' : String) :
    (t.erase k).find? k' = if k' = k then none else t.find? k' := by
  rw [erase, find?_filter]
  by_cases h : k' = k
  · subst h; cases t.find? k' <;> simp
  · cases t.find? k' <;> simp [h]

theorem find?_insert (t : Table) (k k' : String) (e : Entry) :
    (t.insert k e).find? k' = if k' = k then some e else t.find? k' := by
  by_cases h : k' = k
  · subst h
    simp [find?, insert]
  · have := find?_erase t k k'
    simp only [h, if_false] at this ⊢
    simpa [find?, insert, List.lookup_cons, beq_false_of_ne h] using this

theorem find?_setValue (t : Table) (k k' : String) (v : Value) :
    (t.setValue k v).find? k' =
      if k' = k then (t.find? k').map fun e => { e with value := v } else t.find? k' := by
  simp only [find?, setValue]
  generalize t.entries = l
  induction l with
  | nil => simp
  | cons x r ih =>
    obtain ⟨k₁, e₁⟩ := x
    by_cases h₁ : k₁ = k
    · by_cases h₂ : k' = k₁
      · subst h₁ h₂; simp
      · simpa [h₁, List.lookup_cons, beq_false_of_ne (h₁ ▸ h₂ : k' ≠ k)] using ih
    · by_cases h₂ : k' = k₁
      · subst h₂; simp [h₁]
      · simpa [h₁, List.lookup_cons, beq_false_of_ne h₂] using ih

/-- A step puts another value in place. -/
theorem setValue_of_step {t t' : Table} {now : Nat} {key : String} {d : Step}
    (h : t.step now key d = .ok t') : ∃ v, t' = t.setValue key v := by
  unfold Table.step at h
  cases hr : t.read now key with
  | error e => simp [hr, bind, Except.bind] at h
  | ok v =>
    cases hv : v.step key d with
    | error e => simp [hr, hv, bind, Except.bind] at h
    | ok v' =>
      simp only [hr, hv, bind, Except.bind, pure, Except.pure, Except.ok.injEq] at h
      exact ⟨v', h.symm⟩

/-! ## What the removal does -/

theorem find?_sweep (now : Nat) (ks : List String) (t : Table) (k : String) :
    (sweep now ks t).2.find? k =
      if k ∈ ks then (t.find? k).filter (fun e => !e.isExpiredAt now) else t.find? k := by
  induction ks generalizing t with
  | nil => simp [sweep]
  | cons k' ks ih =>
    simp only [sweep]
    split
    · rename_i e he
      split
      · rename_i hx
        rw [ih, find?_erase]
        by_cases hk : k = k'
        · subst hk; simp [he, hx, Option.filter]
        · simp [hk]
      · rename_i hx
        rw [ih]
        by_cases hk : k = k'
        · subst hk; simp [he, hx, Option.filter]
        · simp [hk]
    · rename_i he
      rw [ih]
      by_cases hk : k = k'
      · subst hk; simp [he]
      · simp [hk]

/-- A removal leaves the entry of a key, or takes it out because it is expired. -/
theorem find?_sweep_cases (now : Nat) (ks : List String) (t : Table) (k : String) :
    (sweep now ks t).2.find? k = t.find? k ∨ (sweep now ks t).2.find? k = none ∧
      ∃ e, t.find? k = some e ∧ e.isExpiredAt now = true := by
  rw [find?_sweep]
  split
  · cases t.find? k with
    | none => exact .inl rfl
    | some e =>
      cases hx : e.isExpiredAt now with
      | false => exact .inl (by simp [Option.filter, hx])
      | true => exact .inr ⟨by simp [Option.filter, hx], e, rfl, hx⟩
  · exact .inl rfl

/-- The removal takes out exactly those of the keys whose entries are expired by now. -/
theorem mem_sweep_iff {now : Nat} {ks : List String} {t : Table} {k : String} {v : Value} :
    (k, v) ∈ (sweep now ks t).1 ↔
      k ∈ ks ∧ ∃ e, t.find? k = some e ∧ e.isExpiredAt now = true ∧ e.value = v := by
  induction ks generalizing t with
  | nil => simp [sweep]
  | cons k' ks ih =>
    simp only [sweep]
    split
    · rename_i e he
      split
      · rename_i hx
        simp only [List.mem_cons, Prod.mk.injEq, ih, find?_erase]
        by_cases hk : k = k'
        · subst hk
          simp only [true_and, if_true, reduceCtorEq, false_and, exists_false, and_false, or_false,
            true_or, he, Option.some.injEq]
          constructor
          · exact fun h => ⟨e, rfl, hx, h.symm⟩
          · rintro ⟨_, h₁, _, h₂⟩
            rw [← h₂, h₁]
        · simp [hk]
      · rename_i hx
        simp only [List.mem_cons, ih]
        by_cases hk : k = k'
        · subst hk; simp [he, hx]
        · simp [hk]
    · rename_i he
      simp only [List.mem_cons, ih]
      by_cases hk : k = k'
      · subst hk; simp [he]
      · simp [hk]

/-- The removal takes out a key at most once, even if it is asked for it twice. -/
theorem nodup_sweep (now : Nat) (ks : List String) (t : Table) :
    ((sweep now ks t).1.map Prod.fst).Nodup := by
  induction ks generalizing t with
  | nil => simp [sweep]
  | cons k ks ih =>
    simp only [sweep]
    split
    · rename_i e he
      split
      · rw [List.map_cons, List.nodup_cons]
        refine ⟨fun h => ?_, ih _⟩
        obtain ⟨x, hx, hk⟩ := List.mem_map.mp h
        obtain ⟨-, e', he', -⟩ := mem_sweep_iff.mp (show (x.1, x.2) ∈ _ from hx)
        rw [hk, find?_erase, if_pos rfl] at he'
        simp at he'
      · exact ih t
    · exact ih t

/-! ## What the scan finds and what the drain does -/

/-- The scan finds exactly the keys whose entries are expired. -/
theorem mem_expiredKeys_iff {now : Nat} {t : Table} {k : String} :
    k ∈ t.expiredKeys now ↔ ∃ e, t.find? k = some e ∧ e.isExpiredAt now = true := by
  rw [expiredKeys, List.mem_map]
  constructor
  · rintro ⟨x, hx, rfl⟩
    obtain ⟨hm, he⟩ := List.mem_filter.mp hx
    exact ⟨x.2, find?_eq_some_iff.mpr hm, he⟩
  · rintro ⟨e, he, hx⟩
    exact ⟨(k, e), List.mem_filter.mpr ⟨find?_eq_some_iff.mp he, hx⟩, rfl⟩

theorem find?_drainLive (now : Nat) (t : Table) (k : String) :
    (t.drainLive now).2.find? k = (t.find? k).filter fun e => e.isExpiredAt now :=
  find?_filter t _ k

/-- The drain takes out exactly the entries that are not expired. -/
theorem mem_drainLive_iff {now : Nat} {t : Table} {k : String} {v : Value} :
    (k, v) ∈ (t.drainLive now).1 ↔
      ∃ e, t.find? k = some e ∧ e.isExpiredAt now = false ∧ e.value = v := by
  rw [drainLive, List.mem_map]
  constructor
  · rintro ⟨x, hx, hkv⟩
    obtain ⟨rfl, rfl⟩ := Prod.mk.inj hkv
    obtain ⟨hm, he⟩ := List.mem_filter.mp hx
    exact ⟨x.2, find?_eq_some_iff.mpr hm, by simpa using he, rfl⟩
  · rintro ⟨e, he, hx, rfl⟩
    exact ⟨(k, e), List.mem_filter.mpr ⟨find?_eq_some_iff.mp he, by simp [hx]⟩, rfl⟩

theorem nodup_drainLive (now : Nat) (t : Table) : ((t.drainLive now).1.map Prod.fst).Nodup := by
  rw [drainLive, List.map_map]
  exact t.nodup.sublist (List.filter_sublist.map Prod.fst)

end Table
end LayeredCache

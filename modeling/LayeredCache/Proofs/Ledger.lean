import LayeredCache.Proofs.Solo
import Mathlib.Data.List.Nodup
import Mathlib.Data.List.Perm.Basic

/-!
# The ledger of a memory cache

Every put creates an instance: an entry with its key, its instant and its lifespan, whose value
steps may change. The ledger numbers the instances in the order of their puts and writes down, step
by step, which of them left the table, at whose step, and what the receiver was handed. It reads
nothing but the table and the receiver's record before and after each step.

Results:
* `fate_of_steps`: what one step may do to the entry of a key.
* `accounts_note`: the books stay balanced, whatever step is taken.
* `run_balanced`: at the end of every run, in whatever order the steps were taken, each instance
  has left the table once or is still there, and each pass answers and hands over what it removed.
-/

namespace LayeredCache

/-- What a put creates. -/
structure Birth where
  key : String
  instant : Nat
  lifespan : Duration

/-- An entry that left the table, as it was then. -/
structure Departure (ι : Type) where
  /-- The number of the instance. -/
  number : Option Nat
  key : String
  entry : Entry
  /-- The clock at the step that took it. -/
  instant : Nat
  /-- Whose step took it. -/
  who : ι

/-- The books of a run. -/
structure Ledger (ι : Type) where
  /-- The instances, in the order of their numbers. -/
  births : List Birth
  /-- The number of the last instance of each key. -/
  last : String → Option Nat
  departures : List (Departure ι)
  /-- What the receiver was handed, and by whom. -/
  handed : List (ι × (String × Value))

namespace Ledger

open Solo (Task)

variable {ι : Type}

def empty : Ledger ι := ⟨[], fun _ => none, [], []⟩

/-- The instance that a task creates at an instant. -/
def birth? (now : Nat) : Task → Option Birth
  | .call (.put key _ ttl) => some ⟨key, now, ttl⟩
  | _ => none

/-- The task puts this key. -/
def puts (key : String) : Task → Bool
  | .call (.put k _ _) => k == key
  | _ => false

theorem puts_iff {key : String} {task : Task} :
    puts key task = true ↔ ∃ v ttl, task = .call (.put key v ttl) := by
  cases task with
  | call c => cases c <;> simp [puts]
  | _ => simp [puts]

/-- The ways out of the table: overwritten, deleted, cleared, drained while live, or evicted once
expired. -/
def Takes (now : Nat) (key : String) (e : Entry) : Task → Prop
  | .call (.put k _ _) => k = key
  | .call (.delete k) => k = key
  | .call .clearAll => True
  | .drainLive => e.isExpiredAt now = false
  | .pass | .tick => e.isExpiredAt now = true
  | _ => False

/-- The entries that leave the table with a step: those of a key that is put, and those that are
not there afterwards. -/
def leaving (tasks : ι → Task) (x : Pool.Event ι Solo (Answer Reply)) : List (String × Entry) :=
  x.before.engine.table.entries.filter fun y =>
    puts y.1 (tasks x.who) || (x.after.engine.table.find? y.1).isNone

/-- What the receiver is handed with a step. -/
def news (x : Pool.Event ι Solo (Answer Reply)) : List (String × Value) :=
  x.after.received.drop x.before.received.length

/-- The ledger after a step. -/
def note (tasks : ι → Task) (l : Ledger ι) (x : Pool.Event ι Solo (Answer Reply)) : Ledger ι where
  births := l.births ++ (birth? x.before.instant (tasks x.who)).toList
  last k := if puts k (tasks x.who) then some l.births.length else l.last k
  departures := l.departures ++
    (leaving tasks x).map fun y => ⟨l.last y.1, y.1, y.2, x.before.instant, x.who⟩
  handed := l.handed ++ (news x).map fun y => (x.who, y)

/-- What a task took out of the table: each key with the value it had then. -/
def takenBy [DecidableEq ι] (l : Ledger ι) (i : ι) : List (String × Value) :=
  (l.departures.filter fun d => d.who = i).map fun d => (d.key, d.entry.value)

/-- What a task handed to the receiver. -/
def handedBy [DecidableEq ι] (l : Ledger ι) (i : ι) : List (String × Value) :=
  (l.handed.filter fun y => y.1 = i).map Prod.snd

/-! ## What a step does to the entry of a key -/

/-- What may become of the entry of a key, if there is one. -/
inductive Fate (now : Nat) (task : Task) (key : String) : Option Entry → Option Entry → Prop
  | absent (hp : puts key task = false) : Fate now task key none none
  | kept {e : Entry} (v : Value) (hp : puts key task = false) :
      Fate now task key (some e) (some { e with value := v })
  | taken {e : Entry} (hp : puts key task = false) (h : Takes now key e task) :
      Fate now task key (some e) none
  | stored {o : Option Entry} {v : Value} {ttl : Duration} (h : task = .call (.put key v ttl)) :
      Fate now task key o (some ⟨v, now, ttl⟩)

theorem fate_same {now : Nat} {task : Task} {key : String} (hp : puts key task = false)
    (o : Option Entry) : Fate now task key o o := by
  cases o with
  | none => exact .absent hp
  | some e => exact .kept e.value hp

theorem fate_of_does {now : Nat} {t t' : Table} {c : Call} {r : Answer Reply}
    (h : Memory.Does now t c r t') (key : String) :
    Fate now (.call c) key (t.find? key) (t'.find? key) := by
  cases h with
  | put k v ttl =>
    rw [Table.put, Table.find?_insert]
    by_cases hk : key = k
    · subst hk
      rw [if_pos rfl]
      exact .stored rfl
    · rw [if_neg hk]
      exact fate_same (by simpa [puts] using Ne.symm hk) _
  | delete k =>
    rw [Table.find?_erase]
    by_cases hk : key = k
    · subst hk
      rw [if_pos rfl]
      cases t.find? key with
      | none => exact .absent rfl
      | some e => exact .taken rfl rfl
    · rw [if_neg hk]
      exact fate_same rfl _
  | clearAll =>
    rw [Table.find?_empty]
    cases t.find? key with
    | none => exact .absent rfl
    | some e => exact .taken rfl trivial
  | @step d k t' hs =>
    obtain ⟨v, rfl⟩ := Table.setValue_of_step hs
    rw [Table.find?_setValue]
    cases t.find? key with
    | none => split <;> exact .absent rfl
    | some e =>
      split
      · exact .kept v rfl
      · exact fate_same rfl _
  | _ => exact fate_same rfl _

theorem fate_drainLive {task : Task} {now : Nat} {key : String} (hp : puts key task = false)
    (ht : ∀ e : Entry, e.isExpiredAt now = false → Takes now key e task) (t : Table) :
    Fate now task key (t.find? key) ((t.drainLive now).2.find? key) := by
  rw [Table.find?_drainLive]
  cases t.find? key with
  | none => exact .absent hp
  | some e =>
    cases he : e.isExpiredAt now with
    | true =>
      rw [Option.filter_some, he]
      exact fate_same hp _
    | false =>
      rw [Option.filter_some, he]
      exact .taken hp (ht e he)

theorem puts_of_isPass {task : Task} (h : task.isPass = true) (key : String) :
    puts key task = false := by
  cases task with
  | call c => exact absurd h (by simp [Task.isPass])
  | _ => rfl

theorem takes_of_isPass {task : Task} (h : task.isPass = true) {now : Nat} {key : String}
    {e : Entry} (he : e.isExpiredAt now = true) : Takes now key e task := by
  cases task with
  | pass => exact he
  | tick => exact he
  | call c => exact absurd h (by simp [Task.isPass])
  | drainLive => exact absurd h (by simp [Task.isPass])

theorem fate_of_passes {task : Task} {s s' : Solo} {stage stage' : Memory.Stage} {key : String}
    (hp : puts key task = false)
    (ht : ∀ e : Entry, e.isExpiredAt s.instant = true → Takes s.instant key e task)
    (h : Solo.memory.Passes s stage stage' s') :
    Fate s.instant task key (s.engine.table.find? key) (s'.engine.table.find? key) := by
  cases h with
  | evict keys =>
    change Fate _ _ _ _ ((Table.sweep s.instant keys s.engine.table).2.find? key)
    rcases Table.find?_sweep_cases s.instant keys s.engine.table key with hk | ⟨hk, e, he, hx⟩
    · rw [hk]
      exact fate_same hp _
    · rw [hk, he]
      exact .taken hp (ht e hx)
  | _ => exact fate_same hp _

/-- **What a step may do to the entry of a key**: store a new one, change its value, or take it
out by one of the ways out. -/
theorem fate_of_steps {task : Task} {s s' : Solo} {q q' : Process Solo (Answer Reply)}
    (h : Solo.Steps s task q q' s') (key : String) :
    Fate s.instant task key (s.engine.table.find? key) (s'.engine.table.find? key) := by
  cases h with
  | call hw hd => exact fate_of_does hd key
  | drainLive =>
    have ht (e : Entry) (he : e.isExpiredAt s.instant = false) :
      Takes s.instant key e .drainLive := he
    exact fate_drainLive rfl ht s.engine.table
  | pass ht hp =>
    exact fate_of_passes (puts_of_isPass ht key) (fun _ he => takes_of_isPass ht he) hp

/-! ## The books stay balanced -/

/-- The ledger fits the table. -/
structure Accounts (tasks : ι → Task) (t : Table) (l : Ledger ι) : Prop where
  /-- Every entry in the table is the last instance of its key. -/
  held : ∀ k e, t.find? k = some e →
    ∃ n, l.last k = some n ∧ l.births[n]? = some ⟨k, e.created, e.lifespan⟩
  /-- The last instance of a key is an instance of that key. -/
  named : ∀ k n, l.last k = some n → ∃ b, l.births[n]? = some b ∧ b.key = k
  /-- What left was an instance, with the key, the instant and the lifespan of its put. -/
  born : ∀ d ∈ l.departures, ∃ n, d.number = some n ∧
    l.births[n]? = some ⟨d.key, d.entry.created, d.entry.lifespan⟩
  /-- No instance leaves twice. -/
  once : (l.departures.map Departure.number).Nodup
  /-- An instance that left is not in the table. -/
  gone : ∀ d ∈ l.departures, l.last d.key = d.number → t.find? d.key = none
  /-- An instance that did not leave is in the table. -/
  there : ∀ n b, l.births[n]? = some b → (∃ d ∈ l.departures, d.number = some n) ∨
    l.last b.key = some n ∧ (t.find? b.key).isSome = true
  /-- What left took one of the ways out. -/
  way : ∀ d ∈ l.departures, Takes d.instant d.key d.entry (tasks d.who)

theorem accounts_empty (tasks : ι → Task) : Accounts tasks .empty empty where
  held k e h := by simp [Table.find?_empty] at h
  named k n h := by simp [empty] at h
  born d hd := by simp [empty] at hd
  once := by simp [empty]
  gone d hd := by simp [empty] at hd
  there n b h := by simp [empty] at h
  way d hd := by simp [empty] at hd

theorem mem_leaving {tasks : ι → Task} {x : Pool.Event ι Solo (Answer Reply)} {k : String}
    {e : Entry} : (k, e) ∈ leaving tasks x ↔ x.before.engine.table.find? k = some e ∧
      (puts k (tasks x.who) = true ∨ x.after.engine.table.find? k = none) := by
  rw [leaving, List.mem_filter, Table.find?_eq_some_iff]
  simp

theorem nodup_leaving (tasks : ι → Task) (x : Pool.Event ι Solo (Answer Reply)) :
    ((leaving tasks x).map Prod.fst).Nodup :=
  x.before.engine.table.nodup.sublist (List.filter_sublist.map Prod.fst)

/-- A departure after a step is an old one, or of an entry that leaves with the step. -/
theorem mem_departures_note {tasks : ι → Task} {l : Ledger ι}
    {x : Pool.Event ι Solo (Answer Reply)} {d : Departure ι} :
    d ∈ (l.note tasks x).departures ↔ d ∈ l.departures ∨ ∃ k e, (k, e) ∈ leaving tasks x ∧
      d = ⟨l.last k, k, e, x.before.instant, x.who⟩ := by
  rw [note, List.mem_append, List.mem_map]
  refine or_congr Iff.rfl ⟨?_, ?_⟩
  · rintro ⟨y, hy, rfl⟩
    exact ⟨y.1, y.2, hy, rfl⟩
  · rintro ⟨k, e, hy, rfl⟩
    exact ⟨(k, e), hy, rfl⟩

theorem births_note {tasks : ι → Task} {l : Ledger ι} {x : Pool.Event ι Solo (Answer Reply)}
    {n : Nat} {b : Birth} (h : l.births[n]? = some b) : (l.note tasks x).births[n]? = some b := by
  obtain ⟨hn, -⟩ := List.getElem?_eq_some_iff.mp h
  rw [note, List.getElem?_append_left hn, h]

/-- An instance after a step is an old one, or the one that the step creates. -/
theorem births_note_cases {tasks : ι → Task} {l : Ledger ι}
    {x : Pool.Event ι Solo (Answer Reply)} {n : Nat} {b : Birth}
    (h : (l.note tasks x).births[n]? = some b) :
    l.births[n]? = some b ∨
      n = l.births.length ∧ ∃ v ttl, tasks x.who = .call (.put b.key v ttl) := by
  rw [note, List.getElem?_append] at h
  split at h
  · exact .inl h
  · right
    generalize tasks x.who = task at h ⊢
    unfold birth? at h
    split at h
    · rename_i key v ttl
      rw [Option.toList_some, List.getElem?_singleton, Option.ite_none_right_eq_some] at h
      obtain ⟨hn, hb⟩ := h
      rw [← Option.some.inj hb]
      exact ⟨by omega, v, ttl, rfl⟩
    · simp at h

theorem last_note {tasks : ι → Task} {l : Ledger ι} {x : Pool.Event ι Solo (Answer Reply)}
    {k : String} (h : puts k (tasks x.who) = false) : (l.note tasks x).last k = l.last k := by
  simp [note, h]

/-- An instance that was there before a step is not the one that the step creates. -/
theorem puts_of_last_note {tasks : ι → Task} {l : Ledger ι}
    {x : Pool.Event ι Solo (Answer Reply)} {k : String} {n : Nat} {b : Birth}
    (hb : l.births[n]? = some b) (h : (l.note tasks x).last k = some n) :
    puts k (tasks x.who) = false ∧ l.last k = some n := by
  obtain ⟨hn, -⟩ := List.getElem?_eq_some_iff.mp hb
  by_cases hp : puts k (tasks x.who) = true
  · simp only [note, hp, if_true, Option.some.injEq] at h
    omega
  · have hp : puts k (tasks x.who) = false := by simpa using hp
    exact ⟨hp, last_note hp ▸ h⟩

section Note

variable {tasks : ι → Task} {l : Ledger ι} {x : Pool.Event ι Solo (Answer Reply)}

theorem once_note (h : Accounts tasks x.before.engine.table l) :
    ((l.note tasks x).departures.map Departure.number).Nodup := by
  rw [note, List.map_append, List.map_map, List.nodup_append]
  refine ⟨h.once, ?_, ?_⟩
  · -- Different keys have different instances.
    refine List.Nodup.map_on ?_ (List.Nodup.of_map Prod.fst (nodup_leaving tasks x))
    rintro ⟨k, e⟩ hy ⟨k', e'⟩ hy' heq
    have hk := (mem_leaving.mp hy).1
    have hk' := (mem_leaving.mp hy').1
    obtain ⟨n, hn, -⟩ := h.held k e hk
    obtain ⟨b, hb, rfl⟩ := h.named k n hn
    obtain ⟨b', hb', rfl⟩ := h.named k' n (heq.symm.trans hn)
    obtain rfl := Option.some.inj (hb.symm.trans hb')
    obtain rfl := Option.some.inj (hk.symm.trans hk')
    rfl
  · -- What is in the table has not left before.
    rintro a ha b hb rfl
    obtain ⟨d, hd, rfl⟩ := List.mem_map.mp ha
    obtain ⟨⟨k, e⟩, hy, hn⟩ := List.mem_map.mp hb
    have hk := (mem_leaving.mp hy).1
    obtain ⟨n, hl, hb⟩ := h.held k e hk
    obtain ⟨n', hd', hb'⟩ := h.born d hd
    have hl' : l.last k = d.number := hn
    rw [hl, hd'] at hl'
    obtain rfl := Option.some.inj hl'
    have hdk : k = d.key := (Birth.mk.inj (Option.some.inj (hb.symm.trans hb'))).1
    have hg := h.gone d hd (by rw [← hdk, hl, hd'])
    rw [← hdk, hk] at hg
    exact absurd hg (by simp)

theorem held_note (h : Accounts tasks x.before.engine.table l)
    (hf : ∀ k, Fate x.before.instant (tasks x.who) k (x.before.engine.table.find? k)
      (x.after.engine.table.find? k)) (k : String) (e : Entry)
    (he : x.after.engine.table.find? k = some e) :
    ∃ n, (l.note tasks x).last k = some n ∧
      (l.note tasks x).births[n]? = some ⟨k, e.created, e.lifespan⟩ := by
  have hk := hf k
  rw [he] at hk
  generalize ho : x.before.engine.table.find? k = o at hk
  cases hk with
  | @kept e v hp =>
    obtain ⟨n, hn, hb⟩ := h.held k e ho
    exact ⟨n, (last_note hp).trans hn, births_note hb⟩
  | stored ht => exact ⟨l.births.length, by simp [note, ht, puts], by simp [note, ht, birth?]⟩

theorem named_note (h : Accounts tasks x.before.engine.table l) (k : String) (n : Nat)
    (hn : (l.note tasks x).last k = some n) :
    ∃ b, (l.note tasks x).births[n]? = some b ∧ b.key = k := by
  cases hp : puts k (tasks x.who) with
  | false =>
    rw [last_note hp] at hn
    obtain ⟨b, hb, hk⟩ := h.named k n hn
    exact ⟨b, births_note hb, hk⟩
  | true =>
    obtain ⟨v, ttl, ht⟩ := puts_iff.mp hp
    have hn' : l.births.length = n := by simpa [note, hp] using hn
    exact ⟨⟨k, x.before.instant, ttl⟩, by simp [note, ht, birth?, ← hn'], rfl⟩

theorem accounts_note (h : Accounts tasks x.before.engine.table l)
    (hf : ∀ k, Fate x.before.instant (tasks x.who) k (x.before.engine.table.find? k)
      (x.after.engine.table.find? k)) :
    Accounts tasks x.after.engine.table (l.note tasks x) where
  held := held_note h hf
  named := named_note h
  born := by
    intro d hd
    rcases mem_departures_note.mp hd with hd | ⟨k, e, hy, rfl⟩
    · obtain ⟨n, hn, hb⟩ := h.born d hd
      exact ⟨n, hn, births_note hb⟩
    · obtain ⟨n, hn, hb⟩ := h.held k e (mem_leaving.mp hy).1
      exact ⟨n, hn, births_note hb⟩
  once := once_note h
  gone := by
    intro d hd hl
    rcases mem_departures_note.mp hd with hd | ⟨k, e, hy, rfl⟩
    · obtain ⟨n, hn, hb⟩ := h.born d hd
      obtain ⟨hp, hl⟩ := puts_of_last_note hb (hl.trans hn)
      have hk := hf d.key
      rw [h.gone d hd (hl.trans hn.symm)] at hk
      generalize x.after.engine.table.find? d.key = o at hk ⊢
      cases hk with
      | absent hp => rfl
      | stored ht =>
        rw [ht] at hp
        exact absurd hp (by simp [puts])
    · obtain ⟨n, hn, hb⟩ := h.held k e (mem_leaving.mp hy).1
      obtain ⟨hp, -⟩ := puts_of_last_note hb (hl.trans hn)
      rcases (mem_leaving.mp hy).2 with hp' | ha
      · rw [hp] at hp'
        exact absurd hp' (by simp)
      · exact ha
  there := by
    intro n b hb
    have hk := hf b.key
    rcases births_note_cases hb with hb | ⟨rfl, v, ttl, ht⟩
    · rcases h.there n b hb with ⟨d, hd, hn⟩ | ⟨hl, hs⟩
      · exact .inl ⟨d, mem_departures_note.mpr (.inl hd), hn⟩
      · obtain ⟨e, he⟩ := Option.isSome_iff_exists.mp hs
        rw [he] at hk
        generalize ha : x.after.engine.table.find? b.key = o at hk ⊢
        cases hk with
        | kept v hp => exact .inr ⟨(last_note hp).trans hl, rfl⟩
        | taken hp ht =>
          have hm : (b.key, e) ∈ leaving tasks x := mem_leaving.mpr ⟨he, .inr ha⟩
          exact .inl ⟨_, mem_departures_note.mpr (.inr ⟨_, e, hm, rfl⟩), hl⟩
        | stored ht =>
          have hp := puts_iff.mpr ⟨_, _, ht⟩
          have hm : (b.key, e) ∈ leaving tasks x := mem_leaving.mpr ⟨he, .inl hp⟩
          exact .inl ⟨_, mem_departures_note.mpr (.inr ⟨_, e, hm, rfl⟩), hl⟩
    · right
      have hp : puts b.key (tasks x.who) = true := puts_iff.mpr ⟨v, ttl, ht⟩
      refine ⟨by simp [note, hp], ?_⟩
      generalize x.before.engine.table.find? b.key = o, x.after.engine.table.find? b.key = o' at hk
      cases hk with
      | stored ht => rfl
      | absent hp' => exact absurd (hp.symm.trans hp') (by simp)
      | kept v hp' => exact absurd (hp.symm.trans hp') (by simp)
      | taken hp' ht => exact absurd (hp.symm.trans hp') (by simp)
  way := by
    intro d hd
    rcases mem_departures_note.mp hd with hd | ⟨k, e, hy, rfl⟩
    · exact h.way d hd
    · obtain ⟨hk, hw⟩ := mem_leaving.mp hy
      have hk' := hf k
      rw [hk] at hk'
      generalize ha : x.after.engine.table.find? k = o at hk'
      cases hk' with
      | kept v hp =>
        rw [hp, ha] at hw
        exact absurd hw (by simp)
      | taken hp ht => exact ht
      | stored ht =>
        simp only [ht]
        rfl

end Note

/-! ## What passes take and hand over -/

/-- What a pass took and handed over by the time it has come to a stage. -/
def Settles (watched : Bool) (taken handed : List (String × Value)) : Memory.Stage → Prop
  | .rearm | .scan | .evict _ => taken = [] ∧ handed = []
  | .hand out => out.Perm taken ∧ handed = []
  | .deliver rest removed => removed = taken.length ∧
      if watched then (handed ++ rest).Perm taken else handed = [] ∧ rest = []

section Passes

variable [DecidableEq ι] {tasks : ι → Task} {l : Ledger ι}

theorem takenBy_note (x : Pool.Event ι Solo (Answer Reply)) (j : ι) :
    (l.note tasks x).takenBy j =
      l.takenBy j ++ if x.who = j then (leaving tasks x).map fun y => (y.1, y.2.value) else [] := by
  rw [takenBy, takenBy, note, List.filter_append, List.map_append, List.filter_map]
  congr 1
  by_cases hj : x.who = j
  · simp [hj, Function.comp_def]
  · simp [hj, Function.comp_def]

theorem handedBy_note (x : Pool.Event ι Solo (Answer Reply)) (j : ι) :
    (l.note tasks x).handedBy j = l.handedBy j ++ if x.who = j then news x else [] := by
  rw [handedBy, handedBy, note, List.filter_append, List.map_append, List.filter_map]
  congr 1
  by_cases hj : x.who = j
  · simp [hj, Function.comp_def]
  · simp [hj, Function.comp_def]

omit [DecidableEq ι] in
/-- A step that puts nothing and leaves the table alone takes nothing. -/
theorem leaving_eq_nil {x : Pool.Event ι Solo (Answer Reply)}
    (ht : ∀ k, puts k (tasks x.who) = false)
    (h : x.after.engine.table = x.before.engine.table) : leaving tasks x = [] := by
  refine List.eq_nil_iff_forall_not_mem.mpr ?_
  rintro ⟨k, e⟩ hy
  obtain ⟨hk, hp | ha⟩ := mem_leaving.mp hy
  · rw [ht] at hp
    exact absurd hp (by simp)
  · rw [h, hk] at ha
    exact absurd ha (by simp)

omit [DecidableEq ι] in
/-- What leaves with a step that puts nothing is what is not there afterwards. -/
theorem leaving_perm {x : Pool.Event ι Solo (Answer Reply)} {out : List (String × Value)}
    (ht : ∀ k, puts k (tasks x.who) = false) (hn : (out.map Prod.fst).Nodup)
    (h : ∀ k v, (k, v) ∈ out ↔ ∃ e, x.before.engine.table.find? k = some e ∧
      x.after.engine.table.find? k = none ∧ e.value = v) :
    out.Perm ((leaving tasks x).map fun y => (y.1, y.2.value)) := by
  have hl : (((leaving tasks x).map fun y => (y.1, y.2.value)).map Prod.fst).Nodup := by
    rw [List.map_map]
    exact nodup_leaving tasks x
  rw [List.perm_ext_iff_of_nodup (.of_map _ hn) (.of_map _ hl)]
  rintro ⟨k, v⟩
  rw [h, List.mem_map]
  constructor
  · rintro ⟨e, he, ha, rfl⟩
    exact ⟨(k, e), mem_leaving.mpr ⟨he, .inr ha⟩, rfl⟩
  · rintro ⟨⟨k', e⟩, hy, heq⟩
    obtain ⟨rfl, rfl⟩ := Prod.mk.inj heq
    obtain ⟨he, hp | ha⟩ := mem_leaving.mp hy
    · rw [ht] at hp
      exact absurd hp (by simp)
    · exact ⟨e, he, ha, rfl⟩

omit [DecidableEq ι] in
/-- What leaves with a removal is what the removal answers. -/
theorem leaving_perm_sweep (x : Pool.Event ι Solo (Answer Reply)) (keys : List String)
    (ht : ∀ k, puts k (tasks x.who) = false)
    (h : x.after.engine.table = (Table.sweep x.before.instant keys x.before.engine.table).2) :
    ((Table.sweep x.before.instant keys x.before.engine.table).1).Perm
      ((leaving tasks x).map fun y => (y.1, y.2.value)) := by
  refine leaving_perm ht (Table.nodup_sweep _ _ _) fun k v => ?_
  rw [Table.mem_sweep_iff, h, Table.find?_sweep]
  constructor
  · rintro ⟨hk, e, he, hx, rfl⟩
    refine ⟨e, he, ?_, rfl⟩
    rw [if_pos hk, he, Option.filter_some, hx]
    rfl
  · rintro ⟨e, he, ha, rfl⟩
    rw [he] at ha
    split at ha
    · rename_i hk
      refine ⟨hk, e, he, ?_, rfl⟩
      simpa [Option.filter] using ha
    · exact absurd ha (by simp)

omit [DecidableEq ι] in
/-- What leaves with a drain is what the drain answers. -/
theorem leaving_perm_drainLive (x : Pool.Event ι Solo (Answer Reply))
    (ht : ∀ k, puts k (tasks x.who) = false)
    (h : x.after.engine.table = (x.before.engine.table.drainLive x.before.instant).2) :
    ((x.before.engine.table.drainLive x.before.instant).1).Perm
      ((leaving tasks x).map fun y => (y.1, y.2.value)) := by
  refine leaving_perm ht (Table.nodup_drainLive _ _) fun k v => ?_
  rw [Table.mem_drainLive_iff, h, Table.find?_drainLive]
  constructor
  · rintro ⟨e, he, hx, rfl⟩
    refine ⟨e, he, ?_, rfl⟩
    rw [he, Option.filter_some, hx]
    rfl
  · rintro ⟨e, he, ha, rfl⟩
    refine ⟨e, he, ?_, rfl⟩
    rw [he] at ha
    simpa [Option.filter] using ha

omit [DecidableEq ι] in
/-- **A pass takes what it removes, and hands over what it took.** -/
theorem settles_of_passes {i : ι} {s s' : Solo} {a : Option (Answer Reply)}
    {stage stage' : Memory.Stage} {taken handed : List (String × Value)}
    (ht : ∀ k, puts k (tasks i) = false) (h : Solo.memory.Passes s stage stage' s')
    (hs : Settles s.engine.watched taken handed stage) :
    Settles s'.engine.watched (taken ++ (leaving tasks ⟨i, s, s', a⟩).map fun y => (y.1, y.2.value))
      (handed ++ news (⟨i, s, s', a⟩ : Pool.Event ι Solo (Answer Reply))) stage' := by
  have same (h : s'.engine.table = s.engine.table) : leaving tasks ⟨i, s, s', a⟩ = [] :=
    leaving_eq_nil ht h
  have quiet (h : s'.received = s.received) :
      news (⟨i, s, s', a⟩ : Pool.Event ι Solo (Answer Reply)) = [] := by
    simp [news, h]
  cases h with
  | rearm =>
    rw [same rfl, quiet rfl, List.map_nil, List.append_nil, List.append_nil]
    exact hs
  | scan _ _ =>
    rw [same rfl, quiet rfl, List.map_nil, List.append_nil, List.append_nil]
    exact hs
  | clean _ =>
    rw [same rfl, quiet rfl, List.map_nil, List.append_nil, List.append_nil]
    obtain ⟨rfl, rfl⟩ := hs
    refine ⟨rfl, ?_⟩
    split
    · exact .refl _
    · exact ⟨rfl, rfl⟩
  | evict keys =>
    obtain ⟨rfl, rfl⟩ := hs
    rw [quiet rfl, List.nil_append]
    have hp := leaving_perm_sweep ⟨i, s, _, a⟩ keys ht
      (show (Solo.memory.slot.set (s.engine.sweep s.instant keys).2 s).engine.table = _ from rfl)
    exact ⟨hp, rfl⟩
  | hand hw =>
    obtain ⟨hp, rfl⟩ := hs
    have hw : s.engine.watched = true := hw
    rw [same rfl, quiet rfl, List.map_nil, List.append_nil, hw]
    exact ⟨hp.length_eq, hp⟩
  | unwatched hw =>
    obtain ⟨hp, rfl⟩ := hs
    have hw : s.engine.watched = false := hw
    rw [same rfl, quiet rfl, List.map_nil, List.append_nil, hw]
    exact ⟨hp.length_eq, rfl, rfl⟩
  | deliver y rest removed =>
    have hn : news (⟨i, s, Solo.memory.evicted y.1 y.2 s, a⟩ : Pool.Event ι Solo (Answer Reply)) =
        [y] := by
      simp [news, Solo.memory]
    rw [same rfl, hn, List.map_nil, List.append_nil]
    obtain ⟨hr, hs⟩ := hs
    refine ⟨hr, ?_⟩
    change if s.engine.watched = true then _ else _
    split at hs
    · rename_i hw
      rw [if_pos hw, List.append_assoc]
      exact hs
    · exact absurd hs.2 (by simp)

theorem watched_of_steps {task : Task} {s s' : Solo} {q q' : Process Solo (Answer Reply)}
    (h : Solo.Steps s task q q' s') : s'.engine.watched = s.engine.watched := by
  cases h with
  | call hw hd => exact hw
  | drainLive => rfl
  | pass ht hp => cases hp <;> rfl

omit [DecidableEq ι] in
/-- A step adds what it hands over to the receiver's record. -/
theorem received_of_steps {i : ι} {s s' : Solo} {q q' : Process Solo (Answer Reply)}
    {a : Option (Answer Reply)} (h : Solo.Steps s (tasks i) q q' s') :
    s'.received = s.received ++ news (⟨i, s, s', a⟩ : Pool.Event ι Solo (Answer Reply)) ∧
      ((tasks i).isPass = false → s'.received = s.received) := by
  generalize tasks i = task at h
  cases h with
  | call hw hd => simp [news]
  | drainLive => simp [news]
  | pass ht hp => cases hp <;> simp [news, ht, Solo.memory, Slot.modify]

end Passes

/-! ## Runs -/

section Run

variable [DecidableEq ι] {tasks : ι → Task}

/-- What every turn keeps. -/
structure Keeps (tasks : ι → Task) (w : Bool) (p : Pool ι Solo (Answer Reply)) (l : Ledger ι) :
    Prop where
  underway : Solo.Underway tasks p
  accounts : Accounts tasks p.state.engine.table l
  watched : p.state.engine.watched = w
  received : p.state.received = l.handed.map Prod.snd
  quiet : ∀ i, (tasks i).isPass = false → l.handedBy i = []
  stages : ∀ i, (tasks i).isPass = true → ∃ stage : Memory.Stage,
    p.threads i = some (Memory.counted (stage.process Solo.memory)) ∧
      Settles w (l.takenBy i) (l.handedBy i) stage

theorem keeps_turned {w : Bool} {p p' : Pool ι Solo (Answer Reply)} {l : Ledger ι}
    {x : Option (Pool.Event ι Solo (Answer Reply))} (h : Keeps tasks w p l)
    (ht : Solo.Turned tasks p x p') : Keeps tasks w p' (x.toList.foldl (note tasks) l) := by
  have hu := Solo.underway_turned h.underway ht
  cases ht with
  | idle nanos => exact ⟨hu, h.accounts, h.watched, h.received, h.quiet, h.stages⟩
  | @step i q q' s hq hn hs =>
    change Keeps tasks w _ (l.note tasks ⟨i, p.state, s, q'.answer?⟩)
    have hr := received_of_steps (a := q'.answer?) hs
    constructor
    case underway => exact hu
    case accounts =>
      exact accounts_note (x := ⟨i, p.state, s, q'.answer?⟩) h.accounts (fate_of_steps hs)
    case watched => exact (watched_of_steps hs).trans h.watched
    case received =>
      change s.received = (l.note tasks _).handed.map Prod.snd
      rw [note, List.map_append, List.map_map, ← h.received, hr.1]
      simp [Function.comp_def]
    case quiet =>
      intro j hj
      rw [handedBy_note, h.quiet j hj]
      by_cases hij : i = j
      · subst hij
        simp [news, hr.2 hj]
      · simp [hij]
    case stages =>
      intro j hj
      obtain ⟨stage, hst, hset⟩ := h.stages j hj
      rw [takenBy_note, handedBy_note]
      by_cases hij : i = j
      · subst hij
        obtain rfl := Option.some.inj (hst.symm.trans hq)
        obtain ⟨stage', rfl, hp⟩ := Solo.memory.passes_of_next?_counted hn
        refine ⟨stage', Function.update_self .., ?_⟩
        rw [if_pos rfl, if_pos rfl]
        have := settles_of_passes (i := i)
          (a := (Memory.counted (stage'.process Solo.memory)).answer?) (puts_of_isPass hj) hp
          (h.watched ▸ hset)
        rw [watched_of_steps hs, h.watched] at this
        exact this
      · refine ⟨stage, (Function.update_of_ne (Ne.symm hij) ..).trans hst, ?_⟩
        rw [if_neg hij, if_neg hij, List.append_nil, List.append_nil]
        exact hset

/-- **The books of a run.** -/
structure Balanced (tasks : ι → Task) (p : Pool ι Solo (Answer Reply)) (l : Ledger ι) : Prop where
  /-- What left was an instance, with the key, the instant and the lifespan of its put. -/
  born : ∀ d ∈ l.departures, ∃ n, d.number = some n ∧
    l.births[n]? = some ⟨d.key, d.entry.created, d.entry.lifespan⟩
  /-- No instance leaves twice. -/
  once : (l.departures.map Departure.number).Nodup
  /-- What left was overwritten, deleted, cleared, drained while live or evicted once expired. -/
  way : ∀ d ∈ l.departures, Takes d.instant d.key d.entry (tasks d.who)
  /-- An instance has left, or it is the entry of its key. -/
  there : ∀ n b, l.births[n]? = some b → ((∀ d ∈ l.departures, d.number ≠ some n) ↔
    l.last b.key = some n ∧ ∃ v, p.state.engine.table.find? b.key = some ⟨v, b.instant, b.lifespan⟩)
  /-- There is nothing but instances in the table. -/
  held : ∀ k e, p.state.engine.table.find? k = some e →
    ∃ n, l.last k = some n ∧ l.births[n]? = some ⟨k, e.created, e.lifespan⟩
  /-- The receiver's record is what the tasks handed over. -/
  received : p.state.received = l.handed.map Prod.snd
  /-- Nobody but passes hands anything over. -/
  quiet : ∀ i, (tasks i).isPass = false → l.handedBy i = []
  /-- A pass hands over nothing but what it took, and each of it once. -/
  handed : ∀ i, (tasks i).isPass = true → ∃ rest, (l.handedBy i ++ rest).Perm (l.takenBy i)
  /-- A pass that has ended has handed over all that it took, if there is a receiver. -/
  delivered : ∀ i r, (tasks i).isPass = true → p.threads i = some (.done r) →
    p.state.engine.watched = true → (l.handedBy i).Perm (l.takenBy i)
  /-- A pass answers how many entries it took. -/
  counted : ∀ i r, (tasks i).isPass = true → p.threads i = some (.done r) →
    r = .ok (.count (l.takenBy i).length)

omit [DecidableEq ι] in
theorem there_iff {t : Table} {l : Ledger ι} (h : Accounts tasks t l) {n : Nat} {b : Birth}
    (hb : l.births[n]? = some b) : (∀ d ∈ l.departures, d.number ≠ some n) ↔
      l.last b.key = some n ∧ ∃ v, t.find? b.key = some ⟨v, b.instant, b.lifespan⟩ := by
  constructor
  · intro hd
    rcases h.there n b hb with ⟨d, hd', hn⟩ | ⟨hl, hs⟩
    · exact absurd hn (hd d hd')
    · obtain ⟨e, he⟩ := Option.isSome_iff_exists.mp hs
      obtain ⟨n', hl', hb'⟩ := h.held b.key e he
      obtain rfl := Option.some.inj (hl.symm.trans hl')
      have hb := Option.some.inj (hb.symm.trans hb')
      rw [hb]
      exact ⟨hl, e.value, he⟩
  · rintro ⟨hl, v, he⟩ d hd hn
    obtain ⟨n', hn', hb'⟩ := h.born d hd
    obtain rfl := Option.some.inj (hn.symm.trans hn')
    obtain rfl := Option.some.inj (hb.symm.trans hb')
    exact absurd (he.symm.trans (h.gone d hd (hl.trans hn.symm))) (by simp)

/-- The only stage at which a pass has ended. -/
theorem stage_of_done {stage : Memory.Stage} {r : Answer Reply}
    (h : Memory.counted (stage.process Solo.memory) = .done r) :
    ∃ removed, stage = .deliver [] removed ∧ r = .ok (.count removed) := by
  cases stage with
  | deliver rest removed =>
    cases rest with
    | nil =>
      cases h
      exact ⟨removed, rfl, rfl⟩
    | cons y rest => cases h
  | _ => cases h

omit [DecidableEq ι] in
theorem handed_of_settles {w : Bool} {taken handed : List (String × Value)} {stage : Memory.Stage}
    (h : Settles w taken handed stage) : ∃ rest, (handed ++ rest).Perm taken := by
  cases stage with
  | hand out =>
    obtain ⟨hp, rfl⟩ := h
    exact ⟨out, hp⟩
  | deliver rest removed =>
    obtain ⟨-, h⟩ := h
    split at h
    · exact ⟨rest, h⟩
    · obtain ⟨rfl, -⟩ := h
      exact ⟨taken, .refl _⟩
  | _ =>
    obtain ⟨rfl, rfl⟩ := h
    exact ⟨[], .refl _⟩

/-- A pass that has not begun has taken nothing. -/
theorem settles_run {w : Bool} {task : Task} (h : task.isPass = true) : ∃ stage : Memory.Stage,
    task.run = Memory.counted (stage.process Solo.memory) ∧ Settles w [] [] stage := by
  cases task with
  | pass => exact ⟨.scan, rfl, rfl, rfl⟩
  | tick => exact ⟨.rearm, rfl, rfl, rfl⟩
  | call c => exact absurd h (by simp [Task.isPass])
  | drainLive => exact absurd h (by simp [Task.isPass])

theorem balanced_of_keeps {w : Bool} {p : Pool ι Solo (Answer Reply)} {l : Ledger ι}
    (h : Keeps tasks w p l) : Balanced tasks p l where
  born := h.accounts.born
  once := h.accounts.once
  way := h.accounts.way
  there n b hb := there_iff h.accounts hb
  held := h.accounts.held
  received := h.received
  quiet := h.quiet
  handed i hi := by
    obtain ⟨stage, -, hs⟩ := h.stages i hi
    exact handed_of_settles hs
  delivered i r hi hr hw := by
    obtain ⟨stage, ht, hs⟩ := h.stages i hi
    obtain ⟨removed, rfl, rfl⟩ := stage_of_done (Option.some.inj (ht.symm.trans hr))
    have := hs.2
    rw [if_pos (h.watched ▸ hw), List.append_nil] at this
    exact this
  counted i r hi hr := by
    obtain ⟨stage, ht, hs⟩ := h.stages i hi
    obtain ⟨removed, rfl, rfl⟩ := stage_of_done (Option.some.inj (ht.symm.trans hr))
    rw [hs.1]

/-- **The books balance after every run.** Any tasks, in any number and order of steps, on a table
that was empty, with the clock moving on between them. -/
theorem run_balanced (tasks : ι → Task) (engine : Engine) (now : Nat) (turns : List (Turn ι Nat)) :
    let p := Solo.pool tasks { engine with table := .empty } now
    Balanced tasks (p.run Solo.elapse turns)
      ((Pool.history Solo.elapse turns p).foldl (note tasks) empty) := by
  refine balanced_of_keeps (w := engine.watched) ?_
  refine Pool.fold_induction (I := Keeps tasks engine.watched) ?_ turns ?_
  · exact fun p t x p' l h hm => keeps_turned h (Solo.turned_of_moved h.underway hm)
  · refine ⟨Solo.underway_pool _ _ _, accounts_empty tasks, rfl, rfl, fun i _ => rfl, ?_⟩
    intro i hi
    obtain ⟨stage, hr, hs⟩ := settles_run hi
    exact ⟨stage, congrArg some hr, hs⟩

end Run

end Ledger
end LayeredCache

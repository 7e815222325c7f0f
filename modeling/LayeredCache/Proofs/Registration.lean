import LayeredCache.Proofs.Records
import LayeredCache.Proofs.Solo
import LayeredCache.Proofs.Starting
import LayeredCache.Registry

/-!
# Registrations and new caches

A registry is filled and asked for new caches in any order, while engines are made and used by
others. Names keep the constructors that they were given first. A new cache is a started engine,
and an engine is started once; so no two of the caches that a registry has answered are one engine,
and what becomes of the engine of a cache depends on what is done to that engine alone.

Results:
* `deed_of_next?`: what a step of a task on a cache does is done to the engine of that cache.
* `find?_run`: the constructor that a name is bound to, read off the history.
* `newCache_eq`: a new cache is what starting the constructed engine gives.
* `engine_run`: a started engine after more has happened.
* `registered_once`: all of it, after any history.
-/

namespace LayeredCache

/-! ## Constructors -/

namespace Adapter

/-- It makes a new engine each time. -/
def AlwaysNew (a : Adapter) : Prop := ∀ now engines,
  engines.length ≤ (a.make now engines).1 ∧
    (a.make now engines).2[(a.make now engines).1]? = some .empty

/-- It always answers one same engine. -/
def AlwaysSame (a : Adapter) (n : Nat) : Prop := ∀ now engines, (a.make now engines).1 = n

theorem alwaysNew_fresh : fresh.AlwaysNew := fun _ engines =>
  ⟨Nat.le_refl _, by simp [fresh]⟩

theorem alwaysSame_shared (n : Nat) : (shared n).AlwaysSame n := fun _ _ => rfl

end Adapter

/-! ## What caches do to their engines -/

/-- A call is done to the engine of its cache. -/
theorem deed_of_call {σ : Type} [Clock σ] (m : Memory σ) {c : Call} {s s' : σ}
    {q : Process σ (Answer Reply)} (h : (c.run m.cache).next? s = some (q, s')) :
    ∃ d : Engine.Deed, m.slot.get s' = d.after (m.slot.get s) := by
  have change (f : Table → Table) {s' : σ}
      (hs : s' = m.slot.modify (fun e => { e with table := f e.table }) s) :
      ∃ d : Engine.Deed, m.slot.get s' = d.after (m.slot.get s) := by
    refine ⟨.change f, ?_⟩
    rw [hs, Slot.get_modify]
    rfl
  cases c with
  | get | getMulti | isExist =>
    obtain ⟨rfl, rfl⟩ := Process.next?_act h
    exact ⟨.change id, rfl⟩
  | put key v ttl =>
    obtain ⟨rfl, rfl⟩ := Process.next?_act h
    exact change (fun t => t.put (Clock.instant s) key v ttl) rfl
  | delete key =>
    obtain ⟨rfl, rfl⟩ := Process.next?_act h
    exact change (fun t => t.erase key) rfl
  | clearAll =>
    obtain ⟨rfl, rfl⟩ := Process.next?_act h
    exact change (fun _ => .empty) rfl
  | step d key =>
    have hn := m.next?_attempt
      (fun now e => do return { e with table := ← e.table.step now key d }) s
    cases ht : (m.slot.get s).table.step (Clock.instant s) key d with
    | ok t =>
      simp only [ht, bind, Except.bind] at hn
      obtain ⟨rfl, rfl⟩ := Process.next?_unique (Process.next?_bind hn _) h
      exact change (fun _ => t) rfl
    | error e =>
      simp only [ht, bind, Except.bind] at hn
      obtain ⟨rfl, rfl⟩ := Process.next?_unique (Process.next?_bind hn _) h
      exact ⟨.change id, rfl⟩
  | start payload =>
    have hn := m.next?_attempt (fun now e => e.startWith true now payload) s
    refine ⟨.attempt ⟨true, Clock.instant s, .payload payload⟩, ?_⟩
    change _ = ((m.slot.get s).startWith true (Clock.instant s) payload).toOption.getD _
    cases he : (m.slot.get s).startWith true (Clock.instant s) payload with
    | ok e =>
      simp only [he] at hn
      obtain ⟨rfl, rfl⟩ := Process.next?_unique (Process.next?_bind hn _) h
      exact m.slot.get_set _ _
    | error e =>
      simp only [he] at hn
      obtain ⟨rfl, rfl⟩ := Process.next?_unique (Process.next?_bind hn _) h
      rfl

/-- **What a step of a task does** on a memory cache is done to the engine of that cache. -/
theorem deed_of_next? {task : Solo.Task} {q q' : Process Solo (Answer Reply)} {s s' : Solo}
    (hr : Solo.Remains task q) (h : q.next? s = some (q', s')) :
    ∃ d : Engine.Deed, s'.engine = d.after s.engine := by
  cases hr with
  | call c => exact deed_of_call Solo.memory h
  | drainLive =>
    obtain ⟨rfl, rfl⟩ := Process.next?_act h
    exact ⟨.change fun t => (t.drainLive s.instant).2, rfl⟩
  | pass ht stage =>
    obtain ⟨stage', rfl, hp⟩ := Solo.memory.passes_of_next?_counted h
    cases hp with
    | rearm => exact ⟨.rearm s.instant, rfl⟩
    | evict keys => exact ⟨.change fun t => (Table.sweep s.instant keys t).2, rfl⟩
    | _ => exact ⟨.change id, rfl⟩
  | ended ht r => simp [Process.next?] at h

/-! ## Histories -/

/-- A registry, and the engines made so far. -/
structure Inventory where
  registry : Registry
  engines : List Engine

namespace Inventory

/-- What may happen. -/
inductive Event where
  | register (name : String) (a : Adapter)
  | newCache (scheduled : Bool) (now : Nat) (name payload : String)
  /-- An engine is made, but not by the registry. -/
  | make (e : Engine)
  /-- Something is done to the engine of one number. -/
  | use (n : Nat) (d : Engine.Deed)

namespace Event

/-- The inventory then; what fails leaves the registry as it was. -/
def after : Event → Inventory → Inventory
  | .register name a, w =>
    { w with registry := (w.registry.register name a).toOption.getD w.registry }
  | .newCache scheduled now name payload, w =>
    { w with engines := (w.registry.newCache scheduled now name payload w.engines).2 }
  | .make e, w => { w with engines := w.engines ++ [e] }
  | .use n d, w => { w with engines := w.engines.modify n d.after }

/-- The constructor that is offered for a name. -/
def offers? (name : String) : Event → Option Adapter
  | .register name' a => if name' = name then some a else none
  | _ => none

/-- The name and the number of a cache that is answered. -/
def obtains? : Event → Inventory → Option (String × Nat)
  | .newCache scheduled now name payload, w =>
    (w.registry.newCache scheduled now name payload w.engines).1.toOption.map (name, ·)
  | _, _ => none

/-- What is done to the engine of one number. -/
def uses (n : Nat) : Event → List Engine.Deed
  | .use m d => if m = n then [d] else []
  | _ => []

/-- A constructor that is run answers an engine that there is. -/
def Permitted (w : Inventory) : Event → Prop
  | .newCache _ now name _ => ∀ a, w.registry.find? name = some a →
      (a.make now w.engines).1 < (a.make now w.engines).2.length
  | _ => True

end Event

/-- The inventory after one event after the other. -/
def run (events : List Event) (w : Inventory) : Inventory := events.foldl (fun w ev => ev.after w) w

/-- The caches answered, with the names that were asked for. -/
def obtained : List Event → Inventory → List (String × Nat)
  | [], _ => []
  | ev :: events, w => (ev.obtains? w).toList ++ obtained events (ev.after w)

/-- All constructors that are run answer engines that there are. -/
def Possible : List Event → Inventory → Prop
  | [], _ => True
  | ev :: events, w => ev.Permitted w ∧ Possible events (ev.after w)

/-- What is done to the engine of one number. -/
def uses (n : Nat) (events : List Event) : List Engine.Deed := events.flatMap (Event.uses n)

/-- The constructor that is offered first for a name. -/
def offered? (name : String) (events : List Event) : Option Adapter :=
  events.findSome? (Event.offers? name)

variable {w : Inventory} {ev : Event} {events : List Event} {name payload : String} {a : Adapter}
  {scheduled : Bool} {now n : Nat} {e : Engine}

theorem run_append (before rest : List Event) (w : Inventory) :
    run (before ++ rest) w = run rest (run before w) := List.foldl_append

theorem Possible.append {before rest : List Event} (h : Possible (before ++ rest) w) :
    Possible rest (run before w) := by
  induction before generalizing w with
  | nil => exact h
  | cons ev before ih => exact ih h.2

/-! ## Names -/

theorem register_of_find? (h : w.registry.find? name = some a) (a' : Adapter) :
    w.registry.register name a' = .error (.duplicateAdapter name) := by
  rw [Registry.register, h]

theorem register_of_free (h : w.registry.find? name = none) (a' : Adapter) :
    ∃ r, w.registry.register name a' = .ok r := by
  rw [Registry.register, h]
  exact ⟨_, rfl⟩

/-- A name is bound by the first that is offered for it. -/
theorem find?_after (ev : Event) (w : Inventory) (name : String) :
    (ev.after w).registry.find? name = (w.registry.find? name).or (ev.offers? name) := by
  cases ev with
  | register name' a' =>
    change ((w.registry.register name' a').toOption.getD w.registry).find? name = _
    cases hr : w.registry.register name' a' with
    | error x =>
      change w.registry.find? name = _
      by_cases hn : name' = name
      · subst hn
        cases hf : w.registry.find? name' with
        | some a => rfl
        | none =>
          obtain ⟨r, hr'⟩ := register_of_free hf a'
          cases hr.symm.trans hr'
      · rw [Event.offers?, if_neg hn, Option.or_none]
    | ok r =>
      obtain ⟨hfree, hfind⟩ := Registry.find?_register (k := name) hr
      change r.find? name = _
      rw [hfind, Event.offers?]
      by_cases hn : name = name'
      · subst hn
        rw [hfree, if_pos rfl, Option.none_or]
      · rw [if_neg hn, if_neg (Ne.symm hn), Option.or_none]
  | _ => exact (Option.or_none).symm

/-- **The constructor that a name is bound to** is the one that it was given first. -/
theorem find?_run (events : List Event) (w : Inventory) (name : String) :
    (run events w).registry.find? name = (w.registry.find? name).or (offered? name events) := by
  induction events generalizing w with
  | nil => exact (Option.or_none).symm
  | cons ev events ih =>
    rw [run, List.foldl_cons]
    refine (ih (ev.after w)).trans ?_
    rw [find?_after, Option.or_assoc, offered?, offered?, List.findSome?_cons]
    cases ev.offers? name <;> rfl

/-- Bindings stay. -/
theorem find?_run_of_some (h : w.registry.find? name = some a) (events : List Event) :
    (run events w).registry.find? name = some a := by
  rw [find?_run, h]
  rfl

theorem sorted_after (h : w.registry.Sorted) (ev : Event) : (ev.after w).registry.Sorted := by
  cases ev with
  | register name a =>
    change ((w.registry.register name a).toOption.getD w.registry).Sorted
    cases hr : w.registry.register name a with
    | error x => exact h
    | ok r => exact Registry.names_sorted h hr
  | _ => exact h

theorem sorted_run (h : w.registry.Sorted) (events : List Event) :
    (run events w).registry.Sorted := by
  induction events generalizing w with
  | nil => exact h
  | cons ev events ih => exact ih (sorted_after h ev)

theorem mem_names_iff {r : Registry} : name ∈ r.names ↔ (r.find? name).isSome = true := by
  rw [Registry.find?, List.lookup_isSome_iff, Registry.names, List.mem_map]
  simp only [beq_iff_eq, eq_comm (a := name)]

/-! ## New caches -/

/-- Starting does not fail for the lack of a name. -/
theorem startWith_ne_unknown {x : CacheError} (h : e.startWith scheduled now payload = .error x) :
    ∀ name, x ≠ .unknownAdapter name := by
  rintro name rfl
  let a : Engine.Attempt := ⟨scheduled, now, .payload payload⟩
  have hd : a.Does e (.error (.unknownAdapter name)) := h ▸ a.does_run e
  cases hd

/-- **A new cache is what starting the constructed engine gives.** The engine is kept as it is then,
in its place. -/
theorem newCache_eq {r : Registry} {engines : List Engine} (ha : r.find? name = some a)
    (he : (a.make now engines).2[(a.make now engines).1]? = some e) :
    r.newCache scheduled now name payload engines =
      ((e.startWith scheduled now payload).map fun _ => (a.make now engines).1,
        (a.make now engines).2.set (a.make now engines).1
          ((e.startWith scheduled now payload).toOption.getD e)) := by
  unfold Registry.newCache
  rw [ha]
  dsimp only
  rw [he, Option.getD_some]
  cases e.startWith scheduled now payload with
  | error x =>
    obtain ⟨hn, rfl⟩ := List.getElem?_eq_some_iff.mp he
    exact congrArg (Prod.mk _) (List.set_getElem_self hn).symm
  | ok e' => rfl

theorem newCache_of_free {r : Registry} {engines : List Engine} (h : r.find? name = none) :
    r.newCache scheduled now name payload engines = (.error (.unknownAdapter name), engines) := by
  rw [Registry.newCache, h]

theorem started_of_startWith {e' : Engine} (h : e.startWith scheduled now payload = .ok e') :
    e.started = false ∧ e'.started = true := by
  obtain ⟨c, -, hc⟩ := Json.bind_eq_ok h
  exact Engine.started_of_start hc

/-- A new cache is not an engine that was started before. -/
theorem getElem?_newCache {r : Registry} {engines : List Engine} (h : engines[n]? = some e)
    (hs : e.started = true) : (r.newCache scheduled now name payload engines).2[n]? = some e := by
  unfold Registry.newCache
  split
  · exact h
  · rename_i a _
    obtain ⟨more, hmore⟩ := a.keeps now engines
    have hmade : (a.make now engines).2[n]? = some e := by
      rw [← hmore, List.getElem?_append_left (List.getElem?_eq_some_iff.mp h).1]
      exact h
    dsimp only
    split
    · exact hmade
    · rename_i e' he'
      by_cases hn : (a.make now engines).1 = n
      · rw [hn, hmade] at he'
        cases hs.symm.trans (started_of_startWith he').1
      · exact (List.getElem?_set_ne hn).trans hmade

/-! ## Engines -/

theorem started_deed (hs : e.started = true) (d : Engine.Deed) : (d.after e).started = true := by
  cases d with
  | attempt a =>
    change ((a.run e).toOption.getD e).started = true
    cases hr : a.run e with
    | error x => exact hs
    | ok e' =>
      have hd : a.Does e (.ok e') := hr ▸ a.does_run e
      cases hd with
      | started => rfl
  | watch =>
    change (e.watch.toOption.getD e).started = true
    unfold Engine.watch
    split <;> exact hs
  | _ => exact hs

theorem started_through (hs : e.started = true) (deeds : List Engine.Deed) :
    (Engine.through deeds e).started = true := by
  induction deeds generalizing e with
  | nil => exact hs
  | cons d deeds ih => exact ih (started_deed hs d)

theorem engine_after (h : w.engines[n]? = some e) (hs : e.started = true) (ev : Event) :
    (ev.after w).engines[n]? = some (Engine.through (ev.uses n) e) := by
  cases ev with
  | register => exact h
  | newCache => exact getElem?_newCache h hs
  | make e' => exact (List.getElem?_append_left (List.getElem?_eq_some_iff.mp h).1).trans h
  | use m d =>
    change (w.engines.modify m d.after)[n]? = some (Engine.through (if m = n then [d] else []) e)
    rw [List.getElem?_modify, h]
    split <;> rfl

/-- **A started engine after more has happened** is what was done to it has made of it. -/
theorem engine_run (h : w.engines[n]? = some e) (hs : e.started = true) (events : List Event) :
    (run events w).engines[n]? = some (Engine.through (uses n events) e) := by
  induction events generalizing w e with
  | nil => exact h
  | cons ev events ih =>
    have h' := ih (engine_after h hs ev) (started_through hs _)
    rw [uses, List.flatMap_cons, Engine.through, List.foldl_append]
    exact h'

/-! ## Caches that were answered -/

/-- A call for a new cache is answered: the constructed engine, and how it was started. -/
structure Answers (w : Inventory) (scheduled : Bool) (now : Nat) (name payload : String) (n : Nat)
    (a : Adapter) (e e' : Engine) : Prop where
  bound : w.registry.find? name = some a
  number : (a.make now w.engines).1 = n
  made : (a.make now w.engines).2[n]? = some e
  started : e.startWith scheduled now payload = .ok e'

theorem answers_of_newCache (hp : (Event.newCache scheduled now name payload).Permitted w)
    (h : (w.registry.newCache scheduled now name payload w.engines).1 = .ok n) :
    ∃ a e e', Answers w scheduled now name payload n a e e' := by
  cases ha : w.registry.find? name with
  | none =>
    rw [newCache_of_free ha] at h
    cases h
  | some a =>
    have he := List.getElem?_eq_getElem (hp a ha)
    rw [newCache_eq ha he] at h
    obtain ⟨e', he', rfl⟩ := Json.map_eq_ok h
    exact ⟨a, _, e', ha, rfl, he, he'⟩

theorem Answers.kept {e' : Engine} (h : Answers w scheduled now name payload n a e e') :
    ((Event.newCache scheduled now name payload).after w).engines[n]? = some e' := by
  obtain ⟨ha, rfl, he, hs⟩ := h
  change (w.registry.newCache scheduled now name payload w.engines).2[_]? = _
  rw [newCache_eq ha he, hs]
  exact List.getElem?_set_self (List.getElem?_eq_some_iff.mp he).1

/-- The engine of an answered cache was not started if it was there before. -/
theorem Answers.unstarted {e' : Engine} (h : Answers w scheduled now name payload n a e e')
    {e₁ : Engine} (h₁ : w.engines[n]? = some e₁) : e₁.started = false := by
  obtain ⟨more, hmore⟩ := a.keeps now w.engines
  have hmade := h.made
  rw [← hmore, List.getElem?_append_left (List.getElem?_eq_some_iff.mp h₁).1, h₁] at hmade
  obtain rfl := Option.some.inj hmade
  exact (started_of_startWith h.started).1

theorem exists_answers {x : String × Nat} (hp : ev.Permitted w) (h : ev.obtains? w = some x) :
    ∃ scheduled now payload a e e', ev = .newCache scheduled now x.1 payload ∧
      Answers w scheduled now x.1 payload x.2 a e e' := by
  cases ev with
  | newCache scheduled now name payload =>
    obtain ⟨n, hn, rfl⟩ := Option.map_eq_some_iff.mp h
    obtain ⟨a, e, e', ha⟩ := answers_of_newCache hp (Record.toOption_eq_some.mp hn)
    exact ⟨scheduled, now, payload, a, e, e', rfl, ha⟩
  | _ => cases h

theorem mem_obtained_cons {x : String × Nat} :
    x ∈ obtained (ev :: events) w ↔ ev.obtains? w = some x ∨ x ∈ obtained events (ev.after w) := by
  rw [obtained, List.mem_append, Option.mem_toList]

/-- No engine that was started is answered any more. -/
theorem not_started_of_mem_obtained (hp : Possible events w) {x : String × Nat}
    (hx : x ∈ obtained events w) (he : w.engines[x.2]? = some e) : e.started = false := by
  induction events generalizing w e with
  | nil => cases hx
  | cons ev events ih =>
    rcases mem_obtained_cons.mp hx with hx | hx
    · obtain ⟨_, _, _, _, _, _, -, ha⟩ := exists_answers hp.1 hx
      exact ha.unstarted he
    · refine Bool.eq_false_iff.mpr fun hs => ?_
      have hs' := started_through hs (ev.uses x.2)
      cases hs'.symm.trans (ih hp.2 hx (engine_after he hs ev))

/-- **No engine is answered twice.** -/
theorem obtained_distinct (hp : Possible events w) :
    (obtained events w).Pairwise fun x y => x.2 ≠ y.2 := by
  induction events generalizing w with
  | nil => exact .nil
  | cons ev events ih =>
    unfold obtained
    cases hx : ev.obtains? w with
    | none => exact ih hp.2
    | some x =>
      refine List.pairwise_cons.mpr ⟨fun y hy heq => ?_, ih hp.2⟩
      obtain ⟨_, _, _, _, _, _, rfl, ha⟩ := exists_answers hp.1 hx
      have hk := ha.kept
      rw [heq] at hk
      have hs := (started_of_startWith ha.started).2
      cases hs.symm.trans (not_started_of_mem_obtained hp.2 hy hk)

/-- A name bound to such a constructor is answered with that engine. -/
theorem eq_of_alwaysSame (hp : Possible events w) {x : String × Nat} (hx : x ∈ obtained events w)
    (ha : (run events w).registry.find? x.1 = some a) (hs : a.AlwaysSame n) : x.2 = n := by
  induction events generalizing w with
  | nil => cases hx
  | cons ev events ih =>
    rcases mem_obtained_cons.mp hx with hx | hx
    · obtain ⟨_, _, _, _, _, _, -, h⟩ := exists_answers hp.1 hx
      have hb := find?_run_of_some h.bound (ev :: events)
      obtain rfl := Option.some.inj (ha.symm.trans hb)
      exact h.number.symm.trans (hs _ _)
    · exact ih hp.2 hx ha

/-! ## After any history -/

/-- Names keep the constructors that they were given first. -/
structure NamesKept (r : Registry) (events : List Event) (w : Inventory) : Prop where
  first : ∀ name, w.registry.find? name = (r.find? name).or (offered? name events)
  taken : ∀ name a a', w.registry.find? name = some a →
    w.registry.register name a' = .error (.duplicateAdapter name) ∧
      (Event.register name a').after w = w
  free : ∀ name a, w.registry.find? name = none → ∃ r', w.registry.register name a = .ok r'
  increasing : w.registry.names.Pairwise (· < ·)
  listed : ∀ name, name ∈ w.registry.names ↔ (w.registry.find? name).isSome = true

/-- A call for a new cache is told that the name is unknown, and makes nothing, if the name is not
bound. Otherwise it is told what starting the constructed engine tells. -/
structure CachesStarted (w : Inventory) : Prop where
  unknown : ∀ scheduled now name payload,
    (∃ x, (w.registry.newCache scheduled now name payload w.engines).1 =
      .error (.unknownAdapter x)) ↔ w.registry.find? name = none
  nothing : ∀ scheduled now name payload, w.registry.find? name = none →
    w.registry.newCache scheduled now name payload w.engines =
      (.error (.unknownAdapter name), w.engines)
  started : ∀ scheduled now name payload a e, w.registry.find? name = some a →
    (a.make now w.engines).2[(a.make now w.engines).1]? = some e →
    w.registry.newCache scheduled now name payload w.engines =
      ((e.startWith scheduled now payload).map fun _ => (a.make now w.engines).1,
        (a.make now w.engines).2.set (a.make now w.engines).1
          ((e.startWith scheduled now payload).toOption.getD e))

/-- The caches that are answered are different engines, so a constructor that always answers one
same engine has at most one. Each of them is what was done to it alone has made of it since. -/
structure EnginesApart (events : List Event) (w₀ : Inventory) : Prop where
  distinct : (obtained events w₀).Pairwise fun x y => x.2 ≠ y.2
  once : ∀ n, (obtained events w₀).Pairwise fun x y =>
    ¬ ((∃ a, (run events w₀).registry.find? x.1 = some a ∧ a.AlwaysSame n) ∧
      ∃ a, (run events w₀).registry.find? y.1 = some a ∧ a.AlwaysSame n)
  alone : ∀ before rest scheduled now name payload n,
    events = before ++ .newCache scheduled now name payload :: rest →
    ((run before w₀).registry.newCache scheduled now name payload (run before w₀).engines).1 =
      .ok n →
    ∃ a e e', Answers (run before w₀) scheduled now name payload n a e e' ∧
      (a.AlwaysNew → (run before w₀).engines.length ≤ n ∧ e = .empty) ∧
      (run events w₀).engines[n]? = some (Engine.through (uses n rest) e')

theorem namesKept_run {r : Registry} (hr : r.Sorted) (events : List Event) (engines : List Engine) :
    NamesKept r events (run events ⟨r, engines⟩) where
  first := find?_run events ⟨r, engines⟩
  taken name a a' ha := by
    have hreg := register_of_find? ha a'
    refine ⟨hreg, ?_⟩
    rw [Event.after, hreg]
    rfl
  free name a h := register_of_free h a
  increasing := sorted_run (w := ⟨r, engines⟩) hr events
  listed _ := mem_names_iff

theorem newCache_ne_unknown {r : Registry} {engines : List Engine} (ha : r.find? name = some a)
    (x : String) :
    (r.newCache scheduled now name payload engines).1 ≠ .error (.unknownAdapter x) := by
  unfold Registry.newCache
  rw [ha]
  dsimp only
  split
  · rename_i y hy
    exact fun h => startWith_ne_unknown hy x (Except.error.inj h)
  · exact nofun

theorem cachesStarted (w : Inventory) : CachesStarted w where
  unknown scheduled now name payload := by
    constructor
    · rintro ⟨x, hx⟩
      cases ha : w.registry.find? name with
      | none => rfl
      | some a => exact absurd hx (newCache_ne_unknown ha x)
    · intro h
      rw [newCache_of_free h]
      exact ⟨name, rfl⟩
  nothing _ _ _ _ h := newCache_of_free h
  started _ _ _ _ _ _ ha he := newCache_eq ha he

theorem enginesApart (hp : Possible events w) : EnginesApart events w where
  distinct := obtained_distinct hp
  once n := by
    refine (obtained_distinct hp).imp_of_mem fun {x y} hx hy hne => ?_
    rintro ⟨⟨a, ha, hsame⟩, b, hb, hsame'⟩
    exact hne ((eq_of_alwaysSame hp hx ha hsame).trans (eq_of_alwaysSame hp hy hb hsame').symm)
  alone before rest scheduled now name payload n hevents hn := by
    subst hevents
    obtain ⟨hpermitted, -⟩ := hp.append
    obtain ⟨a, e, e', h⟩ := answers_of_newCache hpermitted hn
    refine ⟨a, e, e', h, fun hnew => ?_, ?_⟩
    · obtain ⟨hlen, hempty⟩ := hnew now (run before w).engines
      have hmade := h.made
      rw [h.number] at hlen hempty
      exact ⟨hlen, Option.some.inj (hmade.symm.trans hempty)⟩
    · rw [run_append]
      exact engine_run h.kept (started_of_startWith h.started).2 rest

/-- **Registrations and new caches, after any history** of a registry that was empty or had the
memory engine. -/
theorem registered_once {r : Registry} (hr : r = .empty ∨ r = .standard) (events : List Event)
    (hp : Possible events ⟨r, []⟩) :
    NamesKept r events (run events ⟨r, []⟩) ∧ CachesStarted (run events ⟨r, []⟩) ∧
      EnginesApart events ⟨r, []⟩ := by
  have hsorted : r.Sorted := by
    rcases hr with rfl | rfl
    · exact .nil
    · exact List.pairwise_singleton _ _
  exact ⟨namesKept_run hsorted events [], cachesStarted _, enginesApart hp⟩

/-- One engine behind two names, beside new ones. -/
def shop : List Event :=
  [.make .empty, .register "one" (.shared 0), .register "memory" (.shared 0),
    .newCache true 3 "one" "", .newCache true 5 "memory" "", .use 0 .watch,
    .newCache true 9 "one" ""]

theorem registered_once_shop :
    (Registry.standard = .empty ∨ Registry.standard = .standard) ∧
      Possible shop ⟨.standard, []⟩ ∧ obtained shop ⟨.standard, []⟩ = [("one", 0), ("memory", 1)] ∧
      EnginesApart shop ⟨.standard, []⟩ := by
  have hp : Possible shop ⟨.standard, []⟩ := by
    refine ⟨trivial, trivial, trivial, fun a ha => ?_, fun a ha => ?_, trivial, fun a ha => ?_,
      trivial⟩
    · obtain rfl : Adapter.shared 0 = a := Option.some.inj ha
      decide
    · obtain rfl : Adapter.fresh = a := Option.some.inj ha
      decide +kernel
    · obtain rfl : Adapter.shared 0 = a := Option.some.inj ha
      decide +kernel
  exact ⟨.inr rfl, hp, by decide +kernel, (registered_once (.inr rfl) shop hp).2.2⟩

end Inventory
end LayeredCache

import LayeredCache.Call
import LayeredCache.Filter.Bits
import LayeredCache.Layer.CacheAside
import LayeredCache.Layer.Guard
import LayeredCache.Layer.ReadThrough
import LayeredCache.Layer.Singleflight
import LayeredCache.Proofs.Runs
import LayeredCache.Proofs.Solo

/-!
# Readers that agree

Four layers read on behalf of a caller: reading through, sharing loads, guarding with a filter, and
reading beside the cache. When no call begins before the one before has ended, they agree: same
answers, same loads in the same order, same inner state. The inner cache and the loader are any
processes, failing as they like.

What is seen of a run is the keys that the loader is asked for and the keys whose loaded value the
inner cache refuses. Notes of the journal are not among it.

Results:
* `runs_embed_iff`: the runs of a process over the desk are those over the desk beside anything.
* `mirrors_singleflight`, `mirrors_guard`: a read of a layer is a read through, whatever becomes of
  the layer's own part.
* `runs_aside_iff`: beside the cache the same is read, if nothing is refused.
* `readers_agree`: the four layers agree on every sequence of requests.
-/

namespace LayeredCache

/-- What is seen of a run. -/
inductive Sight where
  /-- The loader is asked for a key. -/
  | load (key : String)
  /-- The inner cache refuses the value of a key. -/
  | refused (key : String)

/-- The state of the inner cache and the loader, and what has been seen, newest first. -/
structure Desk (ρ : Type) where
  rest : ρ
  seen : List Sight

/-- The desk, and a layer's own part of the state. -/
structure Own (X ρ : Type) where
  desk : Desk ρ
  own : X

namespace Desk

open Process

variable {X ρ α β : Type} [Clock ρ]

instance : Clock (Desk ρ) := ⟨fun d => Clock.instant d.rest⟩

instance : Clock (Own X ρ) := ⟨fun s => Clock.instant s.desk⟩

omit [Clock ρ] in
instance : Journal (Desk ρ) := ⟨fun _ _ d => d⟩

omit [Clock ρ] in
instance : Journal (Own X ρ) := ⟨fun _ _ s => s⟩

/-- Where the inner cache and the loader are at work. -/
def rested : Slot (Desk ρ) ρ := ⟨Desk.rest, fun r d => { d with rest := r }, fun _ _ => rfl⟩

def deskSlot : Slot (Own X ρ) (Desk ρ) :=
  ⟨Own.desk, fun d s => { s with desk := d }, fun _ _ => rfl⟩

def ownSlot : Slot (Own X ρ) X := ⟨Own.own, fun x s => { s with own := x }, fun _ _ => rfl⟩

/-- Marks something. -/
def mark (m : Sight) (d : Desk ρ) : Desk ρ := { d with seen := m :: d.seen }

/-- A cache over a part of the state. -/
def lifted {σ τ : Type} (slot : Slot σ τ) (c : Cache τ) : Cache σ where
  get key := (c.get key).embed slot
  getMulti keys := (c.getMulti keys).embed slot
  put key v ttl := (c.put key v ttl).embed slot
  delete key := (c.delete key).embed slot
  step d key := (c.step d key).embed slot
  isExist key := (c.isExist key).embed slot
  clearAll := c.clearAll.embed slot
  start payload := (c.start payload).embed slot

/-! ## What the layers use -/

/-- The loader, watched. -/
def asked (load : Loader ρ) : Loader (Desk ρ) := fun key => do
  Process.change (mark (.load key))
  (load key).embed rested

/-- What is seen of a put. -/
def noted (key : String) : Answer Unit → Process (Desk ρ) (Answer Unit)
  | .ok () => return .ok ()
  | .error e => do
    Process.change (mark (.refused key))
    return .error e

/-- The inner cache, watched. -/
def watched (inner : Cache ρ) : Cache (Desk ρ) :=
  { lifted rested inner with
    put := fun key v ttl => do noted key (← (inner.put key v ttl).embed rested) }

section Layers

variable (inner : Cache ρ) (load : Loader ρ) (ttl : Duration)

/-- The inner cache and the loader beside a layer's own part. -/
def below (X : Type) : Cache (Own X ρ) := lifted deskSlot (watched inner)

def source (X : Type) : Loader (Own X ρ) := fun key => (asked load key).embed deskSlot

/-- A filter that is a layer's own. -/
def held {φ : Type} (filter : Guard.Membership φ) : Guard.Membership (Own φ ρ) where
  test key := ownSlot.update (filter.test key)
  add key := ownSlot.modify (filter.add key)

def readThrough : Cache (Own Unit ρ) :=
  ReadThrough.cache (below inner Unit) (source load Unit) ttl

def singleflight : Cache (Own Flights ρ) :=
  Singleflight.cache (below inner Flights) (source load Flights) ttl ownSlot

def guarding {φ : Type} (filter : Guard.Membership φ) (policy : Guard.Policy) :
    Cache (Own φ ρ) :=
  Guard.cache (below inner φ) (source load φ) (held filter) policy

/-- Reads beside the cache. Nothing is written to the source. -/
def aside (store : Store ρ) : Cache (Own Unit ρ) :=
  CacheAside.cache (below inner Unit) (source load Unit)
    (fun key v => ((store key v).embed rested).embed deskSlot) ttl

end Layers

/-! ## Requests -/

/-- What is asked of a layer, or of the inner cache behind its back. -/
inductive Request where
  | get (key : String)
  | delete (key : String)
  | isExist (key : String)
  | clearAll
  | direct (c : Call)

section Requests

variable {σ : Type} (behind : Call → Process σ (Answer Reply)) (layer : Cache σ)

/-- Makes a request. -/
def Request.run : Request → Process σ (Answer Reply)
  | .get key => (Call.get key).run layer
  | .delete key => (Call.delete key).run layer
  | .isExist key => (Call.isExist key).run layer
  | .clearAll => Call.clearAll.run layer
  | .direct c => behind c

/-- Makes one request after the other. -/
def inTurn : List Request → Process σ (List (Answer Reply))
  | [] => return []
  | q :: qs => do
    let r ← q.run behind layer
    let rs ← inTurn qs
    return r :: rs

end Requests

/-- A call of the inner cache, behind the back of the layer. -/
def behind (inner : Cache ρ) (c : Call) : Process (Desk ρ) (Answer Reply) :=
  (c.run inner).embed rested

variable (E : Surroundings ρ)

/-- Others change the state of the inner cache and the loader. -/
def around : Surroundings (Desk ρ) :=
  .exact (fun d d' => ∃ r, E.moves d.rest r ∧ d' = { d with rest := r })
    (fun d => ⟨d.rest, E.refl _, rfl⟩)
    fun ⟨_, h, hs⟩ ⟨r, h', ht⟩ => ⟨r, E.trans h (by subst hs; exact h'), by subst hs; exact ht⟩

def beside (X : Type) : Surroundings (Own X ρ) :=
  .exact (fun s t => ∃ d, (around E).moves s.desk d ∧ t = ⟨d, s.own⟩)
    (fun s => ⟨s.desk, (around E).refl _, rfl⟩)
    fun ⟨_, h, hs⟩ ⟨d, h', ht⟩ => ⟨d, (around E).trans h (by subst hs; exact h'),
      by subst hs; exact ht⟩

/-- The requests can be answered so, in that order, with these loads and refusals seen, and the
inner cache and the loader in that state when all are done. -/
def Ends (inner : Cache ρ) (layer : Cache (Own X ρ)) (own : X) (requests : List Request) (r : ρ)
    (answers : List (Answer Reply)) (r' : ρ) (seen : List Sight) : Prop :=
  ∃ own', Runs (beside E X) (inTurn (fun c => (behind inner c).embed deskSlot) layer requests)
    ⟨⟨r, []⟩, own⟩ (some answers) ⟨⟨r', seen⟩, own'⟩

/-! ## Runs over a part of the state -/

variable {E}

omit [Clock ρ] in
theorem exact_deskSlot : (deskSlot (X := X) (ρ := ρ)).Exact := ⟨fun _ => rfl, fun _ _ _ => rfl⟩

/-- **A process over the desk runs as it does beside a layer's own part.** -/
theorem runs_embed_iff {p : Process (Desk ρ) α} {s t : Own X ρ} {o : Option α} :
    Runs (beside E X) (p.embed deskSlot) s o t ↔
      Runs (around E) p s.desk o t.desk ∧ t.own = s.own := by
  have apart : t = { s with desk := t.desk } ↔ t.own = s.own := by
    obtain ⟨d, x⟩ := t
    simp only [Own.mk.injEq, true_and]
  refine (runs_part_iff exact_deskSlot (fun _ => rfl) fun _ _ => Iff.rfl).trans ?_
  exact and_congr_right fun _ => apart

/-! ## Mirrors -/

/-- A process beside a layer's own part goes, while that part is as it should be, through the runs
of a process over the desk, and leaves its part so. -/
structure Mirrors (E : Surroundings ρ) (Good : X → Prop) (p : Process (Own X ρ) α)
    (q : Process (Desk ρ) α) : Prop where
  sound : ∀ {s a t}, Good s.own → Runs (beside E X) p s (some a) t →
    Runs (around E) q s.desk (some a) t.desk ∧ Good t.own
  complete : ∀ {s a d}, Good s.own → Runs (around E) q s.desk (some a) d →
    ∃ x, Runs (beside E X) p s (some a) ⟨d, x⟩ ∧ Good x

variable {Good : X → Prop}

theorem mirrors_embed (q : Process (Desk ρ) α) : Mirrors E Good (q.embed deskSlot) q where
  sound hs h := by
    obtain ⟨hr, ho⟩ := runs_embed_iff.mp h
    exact ⟨hr, ho ▸ hs⟩
  complete {s a d} hs h := ⟨s.own, runs_embed_iff.mpr ⟨h, rfl⟩, hs⟩

theorem mirrors_done (a : α) : Mirrors E Good (.done a) (.done a) := mirrors_embed (.done a)

theorem mirrors_bind {p : Process (Own X ρ) α} {q : Process (Desk ρ) α}
    {f : α → Process (Own X ρ) β} {g : α → Process (Desk ρ) β} (hp : Mirrors E Good p q)
    (hf : ∀ a, Mirrors E Good (f a) (g a)) : Mirrors E Good (p.bind f) (q.bind g) where
  sound hs h := by
    obtain ⟨a, s', ha, hb⟩ := runs_bind_some h
    obtain ⟨ha, hs'⟩ := hp.sound hs ha
    obtain ⟨hb, ht⟩ := (hf a).sound hs' hb
    exact ⟨ha.bind hb, ht⟩
  complete hs h := by
    obtain ⟨a, d', ha, hb⟩ := runs_bind_some h
    obtain ⟨x, ha, hx⟩ := hp.complete hs ha
    obtain ⟨y, hb, hy⟩ := (hf a).complete (s := ⟨d', x⟩) hx hb
    exact ⟨y, ha.bind hb, hy⟩

/-- A step in a layer's own part alone. -/
theorem runs_own {h : X → X} {k : X → Process (Own X ρ) α} {s t : Own X ρ} {o : Option α} :
    Runs (beside E X) (.act (fun s => ⟨s.desk, h s.own⟩) fun s => k s.own) s o t ↔
      Runs (beside E X) (k s.own) ⟨s.desk, h s.own⟩ o t := by
  constructor
  · intro hr
    cases hr with
    | act hm hk =>
      obtain ⟨d, hd, rfl⟩ := hm
      exact hk.after ⟨d, hd, rfl⟩
  · exact .act (g := fun s => ⟨s.desk, h s.own⟩) (k := fun s => k s.own) ((beside E X).refl s)

/-- A wait for a layer's own part alone, where it is over. -/
theorem runs_ready {b : X → Bool} {c : Own X ρ → Own X ρ} {k : X → Process (Own X ρ) α}
    {s t : Own X ρ} {a : α} (hb : b s.own = true) :
    Runs (beside E X) (.wait (.event fun s => b s.own) c fun s => k s.own) s (some a) t ↔
      Runs (beside E X) (k s.own) s (some a) t := by
  constructor
  · intro hr
    obtain ⟨_, ⟨d, hd, rfl⟩, -, hk⟩ := runs_wait hr
    exact hk.after ⟨d, hd, rfl⟩
  · exact .wait (k := fun s => k s.own) ((beside E X).refl s) hb

/-- What is left in the end is a layer's own part alone. -/
theorem runs_guarded {h : X → X} {p : Process (Own X ρ) α} {s t : Own X ρ} {a : α} :
    Runs (beside E X) (p.guarded fun s => ⟨s.desk, h s.own⟩) s (some a) t ↔
      ∃ x, Runs (beside E X) p s (some a) ⟨t.desk, x⟩ ∧ t.own = h x := by
  induction p generalizing s with
  | done b =>
    constructor
    · intro hr
      cases hr with
      | act hm hk =>
        obtain ⟨d, hd, rfl⟩ := hm
        cases hk with
        | done hm =>
          obtain ⟨d', hd', rfl⟩ := hm
          exact ⟨s.own, .done ⟨d', (around E).trans hd hd', rfl⟩, rfl⟩
    · rintro ⟨x, hr, ho⟩
      cases hr with
      | done hm =>
        obtain ⟨d, hd, ht⟩ := hm
        obtain ⟨rfl, rfl⟩ := Own.mk.inj ht
        refine .act ⟨t.desk, hd, rfl⟩ (.done ⟨t.desk, (around E).refl _, ?_⟩)
        rw [← ho]
  | act g k ih =>
    constructor
    · intro hr
      cases hr with
      | act hm hk =>
        obtain ⟨x, hx, ho⟩ := (ih _).mp hk
        exact ⟨x, .act hm hx, ho⟩
    · rintro ⟨x, hr, ho⟩
      cases hr with
      | act hm hk => exact .act hm ((ih _).mpr ⟨x, hk, ho⟩)
  | wait w c k ih =>
    constructor
    · intro hr
      cases hr with
      | wait hm hw hk =>
        obtain ⟨x, hx, ho⟩ := (ih _).mp hk
        exact ⟨x, .wait hm hw hx, ho⟩
    · rintro ⟨x, hr, ho⟩
      cases hr with
      | wait hm hw hk => exact .wait hm hw ((ih _).mpr ⟨x, hk, ho⟩)

/-! ## One flight -/

/-- No flight is under way. -/
def Idle (fs : Flights) : Prop := fs.flights = []

/-- The flight of one caller alone. -/
def solo (n : Nat) (key : String) (line : List Nat) (o : Option (Answer Value)) : Flights :=
  ⟨[⟨n, key, true, [n], line, o, []⟩], n + 1⟩

theorem join_idle {fs : Flights} (h : Idle fs) (key : String) :
    fs.join key = (fs.next, solo fs.next key [] none) := by
  obtain ⟨flights, next⟩ := fs
  obtain rfl : flights = [] := h
  simp [Flights.join, Flights.enlist, Flights.change, Flight.isFor, Flight.new, Flight.board, solo]

section Solo

variable {n : Nat} {key : String} {line : List Nat} {o : Option (Answer Value)}

theorem lineUp_solo : (solo n key line o).lineUp n = solo n key (line ++ [n]) o := by
  simp [Flights.lineUp, Flights.change, Flight.has, solo]

theorem outcome?_solo : (solo n key line o).outcome? n = o := by
  simp [Flights.outcome?, Flights.find?, Flight.has, solo]

theorem ready_solo : (solo n key [n] none).ready n = true := by
  simp [Flights.ready, Flights.outcome?, Flights.leads, Flights.find?, Flight.has, solo]

theorem settle_solo (a : Answer Value) :
    (solo n key line o).settle n a = solo n key line (some a) := by
  simp [Flights.settle, Flights.change, Flight.has, solo]

theorem idle_leave_solo : Idle ((solo n key line o).leave n) := by
  simp [Idle, Flights.leave, Flights.part, Flights.release, Flights.change, Flight.has,
    Flight.leftBy, Flight.part, Flight.release, Flight.references, solo]

end Solo

section Reading

variable {inner : Cache ρ} {load : Loader ρ} {ttl : Duration} {key : String}

/-- A load over the desk, whatever it says of a refusal. -/
def fetching (inner : Cache ρ) (load : Loader ρ) (ttl : Duration) (key : String) :
    Process (Desk ρ) (Answer Value) := (asked load).fetch (watched inner) ttl "" key

/-- A read through. -/
def reading (inner : Cache ρ) (load : Loader ρ) (ttl : Duration) (key : String) :
    Process (Desk ρ) (Answer Value) :=
  ((watched inner).get key).bind fun
  | .ok v => .done (.ok v)
  | .error _ => fetching inner load ttl key

omit [Clock ρ] in
theorem embed_bind (p : Process (Desk ρ) α) (f : α → Process (Desk ρ) β) :
    (p.bind f).embed (deskSlot (X := X)) =
      (p.embed deskSlot).bind fun a => (f a).embed deskSlot := by
  induction p with
  | done a => rfl
  | act g k ih => exact congrArg _ (funext fun s : Own X ρ => ih s.desk)
  | wait w c k ih => exact congrArg _ (funext fun s : Own X ρ => ih s.desk)

omit [Clock ρ] in
/-- A load beside a layer's own part. -/
theorem fetch_embed (words : String) :
    (source load X).fetch (below inner X) ttl words key =
      (fetching inner load ttl key).embed deskSlot := by
  change _ = Process.embed deskSlot (Process.bind _ _)
  rw [embed_bind]
  refine congrArg (Process.bind _) (funext fun r => ?_)
  cases r with
  | error c => rfl
  | ok v =>
    change _ = Process.embed deskSlot (Process.bind _ _)
    rw [embed_bind]
    refine congrArg (Process.bind _) (funext fun a => ?_)
    cases a with
    | ok _ => rfl
    | error e => rfl

theorem mirrors_fetch (Good : X → Prop) (words : String) :
    Mirrors E Good ((source load X).fetch (below inner X) ttl words key)
      (fetching inner load ttl key) := by
  rw [fetch_embed]
  exact mirrors_embed _

/-- What a caller does in its flight. -/
def boarded (inner : Cache ρ) (load : Loader ρ) (ttl : Duration) (key : String) (me : Nat) :
    Process (Own Flights ρ) (Answer Value) := do
  Process.change (ownSlot.modify (Flights.lineUp me))
  Process.await fun s => s.own.ready me
  Singleflight.ride (below inner Flights) (source load Flights) ttl ownSlot key me

/-- What a caller does on its turn: it takes the outcome of its flight, or loads. -/
def onTurn (inner : Cache ρ) (load : Loader ρ) (ttl : Duration) (key : String) (me : Nat) :
    Option (Answer Value) → Process (Own Flights ρ) (Answer Value)
  | some o => .done o
  | none => ((source load Flights).fetch (below inner Flights) ttl
      "Singleflight could not cache key" key).bind (Singleflight.finish ownSlot me)

/-- The load of a flight is settled in it. -/
theorem runs_finish {n : Nat} {line : List Nat} {d : Desk ρ} {t : Own Flights ρ}
    {o a : Answer Value} :
    Runs (beside E Flights) (Singleflight.finish ownSlot n o) ⟨d, solo n key line none⟩ (some a) t ↔
      Runs (around E) (.done o) d (some a) t.desk ∧ t.own = solo n key line (some a) := by
  refine (runs_own (h := Flights.settle n o) (k := fun _ => .done o)).trans ?_
  rw [settle_solo]
  constructor
  · intro h
    cases h with
    | done hm =>
      obtain ⟨d', hd, rfl⟩ := hm
      exact ⟨.done hd, rfl⟩
  · rintro ⟨h, ho⟩
    cases h with
    | done hd => exact .done ⟨t.desk, hd, by rw [← ho]⟩

/-- A caller alone runs the load of its flight. -/
theorem runs_boarded {n : Nat} {d : Desk ρ} {t : Own Flights ρ} {a : Answer Value} :
    Runs (beside E Flights) (boarded inner load ttl key n) ⟨d, solo n key [] none⟩ (some a) t ↔
      Runs (around E) (fetching inner load ttl key) d (some a) t.desk ∧
        t.own = solo n key [n] (some a) := by
  -- It lines up, is the first in line, and finds no outcome.
  have hload : Runs (beside E Flights) (boarded inner load ttl key n) ⟨d, solo n key [] none⟩
      (some a) t ↔ Runs (beside E Flights) (onTurn inner load ttl key n none)
        ⟨d, solo n key [n] none⟩ (some a) t := by
    refine (runs_own (h := Flights.lineUp n) (k := fun _ => _)).trans ?_
    rw [lineUp_solo]
    refine (runs_ready (b := Flights.ready n) (k := fun _ => _) ready_solo).trans ?_
    refine (runs_own (h := id) (k := fun x => onTurn inner load ttl key n (x.outcome? n))).trans ?_
    rw [List.nil_append, outcome?_solo]
    exact Iff.rfl
  rw [hload, onTurn, fetch_embed, runs_bind_iff]
  constructor
  · rintro ⟨o, s', hf, hr⟩
    obtain ⟨hf, ho⟩ := runs_embed_iff.mp hf
    obtain ⟨d', x⟩ := s'
    obtain rfl : x = solo n key [n] none := ho
    obtain ⟨hr, ht⟩ := runs_finish.mp hr
    rw [← bind_done (fetching inner load ttl key)]
    exact ⟨hf.bind hr, ht⟩
  · rintro ⟨hf, ht⟩
    exact ⟨a, ⟨t.desk, solo n key [n] none⟩, runs_embed_iff.mpr ⟨hf, rfl⟩,
      runs_finish.mpr ⟨.done ((around E).refl _), ht⟩⟩

/-- **With nobody else in flight, a shared load is a load.** -/
theorem runs_share {s t : Own Flights ρ} (hs : Idle s.own) {a : Answer Value} :
    Runs (beside E Flights)
        (Singleflight.share Flights.leave (below inner Flights) (source load Flights) ttl ownSlot
          key) s (some a) t ↔
      Runs (around E) (fetching inner load ttl key) s.desk (some a) t.desk ∧
        t.own = (solo s.own.next key [s.own.next] (some a)).leave s.own.next := by
  refine (runs_own (h := fun x => (x.join key).2) (k := fun x =>
    (boarded inner load ttl key (x.join key).1).guarded
      (ownSlot.modify (Flights.leave (x.join key).1)))).trans ?_
  rw [join_idle hs]
  refine (runs_guarded (h := Flights.leave s.own.next)).trans ?_
  constructor
  · rintro ⟨x, hr, ht⟩
    obtain ⟨hf, rfl⟩ := runs_boarded.mp hr
    exact ⟨hf, ht⟩
  · rintro ⟨hf, ht⟩
    exact ⟨solo s.own.next key [s.own.next] (some a), runs_boarded.mpr ⟨hf, rfl⟩, ht⟩

theorem mirrors_share : Mirrors E Idle
    (Singleflight.share Flights.leave (below inner Flights) (source load Flights) ttl ownSlot key)
    (fetching inner load ttl key) where
  sound hs h := by
    obtain ⟨hf, ht⟩ := (runs_share hs).mp h
    exact ⟨hf, ht ▸ idle_leave_solo⟩
  complete hs h := ⟨_, (runs_share hs).mpr ⟨h, rfl⟩, idle_leave_solo⟩

/-- **A shared read is a read through**, as long as nobody else is in flight. -/
theorem mirrors_singleflight : Mirrors E Idle ((singleflight inner load ttl).get key)
    (reading inner load ttl key) := by
  refine mirrors_bind (mirrors_embed _) fun o => ?_
  cases o with
  | ok v => exact mirrors_done _
  | error e => exact mirrors_share

theorem mirrors_readThrough (Good : Unit → Prop) :
    Mirrors E Good ((readThrough inner load ttl).get key) (reading inner load ttl key) := by
  refine mirrors_bind (mirrors_embed _) fun o => ?_
  cases o with
  | ok v => exact mirrors_done _
  | error e => exact mirrors_fetch Good _

/-! ## A filter that knows the keys -/

section Guarding

variable {φ : Type} {filter : Guard.Membership φ} {policy : Guard.Policy}

/-- What the filter knows, it knows after every test and every addition. -/
structure Lasting (filter : Guard.Membership φ) : Prop where
  test : ∀ key key' x, (filter.test key x).1 = true →
    (filter.test key (filter.test key' x).2).1 = true
  add : ∀ key key' x, (filter.test key x).1 = true →
    (filter.test key (filter.add key' x)).1 = true

omit [Clock ρ] in
/-- A filter over bits is one: no bit is cleared. -/
theorem lasting_bits (h : Filter.Hashing) :
    Lasting ⟨fun key f => (f.test h key, f), Filter.Bits.add h⟩ where
  test _ _ _ hk := hk
  add key key' f hk := by
    change Filter.Bits.test h key (f.add h key') = true
    unfold Filter.Bits.test at hk ⊢
    rw [Filter.Bits.positionsOf_add, List.all_eq_true]
    intro i hi
    rw [Filter.Bits.add, Filter.Bits.getLsbD_foldl_set, List.all_eq_true.mp hk i hi, Bool.true_or]

/-- A step in a layer's own part, from which the same is mirrored. -/
theorem mirrors_own {Good : X → Prop} {h : X → X} {k : X → Process (Own X ρ) α}
    {q : Process (Desk ρ) α} (hgood : ∀ x, Good x → Good (h x))
    (hk : ∀ x, Good x → Mirrors E Good (k x) q) :
    Mirrors E Good (.act (fun s => ⟨s.desk, h s.own⟩) fun s => k s.own) q where
  sound {s a t} hs hr := (hk s.own hs).sound (s := ⟨s.desk, h s.own⟩) (hgood _ hs) (runs_own.mp hr)
  complete {s a d} hs hr := by
    obtain ⟨x, hx, hgx⟩ := (hk s.own hs).complete (s := ⟨s.desk, h s.own⟩) (hgood _ hs) hr
    exact ⟨x, runs_own.mpr hx, hgx⟩

/-- The keys are known to the filter. -/
def Knows (filter : Guard.Membership φ) (P : String → Prop) (x : φ) : Prop :=
  ∀ key, P key → (filter.test key x).1 = true

/-- What a guard does with what it has loaded. -/
def enroll (filter : Guard.Membership φ) (policy : Guard.Policy) (key : String) :
    Answer Value → Process (Own φ ρ) (Answer Value)
  | .error e => .done (.error e)
  | .ok v => if policy.addOnLoad then
      .act (fun s => ⟨s.desk, filter.add key s.own⟩) fun _ => .done (.ok v)
    else .done (.ok v)

/-- What a guard does on a miss, once the filter has answered. -/
def missed (inner : Cache ρ) (load : Loader ρ) (filter : Guard.Membership φ)
    (policy : Guard.Policy) (key : String) (miss : CacheError) (known : Bool) :
    Process (Own φ ρ) (Answer Value) :=
  if known then
    ((source load φ).fetch (below inner φ) policy.ttl "Bloom filter cache could not cache key"
      key).bind (enroll filter policy key)
  else .done (.error miss)

theorem mirrors_enroll (hl : Lasting filter) (P : String → Prop) (r : Answer Value) :
    Mirrors E (Knows filter P) (enroll filter policy key r) (.done r) := by
  have hadd : ∀ x, Knows filter P x → Knows filter P (filter.add key x) :=
    fun x hx k hk => hl.add k key x (hx k hk)
  cases r with
  | error e => exact mirrors_done _
  | ok v =>
    change Mirrors E _ (if policy.addOnLoad then _ else _) _
    split
    · exact mirrors_own hadd fun _ _ => mirrors_done (Except.ok v)
    · exact mirrors_done _

/-- **A guarded read is a read through**, for a key that the filter knows. -/
theorem mirrors_guard (hl : Lasting filter) {P : String → Prop} (hkey : P key) :
    Mirrors E (Knows filter P) ((guarding inner load filter policy).get key)
      (reading inner load policy.ttl key) := by
  refine mirrors_bind (mirrors_embed _) fun o => ?_
  cases o with
  | ok v => exact mirrors_done _
  | error miss =>
    have htest : ∀ x, Knows filter P x → Knows filter P (filter.test key x).2 :=
      fun x hx k hk => hl.test k key x (hx k hk)
    have hmissed : ∀ x, Knows filter P x → Mirrors E (Knows filter P)
        (missed inner load filter policy key miss (filter.test key x).1)
        (fetching inner load policy.ttl key) := by
      intro x hx
      rw [hx key hkey, ← bind_done (fetching inner load policy.ttl key)]
      exact mirrors_bind (mirrors_fetch _ _) (mirrors_enroll hl P)
    exact mirrors_own htest hmissed

end Guarding

/-! ## Beside the cache -/

/-- What has been seen stays seen. -/
def Grows (d d' : Desk ρ) : Prop := ∃ added, d'.seen = added ++ d.seen

omit [Clock ρ] in
theorem Grows.refl (d : Desk ρ) : Grows d d := ⟨[], rfl⟩

omit [Clock ρ] in
theorem keeps_rested (q : Process ρ α) : Keeps Grows (q.embed rested) :=
  keeps_embed (fun _ d => Grows.refl d) q

omit [Clock ρ] in
theorem keeps_mark (m : Sight) : Keeps Grows (Process.change (mark (ρ := ρ) m)) :=
  .act (fun _ => ⟨[m], rfl⟩) fun _ => .done ()

/-- What has been seen before a run has been seen after it. -/
theorem seen_of_runs {q : Process (Desk ρ) α} {d d' : Desk ρ} {o : Option α} (hk : Keeps Grows q)
    (h : Runs (around E) q d o d') {m : Sight} (hm : m ∈ d.seen) : m ∈ d'.seen := by
  have hq : Maintains (fun d : Desk ρ => m ∈ d.seen) (fun _ => True) q := by
    refine maintains_of_keeps hk fun d d' ⟨added, hd⟩ hm => ?_
    rw [hd]
    exact List.mem_append_right _ hm
  refine (runs_of_maintains hq ?_ h hm).1
  rintro d _ ⟨r, -, rfl⟩ hm
  exact hm

omit [Clock ρ] in
theorem keeps_asked (key : String) : Keeps Grows (asked load key) :=
  keeps_bind (keeps_mark _) fun _ => keeps_rested _

omit [Clock ρ] in
theorem keeps_put (key : String) (v : Value) (ttl : Duration) :
    Keeps Grows ((watched inner).put key v ttl) := by
  refine keeps_bind (keeps_rested _) fun r => ?_
  cases r with
  | ok _ => exact .done _
  | error e => exact keeps_bind (keeps_mark _) fun _ => .done _

/-- A put that is refused is seen. -/
theorem seen_of_refused {key : String} {v : Value} {e : CacheError} {d d' : Desk ρ}
    (h : Runs (around E) ((watched inner).put key v ttl) d (some (.error e)) d') :
    .refused key ∈ d'.seen := by
  obtain ⟨r, d₁, -, hr⟩ := runs_bind_some h
  cases r with
  | ok _ => cases hr
  | error e' =>
    cases hr with
    | act hm hk =>
      cases hk with
      | done hm =>
        obtain ⟨r, -, rfl⟩ := hm
        exact List.mem_cons_self

theorem runs_bind_congr {p : Process (Desk ρ) α} {f g : α → Process (Desk ρ) β} {d d' : Desk ρ}
    {b : β} (h : ∀ a d₁, Runs (around E) p d (some a) d₁ →
      (Runs (around E) (f a) d₁ (some b) d' ↔ Runs (around E) (g a) d₁ (some b) d')) :
    Runs (around E) (p.bind f) d (some b) d' ↔ Runs (around E) (p.bind g) d (some b) d' := by
  rw [runs_bind_iff, runs_bind_iff]
  exact exists_congr fun a => exists_congr fun d₁ => and_congr_right fun hp => h a d₁ hp

/-- **A read beside the cache is a read through**, if nothing has been refused. -/
theorem runs_aside_iff {d d' : Desk ρ} {a : Answer Value} (hno : .refused key ∉ d'.seen) :
    Runs (around E) (CacheAside.get (watched inner) (asked load) ttl key) d (some a) d' ↔
      Runs (around E) (reading inner load ttl key) d (some a) d' := by
  refine runs_bind_congr fun o d₁ _ => ?_
  cases o with
  | ok v => exact Iff.rfl
  | error e =>
    refine runs_bind_congr fun r d₂ _ => ?_
    cases r with
    | error c => exact Iff.rfl
    | ok v =>
      refine runs_bind_congr fun u d₃ hput => ?_
      cases u with
      | ok _ => exact Iff.rfl
      | error e =>
        -- Either way, the refusal is seen in the end.
        have hseen := seen_of_refused hput
        constructor
        · exact fun h => absurd (seen_of_runs (.done _) h hseen) hno
        · refine fun h => absurd (seen_of_runs ?_ h hseen) hno
          exact .act (fun d => Grows.refl d) fun _ => .done _

end Reading

/-! ## Sequences of requests -/

section Sequences

variable {inner : Cache ρ} {load : Loader ρ} {ttl : Duration}

/-- The reads of a layer over the desk, the other operations being those of the inner cache. -/
def reader (inner : Cache ρ) (get : String → Process (Desk ρ) (Answer Value)) : Cache (Desk ρ) :=
  { watched inner with get := get }

/-- A layer mirrors a cache over the desk, for reads of the keys that satisfy `P`. -/
structure Alike (E : Surroundings ρ) (Good : X → Prop) (P : String → Prop)
    (layer : Cache (Own X ρ)) (c : Cache (Desk ρ)) : Prop where
  get : ∀ key, P key → Mirrors E Good (layer.get key) (c.get key)
  delete : ∀ key, Mirrors E Good (layer.delete key) (c.delete key)
  isExist : ∀ key, Mirrors E Good (layer.isExist key) (c.isExist key)
  clearAll : Mirrors E Good layer.clearAll c.clearAll

variable {Good : X → Prop} {P : String → Prop} {layer : Cache (Own X ρ)} {c : Cache (Desk ρ)}

theorem mirrors_request (h : Alike E Good P layer c) {q : Request}
    (hq : ∀ key, q = .get key → P key) :
    Mirrors E Good (q.run (fun c => (behind inner c).embed deskSlot) layer)
      (q.run (behind inner) c) := by
  cases q with
  | get key => exact mirrors_bind (h.get key (hq key rfl)) fun _ => mirrors_done _
  | delete key => exact mirrors_bind (h.delete key) fun _ => mirrors_done _
  | isExist key => exact mirrors_bind (h.isExist key) fun _ => mirrors_done _
  | clearAll => exact mirrors_bind h.clearAll fun _ => mirrors_done _
  | direct c => exact mirrors_embed _

theorem mirrors_inTurn (h : Alike E Good P layer c) {requests : List Request}
    (hP : ∀ key, .get key ∈ requests → P key) :
    Mirrors E Good (inTurn (fun c => (behind inner c).embed deskSlot) layer requests)
      (inTurn (behind inner) c requests) := by
  induction requests with
  | nil => exact mirrors_done _
  | cons q qs ih =>
    refine mirrors_bind (mirrors_request h fun key hk => hP key (hk ▸ List.mem_cons_self))
      fun r => mirrors_bind (ih fun key hk => hP key (List.mem_cons_of_mem _ hk)) fun rs =>
        mirrors_done _

/-- A layer ends as the cache that it mirrors. -/
theorem ends_iff (h : Alike E Good P layer c) {own : X} (hown : Good own)
    {requests : List Request} (hP : ∀ key, .get key ∈ requests → P key) {r r' : ρ}
    {answers : List (Answer Reply)} {seen : List Sight} :
    Ends E inner layer own requests r answers r' seen ↔
      Runs (around E) (inTurn (behind inner) c requests) ⟨r, []⟩ (some answers) ⟨r', seen⟩ := by
  have hm : Mirrors E Good (inTurn (fun c => (behind inner c).embed deskSlot) layer requests)
      (inTurn (behind inner) c requests) := mirrors_inTurn h hP
  constructor
  · rintro ⟨own', hr⟩
    exact (hm.sound (s := ⟨⟨r, []⟩, own⟩) hown hr).1
  · intro hr
    obtain ⟨x, hx, -⟩ := hm.complete (s := ⟨⟨r, []⟩, own⟩) hown hr
    exact ⟨x, hx⟩

/-- A layer mirrors a cache over the desk if its reads do and the rest is the inner cache's. -/
theorem alike_of_get {get : String → Process (Desk ρ) (Answer Value)}
    (hd : layer.delete = (below inner X).delete) (he : layer.isExist = (below inner X).isExist)
    (hc : layer.clearAll = (below inner X).clearAll)
    (hg : ∀ key, P key → Mirrors E Good (layer.get key) (get key)) :
    Alike E Good P layer (reader inner get) where
  get := hg
  delete key := by
    rw [hd]
    exact mirrors_embed _
  isExist key := by
    rw [he]
    exact mirrors_embed _
  clearAll := by
    rw [hc]
    exact mirrors_embed _

/-- Reading beside the cache mirrors itself over the desk. -/
theorem mirrors_aside (Good : Unit → Prop) (store : Store ρ) (key : String) :
    Mirrors E Good ((aside inner load ttl store).get key)
      (CacheAside.get (watched inner) (asked load) ttl key) := by
  refine mirrors_bind (mirrors_embed _) fun o => ?_
  cases o with
  | ok v => exact mirrors_done _
  | error e =>
    refine mirrors_bind (mirrors_embed _) fun r => ?_
    cases r with
    | error c => exact mirrors_done _
    | ok v =>
      refine mirrors_bind (mirrors_embed _) fun u => ?_
      cases u with
      | ok _ => exact mirrors_done _
      | error e => exact mirrors_done _

theorem alike_readThrough : Alike E (fun _ => True) (fun _ => True) (readThrough inner load ttl)
    (reader inner (reading inner load ttl)) :=
  alike_of_get rfl rfl rfl fun _ _ => mirrors_readThrough _

theorem alike_singleflight : Alike E Idle (fun _ => True) (singleflight inner load ttl)
    (reader inner (reading inner load ttl)) :=
  alike_of_get rfl rfl rfl fun _ _ => mirrors_singleflight

theorem alike_guarding {φ : Type} {filter : Guard.Membership φ} {policy : Guard.Policy}
    (hl : Lasting filter) (P : String → Prop) :
    Alike E (Knows filter P) P (guarding inner load filter policy)
      (reader inner (reading inner load policy.ttl)) :=
  alike_of_get rfl rfl rfl fun _ => mirrors_guard hl

theorem alike_aside (store : Store ρ) : Alike E (fun _ => True) (fun _ => True)
    (aside inner load ttl store) (reader inner (CacheAside.get (watched inner) (asked load) ttl)) :=
  alike_of_get rfl rfl rfl fun key _ => mirrors_aside _ store key

/-! ### Where nothing is refused -/

/-- Nothing has been refused. -/
def Unrefused (d : Desk ρ) : Prop := ∀ key, .refused key ∉ d.seen

/-- Two processes have the same runs among those at whose end nothing has been refused. -/
structure Tally (E : Surroundings ρ) (p q : Process (Desk ρ) α) : Prop where
  left : Keeps Grows p
  right : Keeps Grows q
  runs_iff : ∀ {d d' a}, Unrefused d' →
    (Runs (around E) p d (some a) d' ↔ Runs (around E) q d (some a) d')

theorem unrefused_of_runs {q : Process (Desk ρ) α} {d d' : Desk ρ} {o : Option α}
    (hk : Keeps Grows q) (h : Runs (around E) q d o d') (hno : Unrefused d') : Unrefused d :=
  fun key hm => hno key (seen_of_runs hk h hm)

theorem Tally.refl {p : Process (Desk ρ) α} (hk : Keeps Grows p) : Tally E p p :=
  ⟨hk, hk, fun _ => Iff.rfl⟩

theorem tally_bind {p q : Process (Desk ρ) α} {f g : α → Process (Desk ρ) β} (hp : Tally E p q)
    (hf : ∀ a, Tally E (f a) (g a)) : Tally E (p.bind f) (q.bind g) where
  left := keeps_bind hp.left fun a => (hf a).left
  right := keeps_bind hp.right fun a => (hf a).right
  runs_iff {d d' b} hno := by
    rw [runs_bind_iff, runs_bind_iff]
    constructor
    · rintro ⟨a, d₁, ha, hb⟩
      have hno₁ := unrefused_of_runs (hf a).left hb hno
      exact ⟨a, d₁, (hp.runs_iff hno₁).mp ha, ((hf a).runs_iff hno).mp hb⟩
    · rintro ⟨a, d₁, ha, hb⟩
      have hno₁ := unrefused_of_runs (hf a).right hb hno
      exact ⟨a, d₁, (hp.runs_iff hno₁).mpr ha, ((hf a).runs_iff hno).mpr hb⟩

theorem tally_done (a : α) : Tally (ρ := ρ) E (.done a) (.done a) := .refl (.done a)

omit [Clock ρ] in
/-- A read whose value is cached, whatever is made of a refusal. -/
theorem keeps_read {after : Value → Answer Unit → Process (Desk ρ) (Answer Value)}
    (h : ∀ v u, Keeps Grows (after v u)) (key : String) :
    Keeps Grows (((watched inner).get key).bind fun
      | .ok v => .done (.ok v)
      | .error _ => (asked load key).bind fun
        | .error c => .done (.error (.loadFailed key c))
        | .ok v => ((watched inner).put key v ttl).bind (after v)) := by
  refine keeps_bind (keeps_rested _) fun o => ?_
  cases o with
  | ok v => exact .done _
  | error e =>
    refine keeps_bind (keeps_asked key) fun r => ?_
    cases r with
    | error c => exact .done _
    | ok v => exact keeps_bind (keeps_put key v ttl) (h v)

omit [Clock ρ] in
theorem keeps_reading (key : String) : Keeps Grows (reading inner load ttl key) := by
  refine keeps_read (fun v u => ?_) key
  cases u with
  | ok _ => exact .done _
  | error e => exact .act (fun d => Grows.refl d) fun _ => .done _

omit [Clock ρ] in
theorem keeps_aside (key : String) :
    Keeps Grows (CacheAside.get (watched inner) (asked load) ttl key) := by
  refine keeps_read (fun v u => ?_) key
  cases u with
  | ok _ => exact .done _
  | error e => exact .done _

theorem tally_request {get get' : String → Process (Desk ρ) (Answer Value)}
    (h : ∀ key, Tally E (get key) (get' key)) (q : Request) :
    Tally E (q.run (behind inner) (reader inner get))
      (q.run (behind inner) (reader inner get')) := by
  cases q with
  | get key => exact tally_bind (h key) fun _ => tally_done _
  | delete key => exact tally_bind (.refl (keeps_rested _)) fun _ => tally_done _
  | isExist key => exact tally_bind (.refl (keeps_rested _)) fun _ => tally_done _
  | clearAll => exact tally_bind (.refl (keeps_rested _)) fun _ => tally_done _
  | direct c => exact .refl (keeps_rested _)

theorem tally_inTurn {get get' : String → Process (Desk ρ) (Answer Value)}
    (h : ∀ key, Tally E (get key) (get' key)) (requests : List Request) :
    Tally E (inTurn (behind inner) (reader inner get) requests)
      (inTurn (behind inner) (reader inner get') requests) := by
  induction requests with
  | nil => exact tally_done _
  | cons q qs ih =>
    exact tally_bind (tally_request h q) fun r => tally_bind ih fun rs => tally_done _

theorem tally_aside (key : String) : Tally E
    (CacheAside.get (watched inner) (asked load) ttl key) (reading inner load ttl key) :=
  ⟨keeps_aside key, keeps_reading key, fun hno => runs_aside_iff (hno key)⟩

/-! ### All four -/

/-- **The four readers agree.** They end alike after every sequence of requests, each made when the
one before has been answered: with the same answers, the same loads in the same order, and the same
inner state. Sharing and reading through do so without any condition; a guard, if its filter knows
every key that is read and forgets none; reading beside the cache, if nothing is refused. -/
theorem readers_agree (E : Surroundings ρ) (inner : Cache ρ) (load : Loader ρ) (ttl : Duration)
    (store : Store ρ) {φ : Type} (filter : Guard.Membership φ) (f : φ) (addOnLoad addOnPut : Bool)
    (requests : List Request) (r r' : ρ) (answers : List (Answer Reply)) (seen : List Sight) :
    let through := Ends E inner (readThrough inner load ttl) () requests r answers r' seen
    (Ends E inner (singleflight inner load ttl) .empty requests r answers r' seen ↔ through) ∧
    (Lasting filter → (∀ key, .get key ∈ requests → (filter.test key f).1 = true) →
      (Ends E inner (guarding inner load filter ⟨ttl, addOnLoad, addOnPut⟩) f requests r answers r'
        seen ↔ through)) ∧
    ((∀ key, .refused key ∉ seen) →
      (Ends E inner (aside inner load ttl store) () requests r answers r' seen ↔ through)) := by
  intro through
  have hthrough : through ↔ Runs (around E)
      (inTurn (behind inner) (reader inner (reading inner load ttl)) requests) ⟨r, []⟩
      (some answers) ⟨r', seen⟩ := ends_iff alike_readThrough trivial fun _ _ => trivial
  refine ⟨?_, fun hl hf => ?_, fun hno => ?_⟩
  · have hidle : Idle .empty := rfl
    exact (ends_iff alike_singleflight hidle fun _ _ => trivial).trans hthrough.symm
  · have hknows : Knows filter (fun key => Request.get key ∈ requests) f := hf
    exact (ends_iff (alike_guarding hl _) hknows fun _ => id).trans hthrough.symm
  · have hun : Unrefused (⟨r', seen⟩ : Desk ρ) := hno
    refine (ends_iff (alike_aside store) trivial fun _ _ => trivial).trans ?_
    exact ((tally_inTurn tally_aside requests).runs_iff hun).trans hthrough.symm

end Sequences

/-- A key that is missed and then hit: one load, whoever reads. -/
theorem readers_agree_missThenHit :
    let load : Loader Solo := fun _ => .done (.ok (.bool true))
    let filter : Guard.Membership Filter.Bits :=
      ⟨fun key f => (f.test .standard key, f), Filter.Bits.add .standard⟩
    let f := Filter.Bits.add .standard "k" ⟨1, 2, 0⟩
    let requests : List Request := [.get "k", .get "k"]
    let answers : List (Answer Reply) := [.ok (.value (.bool true)), .ok (.value (.bool true))]
    let s : Solo := ⟨0, .empty, []⟩
    ∃ s', Ends .anything Solo.memory.cache (readThrough Solo.memory.cache load .zero) () requests s
        answers s' [.load "k"] ∧
      Ends .anything Solo.memory.cache (singleflight Solo.memory.cache load .zero) .empty requests s
        answers s' [.load "k"] ∧
      Ends .anything Solo.memory.cache
        (guarding Solo.memory.cache load filter ⟨.zero, true, true⟩) f requests s answers s'
        [.load "k"] ∧
      Ends .anything Solo.memory.cache
        (aside Solo.memory.cache load .zero fun _ _ => .done (.ok ())) () requests s answers s'
        [.load "k"] := by
  intro load filter f requests answers s
  obtain ⟨s', hs⟩ : ∃ s', Ends .anything Solo.memory.cache
      (readThrough Solo.memory.cache load .zero) () requests s answers s' [.load "k"] :=
    ⟨_, _, runs_of_advance rfl⟩
  have hknown : ∀ key, .get key ∈ requests → (filter.test key f).1 = true := by
    intro key hkey
    obtain rfl : key = "k" := by simpa [requests] using hkey
    unfold filter f
    exact Filter.Bits.test_add .standard "k" ⟨1, 2, 0⟩ (by decide)
  obtain ⟨hflight, hguard, haside⟩ := readers_agree .anything Solo.memory.cache load .zero
    (fun _ _ => .done (.ok ())) filter f true true requests s s' answers [.load "k"]
  exact ⟨s', hs, hflight.mpr hs, (hguard (lasting_bits _) hknown).mpr hs,
    (haside (by simp)).mpr hs⟩

end Desk
end LayeredCache

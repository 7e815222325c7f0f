import LayeredCache.Layer.Preload
import LayeredCache.Proofs.Memory
import LayeredCache.Proofs.Warm

/-!
# Who keeps a preloading cache

A preloading cache over any inner cache, with callers, refreshes and the sentinels' loop beside it.
The sentinels' engine is there as long as somebody refers to the preloading cache, or a refresh that
has found the engine holds on to it. The loop looks before each tick whether the engine is there; a
refresh looks when it has a value.

What refreshes ask of the loader, of the sentinels' engine and of the inner cache is recorded beside
the state, oldest first, each with the number of the refresh.

Results:
* `Worker.steps_of_next?`, `Beat.steps_of_next?`: what one step of a refresh and of the loop does.
* `leaves_client`: what a step of a caller leaves as it is.
-/

namespace LayeredCache

/-- What a refresh does. -/
inductive Deed where
  | called (key : String)
  | answered (key : String) (r : Except Cause Value)
  /-- It looks for the sentinels' engine, which is there or not. -/
  | looked (found : Bool)
  /-- It changes the sentinels' engine. -/
  | armed
  /-- It asks the inner cache to store a value. -/
  | stored (key : String) (v : Value) (d : Duration)

namespace Deed

/-- The deed is a call of the loader. -/
def isCall : Deed → Bool
  | .called _ => true
  | _ => false

/-- What a call of the loader came to. -/
def outcome? : Deed → Option (Except Cause Value)
  | .answered _ r => some r
  | _ => none

/-- The deed changes the sentinels' engine or asks the inner cache to change. -/
def Writes : Deed → Prop
  | .armed | .stored _ _ _ => True
  | _ => False

end Deed

/-- The sentinels' engine, those who keep it, the inner cache, and the rest of the state. -/
structure Owned (κ ρ : Type) where
  instant : Nat
  sentinel : Engine
  /-- The keys that refreshes were called for, oldest first. -/
  refreshes : List String
  /-- Somebody refers to the preloading cache. -/
  referred : Bool
  /-- How many refreshes hold the sentinels' engine. -/
  held : Nat
  deeds : List (Nat × Deed)
  inner : κ
  rest : ρ

namespace Owned

variable {ι κ ρ ε α β : Type}

instance : Clock (Owned κ ρ) := ⟨Owned.instant⟩

instance [Journal ρ] : Journal (Owned κ ρ) :=
  ⟨fun v t s => { s with rest := Journal.note v t s.rest }⟩

/-- The sentinels' engine is there. -/
def alive (s : Owned κ ρ) : Bool := s.referred || decide (0 < s.held)

/-- Records what refresh `j` does. -/
def record (j : Nat) (d : Deed) (s : Owned κ ρ) : Owned κ ρ :=
  { s with deeds := s.deeds ++ [(j, d)] }

/-- What refresh `j` has done, oldest first. -/
def deedsOf (j : Nat) (s : Owned κ ρ) : List Deed :=
  s.deeds.filterMap fun x => if x.1 = j then some x.2 else none

/-! ## Parts of the state -/

def rested : Slot (Owned κ ρ) ρ := ⟨Owned.rest, fun r s => { s with rest := r }, fun _ _ => rfl⟩

def sentinelSlot : Slot (Owned κ ρ) Engine :=
  ⟨Owned.sentinel, fun e s => { s with sentinel := e }, fun _ _ => rfl⟩

/-- The sentinels' engine, as refresh `j` changes it. -/
def armedSlot (j : Nat) : Slot (Owned κ ρ) Engine where
  get := Owned.sentinel
  set e s := record j .armed { s with sentinel := e }
  get_set _ _ := rfl

/-- An evicted sentinel calls for a refresh. -/
def demand (key : String) (s : Owned κ ρ) : Owned κ ρ :=
  { s with refreshes := s.refreshes ++ [key] }

/-- Only the rest of the state differs. -/
def Aside (s s' : Owned κ ρ) : Prop := ∃ r, s' = { s with rest := r }

/-- Only the inner cache and the rest of the state differ. -/
def Inward (s s' : Owned κ ρ) : Prop := ∃ x r, s' = { s with inner := x, rest := r }

/-! ## What runs -/

/-- An inner cache: it works on its own part of the state and on the rest. -/
structure Inner (κ ρ : Type) where
  cache : Cache (Owned κ ρ)
  inward : ∀ x : Call, (x.run cache).Keeps Inward

def innerSlot : Slot (Owned Engine ρ) Engine :=
  ⟨Owned.inner, fun e s => { s with inner := e }, fun _ _ => rfl⟩

/-- A memory cache as the inner one, with a receiver of what it evicts. -/
def memory (evicted : String → Value → ρ → ρ) : Memory (Owned Engine ρ) :=
  ⟨innerSlot, fun key v => rested.modify (evicted key v)⟩

theorem inward_attempt (evicted : String → Value → ρ → ρ) (f : Nat → Engine → Answer Engine) :
    ((memory evicted).attempt f).Keeps Inward := by
  refine .act (fun s => ?_) fun _ => .done _
  dsimp only
  split
  · exact ⟨_, s.rest, rfl⟩
  · exact ⟨s.inner, s.rest, rfl⟩

def Inner.ofMemory (evicted : String → Value → ρ → ρ) : Inner Engine ρ where
  cache := (memory evicted).cache
  inward x := by
    have asks {α : Type} (f : Owned Engine ρ → α) : (Process.ask f).Keeps Inward :=
      .act (fun s => ⟨s.inner, s.rest, rfl⟩) fun _ => .done _
    cases x with
    | get key => exact Process.keeps_bind (asks _) fun _ => .done _
    | getMulti keys => exact Process.keeps_bind (asks _) fun _ => .done _
    | isExist key => exact Process.keeps_bind (asks _) fun _ => .done _
    | put key v d => exact .act (fun s => ⟨_, s.rest, rfl⟩) fun _ => .done _
    | delete key => exact .act (fun s => ⟨_, s.rest, rfl⟩) fun _ => .done _
    | clearAll => exact .act (fun s => ⟨_, s.rest, rfl⟩) fun _ => .done _
    | step d key =>
      exact Process.keeps_bind (inward_attempt evicted fun now e => do
        return { e with table := ← e.table.step now key d }) fun _ => .done _
    | start payload =>
      exact Process.keeps_bind (inward_attempt evicted fun now e => e.startWith true now payload)
        fun _ => .done _

/-- The sentinels' engine. -/
def sentinels (slot : Slot (Owned κ ρ) Engine) : Memory (Owned κ ρ) :=
  ⟨slot, fun key _ => demand key⟩

section Parts

variable (inner : Inner κ ρ) (load : Loader ρ) (c : Preload.Config) (ttl : Duration)

/-- The preloading cache, `ttl` being the life of a sentinel. -/
def cache : Cache (Owned κ ρ) :=
  Preload.cache inner.cache (sentinels sentinelSlot) c.realTtl ttl

/-- A call of the preloading cache, which somebody who refers to it makes. -/
def client (x : Call) : Process (Owned κ ρ) (Answer Reply) := do
  Process.await Owned.referred
  x.run (cache inner c ttl)

/-- The loader, as refresh `j` calls it. -/
def seen (j : Nat) : Loader (Owned κ ρ) := fun key => do
  Process.change (record j (.called key))
  let r ← (load key).embed rested
  Process.change (record j (.answered key r))
  return r

/-- The inner cache, as refresh `j` asks it. -/
def asked (j : Nat) : Cache (Owned κ ρ) :=
  { inner.cache with
    put := fun key v d => do
      Process.change (record j (.stored key v d))
      inner.cache.put key v d }

/-- How refresh `j` holds on to the sentinels' engine. -/
def grip (j : Nat) : Preload.Grip (Owned κ ρ) where
  hold s := (s.alive,
    record j (.looked s.alive) { s with held := if s.alive then s.held + 1 else s.held })
  release s := { s with held := s.held - 1 }

/-- The refresh that was called for as number `j`. -/
def worker [Journal ρ] (j : Nat) : Process (Owned κ ρ) (Answer Reply) := do
  Process.await fun s => j < s.refreshes.length
  match ← Process.ask fun s : Owned κ ρ => s.refreshes[j]? with
  | none => return .ok .nothing
  | some key =>
    Preload.refresh (asked inner j) (seen load j) (sentinels (armedSlot j)) (grip j) c.realTtl ttl
      c.retries key
    return .ok .nothing

/-- The next tick of the sentinels' loop is due. -/
def isDue (s : Owned κ ρ) : Bool := s.sentinel.loop.any fun l => l.next ≤ s.instant

/-- So many ticks of the sentinels' loop, each when it is due, while the engine is there. -/
def ticks : Nat → Process (Owned κ ρ) (Answer Reply)
  | 0 => return .ok .nothing
  | n + 1 => do
    Process.await isDue
    if ← Process.ask alive then
      let _ ← (sentinels sentinelSlot).tick
      ticks n
    else return .ok .nothing

/-- Callers, refreshes and the loop, none of which has taken a step. -/
def pool [Journal ρ] (calls : ι → Call) (n : Nat) (s : Owned κ ρ) :
    Pool (Warm.Who ι) (Owned κ ρ) (Answer Reply) where
  state := s
  threads
    | .client i => some (client inner c ttl (calls i))
    | .worker j => some (worker inner load c ttl j)
    | .loop => some (ticks n)

end Parts

/-- What happens from outside. -/
inductive Outer (ε : Type) where
  /-- Others are at work on the inner cache and elsewhere while time passes. -/
  | others (e : ε) (n : Nat)
  /-- The last reference to the preloading cache is dropped. -/
  | dropped

/-- Something happens from outside. -/
def happen (effect : ε → κ × ρ → κ × ρ) : Outer ε → Owned κ ρ → Owned κ ρ
  | .others e n, s =>
    { s with
      instant := s.instant + n
      inner := (effect e (s.inner, s.rest)).1
      rest := (effect e (s.inner, s.rest)).2 }
  | .dropped, s => { s with referred := false }

/-! ## Refreshes -/

/-- How far a refresh has come. -/
inductive Worker (κ ρ : Type) where
  | unasked
  /-- About to see which key it is for. -/
  | asked
  | loading (key : String) (q : Process (Owned κ ρ) (Option Value))
  /-- About to renew the sentinel. -/
  | arming (key : String) (v : Value)
  /-- About to ask the inner cache. -/
  | storing (key : String) (v : Value)
  /-- The inner cache has been asked. -/
  | writing (key : String) (v : Value) (q : Process (Owned κ ρ) Unit)
  | finished

namespace Worker

variable [Journal ρ] (inner : Inner κ ρ) (load : Loader ρ) (c : Preload.Config) (ttl : Duration)
  (j : Nat)

/-- A refresh answers nothing. -/
def ended (p : Process (Owned κ ρ) Unit) : Process (Owned κ ρ) (Answer Reply) :=
  p.bind fun _ => .done (.ok .nothing)

/-- What a refresh does with what it has loaded. -/
def keep (key : String) : Option Value → Process (Owned κ ρ) Unit :=
  Preload.keep (Owned.asked inner j) (sentinels (armedSlot j)) (grip j) c.realTtl ttl key

/-- What the inner cache does with the value of a refresh. -/
def write (key : String) (v : Value) : Process (Owned κ ρ) Unit :=
  (inner.cache.put key v c.realTtl).bind (Preload.noted "Preload could not write key " key)

/-- What remains of a refresh. -/
def process : Worker κ ρ → Process (Owned κ ρ) (Answer Reply)
  | .unasked => Owned.worker inner load c ttl j
  | .asked => do
    match ← Process.ask fun s : Owned κ ρ => s.refreshes[j]? with
    | none => return .ok .nothing
    | some key =>
      ended ((Preload.attempts (seen load j) c.retries key c.retries).bind
        (keep inner c ttl j key))
  | .loading key q => ended (q.bind (keep inner c ttl j key))
  | .arming key v =>
    ended ((Preload.renew (Owned.asked inner j) (sentinels (armedSlot j)) c.realTtl ttl
      key v).guarded (grip j).release)
  | .storing key v =>
    ended (Process.guarded (grip j).release (.act (record j (.stored key v c.realTtl)) fun _ =>
      write inner c key v))
  | .writing _ _ q => ended (q.guarded (grip j).release)
  | .finished => .done (.ok .nothing)

/-- One step of a refresh. -/
inductive Steps (s : Owned κ ρ) : Worker κ ρ → Worker κ ρ → Owned κ ρ → Prop
  | begin (h : j < s.refreshes.length) : Steps s .unasked .asked s
  | miss (h : s.refreshes[j]? = none) : Steps s .asked .finished s
  | see {key : String} (h : s.refreshes[j]? = some key) :
      Steps s .asked (.loading key (Preload.attempts (seen load j) c.retries key c.retries)) s
  | load {key : String} {q q' : Process (Owned κ ρ) (Option Value)} {s' : Owned κ ρ}
      (h : q.next? s = some (q', s')) : Steps s (.loading key q) (.loading key q') s'
  | hold {key : String} {v : Value} (h : s.alive = true) :
      Steps s (.loading key (.done (some v))) (.arming key v)
        (record j (.looked true) { s with held := s.held + 1 })
  | gone {key : String} {v : Value} (h : s.alive = false) :
      Steps s (.loading key (.done (some v))) .finished (record j (.looked false) s)
  | arm (key : String) (v : Value) :
      Steps s (.arming key v) (.storing key v)
        ((armedSlot j).modify (fun e =>
          { e with table := e.table.put s.instant key Preload.marker ttl }) s)
  | store (key : String) (v : Value) :
      Steps s (.storing key v) (.writing key v (write inner c key v))
        (record j (.stored key v c.realTtl) s)
  | write {key : String} {v : Value} {q q' : Process (Owned κ ρ) Unit} {s' : Owned κ ρ}
      (h : q.next? s = some (q', s')) : Steps s (.writing key v q) (.writing key v q') s'
  | release {key : String} {v : Value} :
      Steps s (.writing key v (.done ())) .finished { s with held := s.held - 1 }

variable {inner load c ttl j}

/-- **What one step of a refresh does.** -/
theorem steps_of_next? {x : Worker κ ρ} {s s' : Owned κ ρ}
    {q : Process (Owned κ ρ) (Answer Reply)}
    (h : (x.process inner load c ttl j).next? s = some (q, s')) :
    ∃ x' : Worker κ ρ, q = x'.process inner load c ttl j ∧
      Steps inner load c ttl j s x x' s' := by
  cases x with
  | unasked =>
    obtain ⟨hr, rfl, rfl⟩ := Process.next?_wait h
    exact ⟨.asked, rfl, .begin (of_decide_eq_true hr)⟩
  | asked =>
    obtain ⟨rfl, rfl⟩ := Process.next?_act h
    cases hr : s.refreshes[j]? with
    | none =>
      refine ⟨.finished, ?_, .miss hr⟩
      change Process.bind (.done s.refreshes[j]?) _ = _
      rw [hr]
      rfl
    | some key =>
      refine ⟨_, ?_, .see hr⟩
      change Process.bind (.done s.refreshes[j]?) _ = _
      rw [hr]
      rfl
  | loading key p =>
    rcases Process.next?_bind_cases h with ⟨q₁, hq₁, rfl⟩ | ⟨_, -, hn⟩
    · rcases Process.next?_bind_cases hq₁ with ⟨q₂, hq₂, rfl⟩ | ⟨a, rfl, hn⟩
      · exact ⟨.loading key q₂, rfl, .load hq₂⟩
      · cases a with
        | none => simp [keep, Preload.keep, Process.next?] at hn
        | some v =>
          obtain ⟨rfl, rfl⟩ := Process.next?_act hn
          cases ha : s.alive with
          | true =>
            refine ⟨.arming key v, ?_, ?_⟩
            · change ended (if s.alive = true then _ else _) = _
              rw [ha]
              rfl
            · change Steps inner load c ttl j s _ _ (record j (.looked s.alive)
                { s with held := if s.alive then s.held + 1 else s.held })
              rw [ha]
              exact .hold ha
          | false =>
            refine ⟨.finished, ?_, ?_⟩
            · change ended (if s.alive = true then _ else _) = _
              rw [ha]
              rfl
            · change Steps inner load c ttl j s _ _ (record j (.looked s.alive)
                { s with held := if s.alive then s.held + 1 else s.held })
              rw [ha]
              exact .gone ha
    · simp [Process.next?] at hn
  | arming key v =>
    obtain ⟨rfl, rfl⟩ := Process.next?_act h
    exact ⟨.storing key v, rfl, .arm key v⟩
  | storing key v =>
    obtain ⟨rfl, rfl⟩ := Process.next?_act h
    exact ⟨.writing key v _, rfl, .store key v⟩
  | writing key v p =>
    rcases Process.next?_bind_cases h with ⟨q₁, hq₁, rfl⟩ | ⟨_, -, hn⟩
    · rcases Process.next?_guarded_cases hq₁ with ⟨q₂, hq₂, rfl⟩ | ⟨⟨⟩, rfl, rfl, rfl⟩
      · exact ⟨.writing key v q₂, rfl, .write hq₂⟩
      · exact ⟨.finished, rfl, .release⟩
    · simp [Process.next?] at hn
  | finished => simp [process, Process.next?] at h

end Worker

/-! ## The loop -/

/-- How far the sentinels' loop has come; `n` more ticks follow. -/
inductive Beat where
  | awaiting (n : Nat)
  /-- A tick is due, and the loop is about to look for the engine. -/
  | looking (n : Nat)
  | ticking (n : Nat) (stage : Memory.Stage)
  | ended

namespace Beat

/-- The loop after a step of a tick. -/
def after (n : Nat) : Memory.Stage → Beat
  | .deliver [] _ => .awaiting n
  | stage => .ticking n stage

/-- What remains of the loop. -/
def process : Beat → Process (Owned κ ρ) (Answer Reply)
  | .awaiting n => ticks n
  | .looking n => do
    if ← Process.ask alive then
      let _ ← (sentinels sentinelSlot).tick
      ticks n
    else return .ok .nothing
  | .ticking n stage => (stage.process (sentinels sentinelSlot)).bind fun _ => ticks n
  | .ended => .done (.ok .nothing)

theorem process_after (n : Nat) (stage : Memory.Stage) :
    (after n stage).process (κ := κ) (ρ := ρ) = (Beat.ticking n stage).process := by
  cases stage with
  | deliver rest removed => cases rest <;> rfl
  | _ => rfl

/-- The loop rests as soon as it has handed everything over. -/
def Tidy (x : Beat) : Prop := ∀ n r, x ≠ .ticking n (.deliver [] r)

theorem tidy_after (n : Nat) (stage : Memory.Stage) : (after n stage).Tidy := by
  intro m r
  cases stage with
  | deliver rest removed => cases rest <;> simp [after]
  | _ => simp [after]

/-- One step of the loop. -/
inductive Steps (s : Owned κ ρ) : Beat → Beat → Owned κ ρ → Prop
  | begin {n : Nat} (h : isDue s = true) : Steps s (.awaiting (n + 1)) (.looking n) s
  | look {n : Nat} (h : s.alive = true) : Steps s (.looking n) (.ticking n .rearm) s
  | quit {n : Nat} (h : s.alive = false) : Steps s (.looking n) .ended s
  | tick {n : Nat} {stage stage' : Memory.Stage} {s' : Owned κ ρ}
      (h : (sentinels sentinelSlot).Passes s stage stage' s') :
      Steps s (.ticking n stage) (after n stage') s'

theorem tidy_of_steps {x x' : Beat} {s s' : Owned κ ρ} (h : Steps s x x' s') : x'.Tidy := by
  cases h with
  | tick => exact tidy_after _ _
  | _ => exact fun n r => by simp

/-- **What one step of the loop does.** -/
theorem steps_of_next? {x : Beat} {s s' : Owned κ ρ} {q : Process (Owned κ ρ) (Answer Reply)}
    (hx : x.Tidy) (h : x.process.next? s = some (q, s')) :
    ∃ x' : Beat, q = x'.process ∧ Steps s x x' s' := by
  cases x with
  | awaiting n =>
    cases n with
    | zero => simp [process, ticks, Process.next?, pure] at h
    | succ n =>
      obtain ⟨hr, rfl, rfl⟩ := Process.next?_wait h
      exact ⟨.looking n, rfl, .begin hr⟩
  | looking n =>
    obtain ⟨rfl, rfl⟩ := Process.next?_act h
    cases ha : s.alive with
    | true =>
      refine ⟨.ticking n .rearm, ?_, .look ha⟩
      change (if s.alive = true then _ else _) = _
      rw [ha]
      rfl
    | false =>
      refine ⟨.ended, ?_, .quit ha⟩
      change (if s.alive = true then _ else _) = _
      rw [ha]
      rfl
  | ticking n stage =>
    rcases Process.next?_bind_cases h with ⟨q', hq, rfl⟩ | ⟨r, hr, -⟩
    · obtain ⟨stage', rfl, hp⟩ := (sentinels sentinelSlot).passes_of_next? hq
      exact ⟨after n stage', (process_after n stage').symm, .tick hp⟩
    · cases stage with
      | deliver rest removed =>
        cases rest with
        | nil => exact absurd rfl (hx n removed)
        | cons y rest => cases hr
      | _ => cases hr
  | ended => simp [process, Process.next?] at h

/-- The loop waits between ticks alone. -/
theorem awaiting_of_wait {x : Beat} {v : Wait (Owned κ ρ)} {g : Owned κ ρ → Owned κ ρ}
    {k : Owned κ ρ → Process (Owned κ ρ) (Answer Reply)} (hx : x.Tidy)
    (h : x.process = .wait v g k) :
    (∃ n, x = .awaiting n) ∧ g = id := by
  cases x with
  | awaiting n =>
    cases n with
    | zero => cases h
    | succ n =>
      obtain ⟨-, rfl, -⟩ := Process.wait.inj h
      exact ⟨⟨_, rfl⟩, rfl⟩
  | ticking n stage =>
    cases stage with
    | deliver rest removed =>
      cases rest with
      | nil => exact absurd rfl (hx n removed)
      | cons y rest => cases h
    | _ => cases h
  | _ => cases h

end Beat

/-! ## Callers -/

/-- A call that puts the key. -/
def Puts (key : String) (x : Call) : Prop := ∃ v d, x = .put key v d

/-- What callers leave as it is; they arm no sentinel of the keys in `K`. -/
structure Leaves (K : String → Prop) (s s' : Owned κ ρ) : Prop where
  refreshes : s'.refreshes = s.refreshes
  deeds : s'.deeds = s.deeds
  referred : s'.referred = s.referred
  held : s'.held = s.held
  watched : s'.sentinel.watched = s.sentinel.watched
  sentinel : ∀ k, K k → s.sentinel.table.find? k = none → s'.sentinel.table.find? k = none

theorem Leaves.refl {K : String → Prop} (s : Owned κ ρ) : Leaves K s s :=
  ⟨rfl, rfl, rfl, rfl, rfl, fun _ _ => id⟩

theorem leaves_of_inward {K : String → Prop} {s s' : Owned κ ρ} (h : Inward s s') :
    Leaves K s s' := by
  obtain ⟨x, r, rfl⟩ := h
  exact ⟨rfl, rfl, rfl, rfl, rfl, fun _ _ => id⟩

/-- A change of the sentinels' table. -/
theorem leaves_setTable {K : String → Prop} {f : Nat → Table → Table}
    (h : ∀ now t k, K k → t.find? k = none → (f now t).find? k = none) (s : Owned κ ρ) :
    Leaves K s { s with sentinel := { s.sentinel with table := f s.instant s.sentinel.table } } :=
  ⟨rfl, rfl, rfl, rfl, rfl, h s.instant s.sentinel.table⟩

/-- **What callers leave as it is.** -/
theorem leaves_client (inner : Inner κ ρ) (c : Preload.Config) (ttl : Duration) (x : Call) :
    (client inner c ttl x).Keeps (Leaves fun k => ¬ Puts k x) := by
  have under (y : Call) {K : String → Prop} : (y.run inner.cache).Keeps (Leaves K) :=
    (inner.inward y).mono fun _ _ => leaves_of_inward
  suffices h : (x.run (cache inner c ttl)).Keeps (Leaves fun k => ¬ Puts k x) from
    .wait Leaves.refl fun _ => h
  cases x with
  | put key v d =>
    refine Process.keeps_bind (p := Preload.put _ _ c.realTtl ttl key v) ?_ fun _ => .done _
    refine Process.keeps_bind (Process.keeps_of_bind (under (.put key v c.realTtl))) fun r => ?_
    cases r with
    | error e => exact .done _
    | ok u =>
      refine .act (leaves_setTable (f := fun now t => t.put now key Preload.marker ttl)
        fun now t k hk h => ?_) fun _ => .done _
      rw [Table.put, Table.find?_insert, if_neg fun he => hk ⟨v, d, by rw [he]⟩]
      exact h
  | delete key =>
    refine Process.keeps_bind (p := Preload.delete _ _ key) ?_ fun _ => .done _
    refine .act (leaves_setTable (f := fun _ t => t.erase key) fun now t k _ h => ?_) fun _ => ?_
    · rw [Table.find?_erase, h, ite_self]
    · exact Process.keeps_of_bind (under (.delete key))
  | clearAll =>
    refine Process.keeps_bind (p := Preload.clearAll _ _) ?_ fun _ => .done _
    refine .act (leaves_setTable (f := fun _ _ => .empty) fun _ _ _ _ _ => rfl) fun _ => ?_
    exact Process.keeps_of_bind (under .clearAll)
  | get key => exact under (.get key)
  | getMulti keys => exact under (.getMulti keys)
  | step d key => exact under (.step d key)
  | isExist key => exact under (.isExist key)
  | start payload => exact under (.start payload)

end Owned
end LayeredCache

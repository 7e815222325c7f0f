import LayeredCache.Layer.Preload
import LayeredCache.Proofs.Memory

/-!
# A preloading cache at work

A preloading cache over a memory cache, with everything that runs beside it: callers, reclamation
passes of the inner engine, the loop of the sentinels' engine, and one refresh for each sentinel
that was evicted. The loader works on a part of the state of its own, and there anything may happen
from outside while time passes.

Results:
* `Client.steps_of_next?`, `Worker.steps_of_next?`, `Ticker.steps_of_next?`: what one step of a
  caller, of a refresh and of the loop does.
-/

namespace LayeredCache

/-- A refresh that an evicted sentinel has called for. -/
structure Refresh where
  key : String
  /-- The instant of the tick by which the sentinel was evicted. -/
  asked : Nat
  /-- It has renewed the sentinel. -/
  armed : Bool
  /-- It has renewed the entry. -/
  written : Bool

namespace Refresh

def arm (r : Refresh) : Refresh := { r with armed := true }

def write (r : Refresh) : Refresh := { r with written := true }

end Refresh

/-- The two engines, the refreshes called for, oldest first, and the rest of the state. -/
structure Warm (ρ : Type) where
  instant : Nat
  inner : Engine
  sentinel : Engine
  refreshes : List Refresh
  rest : ρ

/-- What a preloading cache works with. -/
structure World (ρ : Type) where
  load : Loader ρ
  grip : Preload.Grip ρ
  /-- The receiver of what the inner engine evicts. -/
  evicted : String → Value → ρ → ρ

namespace Warm

variable {ι ρ : Type}

instance : Clock (Warm ρ) := ⟨Warm.instant⟩

instance [Journal ρ] : Journal (Warm ρ) := ⟨fun v t s => { s with rest := Journal.note v t s.rest }⟩

/-! ## Parts of the state -/

def rested : Slot (Warm ρ) ρ := ⟨Warm.rest, fun r s => { s with rest := r }, fun _ _ => rfl⟩

def innerSlot : Slot (Warm ρ) Engine :=
  ⟨Warm.inner, fun e s => { s with inner := e }, fun _ _ => rfl⟩

def sentinelSlot : Slot (Warm ρ) Engine :=
  ⟨Warm.sentinel, fun e s => { s with sentinel := e }, fun _ _ => rfl⟩

/-- The inner engine, as refresh `j` changes it. -/
def writtenSlot (j : Nat) : Slot (Warm ρ) Engine where
  get := Warm.inner
  set e s := { s with inner := e, refreshes := s.refreshes.modify j Refresh.write }
  get_set _ _ := rfl

/-- The sentinels' engine, as refresh `j` changes it. -/
def armedSlot (j : Nat) : Slot (Warm ρ) Engine where
  get := Warm.sentinel
  set e s := { s with sentinel := e, refreshes := s.refreshes.modify j Refresh.arm }
  get_set _ _ := rfl

/-- The table of the inner engine changes. -/
def setInner (t : Table) (s : Warm ρ) : Warm ρ := { s with inner := { s.inner with table := t } }

/-- The table of the sentinels' engine changes. -/
def setSentinel (t : Table) (s : Warm ρ) : Warm ρ :=
  { s with sentinel := { s.sentinel with table := t } }

/-- An evicted sentinel calls for a refresh. -/
def demand (key : String) (s : Warm ρ) : Warm ρ :=
  { s with refreshes := s.refreshes ++ [⟨key, s.instant, false, false⟩] }

/-- Only the rest of the state differs. -/
def Elsewhere (s s' : Warm ρ) : Prop := ∃ r, s' = { s with rest := r }

/-! ## What runs -/

section Parts

variable (w : World ρ)

/-- The inner engine. -/
def store (slot : Slot (Warm ρ) Engine) : Memory (Warm ρ) :=
  ⟨slot, fun key v => rested.modify (w.evicted key v)⟩

/-- The sentinels' engine. -/
def sentinels (slot : Slot (Warm ρ) Engine) : Memory (Warm ρ) := ⟨slot, fun key _ => demand key⟩

/-- The loader over the whole state. -/
def loader : Loader (Warm ρ) := fun key => (w.load key).embed rested

/-- How a refresh holds on to the sentinels' engine. -/
def grip : Preload.Grip (Warm ρ) := ⟨rested.update w.grip.hold, rested.modify w.grip.release⟩

variable (c : Preload.Config) (ttl : Duration)

/-- The preloading cache, `ttl` being the life of a sentinel. -/
def cache : Cache (Warm ρ) :=
  Preload.cache (store w innerSlot).cache (sentinels sentinelSlot) c.realTtl ttl

/-- What callers do. -/
inductive Task where
  | call (c : Call)
  /-- A reclamation pass of the inner engine. -/
  | pass
  /-- A tick of the inner engine's loop. -/
  | tick

/-- A task that puts the key. -/
def Task.Puts (key : String) (t : Task) : Prop := ∃ v d, t = .call (.put key v d)

/-- A task that removes the key. -/
def Task.Removes (key : String) (t : Task) : Prop := t = .call (.delete key) ∨ t = .call .clearAll

/-- Does a task. -/
def Task.run : Task → Process (Warm ρ) (Answer Reply)
  | .call x => x.run (cache w c ttl)
  | .pass => Memory.counted (store w innerSlot).reclaim
  | .tick => Memory.counted (store w innerSlot).tick

/-- A task that begins at any time. -/
def client (t : Task) : Process (Warm ρ) (Answer Reply) := do
  Process.await fun _ => true
  t.run w c ttl

/-- The refresh that was called for as number `j`. -/
def worker [Journal ρ] (j : Nat) : Process (Warm ρ) (Answer Reply) := do
  Process.await fun s => j < s.refreshes.length
  match ← Process.ask fun s : Warm ρ => s.refreshes[j]? with
  | none => return .ok .nothing
  | some r =>
    Preload.refresh (store w (writtenSlot j)).cache (loader w) (sentinels (armedSlot j)) (grip w)
      c.realTtl ttl c.retries r.key
    return .ok .nothing

/-- The next tick of the sentinels' loop is due. -/
def isDue (s : Warm ρ) : Bool := s.sentinel.loop.any fun l => l.next ≤ s.instant

/-- So many ticks of the sentinels' loop, each when it is due. -/
def ticks : Nat → Process (Warm ρ) (Answer Reply)
  | 0 => return .ok .nothing
  | n + 1 => do
    Process.await isDue
    let _ ← (sentinels sentinelSlot).tick
    ticks n

end Parts

/-- Who runs. -/
inductive Who (ι : Type) where
  | client (i : ι)
  | worker (j : Nat)
  | loop
  deriving DecidableEq

/-- Callers, refreshes and the loop, none of which has taken a step. -/
def pool [Journal ρ] (w : World ρ) (c : Preload.Config) (ttl : Duration) (tasks : ι → Task)
    (n : Nat) (s : Warm ρ) : Pool (Who ι) (Warm ρ) (Answer Reply) where
  state := s
  threads
    | .client i => some (client w c ttl (tasks i))
    | .worker j => some (worker w c ttl j)
    | .loop => some (ticks n)

/-- Something happens elsewhere while time passes. -/
def elapse {ε : Type} (effect : ε → ρ → ρ) (x : ε × Nat) (s : Warm ρ) : Warm ρ :=
  { s with instant := s.instant + x.2, rest := effect x.1 s.rest }

/-! ## Callers -/

/-- How far a caller has come. -/
inductive Client where
  | idle (t : Task)
  | call (c : Call)
  /-- In the middle of a put: the entry is written, the sentinel is not. -/
  | arming (key : String)
  /-- In the middle of a deletion: the sentinel is gone, the entry is not. -/
  | deleting (key : String)
  | clearing
  | passing (stage : Memory.Stage)
  | finished (r : Answer Reply)

/-- The calls that the preloading cache passes on as they are. -/
def Passed : Call → Prop
  | .put _ _ _ | .delete _ | .clearAll => False
  | _ => True

namespace Client

variable (w : World ρ) (c : Preload.Config) (ttl : Duration)

/-- A task that has begun. -/
def begun : Task → Client
  | .call c => .call c
  | .pass => .passing .scan
  | .tick => .passing .rearm

/-- What remains of a task. -/
def process : Client → Process (Warm ρ) (Answer Reply)
  | .idle t => Warm.client w c ttl t
  | .call x => x.run (cache w c ttl)
  | .arming key => do
    return (← Preload.arm (sentinels sentinelSlot) ttl key).map fun _ => .nothing
  | .deleting key => do return (← (store w innerSlot).cache.delete key).map fun _ => .nothing
  | .clearing => do return (← (store w innerSlot).cache.clearAll).map fun _ => .nothing
  | .passing stage => Memory.counted (stage.process (store w innerSlot))
  | .finished r => .done r

/-- One step of a caller. -/
inductive Steps (s : Warm ρ) : Client → Client → Warm ρ → Prop
  | begin (t : Task) : Steps s (.idle t) (begun t) s
  | pass {x : Call} {r : Answer Reply} {s' : Warm ρ} (hp : Passed x)
      (ht : (store w innerSlot).Touches s s')
      (hd : Memory.Does s.instant s.inner.table x r s'.inner.table) :
      Steps s (.call x) (.finished r) s'
  | put (key : String) (v : Value) (d : Duration) :
      Steps s (.call (.put key v d)) (.arming key)
        (setInner (s.inner.table.put s.instant key v c.realTtl) s)
  | arm (key : String) :
      Steps s (.arming key) (.finished (.ok .nothing))
        (setSentinel (s.sentinel.table.put s.instant key Preload.marker ttl) s)
  | disarm (key : String) :
      Steps s (.call (.delete key)) (.deleting key) (setSentinel (s.sentinel.table.erase key) s)
  | delete (key : String) :
      Steps s (.deleting key) (.finished (.ok .nothing)) (setInner (s.inner.table.erase key) s)
  | disarmAll : Steps s (.call .clearAll) .clearing (setSentinel .empty s)
  | clear : Steps s .clearing (.finished (.ok .nothing)) (setInner .empty s)
  | reclaim {stage stage' : Memory.Stage} {s' : Warm ρ}
      (h : (store w innerSlot).Passes s stage stage' s') :
      Steps s (.passing stage) (.passing stage') s'

variable {w c ttl}

theorem passed_of_next? {x : Call} {s s' : Warm ρ} {q : Process (Warm ρ) (Answer Reply)}
    (hp : Passed x) (h : (x.run (store w innerSlot).cache).next? s = some (q, s')) :
    ∃ x' : Client, q = x'.process w c ttl ∧ Steps w c ttl s (.call x) x' s' := by
  obtain ⟨r, rfl, ht, hd⟩ := (store w innerSlot).does_of_next? h
  exact ⟨.finished r, rfl, .pass hp ht hd⟩

/-- **What one step of a caller does.** -/
theorem steps_of_next? {x : Client} {s s' : Warm ρ} {q : Process (Warm ρ) (Answer Reply)}
    (h : (x.process w c ttl).next? s = some (q, s')) :
    ∃ x' : Client, q = x'.process w c ttl ∧ Steps w c ttl s x x' s' := by
  cases x with
  | idle t =>
    obtain ⟨-, rfl, rfl⟩ := Process.next?_wait h
    refine ⟨begun t, ?_, .begin t⟩
    cases t <;> rfl
  | call x =>
    cases x with
    | put key v d =>
      obtain ⟨rfl, rfl⟩ := Process.next?_act h
      exact ⟨.arming key, rfl, .put key v d⟩
    | delete key =>
      obtain ⟨rfl, rfl⟩ := Process.next?_act h
      exact ⟨.deleting key, rfl, .disarm key⟩
    | clearAll =>
      obtain ⟨rfl, rfl⟩ := Process.next?_act h
      exact ⟨.clearing, rfl, .disarmAll⟩
    | _ => exact passed_of_next? trivial h
  | arming key =>
    obtain ⟨rfl, rfl⟩ := Process.next?_act h
    exact ⟨.finished (.ok .nothing), rfl, .arm key⟩
  | deleting key =>
    obtain ⟨rfl, rfl⟩ := Process.next?_act h
    exact ⟨.finished (.ok .nothing), rfl, .delete key⟩
  | clearing =>
    obtain ⟨rfl, rfl⟩ := Process.next?_act h
    exact ⟨.finished (.ok .nothing), rfl, .clear⟩
  | passing stage =>
    obtain ⟨stage', rfl, hp⟩ := (store w innerSlot).passes_of_next?_counted h
    exact ⟨.passing stage', rfl, .reclaim hp⟩
  | finished r => simp [process, Process.next?] at h

end Client

/-! ## Refreshes -/

/-- How far a refresh has come. -/
inductive Worker (ρ : Type) where
  | unasked
  /-- About to see which key it is for. -/
  | asked
  | loading (key : String) (q : Process (Warm ρ) (Option Value))
  /-- About to renew the sentinel. -/
  | arming (key : String) (v : Value)
  /-- About to renew the entry. -/
  | writing (key : String) (v : Value)
  | releasing
  | finished

namespace Worker

variable [Journal ρ] (w : World ρ) (c : Preload.Config) (ttl : Duration) (j : Nat)

/-- A refresh answers nothing. -/
def ended (p : Process (Warm ρ) Unit) : Process (Warm ρ) (Answer Reply) :=
  p.bind fun _ => .done (.ok .nothing)

/-- What a refresh does with what it has loaded. -/
def keep (key : String) : Option Value → Process (Warm ρ) Unit :=
  Preload.keep (store w (writtenSlot j)).cache (sentinels (armedSlot j)) (grip w) c.realTtl ttl key

/-- What remains of a refresh. -/
def process : Worker ρ → Process (Warm ρ) (Answer Reply)
  | .unasked => Warm.worker w c ttl j
  | .asked => do
    match ← Process.ask fun s : Warm ρ => s.refreshes[j]? with
    | none => return .ok .nothing
    | some r =>
      ended ((Preload.attempts (loader w) c.retries r.key c.retries).bind (keep w c ttl j r.key))
  | .loading key q => ended (q.bind (keep w c ttl j key))
  | .arming key v =>
    ended ((Preload.renew (store w (writtenSlot j)).cache (sentinels (armedSlot j)) c.realTtl ttl
      key v).guarded (grip w).release)
  | .writing key v =>
    ended ((((store w (writtenSlot j)).cache.put key v c.realTtl).bind
      (Preload.noted "Preload could not write key " key)).guarded (grip w).release)
  | .releasing => ended (Process.guarded (grip w).release (.done ()))
  | .finished => .done (.ok .nothing)

/-- One step of a refresh. -/
inductive Steps (s : Warm ρ) : Worker ρ → Worker ρ → Warm ρ → Prop
  | begin : Steps s .unasked .asked s
  | miss (h : s.refreshes[j]? = none) : Steps s .asked .finished s
  | see {r : Refresh} (h : s.refreshes[j]? = some r) :
      Steps s .asked (.loading r.key (Preload.attempts (loader w) c.retries r.key c.retries)) s
  | load {key : String} {q q' : Process (Warm ρ) (Option Value)} {s' : Warm ρ}
      (h : q.next? s = some (q', s')) : Steps s (.loading key q) (.loading key q') s'
  | hold {key : String} {v : Value} {s' : Warm ρ} (h : Elsewhere s s') :
      Steps s (.loading key (.done (some v))) (.arming key v) s'
  | gone {key : String} {v : Value} {s' : Warm ρ} (h : Elsewhere s s') :
      Steps s (.loading key (.done (some v))) .finished s'
  | arm (key : String) (v : Value) :
      Steps s (.arming key v) (.writing key v)
        ((armedSlot j).modify (fun e =>
          { e with table := e.table.put s.instant key Preload.marker ttl }) s)
  | write (key : String) (v : Value) :
      Steps s (.writing key v) .releasing
        ((writtenSlot j).modify (fun e =>
          { e with table := e.table.put s.instant key v c.realTtl }) s)
  | release {s' : Warm ρ} (h : Elsewhere s s') : Steps s .releasing .finished s'

variable {w c ttl j}

/-- **What one step of a refresh does.** -/
theorem steps_of_next? {x : Worker ρ} {s s' : Warm ρ} {q : Process (Warm ρ) (Answer Reply)}
    (h : (x.process w c ttl j).next? s = some (q, s')) :
    ∃ x' : Worker ρ, q = x'.process w c ttl j ∧ Steps w c ttl j s x x' s' := by
  cases x with
  | unasked =>
    obtain ⟨-, rfl, rfl⟩ := Process.next?_wait h
    exact ⟨.asked, rfl, .begin⟩
  | asked =>
    obtain ⟨rfl, rfl⟩ := Process.next?_act h
    cases hr : s.refreshes[j]? with
    | none =>
      refine ⟨.finished, ?_, .miss hr⟩
      change Process.bind (.done s.refreshes[j]?) _ = _
      rw [hr]
      rfl
    | some r =>
      refine ⟨_, ?_, .see hr⟩
      change Process.bind (.done s.refreshes[j]?) _ = _
      rw [hr]
      rfl
  | loading key p =>
    rcases Process.next?_bind_cases h with ⟨q₁, hq₁, rfl⟩ | ⟨_, -, hn⟩
    · rcases Process.next?_bind_cases hq₁ with ⟨q₂, hq₂, rfl⟩ | ⟨a, rfl, hn⟩
      · exact ⟨.loading key q₂, rfl, .load hq₂⟩
      · cases a with
        | none => simp [keep, Preload.keep, Process.next?] at hn
        | some v =>
          obtain ⟨rfl, rfl⟩ := Process.next?_act hn
          cases hb : (w.grip.hold s.rest).1 with
          | true =>
            refine ⟨.arming key v, ?_, .hold ⟨_, rfl⟩⟩
            change ended (if (w.grip.hold s.rest).1 = true then _ else _) = _
            rw [hb]
            rfl
          | false =>
            refine ⟨.finished, ?_, .gone ⟨_, rfl⟩⟩
            change ended (if (w.grip.hold s.rest).1 = true then _ else _) = _
            rw [hb]
            rfl
    · simp [Process.next?] at hn
  | arming key v =>
    obtain ⟨rfl, rfl⟩ := Process.next?_act h
    exact ⟨.writing key v, rfl, .arm key v⟩
  | writing key v =>
    obtain ⟨rfl, rfl⟩ := Process.next?_act h
    exact ⟨.releasing, rfl, .write key v⟩
  | releasing =>
    obtain ⟨rfl, rfl⟩ := Process.next?_act h
    exact ⟨.finished, rfl, .release ⟨_, rfl⟩⟩
  | finished => simp [process, Process.next?] at h

end Worker

/-! ## The loop -/

/-- How far the sentinels' loop has come; `n` more ticks follow. -/
inductive Ticker where
  | awaiting (n : Nat)
  | ticking (n : Nat) (stage : Memory.Stage)

namespace Ticker

/-- The loop after a step of a tick. -/
def after (n : Nat) : Memory.Stage → Ticker
  | .deliver [] _ => .awaiting n
  | stage => .ticking n stage

/-- What remains of the loop. -/
def process : Ticker → Process (Warm ρ) (Answer Reply)
  | .awaiting n => ticks n
  | .ticking n stage => (stage.process (sentinels sentinelSlot)).bind fun _ => ticks n

theorem process_after (n : Nat) (stage : Memory.Stage) :
    (after n stage).process (ρ := ρ) = (Ticker.ticking n stage).process := by
  cases stage with
  | deliver rest removed => cases rest <;> rfl
  | _ => rfl

/-- One step of the loop. -/
inductive Steps (s : Warm ρ) : Ticker → Ticker → Warm ρ → Prop
  | begin {n : Nat} (h : isDue s = true) : Steps s (.awaiting (n + 1)) (.ticking n .rearm) s
  | tick {n : Nat} {stage stage' : Memory.Stage} {s' : Warm ρ}
      (h : (sentinels sentinelSlot).Passes s stage stage' s') :
      Steps s (.ticking n stage) (after n stage') s'

theorem steps_of_next?_ticks {n : Nat} {s s' : Warm ρ} {q : Process (Warm ρ) (Answer Reply)}
    (h : (ticks n).next? s = some (q, s')) : ∃ m, n = m + 1 ∧ isDue s = true ∧
      q = (Ticker.ticking m .rearm).process ∧ s' = s := by
  cases n with
  | zero => simp [ticks, Process.next?, pure] at h
  | succ m =>
    obtain ⟨hr, rfl, rfl⟩ := Process.next?_wait h
    exact ⟨m, rfl, hr, rfl, rfl⟩

/-- **What one step of the loop does.** -/
theorem steps_of_next? {x : Ticker} {s s' : Warm ρ} {q : Process (Warm ρ) (Answer Reply)}
    (hx : ∀ n r, x ≠ .ticking n (.deliver [] r)) (h : x.process.next? s = some (q, s')) :
    ∃ x' : Ticker, q = x'.process ∧ Steps s x x' s' := by
  cases x with
  | awaiting n =>
    obtain ⟨m, rfl, hr, rfl, rfl⟩ := steps_of_next?_ticks h
    exact ⟨.ticking m .rearm, rfl, .begin hr⟩
  | ticking n stage =>
    rcases Process.next?_bind_cases h with ⟨q', hq, rfl⟩ | ⟨r, hr, -⟩
    · obtain ⟨stage', rfl, hp⟩ := (sentinels sentinelSlot).passes_of_next? hq
      exact ⟨after n stage', (process_after n stage').symm, .tick hp⟩
    · cases stage with
      | deliver rest removed =>
        cases rest with
        | nil => exact absurd rfl (hx n removed)
        | cons y rest => cases hr
      | _ => cases hr

end Ticker

end Warm
end LayeredCache

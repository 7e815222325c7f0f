import LayeredCache.Layer.ReadThrough
import LayeredCache.Layer.WriteDelete
import LayeredCache.Proofs.Memory
import LayeredCache.Proofs.Runs

/-!
# Second deletes at work

A cache that deletes twice, with everything that runs beside it: any number of puts, one second
delete for each that was called for, and others, who work on the engine as they like. Others cannot
change the clock or the errands, and that is all that is asked of them; so they may write the engine
directly, or read through it.

The store works on the rest of the state. The inner cache is any cache; it may be the engine, and it
may put a delay before it.

Time passes as it does for a timer that fires exactly when it is due (`Prompt`). It fires at a whole
millisecond.

Results:
* `Writing.next?`: a put calls for a second delete with the step by which it succeeds.
* `Stage.steps_of_next?`: what one step of a second delete does.
-/

namespace LayeredCache

/-- A second delete that was called for: its key, and when. -/
structure Errand where
  key : String
  called : Nat

/-- The engine, its clock, the second deletes called for, oldest first, and the rest of the
state. -/
structure Delayed (ρ : Type) where
  instant : Nat
  engine : Engine
  errands : List Errand
  rest : ρ

namespace Delayed

open Process

variable {ι ο ε ρ α : Type}

instance : Clock (Delayed ρ) := ⟨Delayed.instant⟩

instance [Journal ρ] : Journal (Delayed ρ) :=
  ⟨fun v t s => { s with rest := Journal.note v t s.rest }⟩

def rested : Slot (Delayed ρ) ρ := ⟨Delayed.rest, fun r s => { s with rest := r }, fun _ _ => rfl⟩

def engineSlot : Slot (Delayed ρ) Engine :=
  ⟨Delayed.engine, fun e s => { s with engine := e }, fun _ _ => rfl⟩

/-- A second delete is called for. -/
def later (key : String) (s : Delayed ρ) : Delayed ρ :=
  { s with errands := s.errands ++ [⟨key, s.instant⟩] }

/-- Something happens elsewhere while time passes. -/
def elapse (effect : ε → ρ → ρ) (x : ε × Nat) (s : Delayed ρ) : Delayed ρ :=
  { s with instant := s.instant + x.2, rest := effect x.1 s.rest }

/-- Only the rest of the state differs. -/
def Elsewhere (s t : Delayed ρ) : Prop := ∃ r, t = { s with rest := r }

/-- The clock and the errands are the same. -/
def Apart (s t : Delayed ρ) : Prop := t.instant = s.instant ∧ t.errands = s.errands

/-- The clock is the same, and second deletes may have been called for. -/
def Onward (s t : Delayed ρ) : Prop :=
  t.instant = s.instant ∧ ∃ js, t.errands = s.errands ++ js ∧ ∀ j ∈ js, j.called = s.instant

theorem Apart.refl (s : Delayed ρ) : Apart s s := ⟨rfl, rfl⟩

theorem Apart.onward {s t : Delayed ρ} (h : Apart s t) : Onward s t :=
  ⟨h.1, [], by rw [h.2, List.append_nil], fun _ hj => absurd hj List.not_mem_nil⟩

theorem Elsewhere.apart {s t : Delayed ρ} (h : Elsewhere s t) : Apart s t := by
  obtain ⟨r, rfl⟩ := h
  exact .refl s

theorem onward_later (key : String) (s : Delayed ρ) : Onward s (later key s) := by
  refine ⟨rfl, [⟨key, s.instant⟩], rfl, fun j hj => ?_⟩
  rw [List.mem_singleton.mp hj]

/-- The engine as a cache. What it evicts goes to a receiver. -/
def memory (evicted : String → Value → ρ → ρ) : Memory (Delayed ρ) :=
  ⟨engineSlot, fun key v => rested.modify (evicted key v)⟩

/-! ## What runs -/

/-- What a cache that deletes twice works with. -/
structure Setting (ρ : Type) where
  inner : Cache (Delayed ρ)
  store : Store (Delayed ρ)
  /-- The time that the store is given, if it is limited. -/
  limit : Option Duration
  /-- The time between the two deletes. -/
  interval : Duration
  /-- The time that a second delete is given. -/
  timeout : Duration
  apart : ∀ key, Keeps Apart (inner.delete key)
  elsewhere : ∀ key v, Keeps Elsewhere (store key v)

/-- A put of a key. -/
structure Put where
  key : String
  value : Value
  ttl : Duration

/-- Who runs. -/
inductive Who (ι ο : Type) where
  | writer (i : ι)
  | other (o : ο)
  /-- The second delete that was called for as number `n`. -/
  | worker (n : Nat)
  deriving DecidableEq

section Parts

variable [Journal ρ] (w : Setting ρ)

/-- The cache that deletes twice. -/
def Setting.cache : Cache (Delayed ρ) :=
  WriteDelete.doubleCache w.inner w.store w.limit later

/-- Makes a put. -/
def writer (x : Put) : Process (Delayed ρ) (Answer Reply) :=
  (Call.put x.key x.value x.ttl).run w.cache

/-- Carries an errand out. -/
def carry : Option Errand → Process (Delayed ρ) (Answer Reply)
  | none => return .ok .nothing
  | some j => do
    WriteDelete.secondDelete w.inner w.interval w.timeout j.key
    return .ok .nothing

/-- The second delete that was called for as number `n`. -/
def worker (n : Nat) : Process (Delayed ρ) (Answer Reply) := do
  await fun s => n < s.errands.length
  carry w (← ask fun s : Delayed ρ => s.errands[n]?)

/-- Puts, second deletes and others, none of which has taken a step. -/
def pool (puts : ι → Put) (others : ο → Process (Delayed ρ) (Answer Reply)) (s : Delayed ρ) :
    Pool (Who ι ο) (Delayed ρ) (Answer Reply) where
  state := s
  threads
    | .writer i => some (writer w (puts i))
    | .other o => some (others o)
    | .worker n => some (worker w n)

end Parts

/-- Timers fire exactly when they are due: time passes only when every second delete has ended or
waits, and never beyond the time at which one of them goes on. None of them is given up from
outside. -/
def Prompt (effect : ε → ρ → ρ) (p : Pool (Who ι ο) (Delayed ρ) (Answer Reply)) :
    Turn (Who ι ο) (ε × Nat) → Prop
  | .go _ => True
  | .drop i => ∀ n, i ≠ .worker n
  | .outside x => ∀ n q, p.threads (.worker n) = some q → q.Blocked p.state ∧
      ∀ t, q.due = some t → (elapse effect x p.state).instant ≤ t * nanosPerMilli

/-! ## When a second delete runs -/

/-- The instant at which a second delete begins. -/
def Setting.due (w : Setting ρ) (j : Errand) : Nat :=
  milliOf (deadline j.called w.interval) * nanosPerMilli

/-- The instant up to which a second delete may run. -/
def Setting.last (w : Setting ρ) (j : Errand) : Nat :=
  milliOf (deadline (w.due j) w.timeout) * nanosPerMilli

theorem le_deadline (now : Nat) (d : Duration) : now ≤ deadline now d := by
  unfold deadline farFuture
  split <;> omega

theorem le_milliOf (n : Nat) : n ≤ milliOf n * nanosPerMilli := by
  unfold milliOf nanosPerMilli
  omega

theorem called_le_due (w : Setting ρ) (j : Errand) : j.called ≤ w.due j :=
  Nat.le_trans (le_deadline _ _) (le_milliOf _)

theorem due_le_last (w : Setting ρ) (j : Errand) : w.due j ≤ w.last j :=
  Nat.le_trans (le_deadline _ _) (le_milliOf _)

/-! ## What others do -/

/-- A call of the engine is one of the things that others do. -/
theorem keeps_call (evicted : String → Value → ρ → ρ) (c : Call) :
    Keeps Apart (c.run (memory evicted).cache) :=
  Memory.keeps_call Apart.refl fun _ _ _ _ => ⟨rfl, rfl⟩

theorem keeps_note [Journal ρ] (v : Severity) (text : String) :
    Keeps Apart (note v text : Process (Delayed ρ) Unit) :=
  .act (fun _ => ⟨rfl, rfl⟩) fun _ => .done ()

/-- So is a read through the engine. -/
theorem keeps_readThrough [Journal ρ] (evicted : String → Value → ρ → ρ)
    {load : Loader (Delayed ρ)} (hl : ∀ key, Keeps Apart (load key)) (ttl : Duration)
    (key : String) :
    Keeps Apart ((Call.get key).run (ReadThrough.cache (memory evicted).cache load ttl)) := by
  refine keeps_bind (keeps_bind ?_ fun o => ?_) fun _ => .done _
  · exact .act (fun s => .refl s) fun _ => .done _
  · cases o with
    | ok v => exact .done _
    | error e =>
      refine keeps_bind (hl key) fun r => ?_
      cases r with
      | error c => exact .done _
      | ok v =>
        refine keeps_bind (.act (fun _ => ⟨rfl, rfl⟩) fun _ => .done _) fun a => ?_
        cases a with
        | ok _ => exact .done _
        | error e => exact keeps_bind (keeps_note _ _) fun _ => .done _

/-! ## Puts -/

/-- What is left of a put once the store has written and the copy is dropped. -/
def closing (key : String) : Answer Unit → Process (Delayed ρ) (Answer Reply)
  | .ok () => .act (later key) fun _ => .done (.ok .nothing)
  | .error e => .done (.error e)

theorem writer_eq [Journal ρ] (w : Setting ρ) (x : Put) :
    writer w x = (WriteDelete.put w.inner w.store w.limit x.key x.value).bind (closing x.key) := by
  change Process.bind (Process.bind _ _) _ = _
  rw [bind_assoc]
  refine congrArg _ (funext fun a => ?_)
  cases a with
  | ok _ => rfl
  | error e => rfl

section Keeping

variable {R : Delayed ρ → Delayed ρ → Prop} (hR : ∀ s t, Elsewhere s t → R s t)

include hR

theorem keeps_persist (w : Setting ρ) (key : String) (v : Value) :
    Keeps R (WriteDelete.persist w.store w.limit key v) := by
  have hs : Keeps R (w.store key v) := (w.elsewhere key v).mono hR
  have hr : ∀ s, R s s := fun s => hR s s ⟨s.rest, rfl⟩
  unfold WriteDelete.persist
  split
  · exact hs
  · refine keeps_bind (keeps_timeout hr hs _) fun o => ?_
    cases o with
    | some r => exact .done r
    | none => exact .done _

/-- A put does what its delete does, and beside that nothing that is told. -/
theorem keeps_put [Journal ρ] (w : Setting ρ) {key : String} (hd : Keeps R (w.inner.delete key))
    (v : Value) : Keeps R (WriteDelete.put w.inner w.store w.limit key v) := by
  refine keeps_bind (keeps_persist hR w key v) fun r => ?_
  cases r with
  | ok _ => exact hd
  | error c =>
    change Keeps R (if c.isDeadline then _ else _)
    split
    · exact .act (fun s => hR s _ ⟨_, rfl⟩) fun _ => hd
    · exact .done _

end Keeping

/-- What may remain of a put. -/
inductive Writing (key : String) : Process (Delayed ρ) (Answer Reply) → Prop
  | going {q : Process (Delayed ρ) (Answer Unit)} (h : Keeps Apart q) :
      Writing key (q.bind (closing key))
  | ended (r : Answer Reply) : Writing key (.done r)

theorem writing_writer [Journal ρ] (w : Setting ρ) (x : Put) : Writing x.key (writer w x) := by
  rw [writer_eq]
  exact .going (keeps_put (fun _ _ => Elsewhere.apart) w (w.apart x.key) x.value)

/-- **A put calls for a second delete with the step by which it succeeds**, and never else. -/
theorem Writing.next? {key : String} {q q' : Process (Delayed ρ) (Answer Reply)}
    {s s' : Delayed ρ} (hq : Writing key q) (h : q.next? s = some (q', s')) : Writing key q' ∧
      (s' = later key s ∧ q' = .done (.ok .nothing) ∨
        Apart s s' ∧ ∀ r, q'.answer? ≠ some (.ok r)) := by
  cases hq with
  | ended r => simp [Process.next?] at h
  | going hk =>
    rcases next?_bind_cases h with ⟨q₁, hq₁, rfl⟩ | ⟨a, rfl, hn⟩
    · obtain ⟨hk₁, hs⟩ := keeps_next? (Apart.refl s) hk hq₁
      refine ⟨.going hk₁, .inr ⟨hs, fun r hr => ?_⟩⟩
      cases q₁ with
      | done a => cases a <;> cases hr
      | act g k => cases hr
      | wait v c k => cases hr
    · cases a with
      | ok _ =>
        obtain ⟨rfl, rfl⟩ := next?_act hn
        exact ⟨.ended _, .inl ⟨rfl, rfl⟩⟩
      | error e => cases hn

/-- Giving a put up leaves the clock and the errands alone. -/
theorem Writing.abandon {key : String} {v : Wait (Delayed ρ)} {c : Delayed ρ → Delayed ρ}
    {k : Delayed ρ → Process (Delayed ρ) (Answer Reply)} (hq : Writing key (.wait v c k))
    (s : Delayed ρ) : Apart s (c s) := by
  generalize hp : Process.wait v c k = p at hq
  cases hq with
  | ended r => cases hp
  | @going q₁ hk =>
    cases q₁ with
    | done a => cases a <;> cases hp
    | act g k => cases hp
    | wait v' c' k' =>
      obtain ⟨-, rfl, -⟩ := Process.wait.inj hp
      cases hk with
      | wait hc _ => exact hc s

/-! ## Second deletes -/

/-- How far a second delete has come. -/
inductive Stage (ρ : Type) where
  | idle
  /-- About to see which key it is for. -/
  | called
  | begun
  /-- The interval is not over before this time. -/
  | sleeping (t : Nat)
  /-- About to see how long it may run. -/
  | timing
  /-- The inner cache deletes, until this time at most. -/
  | deleting (last : Nat) (r : Process (Delayed ρ) (Answer Unit))
  /-- About to give up the inner cache's delete, which waits. -/
  | giving (v : Wait (Delayed ρ)) (c : Delayed ρ → Delayed ρ)
      (k : Delayed ρ → Process (Delayed ρ) (Answer Unit))
  /-- About to note that the delete was given up. -/
  | failing
  | ended

namespace Stage

variable [Journal ρ] (w : Setting ρ) (n : Nat) (key : String)

/-- A second delete answers nothing. -/
def finished (p : Process (Delayed ρ) Unit) : Process (Delayed ρ) (Answer Reply) :=
  p.bind fun _ => .done (.ok .nothing)

/-- What is noted of how the inner cache's delete went. -/
def report : Option (Answer Unit) → Process (Delayed ρ) Unit
  | some (.ok ()) => .done ()
  | some (.error e) =>
    note .error ("Second delete of key " ++ key ++ " failed: " ++ e.message)
  | none => note .error ("Second delete of key " ++ key ++ " timed out after " ++ w.timeout.text)

/-- The delete of the inner cache, in the time it is given. -/
def delete : Process (Delayed ρ) Unit :=
  ((w.inner.delete key).timeout w.timeout).bind (report w key)

/-- What remains of a second delete. -/
def process : Stage ρ → Process (Delayed ρ) (Answer Reply)
  | .idle => worker w n
  | .called => (ask fun s : Delayed ρ => s.errands[n]?).bind (carry w)
  | .begun => finished (WriteDelete.secondDelete w.inner w.interval w.timeout key)
  | .sleeping t => finished (.wait (.time t) id fun _ => delete w key)
  | .timing => finished (delete w key)
  | .deleting l r => finished ((r.within l).bind (report w key))
  | .giving _ c _ => finished (.act c fun _ => report w key none)
  | .failing => finished (report w key none)
  | .ended => .done (.ok .nothing)

/-- A second delete, its inner cache being so far. -/
def after (l : Nat) : Process (Delayed ρ) (Answer Unit) → Stage ρ
  | .done (.ok ()) => .ended
  | r => .deleting l r

theorem process_after (l : Nat) (r : Process (Delayed ρ) (Answer Unit)) :
    (after l r).process w n key = (Stage.deleting l r).process w n key := by
  cases r with
  | done a => cases a <;> rfl
  | act g k => rfl
  | wait v c k => rfl

/-- One step of a second delete. -/
inductive Steps (s : Delayed ρ) : Stage ρ → Stage ρ → Delayed ρ → Prop
  | wake : Steps s .idle .called s
  | see : Steps s .called .begun s
  | sleep : Steps s .begun (.sleeping (deadlineAfter w.interval s)) s
  | rise {t : Nat} (h : t ≤ Clock.now s) : Steps s (.sleeping t) .timing s
  | start : Steps s .timing (after (deadlineAfter w.timeout s) (w.inner.delete key)) s
  | act (l : Nat) (g : Delayed ρ → Delayed ρ)
      (k : Delayed ρ → Process (Delayed ρ) (Answer Unit)) :
      Steps s (.deleting l (.act g k)) (after l (k s)) (g s)
  | resume {v : Wait (Delayed ρ)} (l : Nat) (c : Delayed ρ → Delayed ρ)
      (k : Delayed ρ → Process (Delayed ρ) (Answer Unit)) (h : v.ready s = true) :
      Steps s (.deleting l (.wait v c k)) (after l (k s)) s
  | lapse {l : Nat} {v : Wait (Delayed ρ)} (c : Delayed ρ → Delayed ρ)
      (k : Delayed ρ → Process (Delayed ρ) (Answer Unit)) (h : v.ready s = false)
      (hl : l ≤ Clock.now s) : Steps s (.deleting l (.wait v c k)) (.giving v c k) s
  | refuse (l : Nat) (e : CacheError) {s' : Delayed ρ} (h : Elsewhere s s') :
      Steps s (.deleting l (.done (.error e))) .ended s'
  | giveUp (v : Wait (Delayed ρ)) (c : Delayed ρ → Delayed ρ)
      (k : Delayed ρ → Process (Delayed ρ) (Answer Unit)) : Steps s (.giving v c k) .failing (c s)
  | fail {s' : Delayed ρ} (h : Elsewhere s s') : Steps s .failing .ended s'

variable {w n}

/-- **What one step of a second delete does.** -/
theorem steps_of_next? {j : Errand} {x : Stage ρ} {s s' : Delayed ρ}
    {q : Process (Delayed ρ) (Answer Reply)} (hj : s.errands[n]? = some j)
    (h : (x.process w n j.key).next? s = some (q, s')) :
    ∃ x' : Stage ρ, q = x'.process w n j.key ∧ Steps w j.key s x x' s' := by
  cases x with
  | idle =>
    obtain ⟨-, rfl, rfl⟩ := next?_wait h
    exact ⟨.called, rfl, .wake⟩
  | called =>
    obtain ⟨rfl, rfl⟩ := next?_act h
    refine ⟨.begun, ?_, .see⟩
    change carry w s.errands[n]? = _
    rw [hj]
    rfl
  | begun =>
    obtain ⟨rfl, rfl⟩ := next?_act h
    exact ⟨.sleeping _, rfl, .sleep⟩
  | sleeping t =>
    obtain ⟨hr, rfl, rfl⟩ := next?_wait h
    exact ⟨.timing, rfl, .rise (of_decide_eq_true hr)⟩
  | timing =>
    obtain ⟨rfl, rfl⟩ := next?_act h
    exact ⟨_, (process_after w n j.key _ _).symm, .start⟩
  | deleting l r =>
    cases r with
    | done a =>
      cases a with
      | ok _ => cases h
      | error e =>
        obtain ⟨rfl, rfl⟩ := next?_act h
        exact ⟨.ended, rfl, .refuse l e ⟨_, rfl⟩⟩
    | act g k =>
      obtain ⟨rfl, rfl⟩ := next?_act h
      exact ⟨_, (process_after w n j.key _ _).symm, .act l g k⟩
    | wait v c k =>
      obtain ⟨hr, rfl, rfl⟩ := next?_wait h
      cases hv : v.ready s' with
      | true =>
        refine ⟨_, ?_, .resume l c k hv⟩
        rw [process_after]
        change finished (Process.bind (if v.ready s' = true then _ else _) _) = _
        rw [if_pos hv]
        rfl
      | false =>
        refine ⟨.giving v c k, ?_, .lapse c k hv ?_⟩
        · change finished (Process.bind (if v.ready s' = true then _ else _) _) = _
          rw [if_neg (by simp [hv])]
          rfl
        · simpa [Wait.ready, hv] using hr
  | giving v c k =>
    obtain ⟨rfl, rfl⟩ := next?_act h
    exact ⟨.failing, rfl, .giveUp v c k⟩
  | failing =>
    obtain ⟨rfl, rfl⟩ := next?_act h
    exact ⟨.ended, rfl, .fail ⟨_, rfl⟩⟩
  | ended => cases h

end Stage

end Delayed
end LayeredCache

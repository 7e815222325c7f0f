import LayeredCache.Call
import LayeredCache.Layer.Memory
import LayeredCache.Proofs.Pool

/-!
# The steps of a memory cache

What the processes of a memory cache do to the state, step by step, wherever the engine lives in
it. A call of the cache contract is one step at the instant of the clock. A reclamation pass goes
through stages: the scan, the removal, and one step for each entry that it hands over; whatever
else happens may come between them.

Results:
* `does_of_next?`: a call ends with its first step, and what that does to the table.
* `passes_of_next?`: the stages that a pass goes through.
* `keeps_call`, `keeps_reclaim`: what the steps of a call and of a pass keep.
-/

namespace LayeredCache.Memory

variable {σ : Type} [Clock σ] (m : Memory σ)

/-! ## Calls -/

/-- What a call answers at an instant, and the table then. -/
inductive Does (now : Nat) (t : Table) : Call → Answer Reply → Table → Prop
  | get (key : String) : Does now t (.get key) ((t.read now key).map .value) t
  | getMulti (keys : List String) :
      Does now t (.getMulti keys) ((t.readEach now keys).map .slots) t
  | isExist (key : String) : Does now t (.isExist key) (.ok (.flag (t.isLive now key))) t
  | put (key : String) (v : Value) (ttl : Duration) :
      Does now t (.put key v ttl) (.ok .nothing) (t.put now key v ttl)
  | delete (key : String) : Does now t (.delete key) (.ok .nothing) (t.erase key)
  | step {d : Step} {key : String} {t' : Table} (h : t.step now key d = .ok t') :
      Does now t (.step d key) (.ok .nothing) t'
  | refuse {d : Step} {key : String} {e : CacheError} (h : t.step now key d = .error e) :
      Does now t (.step d key) (.error e) t
  | clearAll : Does now t .clearAll (.ok .nothing) .empty
  | start (payload : String) (r : Answer Reply) : Does now t (.start payload) r t

/-- The state differs in the engine alone, and there in the table and the loop alone. -/
def Touches (s s' : σ) : Prop :=
  s' = s ∨ ∃ e : Engine, s' = m.slot.set e s ∧ e.watched = (m.slot.get s).watched

theorem next?_attempt (f : Nat → Engine → Answer Engine) (s : σ) :
    (m.attempt f).next? s = some (match f (Clock.instant s) (m.slot.get s) with
      | .ok e => (.done (.ok ()), m.slot.set e s)
      | .error e => (.done (.error e), s)) := by
  simp only [Memory.attempt, Process.step, Process.next?]
  cases f (Clock.instant s) (m.slot.get s) <;> rfl

theorem startWith_same {scheduled : Bool} {now : Nat} {payload : String} {e e' : Engine}
    (h : e.startWith scheduled now payload = .ok e') :
    e'.table = e.table ∧ e'.watched = e.watched := by
  unfold Engine.startWith at h
  cases hc : EngineConfig.parse payload with
  | error x => simp [hc, bind, Except.bind] at h
  | ok c =>
    simp only [hc, bind, Except.bind, Engine.start] at h
    split at h
    · simp at h
    · split at h
      · split at h
        · rw [← Except.ok.inj h]
          exact ⟨rfl, rfl⟩
        · simp at h
      · rw [← Except.ok.inj h]
        exact ⟨rfl, rfl⟩

/-- **A call is one step.** It ends there with its answer, and what it does to the table is what
the call says. -/
theorem does_of_next? {c : Call} {s s' : σ} {q : Process σ (Answer Reply)}
    (h : (c.run m.cache).next? s = some (q, s')) :
    ∃ r, q = .done r ∧ m.Touches s s' ∧
      Does (Clock.instant s) (m.slot.get s).table c r (m.slot.get s').table := by
  cases c with
  | get key =>
    obtain ⟨rfl, rfl⟩ := Process.next?_act h
    exact ⟨_, rfl, .inl rfl, .get key⟩
  | getMulti keys =>
    obtain ⟨rfl, rfl⟩ := Process.next?_act h
    exact ⟨_, rfl, .inl rfl, .getMulti keys⟩
  | isExist key =>
    obtain ⟨rfl, rfl⟩ := Process.next?_act h
    exact ⟨_, rfl, .inl rfl, .isExist key⟩
  | put key v ttl =>
    obtain ⟨rfl, rfl⟩ := Process.next?_act h
    refine ⟨_, rfl, .inr ⟨_, rfl, rfl⟩, ?_⟩
    rw [Slot.get_modify]
    exact .put key v ttl
  | delete key =>
    obtain ⟨rfl, rfl⟩ := Process.next?_act h
    refine ⟨_, rfl, .inr ⟨_, rfl, rfl⟩, ?_⟩
    rw [Slot.get_modify]
    exact .delete key
  | clearAll =>
    obtain ⟨rfl, rfl⟩ := Process.next?_act h
    refine ⟨_, rfl, .inr ⟨_, rfl, rfl⟩, ?_⟩
    rw [Slot.get_modify]
    exact .clearAll
  | step d key =>
    have hn := m.next?_attempt
      (fun now e => do return { e with table := ← e.table.step now key d }) s
    cases ht : (m.slot.get s).table.step (Clock.instant s) key d with
    | ok t =>
      simp only [ht, bind, Except.bind] at hn
      obtain ⟨rfl, rfl⟩ := Process.next?_unique (Process.next?_bind hn _) h
      refine ⟨_, rfl, .inr ⟨_, rfl, rfl⟩, ?_⟩
      rw [m.slot.get_set]
      exact .step ht
    | error e =>
      simp only [ht, bind, Except.bind] at hn
      obtain ⟨rfl, rfl⟩ := Process.next?_unique (Process.next?_bind hn _) h
      exact ⟨_, rfl, .inl rfl, .refuse ht⟩
  | start payload =>
    have hn := m.next?_attempt (fun now e => e.startWith true now payload) s
    cases he : (m.slot.get s).startWith true (Clock.instant s) payload with
    | ok e =>
      simp only [he] at hn
      obtain ⟨rfl, rfl⟩ := Process.next?_unique (Process.next?_bind hn _) h
      have hs := startWith_same he
      refine ⟨_, rfl, .inr ⟨e, rfl, hs.2⟩, ?_⟩
      rw [m.slot.get_set, hs.1]
      exact .start payload _
    | error e =>
      simp only [he] at hn
      obtain ⟨rfl, rfl⟩ := Process.next?_unique (Process.next?_bind hn _) h
      exact ⟨_, rfl, .inl rfl, .start payload _⟩

/-! ## Reclamation passes -/

/-- How far a reclamation pass has come. -/
inductive Stage where
  /-- The next tick of the loop has to be set. -/
  | rearm
  | scan
  /-- The keys that the scan found have to be looked at again and removed. -/
  | evict (keys : List String)
  /-- The removed entries have to be handed over, if there is a receiver. -/
  | hand (out : List (String × Value))
  /-- These entries are still to be handed over; then the pass answers how many it removed. -/
  | deliver (rest : List (String × Value)) (removed : Nat)

namespace Stage

/-- What remains of the pass. -/
def process : Stage → Process σ Nat
  | .rearm => m.tick
  | .scan => m.reclaim
  | .evict keys => m.evict keys
  | .hand out => do
    m.hand out
    return out.length
  | .deliver rest removed => do
    m.deliver rest
    return removed

end Stage

/-- One step of a reclamation pass. -/
inductive Passes (s : σ) : Stage → Stage → σ → Prop
  | rearm : Passes s .rearm .scan (m.slot.modify (fun e => e.rearm (Clock.instant s)) s)
  | scan {keys : List String} (h : (m.slot.get s).table.expiredKeys (Clock.instant s) = keys)
      (hk : keys ≠ []) : Passes s .scan (.evict keys) s
  | clean (h : (m.slot.get s).table.expiredKeys (Clock.instant s) = []) :
      Passes s .scan (.deliver [] 0) s
  | evict (keys : List String) :
      Passes s (.evict keys) (.hand ((m.slot.get s).sweep (Clock.instant s) keys).1)
        (m.slot.set ((m.slot.get s).sweep (Clock.instant s) keys).2 s)
  | hand {out : List (String × Value)} (h : (m.slot.get s).watched = true) :
      Passes s (.hand out) (.deliver out out.length) s
  | unwatched {out : List (String × Value)} (h : (m.slot.get s).watched = false) :
      Passes s (.hand out) (.deliver [] out.length) s
  | deliver (x : String × Value) (rest : List (String × Value)) (removed : Nat) :
      Passes s (.deliver (x :: rest) removed) (.deliver rest removed) (m.evicted x.1 x.2 s)

/-- **A pass goes through its stages.** -/
theorem passes_of_next? {stage : Stage} {s s' : σ} {q : Process σ Nat}
    (h : (stage.process m).next? s = some (q, s')) :
    ∃ stage' : Stage, q = stage'.process m ∧ m.Passes s stage stage' s' := by
  cases stage with
  | rearm =>
    obtain ⟨rfl, rfl⟩ := Process.next?_act h
    exact ⟨.scan, rfl, .rearm⟩
  | scan =>
    obtain ⟨rfl, rfl⟩ := Process.next?_act h
    by_cases hk : (m.slot.get s).table.expiredKeys (Clock.instant s) = []
    · refine ⟨.deliver [] 0, ?_, .clean hk⟩
      change (if ((m.slot.get s).table.expiredKeys (Clock.instant s)).isEmpty then _ else _) = _
      rw [hk]
      rfl
    · refine ⟨.evict _, ?_, .scan rfl hk⟩
      change (if ((m.slot.get s).table.expiredKeys (Clock.instant s)).isEmpty then _ else _) = _
      rw [if_neg (by simpa using hk)]
      rfl
  | evict keys =>
    obtain ⟨rfl, rfl⟩ := Process.next?_act h
    exact ⟨.hand _, rfl, .evict keys⟩
  | hand out =>
    obtain ⟨rfl, rfl⟩ := Process.next?_act h
    cases hw : (m.slot.get s).watched with
    | true =>
      refine ⟨.deliver out out.length, ?_, .hand hw⟩
      change ((if (m.slot.get s).watched = true then _ else _ : Process σ Unit).bind _) = _
      rw [if_pos hw]
      rfl
    | false =>
      refine ⟨.deliver [] out.length, ?_, .unwatched hw⟩
      change ((if (m.slot.get s).watched = true then _ else _ : Process σ Unit).bind _) = _
      rw [if_neg (by simp [hw])]
      rfl
  | deliver rest removed =>
    cases rest with
    | nil => simp [Stage.process, deliver, Process.next?] at h
    | cons x rest =>
      obtain ⟨rfl, rfl⟩ := Process.next?_act h
      exact ⟨.deliver rest removed, rfl, .deliver x rest removed⟩

/-- A pass that answers how many entries it removed. -/
def counted (p : Process σ Nat) : Process σ (Answer Reply) := p.bind fun n => .done (.ok (.count n))

theorem passes_of_next?_counted {stage : Stage} {s s' : σ} {q : Process σ (Answer Reply)}
    (h : (counted (stage.process m)).next? s = some (q, s')) :
    ∃ stage' : Stage, q = counted (stage'.process m) ∧ m.Passes s stage stage' s' := by
  rcases Process.next?_bind_cases h with ⟨q, hq, rfl⟩ | ⟨n, -, hn⟩
  · obtain ⟨stage', rfl, hp⟩ := m.passes_of_next? hq
    exact ⟨stage', rfl, hp⟩
  · simp [Process.next?] at hn

/-! ## What calls and passes keep -/

section Keeps

variable {m} {R : σ → σ → Prop}

theorem keeps_attempt (hR : ∀ s, R s s) (f : Nat → Engine → Answer Engine)
    (h : ∀ s e, f (Clock.instant s) (m.slot.get s) = .ok e → R s (m.slot.set e s)) :
    (m.attempt f).Keeps R := by
  refine .act (fun s => ?_) fun _ => .done _
  dsimp only
  split
  · rename_i e he
    exact h s e he
  · exact hR s

/-- What a call does to the table decides what it keeps. -/
theorem keeps_call {c : Call} (hR : ∀ s, R s s)
    (h : ∀ s e r, Does (Clock.instant s) (m.slot.get s).table c r e.table →
      R s (m.slot.set e s)) : (c.run m.cache).Keeps R := by
  obtain ⟨g, k, hp⟩ : ∃ g k, c.run m.cache = .act g k := by cases c <;> exact ⟨_, _, rfl⟩
  have single (s : σ) : (∃ r, k s = .done r) ∧ R s (g s) := by
    have hn : (c.run m.cache).next? s = some (k s, g s) := by rw [hp, Process.next?]
    obtain ⟨r, hr, ht, hd⟩ := m.does_of_next? hn
    refine ⟨⟨r, hr⟩, ?_⟩
    rcases ht with ht | ⟨e, he, -⟩
    · rw [ht]
      exact hR s
    · rw [he, m.slot.get_set] at hd
      rw [he]
      exact h s e r hd
  rw [hp]
  refine .act (fun s => (single s).2) fun s => ?_
  obtain ⟨r, hr⟩ := (single s).1
  rw [hr]
  exact .done r

omit [Clock σ] in
theorem keeps_deliver (hevicted : ∀ k v s, R s (m.evicted k v s))
    (out : List (String × Value)) : (m.deliver out).Keeps R := by
  induction out with
  | nil => exact .done _
  | cons x out ih => exact .act (hevicted x.1 x.2) fun _ => ih

omit [Clock σ] in
theorem keeps_hand (hR : ∀ s, R s s) (hevicted : ∀ k v s, R s (m.evicted k v s))
    (out : List (String × Value)) : (m.hand out).Keeps R := by
  refine .act hR fun s => ?_
  change Process.Keeps _ (if _ then _ else _)
  split
  · exact keeps_deliver hevicted out
  · exact .done _

/-- What a removal and the receiver keep, a pass keeps. -/
theorem keeps_reclaim (hR : ∀ s, R s s) (hevicted : ∀ k v s, R s (m.evicted k v s))
    (hsweep : ∀ keys s,
      R s (m.slot.set ((m.slot.get s).sweep (Clock.instant s) keys).2 s)) : m.reclaim.Keeps R := by
  refine .act hR fun s => ?_
  change Process.Keeps _ (if _ then _ else _)
  split
  · exact .done _
  · refine .act (hsweep _) fun s => ?_
    change Process.Keeps _ ((m.hand _).bind _)
    exact Process.keeps_bind (keeps_hand hR hevicted _) fun _ => .done _

end Keeps

end LayeredCache.Memory

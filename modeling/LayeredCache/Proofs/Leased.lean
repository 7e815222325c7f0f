import LayeredCache.Layer.ReadThrough
import LayeredCache.Proofs.Memory

/-!
# Reads of a key in turn

A read-through cache over a memory cache, and one key that is read again and again: a read begins
when the one before has answered. Beside the reads there are reclamation passes, any number of them,
and tasks that leave the entry of the key alone but for its reclamation. Time passes between any two
steps.

The loader keeps a record: which reads called it, and what their loads came to.

Results:
* `keeps_reclaim`, `keeps_call`: reclamation passes, and calls that do not write the key, leave its
  entry alone.
* `Phase.steps_of_next?`: what one step of a read does.
* `turned_of_moved`: what a turn can do.
-/

namespace LayeredCache

/-- A memory cache with its clock, the record of the loader, and the rest of the state. -/
structure Leased (ρ : Type) where
  instant : Nat
  engine : Engine
  /-- The reads that called the loader, oldest first. -/
  calls : List Nat
  /-- What the load of each read came to. -/
  loads : Nat → Option (Except Cause Value)
  rest : ρ

namespace Leased

variable {ρ ε ι : Type}

instance : Clock (Leased ρ) := ⟨Leased.instant⟩

instance [Journal ρ] : Journal (Leased ρ) :=
  ⟨fun v t s => { s with rest := Journal.note v t s.rest }⟩

def find? (s : Leased ρ) (key : String) : Option Entry := s.engine.table.find? key

/-- What the cache answers for a key. -/
def read (s : Leased ρ) (key : String) : Answer Value := s.engine.table.read s.instant key

/-- The memory cache; its receiver works on the rest of the state. -/
def memory (receive : String → Value → ρ → ρ) : Memory (Leased ρ) where
  slot := ⟨Leased.engine, fun e s => { s with engine := e }, fun _ _ => rfl⟩
  evicted k v s := { s with rest := receive k v s.rest }

/-- The state after a put. -/
def stored (key : String) (v : Value) (ttl : Duration) (s : Leased ρ) : Leased ρ :=
  { s with engine := { s.engine with table := s.engine.table.put s.instant key v ttl } }

/-! ## What runs -/

/-- The load of read `n` has come to `r`. -/
def came (n : Nat) (r : Except Cause Value) : Process (Leased ρ) (Except Cause Value) := do
  Process.change fun s => { s with loads := Function.update s.loads n (some r) }
  return r

/-- The loader for read `n`, with its record. -/
def source (n : Nat) (load : Loader (Leased ρ)) : Loader (Leased ρ) := fun key => do
  Process.change fun s => { s with calls := s.calls ++ [n] }
  came n (← load key)

/-- A read-through cache over a memory cache, and the key that is read. -/
structure Setting (ρ : Type) where
  load : Loader (Leased ρ)
  ttl : Duration
  key : String
  receive : String → Value → ρ → ρ

inductive Who (ι : Type) where
  | read (n : Nat)
  /-- A reclamation pass. -/
  | pass (n : Nat)
  | task (i : ι)
  deriving DecidableEq

namespace Setting

variable [Journal ρ] (c : Setting ρ)

/-- The cache that read `n` is made of. -/
def cache (n : Nat) : Cache (Leased ρ) :=
  ReadThrough.cache (memory c.receive).cache (source n c.load) c.ttl

/-- Reads, reclamation passes and other tasks, none of which has taken a step. -/
def pool (tasks : ι → Process (Leased ρ) (Answer Reply)) (s : Leased ρ) :
    Pool (Who ι) (Leased ρ) (Answer Reply) where
  state := s
  threads
    | .read n => some ((Call.get c.key).run (c.cache n))
    | .pass _ => some (Memory.counted (memory c.receive).reclaim)
    | .task i => some (tasks i)

end Setting

/-- Something happens elsewhere while time passes. -/
def elapse (effect : ε → ρ → ρ) (x : ε × Nat) (s : Leased ρ) : Leased ρ :=
  { s with instant := s.instant + x.2, rest := effect x.1 s.rest }

/-- **Reads do not overlap**: one takes a step only when those before have answered. -/
def InTurn (p : Pool (Who ι) (Leased ρ) (Answer Reply)) : Turn (Who ι) (ε × Nat) → Prop
  | .go (.read n) => ∀ m < n, ∃ r, p.threads (.read m) = some (.done r)
  | _ => True

/-- The read has answered. -/
def answered (p : Pool (Who ι) (Leased ρ) (Answer Reply)) (n : Nat) : Bool :=
  match p.threads (.read n) with
  | some (.done _) => true
  | _ => false

theorem answered_iff {p : Pool (Who ι) (Leased ρ) (Answer Reply)} {n : Nat} :
    answered p n = true ↔ ∃ r, p.threads (.read n) = some (.done r) := by
  unfold answered
  split
  · rename_i r h
    exact iff_of_true rfl ⟨r, h⟩
  · rename_i h
    exact iff_of_false (by simp) fun ⟨r, hr⟩ => h r hr

instance (p : Pool (Who ι) (Leased ρ) (Answer Reply)) :
    ∀ t : Turn (Who ι) (ε × Nat), Decidable (InTurn p t)
  | .go (.read n) => decidable_of_iff (∀ m < n, answered p m = true)
    (forall₂_congr fun _ _ => answered_iff)
  | .go (.pass _) | .go (.task _) | .drop _ | .outside _ => .isTrue trivial

/-! ## What leaves the key alone -/

/-- The entry of the key stays, or it is expired and goes. -/
structure Aside (I : ρ → Prop) (key : String) (s t : Leased ρ) : Prop where
  instant : s.instant ≤ t.instant
  entry : t.find? key = s.find? key ∨
    t.find? key = none ∧ ∀ e, s.find? key = some e → e.isExpiredAt t.instant = true
  calls : t.calls = s.calls
  loads : t.loads = s.loads
  rest : I s.rest → I t.rest

/-- The same within no time. -/
def Apart (I : ρ → Prop) (key : String) (s t : Leased ρ) : Prop :=
  t.instant = s.instant ∧ Aside I key s t

section Apart

variable {I : ρ → Prop} {key : String} {receive : String → Value → ρ → ρ}

theorem Apart.refl (s : Leased ρ) : Apart I key s s := ⟨rfl, Nat.le_refl _, .inl rfl, rfl, rfl, id⟩

theorem aside_elapse {effect : ε → ρ → ρ} (h : ∀ x r, I r → I (effect x r)) (x : ε × Nat)
    (s : Leased ρ) : Aside I key s (elapse effect x s) :=
  ⟨Nat.le_add_right _ _, .inl rfl, rfl, rfl, h _ _⟩

/-- A change of the engine by which the entry stays, or is expired and goes. -/
theorem apart_engine (receive : String → Value → ρ → ρ) {s : Leased ρ} {e : Engine}
    (h : e.table.find? key = s.find? key ∨
      e.table.find? key = none ∧ ∀ x, s.find? key = some x → x.isExpiredAt s.instant = true) :
    Apart I key s ((memory receive).slot.set e s) :=
  ⟨rfl, Nat.le_refl _, h, rfl, rfl, id⟩

/-- A removal takes the entry out only if it is expired. -/
theorem apart_sweep (receive : String → Value → ρ → ρ) (keys : List String) (s : Leased ρ) :
    Apart I key s ((memory receive).slot.set (s.engine.sweep s.instant keys).2 s) := by
  refine apart_engine receive ?_
  rcases Table.find?_sweep_cases s.instant keys s.engine.table key with hk | ⟨hk, e, he, hx⟩
  · exact .inl hk
  · exact .inr ⟨hk, fun x h => Option.some.inj (he.symm.trans h) ▸ hx⟩

/-- **A reclamation pass leaves the key alone.** -/
theorem keeps_reclaim (hreceive : ∀ k v r, I r → I (receive k v r)) :
    (memory receive).reclaim.Keeps (Apart I key) :=
  Memory.keeps_reclaim Apart.refl
    (fun _ _ _ => ⟨rfl, Nat.le_refl _, .inl rfl, rfl, rfl, hreceive _ _ _⟩) (apart_sweep receive)

/-- The call writes the key. -/
def Writes (key : String) : Call → Prop
  | .put k _ _ | .delete k | .step _ k => k = key
  | .clearAll => True
  | _ => False

theorem find?_of_does {now : Nat} {t t' : Table} {call : Call} {r : Answer Reply}
    (h : ¬ Writes key call) (hd : Memory.Does now t call r t') : t'.find? key = t.find? key := by
  cases hd with
  | put => exact (Table.find?_insert ..).trans (if_neg (Ne.symm h))
  | delete => exact (Table.find?_erase ..).trans (if_neg (Ne.symm h))
  | step hs =>
    obtain ⟨v, rfl⟩ := Table.setValue_of_step hs
    exact (Table.find?_setValue ..).trans (if_neg (Ne.symm h))
  | clearAll => exact absurd trivial h
  | _ => rfl

/-- **A call that does not write the key leaves it alone.** -/
theorem keeps_call {call : Call} (h : ¬ Writes key call) :
    (call.run (memory receive).cache).Keeps (Apart I key) :=
  Memory.keeps_call Apart.refl fun _ _ _ hd => apart_engine receive (.inl (find?_of_does h hd))

end Apart

/-! ## The phases of a read -/

/-- How far a read has come. -/
inductive Phase (ρ : Type) where
  /-- It has not looked for the key yet. -/
  | fresh
  /-- It has missed the key, and is about to call the loader. -/
  | missed
  | loading (q : Process (Leased ρ) (Except Cause Value))
  /-- It is about to write back what was loaded. -/
  | storing (v : Value)
  | ended (r : Answer Reply)

/-- What a read makes of what the cache answers. -/
def reply (p : Process (Leased ρ) (Answer Value)) : Process (Leased ρ) (Answer Reply) :=
  p.bind fun r => .done (r.map .value)

namespace Phase

/-- The phase after a load. -/
def after (key : String) : Except Cause Value → Phase ρ
  | .ok v => .storing v
  | .error e => .ended (.error (.loadFailed key e))

/-- The answer of a read that has ended. -/
def answer? : Phase ρ → Option (Answer Reply)
  | .ended r => some r
  | _ => none

variable [Journal ρ] (c : Setting ρ)

/-- What becomes of what was loaded. -/
def keep : Except Cause Value → Process (Leased ρ) (Answer Value) :=
  Loader.keep (memory c.receive).cache c.ttl "Read-through could not cache key" c.key

/-- What remains of read `n`. -/
def process (n : Nat) : Phase ρ → Process (Leased ρ) (Answer Reply)
  | .fresh => (Call.get c.key).run (c.cache n)
  | .missed => reply ((source n c.load c.key).bind (keep c))
  | .loading q => reply ((q.bind (came n)).bind (keep c))
  | .storing v => reply (keep c (.ok v))
  | .ended r => .done r

/-- One step of read `n`. -/
inductive Steps (n : Nat) (s : Leased ρ) : Phase ρ → Phase ρ → Leased ρ → Prop
  | hit {v : Value} (h : s.read c.key = .ok v) : Steps n s .fresh (.ended (.ok (.value v))) s
  | miss {e : CacheError} (h : s.read c.key = .error e) : Steps n s .fresh .missed s
  | call : Steps n s .missed (.loading (c.load c.key)) { s with calls := s.calls ++ [n] }
  | load {q q' : Process (Leased ρ) (Except Cause Value)} {t : Leased ρ}
      (h : q.next? s = some (q', t)) : Steps n s (.loading q) (.loading q') t
  | come (r : Except Cause Value) : Steps n s (.loading (.done r)) (after c.key r)
      { s with loads := Function.update s.loads n (some r) }
  | store (v : Value) : Steps n s (.storing v) (.ended (.ok (.value v))) (stored c.key v c.ttl s)

variable {c} {n : Nat} {s s' : Leased ρ} {phase : Phase ρ} {q : Process (Leased ρ) (Answer Reply)}

theorem process_after (r : Except Cause Value) :
    (after c.key r).process c n = reply (keep c r) := by
  cases r <;> rfl

/-- **What one step of a read does.** -/
theorem steps_of_next? (h : (phase.process c n).next? s = some (q, s')) :
    ∃ phase', q = phase'.process c n ∧ Steps c n s phase phase' s' := by
  cases phase with
  | fresh =>
    obtain ⟨rfl, rfl⟩ := Process.next?_act h
    cases hr : s.read c.key with
    | ok v =>
      refine ⟨.ended (.ok (.value v)), ?_, .hit hr⟩
      change reply (Process.bind (.done (s.read c.key)) _) = _
      rw [hr]
      rfl
    | error e =>
      refine ⟨.missed, ?_, .miss hr⟩
      change reply (Process.bind (.done (s.read c.key)) _) = _
      rw [hr]
      rfl
  | missed =>
    obtain ⟨rfl, rfl⟩ := Process.next?_act h
    exact ⟨.loading (c.load c.key), rfl, .call⟩
  | loading p =>
    cases p with
    | done r =>
      obtain ⟨rfl, rfl⟩ := Process.next?_act h
      exact ⟨after c.key r, (process_after r).symm, .come r⟩
    | act g k =>
      obtain ⟨rfl, rfl⟩ := Process.next?_act h
      exact ⟨.loading (k s), rfl, .load rfl⟩
    | wait w a k =>
      obtain ⟨hw, rfl, rfl⟩ := Process.next?_wait h
      exact ⟨.loading (k _), rfl, .load (if_pos hw)⟩
  | storing v =>
    obtain ⟨rfl, rfl⟩ := Process.next?_act h
    exact ⟨.ended (.ok (.value v)), rfl, .store v⟩
  | ended r => cases h

theorem answer?_process : (phase.process c n).answer? = phase.answer? := by
  cases phase with
  | loading p => cases p <;> rfl
  | _ => rfl

/-- A read waits only for its load. -/
theorem loading_of_wait {w : Wait (Leased ρ)} {a : Leased ρ → Leased ρ}
    {k : Leased ρ → Process (Leased ρ) (Answer Reply)} (h : phase.process c n = .wait w a k) :
    ∃ k', phase = .loading (.wait w a k') := by
  cases phase with
  | loading p =>
    cases p with
    | wait w' a' k' =>
      obtain ⟨rfl, rfl, -⟩ := Process.wait.inj h
      exact ⟨k', rfl⟩
    | _ => cases h
  | _ => cases h

end Phase

/-! ## Turns -/

section Turns

variable [Journal ρ] [DecidableEq ι] {c : Setting ρ} {I : ρ → Prop}

/-- The threads of a pool: reads that have answered, at most one under way, and those to come,
beside what remains of passes and tasks. -/
structure Crew (c : Setting ρ) (I : ρ → Prop) (p : Pool (Who ι) (Leased ρ) (Answer Reply))
    (answers : List (Answer Reply)) (phase : Option (Phase ρ)) : Prop where
  before : ∀ n r, answers[n]? = some r → p.threads (.read n) = some (.done r)
  now : p.threads (.read answers.length) = phase.map (Phase.process c answers.length)
  underway : ∀ r, phase ≠ some (.ended r)
  after : ∀ n, answers.length < n → p.threads (.read n) = some (Phase.fresh.process c n)
  others : ∀ w q, (∀ n, w ≠ .read n) → p.threads w = some q → q.Keeps (Apart I c.key)

/-- A step of read `n`. -/
def event (ι : Type) (n : Nat) (s s' : Leased ρ) (r : Option (Answer Reply)) :
    Pool.Event (Who ι) (Leased ρ) (Answer Reply) := ⟨.read n, s, s', r⟩

/-- What a turn can do. -/
inductive Turned (c : Setting ρ) (I : ρ → Prop) (s : Leased ρ) (answers : List (Answer Reply)) :
    Option (Phase ρ) → Option (Pool.Event (Who ι) (Leased ρ) (Answer Reply)) → Leased ρ →
      List (Answer Reply) → Option (Phase ρ) → Prop
  | aside {phase : Option (Phase ρ)} {x : Option (Pool.Event (Who ι) (Leased ρ) (Answer Reply))}
      {s' : Leased ρ} (hx : ∀ e ∈ x, ∀ n, e.who ≠ .read n) (h : Aside I c.key s s') :
      Turned c I s answers phase x s' answers phase
  | step {phase phase' : Phase ρ} {s' : Leased ρ}
      (h : phase.Steps c answers.length s phase' s') (hr : phase'.answer? = none) :
      Turned c I s answers (some phase) (some (event ι answers.length s s' none)) s' answers
        (some phase')
  | answer {phase : Phase ρ} {s' : Leased ρ} {r : Answer Reply}
      (h : phase.Steps c answers.length s (.ended r) s') :
      Turned c I s answers (some phase) (some (event ι answers.length s s' (some r))) s'
        (answers ++ [r]) (some .fresh)
  | gone {w : Wait (Leased ρ)} {a : Leased ρ → Leased ρ}
      {k : Leased ρ → Process (Leased ρ) (Except Cause Value)} :
      Turned c I s answers (some (.loading (.wait w a k))) none (a s) answers none

omit [DecidableEq ι] in
theorem crew_pool {tasks : ι → Process (Leased ρ) (Answer Reply)}
    (htasks : ∀ i, (tasks i).Keeps (Apart I c.key))
    (hreceive : ∀ k v r, I r → I (c.receive k v r)) (s : Leased ρ) :
    Crew c I (c.pool tasks s) [] (some .fresh) where
  before n r h := nomatch h
  now := rfl
  underway r h := nomatch h
  after n _ := rfl
  others w q hw hq := by
    cases w with
    | read n => exact absurd rfl (hw n)
    | pass n =>
      obtain rfl := Option.some.inj hq
      exact Process.keeps_bind (keeps_reclaim hreceive) fun _ => .done _
    | task i =>
      obtain rfl := Option.some.inj hq
      exact htasks i

theorem others_update {p : Pool (Who ι) (Leased ρ) (Answer Reply)} {answers : List (Answer Reply)}
    {phase : Option (Phase ρ)} (h : Crew c I p answers phase) (s : Leased ρ) {w : Who ι}
    (hw : ∀ n, w ≠ .read n) {y : Option (Process (Leased ρ) (Answer Reply))}
    (hy : ∀ q, y = some q → q.Keeps (Apart I c.key)) :
    Crew c I ⟨s, Function.update p.threads w y⟩ answers phase := by
  have same (n : Nat) : Function.update p.threads w y (.read n) = p.threads (.read n) :=
    Function.update_of_ne (hw n).symm ..
  refine ⟨fun n r hr => (same n).trans (h.before n r hr), (same _).trans h.now, h.underway,
    fun n hn => (same n).trans (h.after n hn), fun v q hv hq => ?_⟩
  rcases Pool.update_eq_some hq with ⟨-, hq⟩ | ⟨-, hq⟩
  · exact hy q hq
  · exact h.others v q hv hq

omit [Journal ρ] in
/-- A turn of one read is none of another. -/
theorem update_read {threads : Who ι → Option (Process (Leased ρ) (Answer Reply))} {n m : Nat}
    (h : n ≠ m) (y : Option (Process (Leased ρ) (Answer Reply))) :
    Function.update threads (.read m) y (.read n) = threads (.read n) :=
  Function.update_of_ne (fun hr => h (Who.read.inj hr)) ..

theorem step_update {p : Pool (Who ι) (Leased ρ) (Answer Reply)} {answers : List (Answer Reply)}
    {phase : Option (Phase ρ)} (h : Crew c I p answers phase) (s : Leased ρ)
    (phase' : Option (Phase ρ)) (hp : ∀ r, phase' ≠ some (.ended r)) :
    Crew c I ⟨s, Function.update p.threads (.read answers.length)
      (phase'.map (Phase.process c answers.length))⟩ answers phase' := by
  refine ⟨fun n r hr => ?_, Function.update_self .., hp, fun n hn => ?_, fun w q hw hq => ?_⟩
  · have hn := (List.getElem?_eq_some_iff.mp hr).1
    exact (update_read (by omega) _).trans (h.before n r hr)
  · exact (update_read (by omega) _).trans (h.after n hn)
  · exact h.others w q hw ((Function.update_of_ne (hw _) ..).symm.trans hq)

theorem answer_update {p : Pool (Who ι) (Leased ρ) (Answer Reply)}
    {answers : List (Answer Reply)} {phase : Option (Phase ρ)} (h : Crew c I p answers phase)
    (s : Leased ρ) (r : Answer Reply) :
    Crew c I ⟨s, Function.update p.threads (.read answers.length) (some (.done r))⟩
      (answers ++ [r]) (some .fresh) := by
  have hl : (answers ++ [r]).length = answers.length + 1 := List.length_append
  refine ⟨fun n r' hr => ?_, ?_, fun r => by simp, fun n hn => ?_, fun w q hw hq => ?_⟩
  · rcases Nat.lt_or_ge n answers.length with hn | hn
    · rw [List.getElem?_append_left hn] at hr
      exact (update_read (by omega) _).trans (h.before n r' hr)
    · obtain rfl : n = answers.length := by
        have := (List.getElem?_eq_some_iff.mp hr).1
        omega
      rw [List.getElem?_concat_length] at hr
      obtain rfl := Option.some.inj hr
      exact Function.update_self ..
  · rw [hl]
    exact (update_read (by omega) _).trans (h.after _ (by omega))
  · exact (update_read (by omega) _).trans (h.after n (by omega))
  · exact h.others w q hw ((Function.update_of_ne (hw _) ..).symm.trans hq)

omit [DecidableEq ι] in
/-- The read whose turn it is has not answered. -/
theorem Crew.not_done {p : Pool (Who ι) (Leased ρ) (Answer Reply)}
    {answers : List (Answer Reply)} {phase : Option (Phase ρ)} (h : Crew c I p answers phase)
    (r : Answer Reply) : p.threads (.read answers.length) ≠ some (.done r) := by
  intro hr
  obtain ⟨ph, hph, hdone⟩ := Option.map_eq_some_iff.mp (h.now.symm.trans hr)
  have ha : ph.answer? = some r := by
    rw [← Phase.answer?_process, hdone]
    rfl
  cases ph with
  | ended r => exact h.underway r hph
  | _ => cases ha

omit [DecidableEq ι] in
/-- Among the reads only the one whose turn it is has anything to do. -/
theorem read_of_go {p : Pool (Who ι) (Leased ρ) (Answer Reply)} {answers : List (Answer Reply)}
    {phase : Option (Phase ρ)} {n : Nat} {q : Process (Leased ρ) (Answer Reply)}
    (h : Crew c I p answers phase) (ht : ∀ m < n, ∃ r, p.threads (.read m) = some (.done r))
    (hq : p.threads (.read n) = some q) (hd : ∀ r, q ≠ .done r) :
    n = answers.length ∧ ∃ ph, phase = some ph ∧ q = ph.process c answers.length := by
  rcases Nat.lt_trichotomy n answers.length with hn | rfl | hn
  · have hr := h.before n _ (List.getElem?_eq_getElem hn)
    exact absurd (Option.some.inj (hq.symm.trans hr)) (hd _)
  · obtain ⟨ph, hph, rfl⟩ := Option.map_eq_some_iff.mp (h.now.symm.trans hq)
    exact ⟨rfl, ph, hph, rfl⟩
  · obtain ⟨r, hr⟩ := ht _ hn
    exact absurd hr (h.not_done r)

omit [DecidableEq ι] in
/-- Only a load can be given up. -/
theorem read_of_wait {p : Pool (Who ι) (Leased ρ) (Answer Reply)} {answers : List (Answer Reply)}
    {phase : Option (Phase ρ)} {n : Nat} {w : Wait (Leased ρ)} {a : Leased ρ → Leased ρ}
    {k : Leased ρ → Process (Leased ρ) (Answer Reply)} (h : Crew c I p answers phase)
    (hq : p.threads (.read n) = some (.wait w a k)) :
    n = answers.length ∧ ∃ k', phase = some (.loading (.wait w a k')) := by
  rcases Nat.lt_trichotomy n answers.length with hn | rfl | hn
  · have hr := h.before n _ (List.getElem?_eq_getElem hn)
    cases hq.symm.trans hr
  · obtain ⟨ph, hph, hwait⟩ := Option.map_eq_some_iff.mp (h.now.symm.trans hq)
    obtain ⟨k', rfl⟩ := Phase.loading_of_wait hwait
    exact ⟨rfl, k', hph⟩
  · cases hq.symm.trans (h.after n hn)

/-- **What a turn can do**, where reads do not overlap. -/
theorem turned_of_moved {effect : ε → ρ → ρ} (heffect : ∀ x r, I r → I (effect x r))
    {p p' : Pool (Who ι) (Leased ρ) (Answer Reply)} {answers : List (Answer Reply)}
    {phase : Option (Phase ρ)} {t : Turn (Who ι) (ε × Nat)}
    {x : Option (Pool.Event (Who ι) (Leased ρ) (Answer Reply))} (h : Crew c I p answers phase)
    (ht : InTurn p t) (hm : Pool.Moved (elapse effect) p t x p') :
    ∃ answers' phase', Crew c I p' answers' phase' ∧
      Turned c I p.state answers phase x p'.state answers' phase' := by
  cases hm with
  | still => exact ⟨answers, phase, h, .aside (fun e he => nomatch he) (Apart.refl _).2⟩
  | outside y =>
    refine ⟨answers, phase, ?_, .aside (fun e he => nomatch he) (aside_elapse heffect y _)⟩
    exact ⟨h.before, h.now, h.underway, h.after, h.others⟩
  | @step w q q' s hq hn =>
    by_cases hw : ∀ n, w ≠ .read n
    · obtain ⟨hk, ha⟩ := Process.keeps_next? (Apart.refl _) (h.others w q hw hq) hn
      refine ⟨answers, phase, others_update h s hw fun r hr => Option.some.inj hr ▸ hk,
        .aside (fun e he n => ?_) ha.2⟩
      obtain rfl := Option.some.inj he
      exact hw n
    · obtain ⟨n, rfl⟩ : ∃ n, w = .read n := by simpa using hw
      obtain ⟨rfl, ph, rfl, rfl⟩ := read_of_go h ht hq fun r hr => by
        subst hr
        cases hn
      obtain ⟨ph', rfl, hs⟩ := Phase.steps_of_next? hn
      rw [Phase.answer?_process]
      cases ha : ph'.answer? with
      | none =>
        refine ⟨answers, some ph', step_update h s (some ph') fun r hr => ?_, .step hs ha⟩
        obtain rfl := Option.some.inj hr
        cases ha
      | some r =>
        cases ph' with
        | ended r' =>
          obtain rfl := Option.some.inj ha
          exact ⟨answers ++ [r'], some .fresh, answer_update h s r', .answer hs⟩
        | _ => cases ha
  | @gone w v a k hq =>
    by_cases hw : ∀ n, w ≠ .read n
    · have hkeeps := h.others w _ hw hq
      cases hkeeps with
      | wait hc _ =>
        refine ⟨answers, phase, others_update h _ hw (fun r hr => nomatch hr), ?_⟩
        exact .aside (fun e he => nomatch he) (hc _).2
    · obtain ⟨n, rfl⟩ : ∃ n, w = .read n := by simpa using hw
      obtain ⟨rfl, k', rfl⟩ := read_of_wait h hq
      exact ⟨answers, none, step_update h _ none fun r => by simp, .gone⟩

end Turns

end Leased
end LayeredCache

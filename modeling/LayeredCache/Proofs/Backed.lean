import LayeredCache.Proofs.Memory
import LayeredCache.Proofs.Stack

/-!
# A cache backed by rows

A memory cache whose collaborators share one source of truth, the rows, that nobody else writes. A
caller makes one call after the other; beside it, in any number and at any time, reclamation passes
are made and second deletes are carried out, and time passes.

Of a source it is only asked that a load answers nothing but a row, and that a store writes its row
with the step by which it succeeds: one that fails or is given up has written nothing. Both may wait
and fail as they like.

Results:
* `keeps_background`: passes and second deletes only take entries away.
* `Source.deciding`: sources whose calls come to anything there is to come to.
-/

namespace LayeredCache

/-- A memory engine, its clock, the rows of the source of truth, and the rest of the state. -/
structure Backed (ρ : Type) where
  instant : Nat
  engine : Engine
  rows : String → Option Value
  rest : ρ

namespace Backed

open Process

variable {ρ : Type}

instance : Clock (Backed ρ) := ⟨Backed.instant⟩

instance [Journal ρ] : Journal (Backed ρ) :=
  ⟨fun v t s => { s with rest := Journal.note v t s.rest }⟩

def rested : Slot (Backed ρ) ρ := ⟨Backed.rest, fun r s => { s with rest := r }, fun _ _ => rfl⟩

def engineSlot : Slot (Backed ρ) Engine :=
  ⟨Backed.engine, fun e s => { s with engine := e }, fun _ _ => rfl⟩

/-- Only the rest of the state differs. -/
def Elsewhere (s t : Backed ρ) : Prop := ∃ r, t = { s with rest := r }

/-- A row is written. -/
def Writes (key : String) (v : Value) (s t : Backed ρ) : Prop :=
  ∃ r, t = { s with rows := Function.update s.rows key (some v), rest := r }

/-- A store that writes its row with the step by which it succeeds. In the states `last`, the step
that it takes is that one. -/
inductive Commits (key : String) (v : Value) : Process (Backed ρ) (Except Cause Unit) → Prop
  | fail (c : Cause) : Commits key v (.done (.error c))
  | act {g : Backed ρ → Backed ρ} {k : Backed ρ → Process (Backed ρ) (Except Cause Unit)}
      (last : Backed ρ → Prop) (hg : ∀ s, ¬ last s → Elsewhere s (g s))
      (hk : ∀ s, ¬ last s → Commits key v (k s))
      (hw : ∀ s, last s → Writes key v s (g s) ∧ k s = .done (.ok ())) : Commits key v (.act g k)
  | wait {w : Wait (Backed ρ)} {c : Backed ρ → Backed ρ}
      {k : Backed ρ → Process (Backed ρ) (Except Cause Unit)} (hc : ∀ s, Elsewhere s (c s))
      (hk : ∀ s, Commits key v (k s)) : Commits key v (.wait w c k)

/-- Collaborators that share the rows. -/
structure Source (ρ : Type) where
  load : Loader (Backed ρ)
  store : Store (Backed ρ)
  /-- The receiver of what the engine evicts. -/
  evicted : String → Value → ρ → ρ
  /-- How a second delete is called for. -/
  later : String → ρ → ρ
  apart : ∀ key, Keeps Elsewhere (load key)
  reads : ∀ key rows, Maintains (fun s => s.rows = rows)
    (fun r => ∀ v, r = .ok v → rows key = some v) (load key)
  commits : ∀ key v, Commits key v (store key v)

/-! ## Sources there are -/

namespace Source

/-- A load that reads the row once it has come to no failure. -/
def loadAfter (verdict : String → Process ρ (Option Cause)) : Loader (Backed ρ) := fun key => do
  match ← (verdict key).embed rested with
  | some c => return .error c
  | none =>
    match ← Process.ask fun s => s.rows key with
    | some v => return .ok v
    | none => return .error (.ofText ("no row for " ++ key))

/-- A store that writes the row once it has come to no failure. -/
def storeAfter (verdict : String → Value → Process ρ (Option Cause)) : Store (Backed ρ) :=
  fun key v => do
    match ← (verdict key v).embed rested with
    | some c => return .error c
    | none =>
      Process.change fun s => { s with rows := Function.update s.rows key (some v) }
      return .ok ()

theorem elsewhere_embed {α : Type} (p : Process ρ α) : Keeps Elsewhere (p.embed rested) :=
  keeps_embed (fun _ _ => ⟨_, rfl⟩) p

theorem commits_bind {α : Type} {key : String} {v : Value} {p : Process (Backed ρ) α}
    {f : α → Process (Backed ρ) (Except Cause Unit)} (hp : Keeps Elsewhere p)
    (hf : ∀ a, Commits key v (f a)) : Commits key v (p.bind f) := by
  induction hp with
  | done a => exact hf a
  | act hg _ ih =>
    exact .act (fun _ => False) (fun s _ => hg s) (fun s _ => ih s) fun _ h => h.elim
  | wait hc _ ih => exact .wait hc ih

/-- A source whose calls wait and fail as `load` and `store` say. -/
def deciding (load : String → Process ρ (Option Cause))
    (store : String → Value → Process ρ (Option Cause)) : Source ρ where
  load := loadAfter load
  store := storeAfter store
  evicted _ _ r := r
  later _ r := r
  apart key := by
    refine keeps_bind (elsewhere_embed _) fun o => ?_
    cases o with
    | some c => exact .done _
    | none =>
      refine .act (fun s => ⟨s.rest, rfl⟩) fun s => ?_
      dsimp only [Process.bind]
      split <;> exact .done _
  reads key rows := by
    refine maintains_bind (maintains_of_keeps (elsewhere_embed _) ?_) fun o _ => ?_
    · rintro s t ⟨r, rfl⟩ h
      exact h
    · cases o with
      | some c => exact .done fun v hv => by cases hv
      | none =>
        refine .act (fun _ hs => hs) fun s hs => ?_
        dsimp only [Process.bind]
        split
        · rename_i v hv
          refine .done fun v' hv' => ?_
          rw [← hs, hv, Except.ok.inj hv']
        · exact .done fun v' hv' => by cases hv'
  commits key v := by
    refine commits_bind (elsewhere_embed _) fun o => ?_
    cases o with
    | some c => exact .fail c
    | none =>
      exact .act (fun _ => True) (fun _ h => absurd trivial h) (fun _ h => absurd trivial h)
        fun s _ => ⟨⟨s.rest, rfl⟩, rfl⟩

end Source

/-! ## What runs -/

/-- The engine. What it evicts goes to the receiver. -/
def memory (w : Source ρ) : Memory (Backed ρ) :=
  ⟨engineSlot, fun key v => rested.modify (w.evicted key v)⟩

/-- The stacks that keep a copy of the rows, with the time that loaded values are kept for. -/
inductive Setup where
  | cacheAside (ttl : Duration)
  /-- Reads through, over writes through. -/
  | writeThrough (ttl : Duration)
  /-- Reads through, over writes that delete. -/
  | writeDelete (ttl : Duration) (limit : Option Duration)
  /-- Reads through, over writes that delete twice. -/
  | writeDoubleDelete (ttl : Duration) (limit : Option Duration)

namespace Setup

def layers (w : Source ρ) : Setup → List (Decorator (Backed ρ))
  | .cacheAside ttl => [.cacheAside w.load w.store ttl]
  | .writeThrough ttl => [.readThrough w.load ttl, .writeThrough w.store]
  | .writeDelete ttl limit => [.readThrough w.load ttl, .writeDelete w.store limit]
  | .writeDoubleDelete ttl limit => [.readThrough w.load ttl,
      .writeDoubleDelete w.store limit fun key => rested.modify (w.later key)]

/-- The calls that keep to the rows: only beside the cache is a counter stepped in the source. -/
def Allows : Setup → Call → Prop
  | .cacheAside _, _ => True
  | _, .step _ _ => False
  | _, _ => True

end Setup

/-- What goes on beside the caller. -/
inductive Background where
  | pass
  | tick
  | secondDelete (interval limit : Duration) (key : String)

/-- Makes one call after the other. -/
def inTurn {σ : Type} (c : Cache σ) : List Call → Process σ (List (Answer Reply))
  | [] => return []
  | x :: xs => do
    let r ← x.run c
    let rs ← inTurn c xs
    return r :: rs

variable [Journal ρ]

def Setup.cache (w : Source ρ) (x : Setup) : Cache (Backed ρ) := stack (memory w) (x.layers w)

def Background.run (w : Source ρ) : Background → Process (Backed ρ) (List (Answer Reply))
  | .pass => do
    let _ ← (memory w).reclaim
    return []
  | .tick => do
    let _ ← (memory w).tick
    return []
  | .secondDelete interval limit key => do
    WriteDelete.secondDelete (memory w).cache interval limit key
    return []

/-- A caller and what goes on beside it, none of which has taken a step. -/
def pool {ι : Type} (w : Source ρ) (x : Setup) (calls : List Call) (tasks : ι → Background)
    (s : Backed ρ) : Pool (Option ι) (Backed ρ) (List (Answer Reply)) where
  state := s
  threads
    | none => some (inTurn (x.cache w) calls)
    | some i => some ((tasks i).run w)

omit [Journal ρ] in
/-- Something happens elsewhere while time passes. -/
def elapse {ε : Type} (effect : ε → ρ → ρ) (x : ε × Nat) (s : Backed ρ) : Backed ρ :=
  { s with instant := s.instant + x.2, rest := effect x.1 s.rest }

/-! ## What goes on beside the caller -/

omit [Journal ρ] in
/-- Others take entries away while time passes, and leave the rows alone. -/
def fading : Surroundings (Backed ρ) :=
  .exact
    (fun s t => t.rows = s.rows ∧ s.instant ≤ t.instant ∧
      ∀ k e, t.engine.table.find? k = some e → s.engine.table.find? k = some e)
    (fun _ => ⟨rfl, Nat.le_refl _, fun _ _ h => h⟩)
    fun h h' => ⟨h'.1.trans h.1, Nat.le_trans h.2.1 h'.2.1, fun k e he => h.2.2 k e (h'.2.2 k e he)⟩

omit [Journal ρ] in
theorem fading_of_elsewhere {s t : Backed ρ} (h : Elsewhere s t) : fading.moves s t := by
  obtain ⟨r, rfl⟩ := h
  exact fading.refl s

omit [Journal ρ] in
theorem fading_elapse {ε : Type} (effect : ε → ρ → ρ) (x : ε × Nat) (s : Backed ρ) :
    fading.moves s (elapse effect x s) := ⟨rfl, Nat.le_add_right _ _, fun _ _ h => h⟩

omit [Journal ρ] in
theorem fading_sweep (keys : List String) (s : Backed ρ) :
    fading.moves s { s with engine := (s.engine.sweep s.instant keys).2 } := by
  refine ⟨rfl, Nat.le_refl _, fun k e he => ?_⟩
  change (Table.sweep s.instant keys s.engine.table).2.find? k = some e at he
  rcases Table.find?_sweep_cases s.instant keys s.engine.table k with hk | ⟨hk, -⟩
  · exact hk.symm.trans he
  · cases hk.symm.trans he

omit [Journal ρ] in
theorem fading_erase (key : String) (s : Backed ρ) :
    fading.moves s { s with engine := { s.engine with table := s.engine.table.erase key } } := by
  refine ⟨rfl, Nat.le_refl _, fun k e he => ?_⟩
  change (s.engine.table.erase key).find? k = some e at he
  rw [Table.find?_erase] at he
  split at he
  · cases he
  · exact he

omit [Journal ρ] in
theorem keeps_reclaim (w : Source ρ) : Keeps fading.moves (memory w).reclaim :=
  Memory.keeps_reclaim fading.refl (fun _ _ _ => fading_of_elsewhere ⟨_, rfl⟩) fading_sweep

theorem keeps_secondDelete (w : Source ρ) (interval limit : Duration) (key : String) :
    Keeps fading.moves (WriteDelete.secondDelete (memory w).cache interval limit key) := by
  have hd : Keeps fading.moves ((memory w).cache.delete key) :=
    .act (fading_erase key) fun _ => .done _
  have note (v : Severity) (text : String) :
      Keeps fading.moves (note v text : Process (Backed ρ) _) :=
    .act (fun s => fading_of_elsewhere ⟨_, rfl⟩) fun _ => .done _
  refine .act fading.refl fun _ => .wait fading.refl fun _ => ?_
  change Keeps _ ((((memory w).cache.delete key).timeout limit).bind _)
  refine keeps_bind (keeps_timeout fading.refl hd limit) fun o => ?_
  cases o with
  | none => exact note _ _
  | some r =>
    cases r with
    | ok _ => exact .done _
    | error e => exact note _ _

/-- **Passes and second deletes only take entries away.** -/
theorem keeps_background (w : Source ρ) (b : Background) : Keeps fading.moves (b.run w) := by
  cases b with
  | pass => exact keeps_bind (keeps_reclaim w) fun _ => .done _
  | tick => exact keeps_bind (.act (fun s => ⟨rfl, Nat.le_refl _, fun _ _ h => h⟩) fun _ =>
      keeps_reclaim w) fun _ => .done _
  | secondDelete interval limit key =>
    exact keeps_bind (keeps_secondDelete w interval limit key) fun _ => .done _

end Backed
end LayeredCache

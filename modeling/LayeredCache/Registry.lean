import LayeredCache.Engine.Basic

/-!
# Registry of adapters

Names bound to constructors of engines. A name is bound once. A new cache is what the constructor
answers, started with a payload. The engines made so far are numbered in a row: a constructor may
add to them, and answers the number of one. So it can make a new engine each time, it can answer
the same engine every time, and it can do one or the other as time goes by.

Constructors answer engines, not stacks of layers, and what they do besides is not told.

Results:
* `find?_register`: registering binds the name and no other, and only if it was free.
* `names_sorted`: the names are listed in strictly increasing order.
-/

namespace LayeredCache

/-- A constructor, run at an instant: the number of the engine that it answers, and the engines
then. Those that were there stay as they are. -/
structure Adapter where
  make : Nat → List Engine → Nat × List Engine
  keeps : ∀ now engines, engines <+: (make now engines).2

namespace Adapter

/-- A new engine each time. -/
def fresh : Adapter :=
  ⟨fun _ engines => (engines.length, engines ++ [.empty]), fun _ _ => List.prefix_append _ _⟩

/-- Always the engine of one number. -/
def shared (engine : Nat) : Adapter :=
  ⟨fun _ engines => (engine, engines), fun _ => List.prefix_refl⟩

end Adapter

/-- Constructors by name, sorted. -/
structure Registry where
  adapters : List (String × Adapter)

namespace Registry

def empty : Registry := ⟨[]⟩

/-- The name of the memory engine. -/
def memoryName : String := "memory"

/-- A registry with the memory engine. -/
def standard : Registry := ⟨[(memoryName, .fresh)]⟩

def find? (r : Registry) (name : String) : Option Adapter := r.adapters.lookup name

/-- The bound names in order. -/
def names (r : Registry) : List String := r.adapters.map Prod.fst

/-- Puts a new name in its place. -/
def insert (name : String) (a : Adapter) : List (String × Adapter) → List (String × Adapter)
  | [] => [(name, a)]
  | x :: r => if name < x.1 then (name, a) :: x :: r else x :: insert name a r

/-- Binds a free name. -/
def register (name : String) (a : Adapter) (r : Registry) : Answer Registry :=
  match r.find? name with
  | some _ => .error (.duplicateAdapter name)
  | none => .ok ⟨insert name a r.adapters⟩

/-- Constructs and starts the cache bound to a name; answers the number of its engine. -/
def newCache (r : Registry) (scheduled : Bool) (now : Nat) (name payload : String)
    (engines : List Engine) : Answer Nat × List Engine :=
  match r.find? name with
  | none => (.error (.unknownAdapter name), engines)
  | some a =>
    let (n, engines) := a.make now engines
    match ((engines[n]?).getD .empty).startWith scheduled now payload with
    | .error e => (.error e, engines)
    | .ok engine => (.ok n, engines.set n engine)

/-! ## Lemmas -/

theorem lookup_insert (name k : String) (a : Adapter) (l : List (String × Adapter))
    (h : l.lookup name = none) :
    (insert name a l).lookup k = if k = name then some a else l.lookup k := by
  induction l with
  | nil => by_cases hk : k = name <;> simp [insert, List.lookup_cons, hk, beq_false_of_ne]
  | cons x r ih =>
    obtain ⟨n', a'⟩ := x
    have hn : name ≠ n' := by
      rintro rfl
      simp at h
    have hr : r.lookup name = none := by simpa [List.lookup_cons, beq_false_of_ne hn] using h
    unfold insert
    split
    · by_cases hk : k = name
      · subst hk; simp
      · simp [List.lookup_cons, hk, beq_false_of_ne hk]
    · by_cases hk : k = n'
      · subst hk; simp [Ne.symm hn]
      · simp only [List.lookup_cons, beq_false_of_ne hk]
        exact ih hr

theorem find?_register {name k : String} {a : Adapter} {r r' : Registry}
    (h : r.register name a = .ok r') :
    r.find? name = none ∧ r'.find? k = if k = name then some a else r.find? k := by
  unfold register at h
  split at h
  · simp at h
  · rename_i hn
    simp only [Except.ok.injEq] at h
    subst h
    exact ⟨hn, lookup_insert name k a r.adapters hn⟩

/-- Names strictly increase. -/
def Sorted (r : Registry) : Prop := r.names.Pairwise (· < ·)

theorem mem_insert {name : String} {a : Adapter} {l : List (String × Adapter)}
    {x : String × Adapter} (h : x ∈ insert name a l) : x = (name, a) ∨ x ∈ l := by
  induction l with
  | nil => simpa [insert] using h
  | cons y r ih =>
    unfold insert at h
    split at h
    · simpa using h
    · rcases List.mem_cons.mp h with h | h
      · exact .inr (h ▸ List.mem_cons_self)
      · rcases ih h with h | h
        · exact .inl h
        · exact .inr (List.mem_cons_of_mem _ h)

theorem names_sorted {name : String} {a : Adapter} {r r' : Registry} (hs : r.Sorted)
    (h : r.register name a = .ok r') : r'.Sorted := by
  unfold register at h
  split at h
  · simp at h
  · rename_i hn
    simp only [Except.ok.injEq] at h
    subst h
    unfold Sorted names find? at *
    revert hs hn
    generalize r.adapters = l
    intro hs hn
    induction l with
    | nil => simp [insert]
    | cons x l ih =>
      obtain ⟨n', a'⟩ := x
      obtain ⟨hx, hl⟩ := List.pairwise_cons.mp hs
      have hne : name ≠ n' := by
        rintro rfl
        simp at hn
      have hn' : l.lookup name = none := by simpa [List.lookup_cons, beq_false_of_ne hne] using hn
      unfold insert
      split
      · rename_i hlt
        refine List.pairwise_cons.mpr ⟨fun y hy => ?_, hs⟩
        rcases List.mem_cons.mp hy with rfl | hy
        · exact hlt
        · exact String.lt_trans hlt (hx y hy)
      · rename_i hlt
        refine List.pairwise_cons.mpr ⟨fun y hy => ?_, ih hl hn'⟩
        obtain ⟨z, hz, rfl⟩ := List.mem_map.mp hy
        rcases mem_insert hz with rfl | hz
        · exact Std.lt_of_le_of_ne (String.not_lt.mp hlt) (Ne.symm hne)
        · exact hx _ (List.mem_map_of_mem hz)

end Registry
end LayeredCache

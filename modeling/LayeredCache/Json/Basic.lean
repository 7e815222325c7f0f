/-!
# JSON values

A JSON value whose numbers are either whole, in the 64-bit ranges, or binary floating point. The
members of an object are kept sorted by key.

Results:
* `lookup_insert`: inserting a member decides what is found under its key and nothing else.
* `sorted_insert`: insertion keeps the members sorted.
-/

namespace LayeredCache

/-- A double-precision number, by its bits. -/
structure Double where
  bits : UInt64
  deriving DecidableEq, Inhabited

namespace Double

def toFloat (d : Double) : Float := Float.ofBits d.bits

def ofFloat (f : Float) : Double := ⟨f.toBits⟩

/-- The sign bit is set. -/
def negative (d : Double) : Bool := 0x8000_0000_0000_0000 ≤ d.bits.toNat

/-- The eleven bits of the exponent. -/
def exponentBits (d : Double) : Nat := d.bits.toNat / 0x10_0000_0000_0000 % 0x800

/-- The bits of the mantissa that are stored. -/
def fractionBits (d : Double) : Nat := d.bits.toNat % 0x10_0000_0000_0000

end Double

/-- A whole number fits 64 bits, signed or not. -/
abbrev Fits (n : Int) : Prop := -0x8000_0000_0000_0000 ≤ n ∧ n < 0x1_0000_0000_0000_0000

/-- A JSON number: a whole one that fits, or a double. -/
inductive Number where
  | whole (n : Int) (fits : Fits n)
  | float (d : Double)
  deriving DecidableEq

inductive Json where
  | null
  | bool (b : Bool)
  | num (n : Number)
  | str (s : String)
  | arr (items : List Json)
  | obj (members : List (String × Json))
  deriving Inhabited

namespace Json

/-- A whole number; one beyond 64 bits becomes the nearest double. -/
def ofInt (n : Int) : Json :=
  if h : Fits n then .num (.whole n h)
  else .num (.float (Double.ofFloat (Float.ofInt n)))

def ofNat (n : Nat) : Json := ofInt n

/-- Puts a member in its place among sorted members; the last one given for a key wins. -/
def insert (k : String) (v : Json) : List (String × Json) → List (String × Json)
  | [] => [(k, v)]
  | (k', v') :: r =>
    if k < k' then (k, v) :: (k', v') :: r
    else if k = k' then (k, v) :: r
    else (k', v') :: insert k v r

/-- The members in key order, the last one given for a key winning. -/
def sortMembers (ms : List (String × Json)) : List (String × Json) :=
  ms.foldl (fun acc m => insert m.1 m.2 acc) []

/-- An object from members in any order. -/
def object (ms : List (String × Json)) : Json := .obj (sortMembers ms)

/-- Keys strictly increase. -/
def Sorted (ms : List (String × Json)) : Prop := ms.Pairwise fun a b => a.1 < b.1

theorem lookup_insert (k k' : String) (v : Json) (ms : List (String × Json)) :
    (insert k v ms).lookup k' = if k' = k then some v else ms.lookup k' := by
  induction ms with
  | nil =>
    by_cases h : k' = k
    · subst h; simp [insert]
    · simp [insert, List.lookup_cons, h, beq_false_of_ne h]
  | cons m r ih =>
    obtain ⟨k₁, v₁⟩ := m
    unfold insert
    split
    · by_cases h : k' = k
      · subst h; simp
      · simp [List.lookup_cons, h, beq_false_of_ne h]
    · split
      · rename_i h₁
        subst h₁
        by_cases h : k' = k
        · subst h; simp
        · simp [List.lookup_cons, h, beq_false_of_ne h]
      · rename_i h₁
        by_cases h : k' = k₁
        · subst h
          simp [Ne.symm h₁]
        · simp only [List.lookup_cons, beq_false_of_ne h]
          exact ih

theorem mem_insert {k : String} {v : Json} {ms : List (String × Json)} {m : String × Json}
    (h : m ∈ insert k v ms) : m = (k, v) ∨ m ∈ ms := by
  induction ms with
  | nil => simpa [insert] using h
  | cons m' r ih =>
    obtain ⟨k₁, v₁⟩ := m'
    unfold insert at h
    split at h
    · simpa using h
    · split at h
      · rcases List.mem_cons.mp h with h | h
        · exact .inl h
        · exact .inr (List.mem_cons_of_mem _ h)
      · rcases List.mem_cons.mp h with h | h
        · exact .inr (h ▸ List.mem_cons_self)
        · rcases ih h with h | h
          · exact .inl h
          · exact .inr (List.mem_cons_of_mem _ h)

theorem sorted_insert {k : String} {v : Json} {ms : List (String × Json)} (h : Sorted ms) :
    Sorted (insert k v ms) := by
  induction ms with
  | nil => simp [insert, Sorted]
  | cons m r ih =>
    obtain ⟨k₁, v₁⟩ := m
    obtain ⟨hm, hr⟩ := List.pairwise_cons.mp h
    unfold insert
    split
    · rename_i hlt
      refine List.pairwise_cons.mpr ⟨fun x hx => ?_, h⟩
      rcases List.mem_cons.mp hx with rfl | hx
      · exact hlt
      · exact String.lt_trans hlt (hm x hx)
    · split
      · rename_i heq
        subst heq
        exact List.pairwise_cons.mpr ⟨hm, hr⟩
      · rename_i hlt hne
        refine List.pairwise_cons.mpr ⟨fun x hx => ?_, ih hr⟩
        rcases mem_insert hx with rfl | hx
        · exact Std.lt_of_le_of_ne (String.not_lt.mp hlt) (Ne.symm hne)
        · exact hm x hx

theorem sorted_sortMembers (ms : List (String × Json)) : Sorted (sortMembers ms) := by
  unfold sortMembers
  suffices ∀ acc, Sorted acc → Sorted (ms.foldl (fun acc m => insert m.1 m.2 acc) acc) from
    this [] List.Pairwise.nil
  induction ms with
  | nil => exact fun _ h => h
  | cons m r ih => exact fun acc h => ih _ (sorted_insert h)

end Json
end LayeredCache

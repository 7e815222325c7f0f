import LayeredCache.Filter.Size

/-!
# Bit filters

A membership filter over an array of bits. Each key has a number of positions, found from two
hashes; adding the key sets the bits at its positions, and the test asks whether all of them are
set. What was added always passes; what was not may pass by accident. The two hashes are a
parameter: nothing is asked of them, so they may be any functions, chosen anew for each filter.

The array is one here. Clients that share it read and write it word by word
(`Proofs/SharedFilter.lean`).

Results:
* `position_lt`: every position lies in the array.
* `test_add`: a key passes as soon as it was added.
-/

namespace LayeredCache.Filter

/-- Two hash functions. -/
structure Hashing where
  first : String → UInt64
  second : String → UInt64

namespace Hashing

/-- Mixes a byte into a hash. -/
def mix (h : UInt64) (b : UInt8) : UInt64 := (h ^^^ b.toUInt64) * 0x100000001b3

/-- Mixes the bytes of a text into a hash, and the result into itself once more. -/
def ofSeed (seed : UInt64) (s : String) : UInt64 :=
  let h := s.toUTF8.data.foldl mix seed
  let h := (h ^^^ (h >>> 33)) * 0xff51afd7ed558ccd
  let h := (h ^^^ (h >>> 33)) * 0xc4ceb9fe1a85ec53
  h ^^^ (h >>> 33)

/-- Two hashes from different seeds. -/
def standard : Hashing := ⟨ofSeed 0xcbf29ce484222325, ofSeed 0x9e3779b97f4a7c15⟩

end Hashing

/-- The position numbered `i` of a key with these hashes among `bits` bits. The step is odd, so
that the positions do not collapse. -/
def position (bits : Nat) (first second : UInt64) (i : Nat) : Nat :=
  (first + i.toUInt64 * (second ||| 1)).toNat % bits

/-- Every position of a key. -/
def positions (bits hashes : Nat) (first second : UInt64) : List Nat :=
  (List.range hashes).map (position bits first second)

/-- An array of whole words of bits, and how many positions a key has. -/
structure Bits where
  words : Nat
  hashes : Nat
  array : BitVec (64 * words)

namespace Bits

def empty (size : Size) : Bits := ⟨size.words, size.hashes, 0⟩

/-- The positions of a key. -/
def positionsOf (h : Hashing) (f : Bits) (key : String) : List Nat :=
  positions (64 * f.words) f.hashes (h.first key) (h.second key)

/-- Sets one bit. -/
def set (f : Bits) (i : Nat) : Bits := { f with array := f.array ||| BitVec.twoPow _ i }

/-- Sets the bits of a key. -/
def add (h : Hashing) (key : String) (f : Bits) : Bits := (f.positionsOf h key).foldl set f

/-- All bits of the key are set. -/
def test (h : Hashing) (key : String) (f : Bits) : Bool :=
  (f.positionsOf h key).all fun i => f.array.getLsbD i

/-- Clears every bit. -/
def reset (f : Bits) : Bits := { f with array := 0 }

theorem position_lt {bits : Nat} (h : 0 < bits) (first second : UInt64) (i : Nat) :
    position bits first second i < bits := Nat.mod_lt _ h

theorem getLsbD_set (f : Bits) (i j : Nat) :
    (f.set i).array.getLsbD j =
      (f.array.getLsbD j || (decide (j < 64 * f.words) && decide (j = i))) := by
  simp only [set, BitVec.getLsbD_or, BitVec.getLsbD_twoPow]
  by_cases h : i = j <;> by_cases h' : j < 64 * f.words <;> simp_all [eq_comm]

theorem foldl_set_words (is : List Nat) (f : Bits) :
    (is.foldl set f).words = f.words ∧ (is.foldl set f).hashes = f.hashes := by
  induction is generalizing f with
  | nil => exact ⟨rfl, rfl⟩
  | cons i is ih => exact ih (f.set i)

theorem getLsbD_foldl_set (is : List Nat) (f : Bits) (j : Nat) :
    (is.foldl set f).array.getLsbD j =
      (f.array.getLsbD j || (decide (j < 64 * f.words) && decide (j ∈ is))) := by
  induction is generalizing f with
  | nil => simp
  | cons i is ih =>
    rw [List.foldl_cons, ih, getLsbD_set]
    simp only [set, List.mem_cons]
    cases f.array.getLsbD j <;> by_cases h : j < 64 * f.words <;> simp [h, Bool.decide_or]

theorem words_add (h : Hashing) (key : String) (f : Bits) : (f.add h key).words = f.words :=
  (foldl_set_words _ f).1

theorem positionsOf_add (h : Hashing) (key k : String) (f : Bits) :
    (f.add h key).positionsOf h k = f.positionsOf h k := by
  have hs := foldl_set_words (f.positionsOf h key) f
  unfold positionsOf
  rw [show (f.add h key).words = f.words from hs.1, show (f.add h key).hashes = f.hashes from hs.2]

theorem test_add (h : Hashing) (key : String) (f : Bits) (hw : 0 < f.words) :
    (f.add h key).test h key = true := by
  unfold test
  rw [positionsOf_add, List.all_eq_true]
  intro i hi
  have hl : i < 64 * f.words := by
    obtain ⟨n, -, rfl⟩ := List.mem_map.mp hi
    exact position_lt (by omega) _ _ _
  unfold add
  rw [getLsbD_foldl_set]
  simp only [hl, hi, decide_true, Bool.and_true, Bool.or_true]

end Bits
end LayeredCache.Filter

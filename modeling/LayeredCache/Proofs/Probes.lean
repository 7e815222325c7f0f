import LayeredCache.Proofs.Doubles
import LayeredCache.Proofs.SharedFilter

/-!
# Positions that do not collapse

The length of a filter is a multiple of 64, and the step between the positions of a key is odd. So
the remainders of the positions modulo 64 differ as long as there are no more than 64 of them, and
the formulas for the size of a filter never ask for more than 32, nor for none.

Results:
* `nodup_positions`: the positions of a key differ.
* `words_ofRate`, `hashes_ofRate`: the shapes that the formulas give.
* `probes_apart`: both, and what adding a key to an empty filter sets.
-/

namespace LayeredCache.Filter

variable {first second : UInt64} {words hashes i j : Nat}

/-! ## Positions -/

theorem position_eq (bits : Nat) (first second : UInt64) (i : Nat) :
    position bits first second i =
      (first.toNat + i * (second ||| 1).toNat) % 2 ^ 64 % bits := by
  rw [position, UInt64.toNat_add, UInt64.toNat_mul]
  simp

theorem step_odd (second : UInt64) : (second ||| 1).toNat % 2 = 1 := by
  rw [UInt64.toNat_or, Nat.or_mod_two_eq_one]
  exact .inr rfl

/-- All the moduli are multiples of 64. -/
theorem position_mod (words : Nat) (first second : UInt64) (i : Nat) :
    position (64 * words) first second i % 64 =
      (first.toNat + i * (second ||| 1).toNat) % 64 := by
  rw [position_eq, Nat.mod_mul_right_mod]
  exact Nat.mod_mod_of_dvd _ (by decide)

theorem position_ne (hij : i < j) (hj : j < 64) :
    position (64 * words) first second i ≠ position (64 * words) first second j := by
  intro h
  have hmod := (position_mod words first second j).symm.trans
    ((congrArg (· % 64) h.symm).trans (position_mod words first second i))
  have hdvd := Nat.dvd_of_mod_eq_zero (Nat.sub_mod_eq_zero_of_mod_eq hmod)
  rw [Nat.add_sub_add_left, ← Nat.sub_mul] at hdvd
  have htwo : Nat.Coprime 2 (second ||| 1).toNat := by
    rw [Nat.Coprime, Nat.gcd_rec, step_odd]
    decide
  have hcoprime : Nat.Coprime 64 (second ||| 1).toNat := htwo.pow_left 6
  have hle := Nat.le_of_dvd (by omega) (hcoprime.dvd_of_dvd_mul_right hdvd)
  omega

/-- **The positions of a key differ**, up to 64 of them. -/
theorem nodup_positions (h : hashes ≤ 64) :
    (positions (64 * words) hashes first second).Nodup := by
  refine List.pairwise_map.mpr (List.pairwise_lt_range.imp_of_mem fun {i j} _ hj hij => ?_)
  exact position_ne hij (Nat.lt_of_lt_of_le (List.mem_range.mp hj) h)

/-! ## Bits -/

namespace Bits

/-- How many bits are set. -/
def weight (f : Bits) : Nat := (List.range (64 * f.words)).countP (f.array.getLsbD ·)

theorem countP_mem {ps : List Nat} {n : Nat} (hp : ps.Nodup) (hn : ∀ p ∈ ps, p < n) :
    (List.range n).countP (fun i => decide (i ∈ ps)) = ps.length := by
  rw [List.countP_eq_length_filter]
  refine ((List.perm_ext_iff_of_nodup (List.nodup_range.filter _) hp).mpr fun p => ?_).length_eq
  rw [List.mem_filter, List.mem_range, decide_eq_true_eq]
  exact ⟨And.right, fun h => ⟨hn p h, h⟩⟩

variable {size : Size}

/-- Adding a key to an empty filter sets the bits at its positions. -/
theorem getLsbD_add_empty (hw : 0 < size.words) (h : Hashing) (key : String) (i : Nat) :
    ((empty size).add h key).array.getLsbD i = decide (i ∈ marks size h key) := by
  have hset := getLsbD_foldl_set (marks size h key) (empty size) i
  rw [show (empty size).array.getLsbD i = false from BitVec.getLsbD_zero, Bool.false_or,
    ← Bool.decide_and] at hset
  refine hset.trans (decide_eq_decide.mpr (and_iff_right_of_imp fun hi => ?_))
  exact mem_marks_lt hw hi

/-- **Adding a key to an empty filter** sets as many bits as a key has positions. -/
theorem weight_add_empty (hw : 0 < size.words) (hh : size.hashes ≤ 64) (h : Hashing)
    (key : String) : ((empty size).add h key).weight = size.hashes := by
  have hwords : ((empty size).add h key).words = size.words := words_add h key (empty size)
  have hmarks : (marks size h key).Nodup := nodup_positions hh
  rw [weight, funext (getLsbD_add_empty hw h key), hwords]
  refine (countP_mem hmarks fun p hp => mem_marks_lt hw hp).trans ?_
  exact (List.length_map _).trans List.length_range

end Bits

/-! ## Shapes -/

namespace Size

open Doubles

theorem isTwoPow_2 : IsTwoPow 1 2 := ⟨by decide, rfl⟩

theorem isTwoPow_64 : IsTwoPow 6 64 := ⟨by decide, rfl⟩

theorem le_bitsFor (items : Nat) (rate : Float) : 64 ≤ (bitsFor items rate).toNat := by
  unfold bitsFor atLeast
  dsimp only
  split
  · rename_i h
    exact le_toUInt64 isTwoPow_64 (by decide) (isNumber_of_lt h)
      (not_lt_of_lt isTwoPow_64 h)
  · decide

/-- The formula for the number of hashes gives a number. -/
theorem number_hashesFor {bits : UInt64} (h : 0 < bits.toNat) (items : Nat) :
    IsNumber (hashesFor bits items) :=
  number_mul (number_div (finite_toFloat h) (number_ofNat (by omega))) ⟨_, _, _, _, rfl⟩

/-- A number is rounded to one from 1 to 32. -/
theorem nearest_mem {x : Float} (h : IsNumber x) : 1 ≤ nearest x ∧ nearest x ≤ 32 := by
  have htwice : IsNumber (x * 2) := number_mul h ⟨_, _, _, _, rfl⟩
  have hclamp : 2 ≤ (clamp 2 64 (x * 2)).toUInt64.toNat ∧
      (clamp 2 64 (x * 2)).toUInt64.toNat ≤ 64 := by
    unfold clamp
    split
    · decide
    · rename_i hlow
      split
      · decide
      · rename_i hhigh
        exact ⟨le_toUInt64 isTwoPow_2 (by decide) htwice hlow,
          toUInt64_le isTwoPow_64 (by decide) htwice hhigh⟩
  unfold nearest
  omega

theorem words_ofRate (items : Nat) (rate : Float) : 0 < (ofRate items rate).words := by
  have := le_bitsFor items rate
  change 0 < ((bitsFor items rate).toNat + 63) / 64
  omega

theorem hashes_ofRate (items : Nat) (rate : Float) :
    1 ≤ (ofRate items rate).hashes ∧ (ofRate items rate).hashes ≤ 32 := by
  have hbits : 0 < (bitsFor items rate).toNat := by
    have := le_bitsFor items rate
    omega
  exact nearest_mem (number_hashesFor hbits items)

end Size

/-- **The positions of a key differ and lie in the filter**, whatever items and rate it was made
for and whatever the hashes of the key are. So adding a key to an empty filter sets as many bits as
a key has positions: those at its positions. -/
theorem probes_apart (items : Nat) (rate : Float) :
    let size := Size.ofRate items rate
    (0 < size.words ∧ size.bits = 64 * size.words ∧ 1 ≤ size.hashes ∧ size.hashes ≤ 32) ∧
    (∀ first second : UInt64,
      let ps := positions size.bits size.hashes first second
      ps.length = size.hashes ∧
      (∀ i, i < size.hashes → ps[i]? =
        some ((first.toNat + i * (second ||| 1).toNat) % 2 ^ 64 % size.bits)) ∧
      ps.Nodup ∧ ∀ p ∈ ps, p < size.bits) ∧
    ∀ (h : Hashing) (key : String),
      (∀ i, ((Bits.empty size).add h key).IsSet i ↔
        i ∈ positions size.bits size.hashes (h.first key) (h.second key)) ∧
      ((Bits.empty size).add h key).weight = size.hashes := by
  intro size
  have hw : 0 < size.words := Size.words_ofRate items rate
  obtain ⟨hleast, hmost⟩ := Size.hashes_ofRate items rate
  have hh : size.hashes ≤ 64 := Nat.le_trans hmost (by decide)
  refine ⟨⟨hw, rfl, hleast, hmost⟩, fun first second => ?_, fun h key => ⟨fun i => ?_, ?_⟩⟩
  · refine ⟨?_, fun i hi => ?_, nodup_positions hh, ?_⟩
    · exact (List.length_map _).trans List.length_range
    · rw [positions, List.getElem?_map, List.getElem?_range hi, Option.map_some, position_eq]
    · intro p hp
      obtain ⟨i, -, rfl⟩ := List.mem_map.mp hp
      exact Bits.position_lt (Nat.mul_pos (by decide) hw) _ _ _
  · rw [Bits.IsSet, Bits.getLsbD_add_empty hw, decide_eq_true_eq]
    rfl
  · exact Bits.weight_add_empty hw hh h key

end LayeredCache.Filter

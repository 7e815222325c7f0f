import Mathlib.Algebra.Group.Nat.Defs

/-!
# Doubles

What comparisons of doubles with powers of two say about their whole parts, and which operations
give no not-a-number. Significands are handled as whole numbers of at most 53 bits; one that has
all of them is called full.

Results:
* `means_unpack`: what the bits of a double mean.
* `le_toUInt64`, `toUInt64_le`: the whole part of what is not below, or not above, a power of two.
* `finite_toFloat`: a positive whole number is a finite double and not zero.
* `number_div`, `number_mul`: quotients and products that are numbers.
-/

namespace LayeredCache.Doubles

open Float.Model Float.Model.UnpackedFloat

/-! ## Whole parts -/

/-- The sign, significand and exponent of a double. -/
def parts (x : Float) : UnpackedFloat := x.toModel.unpack

/-- The double is not not-a-number. -/
def IsNumber (x : Float) : Prop := parts x ≠ .notANumber

/-- The double is neither infinite nor zero. -/
def IsFinite (x : Float) : Prop := ∃ s m e h, parts x = .finite s m e h

/-- The double is `2 ^ k`. -/
def IsTwoPow (k : Nat) (x : Float) : Prop := ∃ h, parts x = .finite .positive (2 ^ 52) (k - 52) h

/-- What the bits of a double mean. -/
inductive Means (b : BitVec Format.binary64.numBits) : UnpackedFloat → Prop
  | infinity (s : Sign) (he : unpackExponent b = -1#_) (hm : unpackMantissa b = 0#_) :
      Means b (.infinity s)
  | notANumber (he : unpackExponent b = -1#_) (hm : unpackMantissa b ≠ 0#_) :
      Means b .notANumber
  | zero (s : Sign) (he : unpackExponent b = 0#_) : Means b (.zero s)
  | subnormal (s : Sign) (he : unpackExponent b = 0#_) (h : 0 < (unpackMantissa b).toNat) :
      Means b (.finite s (unpackMantissa b).toNat (-1074) h)
  | normal (s : Sign) (hones : unpackExponent b ≠ -1#_) (hzero : unpackExponent b ≠ 0#_)
      (h : 0 < 2 ^ 52 + (unpackMantissa b).toNat) :
      Means b (.finite s (2 ^ 52 + (unpackMantissa b).toNat)
        ((unpackExponent b).toNat - (1023 + 52)) h)

theorem mantissa_lt (b : BitVec Format.binary64.numBits) : (unpackMantissa b).toNat < 2 ^ 52 :=
  (unpackMantissa b).isLt

theorem means_unpack (b : BitVec Format.binary64.numBits) :
    Means b (UnpackedFloat.unpack .binary64 b) := by
  have happend : (1#1 ++ unpackMantissa b).toNat = 2 ^ 52 + (unpackMantissa b).toNat := by
    rw [BitVec.toNat_append, ← Nat.shiftLeft_add_eq_or_of_lt (mantissa_lt b)]
    rfl
  unfold UnpackedFloat.unpack
  dsimp only
  by_cases hones : unpackExponent b = -1#_
  · rw [if_pos hones]
    by_cases hm : unpackMantissa b = 0#_
    · rw [if_pos hm]
      exact .infinity _ hones hm
    · rw [if_neg hm]
      exact .notANumber hones hm
  rw [if_neg hones]
  by_cases hzero : unpackExponent b = 0#_
  · rw [if_pos hzero]
    by_cases hm : unpackMantissa b = 0#_
    · rw [dif_pos hm]
      exact .zero _ hzero
    · rw [dif_neg hm, hzero]
      exact .subnormal _ hzero _
  · rw [if_neg hzero]
    have hnormal (n : Nat) (h : 0 < n) (hn : n = 2 ^ 52 + (unpackMantissa b).toNat) :
        Means b (.finite (.ofBitVec (unpackSign b)) n
          ((unpackExponent b).toNat - (1023 + 52)) h) := by
      subst hn
      exact .normal _ hones hzero _
    exact hnormal _ _ happend

/-- The significand of a double is full unless its exponent is the least there is. -/
theorem significand_unpack {v : Float.Model} {s : Sign} {m : Nat} {e : Int} {h : 0 < m}
    (hv : v.unpack = .finite s m e h) : m < 2 ^ 53 ∧ (2 ^ 52 ≤ m ∨ e = -1074) := by
  have hmeans : Means _ v.unpack := means_unpack v.toBits.toBitVec
  have hlt := mantissa_lt v.toBits.toBitVec
  rw [hv] at hmeans
  cases hmeans with
  | subnormal => exact ⟨by omega, .inr rfl⟩
  | normal => exact ⟨by omega, .inl (Nat.le_add_right ..)⟩

theorem mantissa_shiftRight (em : ExtendedMantissa) (k : Nat) :
    (em >>> k).mantissa = em.mantissa / 2 ^ k := by
  change (Nat.repeat ExtendedMantissa.shiftRightOne k em).mantissa = _
  induction k with
  | zero => simp [Nat.repeat]
  | succ k ih =>
    rw [Nat.repeat, ExtendedMantissa.shiftRightOne, ih, Nat.div_div_eq_div_mul, Nat.pow_succ]

/-- The whole part of a positive double. -/
theorem roundToInt_positive (m : Nat) (e : Int) :
    roundToInt .positive m e = (m * 2 ^ e.toNat / 2 ^ (-e).toNat : Nat) := by
  have hshift : (0 - (e - (e - 0).toNat)).toNat = (-e).toNat := by omega
  change ((ExtendedMantissa.ofMantissaAndAccuracy (m <<< (e - 0).toNat) .exact >>>
    (0 - (e - (e - 0).toNat)).toNat).mantissa : Int) = _
  rw [mantissa_shiftRight, hshift, Int.sub_zero, Nat.shiftLeft_eq]
  rfl

theorem toNat_ofNatClamp (n : Nat) : (UInt64.ofNatClamp n).toNat = min n (2 ^ 64 - 1) := by
  unfold UInt64.ofNatClamp
  split
  · rename_i h
    rw [UInt64.toNat_ofNatLT]
    have : n < 2 ^ 64 := h
    omega
  · rename_i h
    rw [UInt64.toNat_ofNatLT]
    have : ¬ n < 2 ^ 64 := h
    change 2 ^ 64 - 1 = _
    omega

theorem lt_iff {x y : Float} : x < y ↔ (parts x).compare (parts y) = some .lt := by
  change decide (((parts x).compare (parts y) == some .lt) = true) = true ↔ _
  rw [decide_eq_true_iff, beq_iff_eq]

/-! ## Comparing with a power of two -/

variable {k : Nat} {c x : Float}

theorem isNumber_of_lt {x y : Float} (h : x < y) : IsNumber y := by
  intro hy
  rw [lt_iff, hy] at h
  cases hx : parts x with
  | notANumber | zero | finite => rw [hx] at h; cases h
  | infinity s => rw [hx] at h; cases s <;> cases h

theorem compare_positive {m m' : Nat} {e e' : Int} {h : 0 < m} {h' : 0 < m'} :
    (UnpackedFloat.finite .positive m e h).compare (.finite .positive m' e' h') = some .lt ↔
      e < e' ∨ e = e' ∧ m < m' := by
  change some ((compare e e').then (compare m m')) = some .lt ↔ _
  rw [Option.some.injEq, Ordering.then_eq_lt, Int.compare_eq_lt, Int.compare_eq_eq,
    Nat.compare_eq_lt]

theorem not_lt_of_lt (hc : IsTwoPow k c) (h : c < x) : ¬ x < c := by
  obtain ⟨hpos, hc⟩ := hc
  rw [lt_iff, hc] at h ⊢
  cases hp : parts x with
  | notANumber | zero => rw [hp] at h; cases h
  | infinity s =>
    rw [hp] at h
    cases s with
    | negative => cases h
    | positive => exact nofun
  | finite s m e hm =>
    rw [hp] at h
    cases s with
    | negative => cases h
    | positive =>
      rw [compare_positive] at h ⊢
      omega

/-- What is not below a power of two has a whole part that is not. -/
theorem le_toUInt64 (hc : IsTwoPow k c) (hk : k ≤ 52) (hx : IsNumber x) (h : ¬ x < c) :
    2 ^ k ≤ x.toUInt64.toNat := by
  obtain ⟨hpos, hc⟩ := hc
  rw [lt_iff, hc] at h
  have hle : 2 ^ k ≤ 2 ^ 52 := Nat.pow_le_pow_right (by decide) hk
  change 2 ^ k ≤ (UInt64.ofNatClamp ((parts x).toInt 0 (2 ^ 64 - 1)).toNat).toNat
  rw [toNat_ofNatClamp]
  refine Nat.le_min.mpr ⟨?_, by omega⟩
  cases hp : parts x with
  | notANumber => exact absurd hp hx
  | zero s => rw [hp] at h; exact absurd rfl h
  | infinity s =>
    cases s with
    | negative => rw [hp] at h; exact absurd rfl h
    | positive =>
      change 2 ^ k ≤ 2 ^ 64 - 1
      omega
  | finite s m e hm =>
    cases s with
    | negative => rw [hp] at h; exact absurd rfl h
    | positive =>
      obtain ⟨-, hfull⟩ := significand_unpack hp
      rw [hp, compare_positive, not_or] at h
      have hm' : 2 ^ 52 ≤ m := hfull.resolve_right (by omega)
      change 2 ^ k ≤ (roundToInt .positive m e).toNat
      rw [roundToInt_positive, Int.toNat_natCast, Nat.le_div_iff_mul_le (Nat.two_pow_pos _)]
      calc 2 ^ k * 2 ^ (-e).toNat = 2 ^ (k + (-e).toNat) := (Nat.pow_add ..).symm
        _ ≤ 2 ^ 52 := Nat.pow_le_pow_right (by decide) (by omega)
        _ ≤ m := hm'
        _ ≤ m * 2 ^ e.toNat := Nat.le_mul_of_pos_right m (Nat.two_pow_pos _)

/-- What is not above a power of two has a whole part that is not. -/
theorem toUInt64_le (hc : IsTwoPow k c) (hk : k ≤ 52) (hx : IsNumber x) (h : ¬ c < x) :
    x.toUInt64.toNat ≤ 2 ^ k := by
  obtain ⟨hpos, hc⟩ := hc
  rw [lt_iff, hc] at h
  change (UInt64.ofNatClamp ((parts x).toInt 0 (2 ^ 64 - 1)).toNat).toNat ≤ 2 ^ k
  rw [toNat_ofNatClamp]
  refine Nat.le_trans (Nat.min_le_left _ _) ?_
  cases hp : parts x with
  | notANumber => exact absurd hp hx
  | zero s => exact Nat.zero_le _
  | infinity s =>
    cases s with
    | negative => exact Nat.zero_le _
    | positive => rw [hp] at h; exact absurd rfl h
  | finite s m e hm =>
    cases s with
    | negative =>
      change (-(_ : Int)).toNat ≤ _
      rw [Int.toNat_neg_natCast]
      exact Nat.zero_le _
    | positive =>
      obtain ⟨hlt, -⟩ := significand_unpack hp
      rw [hp, compare_positive, not_or] at h
      change (roundToInt .positive m e).toNat ≤ 2 ^ k
      rw [roundToInt_positive, Int.toNat_natCast, show e.toNat = 0 by omega, Nat.pow_zero,
        Nat.mul_one]
      refine Nat.div_le_of_le_mul ?_
      rw [← Nat.pow_add]
      rcases Int.lt_or_eq_of_le (Int.not_lt.mp h.1) with he | he
      · have : 2 ^ 53 ≤ 2 ^ ((-e).toNat + k) := Nat.pow_le_pow_right (by decide) (by omega)
        omega
      · rw [show (-e).toNat + k = 52 by omega]
        omega

/-! ## Operations that give numbers -/

/-- Packing gives not-a-number for nothing else. -/
theorem number_pack {u : UnpackedFloat} (h : u ≠ .notANumber) :
    (Float.Model.pack u).unpack ≠ .notANumber := by
  intro hu
  have hmeans : Means _ (Float.Model.pack u).unpack :=
    means_unpack (UnpackedFloat.pack .binary64 u)
  rw [hu] at hmeans
  obtain ⟨hexp, hman⟩ : unpackExponent (UnpackedFloat.pack .binary64 u) = -1#_ ∧
      unpackMantissa (UnpackedFloat.pack .binary64 u) ≠ 0#_ := by
    cases hmeans with
    | notANumber he hm => exact ⟨he, hm⟩
  cases u with
  | notANumber => exact h rfl
  | infinity s => exact hman unpackMantissa_packComponents
  | zero s => cases unpackExponent_packComponents.symm.trans hexp
  | finite s m e hm =>
    unfold UnpackedFloat.pack at hexp hman
    dsimp only at hexp hman
    split at hexp
    · rename_i hbig
      rw [if_pos hbig] at hman
      exact hman unpackMantissa_packComponents
    · rename_i hbig
      split at hexp
      · rw [unpackExponent_packComponents] at hexp
        have hval := congrArg BitVec.toNat hexp
        rw [BitVec.toNat_ofNat] at hval
        change ¬ 2 ^ 11 ≤ _ + 1 at hbig
        change _ % 2 ^ 11 = 2047 at hval
        omega
      · cases unpackExponent_packComponents.symm.trans hexp

theorem number_roundWithAccuracy (s : Sign) (m : Nat) (e : Int) (a : Accuracy) :
    roundWithAccuracy .binary64 s m e a ≠ .notANumber := by
  unfold roundWithAccuracy
  generalize shiftToTargetExponent .binary64 m e a = first
  obtain ⟨em, e₁⟩ := first
  dsimp only
  generalize shiftToTargetExponent .binary64 em.roundedMantissa e₁ .exact = second
  obtain ⟨em₂, e₂⟩ := second
  dsimp only
  by_cases hm : em₂.mantissa = 0
  · rw [dif_pos hm]
    intro h
    cases h
  · rw [dif_neg hm]
    intro h
    cases h

/-- A finite double other than zero over a number is a number. -/
theorem number_div {x y : Float} (hx : IsFinite x) (hy : IsNumber y) : IsNumber (x / y) := by
  obtain ⟨s, m, e, hm, hx⟩ := hx
  refine number_pack ?_
  change UnpackedFloat.div .binary64 (parts x) (parts y) ≠ _
  rw [hx]
  cases hp : parts y with
  | notANumber => exact absurd hp hy
  | infinity | zero => exact nofun
  | finite => exact number_roundWithAccuracy _ _ _ _

theorem mul_finite_ne {u : UnpackedFloat} (hu : u ≠ .notANumber) (s : Sign) (m : Nat) (e : Int)
    (hm : 0 < m) : UnpackedFloat.mul .binary64 u (.finite s m e hm) ≠ .notANumber := by
  cases u with
  | notANumber => exact absurd rfl hu
  | infinity | zero => exact nofun
  | finite => exact number_roundWithAccuracy _ _ _ _

/-- A number times a finite double other than zero is a number. -/
theorem number_mul {x y : Float} (hx : IsNumber x) (hy : IsFinite y) : IsNumber (x * y) := by
  obtain ⟨s, m, e, hm, hy⟩ := hy
  refine number_pack ?_
  change UnpackedFloat.mul .binary64 (parts x) (parts y) ≠ _
  rw [hy]
  exact mul_finite_ne hx s m e hm

/-! ## Whole numbers as doubles -/

/-- A significand has all its bits, and its exponent is one of a double. -/
structure Full (m : Nat) (e : Int) : Prop where
  least : 2 ^ 52 ≤ m
  most : m < 2 ^ 53
  low : -1074 ≤ e
  high : e ≤ 970

theorem finite_unpack {b : BitVec Format.binary64.numBits} (h0 : unpackExponent b ≠ 0#_)
    (h1 : unpackExponent b ≠ -1#_) :
    ∃ s m e h, UnpackedFloat.unpack .binary64 b = .finite s m e h := by
  have hmeans := means_unpack b
  generalize UnpackedFloat.unpack .binary64 b = u at hmeans
  cases hmeans with
  | infinity _ he | notANumber he => exact absurd he h1
  | zero _ he | subnormal _ he => exact absurd he h0
  | normal => exact ⟨_, _, _, _, rfl⟩

theorem finite_pack {s : Sign} {m : Nat} {e : Int} (h : 0 < m) (hf : Full m e) :
    ∃ s' m' e' h', (Float.Model.pack (.finite s m e h)).unpack = .finite s' m' e' h' := by
  have hlog : m.log2 + 1 = 53 := by
    rw [(Nat.log2_eq_iff (Nat.ne_of_gt h)).mpr ⟨hf.least, hf.most⟩]
  obtain ⟨-, -, hlow, hhigh⟩ := hf
  have hpack : UnpackedFloat.pack .binary64 (.finite s m e h) =
      packComponents .binary64 s (BitVec.ofNat 11 (e + 1023 + 52).toNat) (BitVec.ofNat 52 m) := by
    change (if 2 ^ 11 ≤ (e + 1023 + 52).toNat + 1 then _ else if m.log2 + 1 = 53 then _ else _) = _
    rw [if_neg (by omega), if_pos hlog]
    rfl
  have hexp : (@unpackExponent .binary64
      (UnpackedFloat.pack .binary64 (.finite s m e h))).toNat = (e + 1023 + 52).toNat := by
    rw [hpack, unpackExponent_packComponents, BitVec.toNat_ofNat]
    exact Nat.mod_eq_of_lt (show _ < 2 ^ 11 by omega)
  change ∃ s' m' e' h', UnpackedFloat.unpack .binary64
    (UnpackedFloat.pack .binary64 (.finite s m e h)) = .finite s' m' e' h'
  refine finite_unpack (fun h0 => ?_) fun h1 => ?_
  · rw [h0] at hexp
    change 0 = _ at hexp
    omega
  · rw [h1] at hexp
    change 2047 = _ at hexp
    omega

/-- The upper 53 bits of a whole number. -/
theorem full_div {m : Nat} (h : 52 ≤ m.log2) :
    2 ^ 52 ≤ m / 2 ^ (m.log2 - 52) ∧ m / 2 ^ (m.log2 - 52) < 2 ^ 53 := by
  have hne : m ≠ 0 := by
    rintro rfl
    simp at h
  rw [Nat.le_div_iff_mul_le (Nat.two_pow_pos _), Nat.div_lt_iff_lt_mul (Nat.two_pow_pos _),
    ← Nat.pow_add, ← Nat.pow_add, show 52 + (m.log2 - 52) = m.log2 by omega,
    show 53 + (m.log2 - 52) = m.log2 + 1 by omega]
  exact ⟨Nat.log2_self_le hne, Nat.lt_log2_self⟩

theorem shiftToTargetExponent_full {m : Nat} {e : Int} (h : 52 ≤ m.log2) (he : -1022 ≤ e)
    (a : Accuracy) :
    (shiftToTargetExponent .binary64 m e a).1.mantissa = m / 2 ^ (m.log2 - 52) ∧
      (shiftToTargetExponent .binary64 m e a).2 = e + (m.log2 - 52 : Nat) := by
  have hshift : (Format.binary64.targetExponent (totalExponent m e) - e).toNat = m.log2 - 52 := by
    change (max (m.log2 + 1 + e - 53) (-1074) - e).toNat = _
    omega
  have hm : (ExtendedMantissa.ofMantissaAndAccuracy m a).mantissa = m := by
    cases a with
    | exact => rfl
    | inexact o => cases o <;> rfl
  unfold shiftToTargetExponent shiftToExponent
  dsimp only
  rw [mantissa_shiftRight, hshift, hm]
  exact ⟨rfl, rfl⟩

/-- Rounding adds one at most. -/
theorem roundToNearestEven_mem (m : Nat) (a : Accuracy) :
    m ≤ a.roundToNearestEven m ∧ a.roundToNearestEven m ≤ m + 1 := by
  cases a with
  | exact => exact ⟨Nat.le_refl m, Nat.le_succ m⟩
  | inexact o =>
    cases o with
    | lt => exact ⟨Nat.le_refl m, Nat.le_succ m⟩
    | gt => exact ⟨Nat.le_succ m, Nat.le_refl _⟩
    | eq =>
      change m ≤ m + m % 2 ∧ m + m % 2 ≤ m + 1
      omega

/-- Rounding a significand that has all bits leaves one that has all bits. -/
theorem full_roundWithAccuracy (s : Sign) {m : Nat} {e : Int} (a : Accuracy) (h : 52 ≤ m.log2)
    (hlow : -1022 ≤ e) (hhigh : e + m.log2 ≤ 1021) :
    ∃ m' e' h', roundWithAccuracy .binary64 s m e a = .finite s m' e' h' ∧ Full m' e' := by
  obtain ⟨hm₁, he₁⟩ := shiftToTargetExponent_full h hlow a
  obtain ⟨hleast, hmost⟩ := full_div h
  unfold roundWithAccuracy
  generalize shiftToTargetExponent .binary64 m e a = first at hm₁ he₁
  obtain ⟨em, e₁⟩ := first
  have hround : em.mantissa ≤ em.roundedMantissa ∧ em.roundedMantissa ≤ em.mantissa + 1 :=
    roundToNearestEven_mem _ _
  dsimp only at hm₁ he₁ ⊢
  generalize em.roundedMantissa = r at hround
  have hr : r ≠ 0 := by omega
  have hlog : 52 ≤ r.log2 := (Nat.le_log2 hr).mpr (by omega)
  have hlog' : r.log2 < 54 := (Nat.log2_lt hr).mpr (by omega)
  obtain ⟨hm₂, he₂⟩ := shiftToTargetExponent_full hlog (by omega : -1022 ≤ e₁) .exact
  obtain ⟨hleast₂, hmost₂⟩ := full_div hlog
  generalize shiftToTargetExponent .binary64 r e₁ .exact = second at hm₂ he₂
  obtain ⟨em₂, e₂⟩ := second
  dsimp only at hm₂ he₂ ⊢
  rw [dif_neg (by omega)]
  exact ⟨_, _, _, rfl, by omega, by omega, by omega, by omega⟩

theorem log2_shiftLeft {m : Nat} (h : m ≠ 0) (d : Nat) : (m <<< d).log2 = m.log2 + d := by
  have hpos := Nat.two_pow_pos d
  rw [Nat.shiftLeft_eq, Nat.log2_eq_iff (Nat.mul_ne_zero h (Nat.ne_of_gt hpos)), Nat.pow_add,
    Nat.add_right_comm, Nat.pow_add]
  exact ⟨Nat.mul_le_mul_right _ (Nat.log2_self_le h),
    Nat.mul_lt_mul_of_pos_right Nat.lt_log2_self hpos⟩

/-- **A positive whole number is a finite double**, and not zero. -/
theorem finite_toFloat {n : UInt64} (h : 0 < n.toNat) : IsFinite n.toFloat := by
  have hn : n.toNat ≠ 0 := Nat.ne_of_gt h
  have hlog : n.toNat.log2 < 64 := (Nat.log2_lt hn).mpr n.toNat_lt
  let d := 52 - n.toNat.log2
  have hd : (0 - Format.binary64.targetExponent (totalExponent n.toNat 0)).toNat = d := by
    change (0 - max (n.toNat.log2 + 1 + 0 - 53 : Int) (-1074)).toNat = 52 - n.toNat.log2
    omega
  have hround : UnpackedFloat.round .binary64 .positive n.toNat 0 =
      roundWithAccuracy .binary64 .positive (n.toNat <<< d) (0 - d) .exact := by
    rw [← hd]
    rfl
  have hlog' : (n.toNat <<< d).log2 = n.toNat.log2 + d := log2_shiftLeft hn d
  obtain ⟨m, e, hm, heq, hfull⟩ := full_roundWithAccuracy .positive (m := n.toNat <<< d)
    (e := 0 - d) .exact (by omega) (by omega) (by omega)
  have hparts : parts n.toFloat = (Float.Model.pack (.finite .positive m e hm)).unpack := by
    rw [← heq, ← hround]
    change (Float.Model.pack (match compare (n.toNat : Int) 0 with
      | .lt => _
      | .eq => _
      | .gt => UnpackedFloat.round .binary64 .positive (n.toNat : Int).toNat 0)).unpack = _
    rw [Int.compare_eq_gt.mpr (by omega)]
    rfl
  rw [IsFinite, hparts]
  exact finite_pack hm hfull

theorem IsFinite.isNumber {x : Float} (h : IsFinite x) : IsNumber x := by
  obtain ⟨s, m, e, hm, h⟩ := h
  intro hx
  cases h.symm.trans hx

theorem number_ofNat {n : Nat} (h : 0 < n) : IsNumber (Float.ofNat n) := by
  unfold Float.ofNat
  change IsNumber (Float.ofScientific n false 0)
  unfold Float.ofScientific
  split
  · rename_i hn
    have hpos : 0 < n.toUInt64.toNat := by
      rw [show n.toUInt64.toNat = n % 2 ^ 64 from rfl]
      omega
    have hone : IsFinite (Float.ofBits 0x3FF0000000000000) :=
      ⟨.positive, 2 ^ 52, -52, by decide, rfl⟩
    exact number_mul (finite_toFloat hpos).isNumber hone
  · refine number_pack ?_
    change UnpackedFloat.ofScientific .binary64 n 0 ≠ _
    have hbits : (0 : Int) ≤ 2 ^ Format.binary64.exponentBits := by decide
    unfold UnpackedFloat.ofScientific
    rw [dif_neg (Nat.ne_of_gt h), if_neg (by omega), if_neg (by omega), if_pos (by decide)]
    refine mul_finite_ne (fun hu => ?_) _ _ _ _
    cases hu

end LayeredCache.Doubles

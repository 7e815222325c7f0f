import LayeredCache.Proofs.JsonGrammar
import LayeredCache.Text.Blank
import LayeredCache.Text.Numeral

/-!
# Numerals in texts

Which texts are decimal numerals, with a sign or without, and which number each of them writes; and
what is left of a text without the blanks around it.

Results:
* `unsigned?_eq_some_iff`, `signed?_eq_some_iff`: what is read as a number in a range.
* `exists_trim`, `trim_padded`: trimming takes blanks and nothing else.
-/

namespace LayeredCache.Text

open Json (Digits)

/-! ## Numerals -/

/-- Decimal digits, alone or after a plus, and the number that they write. -/
inductive Unsigned : List Char → Nat → Prop
  | plain {ds : List Char} (h : Digits ds) : Unsigned ds (Nat.ofDigitChars 10 ds 0)
  | plus {ds : List Char} (h : Digits ds) : Unsigned ('+' :: ds) (Nat.ofDigitChars 10 ds 0)

/-- Decimal digits, alone or after a sign, and the number that they write. -/
inductive Signed : List Char → Int → Prop
  | unsigned {cs : List Char} {n : Nat} (h : Unsigned cs n) : Signed cs n
  | minus {ds : List Char} (h : Digits ds) : Signed ('-' :: ds) (-(Nat.ofDigitChars 10 ds 0 : Nat))

theorem isDigit_of_digit? {c : Char} {d : Nat} (h : digit? c = some d) : c.isDigit = true := by
  unfold digit? at h
  split at h
  · rename_i hc
    simpa [Char.isDigit, Char.le_def] using hc
  · cases h

theorem mapM_digit?_of_digits {cs : List Char} (h : ∀ c ∈ cs, c.isDigit = true) :
    cs.mapM digit? = some (Json.digitValues cs) := by
  induction cs with
  | nil => rfl
  | cons c cs ih =>
    have hc := Json.digit?_eq_some (h c List.mem_cons_self)
    rw [List.mapM_cons, hc, ih fun d hd => h d (List.mem_cons_of_mem _ hd)]
    rfl

theorem ofDigits_digitValues (cs : List Char) :
    ofDigits (Json.digitValues cs) = Nat.ofDigitChars 10 cs 0 := by
  rw [ofDigits, Json.digitValues, List.foldl_map]
  rfl

theorem digits_of_natural? {cs : List Char} {n : Nat} (h : natural? cs = some n) : Digits cs := by
  have hsome : ¬ natural? cs = none := by simp [h]
  rw [natural?_eq_none_iff, not_or, not_exists] at hsome
  refine ⟨hsome.1, fun c hc => ?_⟩
  cases hd : digit? c with
  | none => exact absurd ⟨hc, hd⟩ (hsome.2 c)
  | some d => exact isDigit_of_digit? hd

theorem natural?_of_digits {cs : List Char} (h : Digits cs) :
    natural? cs = some (Nat.ofDigitChars 10 cs 0) := by
  have hne : cs.isEmpty = false := by simpa using h.1
  rw [natural?, hne, mapM_digit?_of_digits h.2, ← ofDigits_digitValues]
  rfl

theorem natural?_eq_some_iff {cs : List Char} {n : Nat} :
    natural? cs = some n ↔ Digits cs ∧ Nat.ofDigitChars 10 cs 0 = n := by
  constructor
  · intro h
    have hd := digits_of_natural? h
    exact ⟨hd, Option.some.inj ((natural?_of_digits hd).symm.trans h)⟩
  · rintro ⟨hd, rfl⟩
    exact natural?_of_digits hd

theorem not_digits_cons {c : Char} {cs : List Char} (hc : c.isDigit = false) :
    ¬ Digits (c :: cs) := fun h => by
  rw [h.2 c List.mem_cons_self] at hc
  cases hc

/-- **What is read as a number without a minus.** -/
theorem unsigned?_eq_some_iff {limit n : Nat} {cs : List Char} :
    unsigned? limit cs = some n ↔ Unsigned cs n ∧ n < limit := by
  unfold unsigned?
  rw [Option.filter_eq_some_iff, decide_eq_true_eq]
  refine and_congr_left fun _ => ?_
  split
  · rw [natural?_eq_some_iff]
    constructor
    · rintro ⟨hd, rfl⟩
      exact .plus hd
    · rintro (hd | hd)
      · exact absurd hd (not_digits_cons rfl)
      · exact ⟨hd, rfl⟩
  · rename_i hplus
    rw [natural?_eq_some_iff]
    constructor
    · rintro ⟨hd, rfl⟩
      exact .plain hd
    · rintro (hd | hd)
      · exact ⟨hd, rfl⟩
      · exact absurd rfl (hplus _)

/-- **What is read as a number with any sign.** The range is that of two's complement. -/
theorem signed?_eq_some_iff {bound : Nat} {i : Int} {cs : List Char} (h0 : 0 < bound) :
    signed? bound cs = some i ↔ Signed cs i ∧ -(bound : Int) ≤ i ∧ i < bound := by
  unfold signed?
  split
  · rename_i ds
    rw [Option.map_eq_some_iff]
    constructor
    · rintro ⟨n, hn, rfl⟩
      obtain ⟨hn, hle⟩ := Option.filter_eq_some_iff.mp hn
      obtain ⟨hd, rfl⟩ := natural?_eq_some_iff.mp hn
      have hle := of_decide_eq_true hle
      exact ⟨.minus hd, by omega, by omega⟩
    · rintro ⟨hu | hd, hlow, -⟩
      · rcases hu with hd | hd
        exact absurd hd (not_digits_cons rfl)
      · refine ⟨_, Option.filter_eq_some_iff.mpr ⟨natural?_of_digits hd, ?_⟩, rfl⟩
        exact decide_eq_true (by omega)
  · rename_i hminus
    rw [Option.map_eq_some_iff]
    constructor
    · rintro ⟨n, hn, rfl⟩
      obtain ⟨hu, hlt⟩ := unsigned?_eq_some_iff.mp hn
      exact ⟨.unsigned hu, by omega, by omega⟩
    · rintro ⟨hu | hd, -, hlt⟩
      · exact ⟨_, unsigned?_eq_some_iff.mpr ⟨hu, by omega⟩, rfl⟩
      · exact absurd rfl (hminus _)

/-! ## Blanks around a text -/

/-- Nothing but blanks. -/
def Blanks (cs : List Char) : Prop := ∀ c ∈ cs, isBlank c = true

theorem blanks_reverse {w : List Char} (h : Blanks w) : Blanks w.reverse := fun c hc =>
  h c (List.mem_reverse.mp hc)

theorem trimStart_append {w : List Char} (h : Blanks w) (cs : List Char) :
    trimStart (w ++ cs) = trimStart cs := List.dropWhile_append_of_pos h

theorem exists_trimStart (cs : List Char) : ∃ w, Blanks w ∧ cs = w ++ trimStart cs :=
  ⟨cs.takeWhile isBlank, List.all_eq_true.mp List.all_takeWhile,
    List.takeWhile_append_dropWhile.symm⟩

/-- A text is what trimming leaves of it, among blanks. -/
theorem exists_trim (cs : List Char) :
    ∃ w w', Blanks w ∧ Blanks w' ∧ cs = w ++ (trim cs ++ w') := by
  obtain ⟨w, hw, hcs⟩ := exists_trimStart cs
  obtain ⟨w', hw', hr⟩ := exists_trimStart (trimStart cs).reverse
  refine ⟨w, w'.reverse, hw, blanks_reverse hw', ?_⟩
  rw [trim, ← List.reverse_append, ← hr, List.reverse_reverse]
  exact hcs

theorem trimStart_of_head {c : Char} (hc : isBlank c = false) (cs : List Char) :
    trimStart (c :: cs) = c :: cs := List.dropWhile_cons_of_neg (by simp [hc])

/-- What has no blanks is left by trimming. -/
theorem trim_padded {w m w' : List Char} (hw : Blanks w) (hm : ∀ c ∈ m, isBlank c = false)
    (hw' : Blanks w') : trim (w ++ (m ++ w')) = m := by
  rw [trim, trimStart_append hw]
  cases m with
  | nil =>
    have hnil := trimStart_append hw' []
    rw [List.append_nil] at hnil
    rw [List.nil_append, hnil]
    rfl
  | cons c m =>
    rw [List.cons_append, trimStart_of_head (hm c List.mem_cons_self), ← List.cons_append,
      List.reverse_append, trimStart_append (blanks_reverse hw'), ← List.reverse_inj,
      List.reverse_reverse]
    refine trimStart_eq_self_iff.mpr fun d hd => hm d ?_
    exact List.mem_reverse.mp (List.mem_of_mem_head? hd)

theorem isBlank_of_isDigit {c : Char} (h : c.isDigit = true) : isBlank c = false := by
  have hc : 48 ≤ c.toNat ∧ c.toNat ≤ 57 := by
    simpa [Char.isDigit, Char.le_def, UInt32.le_iff_toNat_le] using h
  simp only [isBlank, Bool.or_eq_false_iff, Bool.and_eq_false_iff, decide_eq_false_iff_not,
    beq_eq_false_iff_ne]
  omega

theorem Unsigned.isBlank {cs : List Char} {n : Nat} (h : Unsigned cs n) :
    ∀ c ∈ cs, isBlank c = false := by
  cases h with
  | plain hd => exact fun c hc => isBlank_of_isDigit (hd.2 c hc)
  | plus hd => exact List.forall_mem_cons.mpr ⟨rfl, fun c hc => isBlank_of_isDigit (hd.2 c hc)⟩

end LayeredCache.Text

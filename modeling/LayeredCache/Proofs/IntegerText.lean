import LayeredCache.Proofs.Records

/-!
# Whole numbers, read from texts

A literal stands for a number of one of the eight kinds only if it has neither a fraction nor an
exponent, is not minus zero, and the number that its digits write is one of the kind. Then it is
read as just that number, however many digits there are.

Results:
* `number?_eq_whole_iff`: which literals stand for whole numbers, and for which.
* `parse_names`: what the text of a kind with any literal is read as.
-/

namespace LayeredCache

open Json Json.Form

namespace Json.NumberText

/-! ## Literals -/

/-- Neither a fraction nor an exponent. -/
def IsInteger (w : NumberText) : Prop := w.fraction = none ∧ w.exponent = none

def IsMinusZero (w : NumberText) : Prop := w.negative = true ∧ w.whole = ['0']

/-- The number that the digits before the point write, with the sign. -/
def value (w : NumberText) : Int :=
  if w.negative then -(Nat.ofDigitChars 10 w.whole 0 : Int) else Nat.ofDigitChars 10 w.whole 0

theorem magnitude_literal (w : NumberText) :
    w.literal.magnitude = Nat.ofDigitChars 10 w.whole 0 := by
  unfold Literal.magnitude literal digitValues Text.ofDigits
  rw [List.foldl_map]
  rfl

theorem value_literal (w : NumberText) : w.literal.value = w.value := by
  unfold Literal.value value
  rw [magnitude_literal]
  rfl

theorem isInteger_literal (w : NumberText) : w.literal.isInteger = true ↔ w.IsInteger := by
  unfold Literal.isInteger IsInteger literal
  cases hf : w.fraction with
  | none => cases w.exponent <;> simp [digitValues]
  | some ds => simp [digitValues, (w.areFraction ds hf).1]

theorem le_foldl_digits (ds : List Nat) (n : Nat) :
    n ≤ ds.foldl (fun n d => 10 * n + d) n := by
  induction ds generalizing n with
  | nil => exact Nat.le_refl n
  | cons d ds ih =>
    have h := ih (10 * n + d)
    rw [List.foldl_cons]
    omega

theorem magnitude_eq_zero_iff (w : NumberText) : w.literal.magnitude = 0 ↔ w.whole = ['0'] := by
  constructor
  · intro h
    obtain ⟨c, cs, hc⟩ := List.exists_cons_of_ne_nil w.areDigits.1
    unfold Literal.magnitude literal digitValues Text.ofDigits at h
    rw [hc, List.map_cons, List.foldl_cons] at h
    have hle := le_foldl_digits (cs.map fun c => c.toNat - '0'.toNat)
      (10 * 0 + (c.toNat - '0'.toNat))
    have hzero : c = '0' := digit?_zero (w.areDigits.2 c (hc ▸ List.mem_cons_self)) (by omega)
    exact w.zeroAlone (by rw [hc, hzero]; rfl)
  · intro h
    unfold Literal.magnitude literal
    rw [h]
    rfl

/-- **Which literals stand for whole numbers**, and for which. -/
theorem number?_eq_whole_iff {w : NumberText} {n : Int} {h : Fits n} :
    w.literal.number? = some (.whole n h) ↔ w.IsInteger ∧ ¬ w.IsMinusZero ∧ n = w.value := by
  have hzero : w.IsMinusZero ↔ w.literal.negative = true ∧ w.literal.magnitude = 0 :=
    and_congr_right fun _ => (magnitude_eq_zero_iff w).symm
  rw [hzero, ← isInteger_literal, ← value_literal]
  constructor
  · intro hn
    exact Literal.number?_eq_whole hn
  · rintro ⟨hi, hz, rfl⟩
    exact Literal.number?_whole hi hz h

theorem value_decimal (n : Int) : (decimal n).value = n := by
  have hv := Nat.ofDigitChars_toDigits (b := 10) (n := n.natAbs) (by decide) (by decide)
  unfold value decimal
  rw [hv]
  by_cases hn : n < 0
  · rw [if_pos (by simpa using hn)]
    omega
  · rw [if_neg (by simpa using hn)]
    omega

theorem not_isMinusZero_decimal (n : Int) : ¬ (decimal n).IsMinusZero := by
  rintro ⟨hn, hz⟩
  have hneg : n < 0 := by simpa [decimal] using hn
  have hv := Nat.ofDigitChars_toDigits (b := 10) (n := n.natAbs) (by decide) (by decide)
  have hz : Nat.toDigits 10 n.natAbs = ['0'] := hz
  rw [hz] at hv
  have h0 : Nat.ofDigitChars 10 ['0'] 0 = 0 := by decide
  omega

end Json.NumberText

/-! ## Texts of a kind and a literal -/

namespace Value

open Record

/-- The text names the kind with the literal: an object that holds them as its type and its value,
in either order and among other members, or an array of the two. -/
inductive Names (k : IntKind) (w : NumberText) (s : String) : Prop
  | object {ms : List (String × Form)} (h : ObjectText s ms)
      (type : contents "type" ms = [.str (some k.name)])
      (value : contents "value" ms = [.num w.literal])
  | array (h : ArrayText s [.str (some k.name), .num w.literal])

theorem readContent_int (depth : Nat) {k : IntKind} {w : NumberText} {v : Value} :
    readContent depth (.int k) (.num w.literal) = .ok v ↔
      w.IsInteger ∧ ¬ w.IsMinusZero ∧
        ∃ h : k.low ≤ w.value ∧ w.value ≤ k.high, v = .int ⟨k, w.value, h⟩ := by
  constructor
  · intro h
    obtain ⟨⟨n, hn⟩, hr, rfl⟩ := map_eq_ok h
    obtain ⟨l, hfits, hl, hnum⟩ := readInt_eq_ok_iff.mp hr
    obtain rfl := Form.num.inj hl
    obtain ⟨hi, hz, rfl⟩ := NumberText.number?_eq_whole_iff.mp hnum
    exact ⟨hi, hz, hn, rfl⟩
  · rintro ⟨hi, hz, hk, rfl⟩
    have hfits : Fits w.value := bounded_fits ⟨k, w.value, hk⟩
    have hnum : w.literal.number? = some (.whole w.value hfits) :=
      NumberText.number?_eq_whole_iff.mpr ⟨hi, hz, rfl⟩
    have hr : readInt k.low k.high (.num w.literal) = .ok ⟨w.value, hk⟩ :=
      readInt_eq_ok_iff.mpr ⟨w.literal, hfits, rfl, hnum⟩
    simp only [readContent, hr]
    rfl

/-- Whichever way the text names them, it is read as the array is. -/
theorem parse_iff_of_names {k : IntKind} {w : NumberText} {s : String} (h : Names k w s)
    {v : Value} :
    parse s = .ok v ↔ ValueForm 126 (.arr [.str (some k.name), .num w.literal] true) v := by
  rw [← toOption_eq_some]
  cases h with
  | object h ht hv =>
    refine (decode_eq_some_iff (r := .value) h).trans (reads_array ?_ (skips_of_objectText h _))
    refine .cons ?_ (.cons ?_ .nil)
    · rw [membersNamed_map, ht]
      rfl
    · rw [membersNamed_map, hv]
      rfl
  | array h => exact decode_eq_some_iff (r := .value) h

/-- **Whole numbers are read exactly.** The text that names a kind with a number literal, of any
length, is accepted if and only if the literal is one of an integer, not minus zero, and its value
is in the range of the kind; what is read is that value of that kind. -/
theorem parse_names {k : IntKind} {w : NumberText} {s : String} (h : Names k w s) (v : Value) :
    parse s = .ok v ↔
      w.IsInteger ∧ ¬ w.IsMinusZero ∧
        ∃ h : k.low ≤ w.value ∧ w.value ≤ k.high, v = .int ⟨k, w.value, h⟩ := by
  have hname : readType 126 (.str (some k.name)) = .ok (.int k) := readType_name 126 (.int k)
  rw [parse_iff_of_names h, ← readContent_int 126]
  constructor
  · rintro (⟨⟩ | ⟨ht, hv⟩)
    cases hname.symm.trans ht
    exact hv
  · intro hv
    exact .array hname hv

/-- The text as it is usually written, without white space. -/
def intText (k : IntKind) (w : NumberText) : String :=
  "\x7b\"type\":\"" ++ k.name ++ "\",\"value\":" ++ .ofList w.text ++ "\x7d"

/-- The literal as a member. -/
def valueMember (w : NumberText) : MemberText where
  before := []
  name := quote "value"
  after := []
  contents := w.text
  key := some "value"
  form := .num w.literal
  before_blank := blank_nil
  after_blank := blank_nil
  isName := stringText_quote "value"

theorem quote_name (k : IntKind) : quote k.name = '"' :: (k.name.toList ++ ['"']) := by
  cases k <;> decide +kernel

theorem quote_members : quote "type" = "\"type\"".toList ∧ quote "value" = "\"value\"".toList := by
  decide +kernel

theorem names_intText (k : IntKind) (w : NumberText) : Names k w (intText k w) := by
  have hspells : ∀ m ∈ [memberText ("type", .str k.name), valueMember w],
      Spells m.contents m.form := by
    intro m hm
    rcases List.mem_pair.mp hm with rfl | rfl
    · exact .str (stringText_quote k.name)
    · exact .num w
  have htext : (intText k w).toList =
      '\x7b' :: (memberText ("type", .str k.name)).textBefore (membersText [valueMember w]) := by
    simp [intText, MemberText.textBefore, memberText, valueMember, membersText, quote_members,
      quote_name, Json.print]
  have h : ObjectText (intText k w) [("type", .str (some k.name)), ("value", .num w.literal)] := by
    unfold ObjectText
    rw [htext]
    exact Spells.obj hspells
  exact .object h (by simp [contents]) (by simp [contents])

theorem least_inRange : IntKind.int64.low ≤ -9223372036854775808 ∧
    -9223372036854775808 ≤ IntKind.int64.high := by decide

theorem parse_names_bounds :
    Names .int64 (decimal (-9223372036854775808))
      "\x7b\"type\":\"int64\",\"value\":-9223372036854775808\x7d" ∧
    Names .uint64 (decimal 18446744073709551616)
      "\x7b\"type\":\"uint64\",\"value\":18446744073709551616\x7d" ∧
    parse "\x7b\"type\":\"int64\",\"value\":-9223372036854775808\x7d" =
      .ok (.int ⟨.int64, -9223372036854775808, least_inRange⟩) ∧
    ∀ v, parse "\x7b\"type\":\"uint64\",\"value\":18446744073709551616\x7d" ≠ .ok v := by
  have hleast : intText .int64 (decimal (-9223372036854775808)) =
      "\x7b\"type\":\"int64\",\"value\":-9223372036854775808\x7d" := by decide +kernel
  have hbeyond : intText .uint64 (decimal 18446744073709551616) =
      "\x7b\"type\":\"uint64\",\"value\":18446744073709551616\x7d" := by decide +kernel
  have least := names_intText .int64 (decimal (-9223372036854775808))
  have beyond := names_intText .uint64 (decimal 18446744073709551616)
  rw [hleast] at least
  rw [hbeyond] at beyond
  refine ⟨least, beyond, ?_, fun v hv => ?_⟩
  · refine (parse_names least _).mpr ⟨⟨rfl, rfl⟩, NumberText.not_isMinusZero_decimal _, ?_⟩
    simp only [NumberText.value_decimal]
    exact ⟨least_inRange, trivial⟩
  · obtain ⟨-, -, h, -⟩ := (parse_names beyond v).mp hv
    rw [NumberText.value_decimal] at h
    exact absurd h.2 (by decide)

end Value
end LayeredCache

import LayeredCache.Http.Server
import LayeredCache.Proofs.JsonText
import LayeredCache.Proofs.Numerals

/-!
# Codes of errors, told by their texts

The text of every error is written by hand and begins with the error's code. So the code can be
recovered when the text is all that is left, whatever the names, keys and reasons in it hold, and
whatever blanks are put before it and text behind it. Texts of any other shape carry no code.

Results:
* `parseCode?_eq_some_iff`: which texts carry a code, and which one.
* `opens_message`: the texts of errors begin with their codes.
* `code_recovered`: the code of an error from its text, wherever that is shown.
-/

namespace LayeredCache.CacheError

open Text Json

/-! ## Texts that carry a code -/

/-- After leading blanks, `ERROR-` and a numeral among blanks, up to the first comma. -/
def Carries (text : List Char) (n : Nat) : Prop :=
  ∃ before left numeral right rest, Blanks before ∧ Blanks left ∧ Unsigned numeral n ∧
    Blanks right ∧
    text = before ++ ("ERROR-".toList ++ (left ++ (numeral ++ (right ++ ',' :: rest))))

theorem afterWord_eq_some_iff {word cs rest : List Char} :
    afterWord word cs = some rest ↔ cs = word ++ rest := by
  induction word generalizing cs with
  | nil => simp [afterWord]
  | cons w word ih =>
    cases cs with
    | nil => simp [afterWord]
    | cons c cs =>
      unfold afterWord
      split
      · rename_i hw
        rw [ih, hw, List.cons_append, List.cons_inj_right]
      · rename_i hw
        simp [Ne.symm hw]

/-- What stands before the first comma. -/
def field (cs : List Char) : List Char := cs.takeWhile (· ≠ ',')

theorem exists_of_mem_comma {cs : List Char} (h : ',' ∈ cs) :
    ∃ rest, cs = field cs ++ ',' :: rest := by
  induction cs with
  | nil => cases h
  | cons c cs ih =>
    by_cases hc : c = ','
    · exact ⟨cs, by simp [field, hc]⟩
    · obtain ⟨rest, hr⟩ := ih ((List.mem_cons.mp h).resolve_left (Ne.symm hc))
      refine ⟨rest, ?_⟩
      rw [field, List.takeWhile_cons_of_pos (by simpa using hc), List.cons_append]
      exact congrArg (c :: ·) hr

theorem field_append {cs : List Char} (h : ',' ∉ cs) (rest : List Char) :
    field (cs ++ ',' :: rest) = cs := by
  have hc : ∀ c ∈ cs, decide (c ≠ ',') = true := by
    rintro c hm
    exact decide_eq_true fun he => h (he ▸ hm)
  rw [field, List.takeWhile_append_of_pos hc, List.takeWhile_cons_of_neg (by simp),
    List.append_nil]

theorem comma_not_mem_blanks {w : List Char} (h : Blanks w) : ',' ∉ w := fun hm =>
  absurd (h ',' hm) (by decide)

theorem comma_not_mem_unsigned {cs : List Char} {n : Nat} (h : Unsigned cs n) : ',' ∉ cs := by
  have hd {ds : List Char} (h : Digits ds) : ',' ∉ ds := fun hm => absurd (h.2 ',' hm) (by decide)
  cases h with
  | plain h => exact hd h
  | plus h => exact fun hm => (List.mem_cons.mp hm).elim (by decide) (hd h)

/-- **Which texts carry a code**, and which one: it fits 32 bits. -/
theorem parseCode?_eq_some_iff {s : String} {n : Nat} :
    parseCode? s = some n ↔ Carries s.toList n ∧ n < 0x1_0000_0000 := by
  constructor
  · intro h
    obtain ⟨cs, hcs, h⟩ := Option.bind_eq_some_iff.mp h
    split at h
    · rename_i hmem
      obtain ⟨hn, hlt⟩ := unsigned?_eq_some_iff.mp h
      obtain ⟨before, hb, hs⟩ := exists_trimStart s.toList
      obtain ⟨left, right, hl, hr, hf⟩ := exists_trim (field cs)
      obtain ⟨rest, hrest⟩ := exists_of_mem_comma hmem
      refine ⟨⟨before, left, trim (field cs), right, rest, hb, hl, hn, hr, ?_⟩, hlt⟩
      have htext : cs = left ++ (trim (field cs) ++ (right ++ ',' :: rest)) := by
        simpa only [List.append_assoc] using hrest.trans (congrArg (· ++ ',' :: rest) hf)
      rw [← htext, ← afterWord_eq_some_iff.mp hcs]
      exact hs
    · cases h
  · rintro ⟨⟨before, left, numeral, right, rest, hb, hl, hn, hr, hs⟩, hlt⟩
    have hword : trimStart s.toList =
        "ERROR-".toList ++ (left ++ (numeral ++ (right ++ ',' :: rest))) := by
      rw [hs, trimStart_append hb]
      exact trimStart_of_head (c := 'E') rfl _
    have hno : ',' ∉ left ++ (numeral ++ right) := by
      simp [comma_not_mem_blanks hl, comma_not_mem_unsigned hn, comma_not_mem_blanks hr]
    have hfield : field (left ++ (numeral ++ (right ++ ',' :: rest))) =
        left ++ (numeral ++ right) := by
      simpa using field_append hno rest
    refine Option.bind_eq_some_iff.mpr ⟨_, afterWord_eq_some_iff.mpr hword, ?_⟩
    rw [if_pos (by simp)]
    change unsigned? _ (trim (field _)) = _
    rw [hfield, trim_padded hl hn.isBlank hr]
    exact unsigned?_eq_some_iff.mpr ⟨hn, hlt⟩

/-! ## Texts of errors -/

/-- The text begins with a code, up to a comma. -/
def Opens (code : Nat) (text : String) : Prop :=
  "ERROR-".toList ++ (Nat.toDigits 10 code ++ [',']) <+: text.toList

instance (code : Nat) (text : String) : Decidable (Opens code text) :=
  inferInstanceAs (Decidable (_ <+: _))

theorem Opens.append {code : Nat} {text : String} (h : Opens code text) (more : String) :
    Opens code (text ++ more) := by
  unfold Opens
  rw [String.toList_append]
  exact h.trans (List.prefix_append _ _)

/-- **The texts of errors begin with their codes**, before any name, key or reason. -/
theorem opens_message (e : CacheError) : Opens e.code e.message := by
  cases e with
  | alreadyStarted => decide +kernel
  | notInteger k | incrementOverflow k | decrementOverflow k =>
    refine .append (.append ?_ k) _
    simp only [code]
    decide +kernel
  | loadFailed k c | persistFailed k c =>
    refine .append (.append (.append ?_ k) _) _
    simp only [code]
    decide +kernel
  | _ =>
    refine .append ?_ _
    simp only [code]
    decide +kernel

theorem carries_of_opens {code : Nat} {text : String} (h : Opens code text) {before : List Char}
    (hb : Blanks before) : Carries (before ++ text.toList) code := by
  obtain ⟨rest, hr⟩ := h
  have hn : Unsigned (Nat.toDigits 10 code) (Nat.ofDigitChars 10 (Nat.toDigits 10 code) 0) :=
    .plain (digits_toDigits code)
  rw [Nat.ofDigitChars_toDigits (by decide) (by decide)] at hn
  refine ⟨before, [], _, [], rest, hb, nofun, hn, nofun, ?_⟩
  rw [← hr]
  simp

theorem code_lt (e : CacheError) : e.code < 0x1_0000_0000 := by
  cases e <;> simp [code]

/-- Blanks before the text of an error and any text behind it do not hide the code. -/
theorem parseCode?_message (e : CacheError) {before : List Char} (hb : Blanks before)
    (more : String) : parseCode? (String.ofList before ++ e.message ++ more) = some e.code := by
  refine parseCode?_eq_some_iff.mpr ⟨?_, code_lt e⟩
  have h := carries_of_opens ((opens_message e).append more) hb
  simpa using h

/-! ## Answers over HTTP -/

/-- The answer is a JSON object with this code and this text. -/
def Shows (r : Http.Response) (code : Nat) (text : String) : Prop :=
  r.isJson = true ∧ ∃ ms h,
    (Document.ofString r.body).read (Form.readJson · maxDepth) = .ok (.obj ms) ∧
    ms.lookup "code" = some (.num (.whole code h)) ∧ ms.lookup "error" = some (.str text)

/-- What the body of an error is read as. -/
theorem read_body (e : CacheError) : ∃ h : Fits (e.code : Int),
    (Document.ofString (Http.Response.ofError e).body).read (Form.readJson · maxDepth) =
      .ok (.obj [("code", .num (.whole e.code h)), ("error", .str e.message)]) := by
  have hlt := code_lt e
  have h : Fits (e.code : Int) := ⟨by omega, by omega⟩
  have hj : Http.errorAnswer e =
      .obj [("code", .num (.whole e.code h)), ("error", .str e.message)] := by
    rw [Http.errorAnswer, Json.ofNat, Json.ofInt, dif_pos h]
  have hfree : (Http.errorAnswer e).FloatFree := by
    rw [hj]
    exact .obj (List.forall_mem_cons.mpr ⟨.whole _ h, List.forall_mem_singleton.mpr (.str _)⟩)
  have harr : (Http.errorAnswer e).Arranged maxDepth := by
    rw [hj]
    refine .obj (List.pairwise_pair.mpr (show "code" < "error" by decide)) ?_
    exact List.forall_mem_cons.mpr ⟨.num _ _, List.forall_mem_singleton.mpr (.str _ _)⟩
  have hread : Form.readJson (formOf (Http.errorAnswer e)) maxDepth = .ok (Http.errorAnswer e) :=
    readJson_formOf harr hfree
  refine ⟨h, ?_⟩
  change (Document.ofString (Http.errorAnswer e).render).read _ = _
  rw [ofString_render hfree, Document.read, hread, hj]
  rfl

theorem shows_ofError (e : CacheError) : Shows (.ofError e) e.code e.message := by
  obtain ⟨h, hread⟩ := read_body e
  exact ⟨rfl, _, h, hread, rfl, rfl⟩

theorem eq_of_shows {e : CacheError} {code : Nat} {text : String}
    (h : Shows (.ofError e) code text) : code = e.code ∧ text = e.message := by
  obtain ⟨-, ms, hfits, hread, hcode, htext⟩ := h
  obtain ⟨_, hread'⟩ := read_body e
  obtain rfl := Json.obj.inj (Except.ok.inj (hread'.symm.trans hread))
  have hc := Json.num.inj (Option.some.inj hcode)
  have ht := Json.str.inj (Option.some.inj htext)
  injection hc with hc
  exact ⟨by omega, ht.symm⟩

/-- **The code of an error can be told from its text.** Blanks put before the text and anything
behind it make no difference. The answer over HTTP shows the code and the text of the error and no
others, and they agree. From any text at all a code is recovered just if the text, after leading
blanks, has `ERROR-` and up to the first comma a numeral among blanks, of a number that fits 32
bits. -/
theorem code_recovered :
    (∀ (e : CacheError) (before : List Char) (more : String), Blanks before →
      parseCode? (String.ofList before ++ e.message ++ more) = some e.code) ∧
    (∀ e : CacheError, Shows (.ofError e) e.code e.message ∧
      ∀ code text, Shows (.ofError e) code text →
        code = e.code ∧ text = e.message ∧ parseCode? text = some code) ∧
    ∀ (s : String) (n : Nat), parseCode? s = some n ↔ Carries s.toList n ∧ n < 0x1_0000_0000 := by
  refine ⟨fun e before more hb => parseCode?_message e hb more,
    fun e => ⟨shows_ofError e, fun code text h => ?_⟩, fun s n => parseCode?_eq_some_iff⟩
  obtain ⟨rfl, rfl⟩ := eq_of_shows h
  refine ⟨rfl, rfl, ?_⟩
  have hb : Blanks [] := nofun
  simpa using parseCode?_message e hb ""

/-- A batch that failed with the text of another error, after blanks and before one more. -/
def nestedFailure : CacheError :=
  .multiGetFailed [none] ["key [,] error: ERROR-4002005, key not exist: ,", " ERROR-1,"]

theorem code_recovered_nested :
    Blanks [' ', '\n', '\u3000'] ∧ Shows (.ofError nestedFailure) 4002010 nestedFailure.message ∧
      parseCode? (String.ofList [' ', '\n', '\u3000'] ++ nestedFailure.message ++ ", ERROR-7,") =
        some 4002010 ∧
      parseCode? nestedFailure.message = some 4002010 := by
  have hb : Blanks [' ', '\n', '\u3000'] := by simp [Blanks, isBlank]
  obtain ⟨hparse, hshow, -⟩ := code_recovered
  obtain ⟨hs, hall⟩ := hshow nestedFailure
  exact ⟨hb, hs, hparse nestedFailure _ ", ERROR-7," hb, (hall _ _ hs).2.2⟩

end LayeredCache.CacheError

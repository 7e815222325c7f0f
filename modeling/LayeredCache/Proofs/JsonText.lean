import LayeredCache.Json.Printer
import LayeredCache.Json.Reading
import LayeredCache.Proofs.JsonGrammar

/-!
# JSON text, written and read

The text of a JSON value without floating point is read back as that value. It is a text of the
grammar, and from the form that it writes the value is read.

Results:
* `spells_print`: a printed value is in the grammar.
* `ofString_render`: a rendered value is a complete document.
* `readJson_formOf`: from its form the value is read back, if members are in order and arrays and
  objects nest no deeper than allowed.
* `arranged_readJson`: only such values are read.
-/

namespace LayeredCache.Json

open Text

/-! ## Readers that succeed -/

theorem map_eq_ok {ε α β : Type} {x : Except ε α} {f : α → β} {b : β} (h : x.map f = .ok b) :
    ∃ a, x = .ok a ∧ f a = b := by
  cases x with
  | error e => cases h
  | ok a => exact ⟨a, rfl, Except.ok.inj h⟩

theorem bind_eq_ok {ε α β : Type} {x : Except ε α} {f : α → Except ε β} {b : β}
    (h : x >>= f = .ok b) : ∃ a, x = .ok a ∧ f a = .ok b := by
  cases x with
  | error e => cases h
  | ok a => exact ⟨a, rfl, h⟩

theorem bind_eq_ok_iff {ε α β : Type} {x : Except ε α} {f : α → Except ε β} {b : β} :
    x >>= f = .ok b ↔ ∃ a, x = .ok a ∧ f a = .ok b :=
  ⟨bind_eq_ok, fun ⟨a, hx, hf⟩ => by rw [hx]; exact hf⟩

/-! ## Which values -/

/-- No number is floating point. -/
inductive FloatFree : Json → Prop
  | null : FloatFree .null
  | bool (b : Bool) : FloatFree (.bool b)
  | whole (n : Int) (h : Fits n) : FloatFree (.num (.whole n h))
  | str (s : String) : FloatFree (.str s)
  | arr {items : List Json} (h : ∀ j ∈ items, FloatFree j) : FloatFree (.arr items)
  | obj {ms : List (String × Json)} (h : ∀ m ∈ ms, FloatFree m.2) : FloatFree (.obj ms)

/-- Every object is a map sorted by key, and arrays and objects nest at most so deep. -/
inductive Arranged : Nat → Json → Prop
  | null (depth : Nat) : Arranged depth .null
  | bool (depth : Nat) (b : Bool) : Arranged depth (.bool b)
  | num (depth : Nat) (n : Number) : Arranged depth (.num n)
  | str (depth : Nat) (s : String) : Arranged depth (.str s)
  | arr {depth : Nat} {items : List Json} (h : ∀ j ∈ items, Arranged depth j) :
      Arranged (depth + 1) (.arr items)
  | obj {depth : Nat} {ms : List (String × Json)} (hs : Sorted ms)
      (h : ∀ m ∈ ms, Arranged depth m.2) : Arranged (depth + 1) (.obj ms)

/-! ## Digits -/

/-- The decimal digits of a number. -/
def digits (n : Nat) : List Nat := (Nat.toDigits 10 n).map fun c => c.toNat - '0'.toNat

theorem ofDigits_digits (n : Nat) : ofDigits (digits n) = n := by
  rw [ofDigits, digits, List.foldl_map]
  exact Nat.ofDigitChars_toDigits (by decide) (by decide)

theorem digits_toDigits (n : Nat) : Digits (Nat.toDigits 10 n) :=
  ⟨Nat.toDigits_ne_nil, fun _ => Nat.isDigit_of_mem_toDigits (by decide) (by decide)⟩

/-- The leading digit is zero only where it is the only one. -/
theorem zeroAlone_toDigits {n : Nat} (h : (Nat.toDigits 10 n).head? = some '0') :
    Nat.toDigits 10 n = ['0'] := by
  induction n using Nat.strongRecOn with
  | _ n ih =>
    rcases Nat.lt_or_ge n 10 with hn | hn
    · rw [Nat.toDigits_of_lt_base hn] at h ⊢
      rw [Option.some.inj h]
    · rw [Nat.toDigits_of_base_le (by decide) hn, List.head?_append,
        Option.or_of_isSome (List.isSome_head?.mpr Nat.toDigits_ne_nil)] at h
      have hv := Nat.ofDigitChars_toDigits (b := 10) (n := n / 10) (by decide) (by decide)
      rw [ih (n / 10) (by omega) h] at hv
      have hz : Nat.ofDigitChars 10 ['0'] 0 = 0 := by decide
      omega

/-- A whole number as it is written. -/
def decimal (n : Int) : NumberText where
  negative := n < 0
  whole := Nat.toDigits 10 n.natAbs
  fraction := none
  exponent := none
  areDigits := digits_toDigits _
  zeroAlone := zeroAlone_toDigits
  areFraction := nofun

theorem decimal_text (n : Int) (h : Fits n) : (decimal n).text = numberText (.whole n h) := by
  simp [decimal, NumberText.text, NumberText.size, NumberText.fractionText,
    NumberText.exponentText, numberText]

/-! ## Strings -/

/-- The piece by which a character is written. -/
def pieceOf (c : Char) : Piece :=
  if c < ' ' ∧ c ∉ ['\x08', '\x0c', '\n', '\r', '\t'] then .unit c.toNat else .symbol (some c)

/-- The numbered escapes of the control characters. -/
theorem hexUnit?_hexChar :
    ∀ n < 32, hexUnit? '0' '0' (hexChar (n / 16)) (hexChar n) = some n := by
  decide

theorem pieceText_escapeChar (c : Char) : PieceText (escapeChar c) (pieceOf c) := by
  unfold escapeChar
  split
  case h_8 h₁ h₂ h₃ h₄ h₅ h₆ h₇ =>
    have hlong : c ∉ ['\x08', '\x0c', '\n', '\r', '\t'] := by
      simpa using ⟨h₃, h₄, h₅, h₆, h₇⟩
    by_cases hc : c < ' '
    · rw [if_pos hc, pieceOf, if_pos ⟨hc, hlong⟩]
      exact .numbered (hexUnit?_hexChar _ hc)
    · rw [if_neg hc, pieceOf, if_neg fun h => hc h.1]
      exact .plain hc h₁ h₂
  all_goals exact .short rfl

theorem bodyText_escaped (cs : List Char) :
    BodyText (cs.flatMap escapeChar) (cs.map pieceOf) := by
  induction cs with
  | nil => exact .nil
  | cons c cs ih => exact .cons (pieceText_escapeChar c) ih

/-- A numbered unit that is no half of a pair stands for itself. -/
theorem assemble_unit {n : Nat} (hn : n < 0xD800) (ps : List Piece) :
    assemble (.unit n :: ps) = (assemble ps).map (Char.ofNat n :: ·) := by
  have hh : isHighSurrogate n = false := by simp [isHighSurrogate]; omega
  have hl : isLowSurrogate n = false := by simp [isLowSurrogate]; omega
  rcases ps with _ | ⟨p, ps⟩
  · simp [assemble, hh, hl]
  · cases p <;> simp [assemble, hh, hl]

theorem assemble_pieceOf (cs : List Char) : assemble (cs.map pieceOf) = some cs := by
  induction cs with
  | nil => rfl
  | cons c cs ih =>
    rw [List.map_cons, pieceOf]
    split
    · rename_i hc
      have hn : c.toNat < 32 := hc.1
      rw [assemble_unit (by omega), ih, Option.map_some, Char.ofNat_toNat]
    · simp [assemble, ih]

theorem stringText_quote (s : String) : StringText (quote s) (some s) := by
  have h := StringText.quoted (bodyText_escaped s.toList)
  rwa [assemble_pieceOf, Option.map_some, String.ofList_toList] at h

/-- The literal by which a whole number is written. -/
def literalOf (n : Int) : Literal := ⟨n < 0, digits n.natAbs, [], none⟩

/-! ## Forms -/

mutual

/-- The form of a value; a double has none here. -/
def formOf : Json → Form
  | .null => .null
  | .bool b => .bool b
  | .num (.whole n _) => .num (literalOf n)
  | .num (.float _) => .broken
  | .str s => .str (some s)
  | .arr items => .arr (formsOf items) true
  | .obj ms => .obj (membersOf ms) true

/-- The forms of items. -/
def formsOf : List Json → List Form
  | [] => []
  | j :: r => formOf j :: formsOf r

/-- The forms of members. -/
def membersOf : List (String × Json) → List (Option String × Form)
  | [] => []
  | (k, j) :: r => (some k, formOf j) :: membersOf r

end

theorem formsOf_eq (items : List Json) : formsOf items = items.map formOf := by
  induction items with
  | nil => rfl
  | cons j r ih => rw [formsOf, ih, List.map_cons]

theorem membersOf_eq (ms : List (String × Json)) :
    membersOf ms = ms.map fun m => (some m.1, formOf m.2) := by
  induction ms with
  | nil => rfl
  | cons m r ih => rw [membersOf, ih, List.map_cons]

/-- A member as it is printed. -/
def memberText (m : String × Json) : MemberText where
  before := []
  name := quote m.1
  after := []
  contents := print m.2
  key := some m.1
  form := formOf m.2
  before_blank := blank_nil
  after_blank := blank_nil
  isName := stringText_quote m.1

theorem printItems_eq (items : List Json) :
    printItems items = itemsText (items.map fun j => (print j, formOf j)) := by
  induction items with
  | nil => rfl
  | cons j r ih => rw [printItems, ih]; rfl

theorem textBefore_memberText (m : String × Json) (rest : List Char) :
    (memberText m).textBefore rest = quote m.1 ++ ':' :: print m.2 ++ rest := by
  simp [MemberText.textBefore, memberText]

theorem printMembers_eq (ms : List (String × Json)) :
    printMembers ms = membersText (ms.map memberText) := by
  induction ms with
  | nil => rfl
  | cons m r ih =>
    rw [printMembers, ih, List.map_cons, membersText, textBefore_memberText]
    rfl

/-- **A printed value is in the grammar.** -/
theorem spells_print {j : Json} (h : FloatFree j) : Spells (print j) (formOf j) := by
  induction h with
  | null => exact .null
  | bool b =>
    cases b with
    | true => exact .true
    | false => exact .false
  | whole n hn =>
    have h := Spells.num (decimal n)
    rwa [decimal_text n hn] at h
  | str s => exact .str (stringText_quote s)
  | @arr items hi ih =>
    cases items with
    | nil => exact .emptyArr blank_nil
    | cons j r =>
      have h : ∀ i ∈ (j :: r).map fun i => (print i, formOf i), Spells i.1 i.2 :=
        List.forall_mem_map.mpr ih
      rw [print, printItems_eq, formOf, formsOf, formsOf_eq]
      have harr := Spells.arr h
      rwa [List.map_map] at harr
  | @obj ms hm ih =>
    cases ms with
    | nil => exact .emptyObj blank_nil
    | cons m r =>
      have h : ∀ n ∈ (m :: r).map memberText, Spells n.contents n.form :=
        List.forall_mem_map.mpr ih
      have hobj := Spells.obj h
      rw [textBefore_memberText, ← printMembers_eq, ← List.map_cons, List.map_map] at hobj
      rw [formOf, membersOf_eq]
      exact hobj

/-- **A rendered value is a complete document.** -/
theorem ofString_render {j : Json} (h : FloatFree j) :
    Document.ofString j.render = ⟨formOf j, true⟩ := by
  refine ofString_of_spells ?_
  rw [render, String.toList_ofList]
  exact spells_print h

/-! ## Reading back -/

theorem number?_literalOf {n : Int} (h : Fits n) :
    (literalOf n).number? = some (.whole n h) := by
  have hm : (literalOf n).magnitude = n.natAbs := ofDigits_digits _
  have hv : (literalOf n).value = n := by
    rw [Literal.value, hm]
    by_cases hn : n < 0
    · simp only [literalOf, hn, decide_true, if_true]
      omega
    · simp only [literalOf, hn, decide_false, Bool.false_eq_true, if_false]
      omega
  have hz : ¬ ((literalOf n).negative = true ∧ (literalOf n).magnitude = 0) := by
    rintro ⟨hneg, hzero⟩
    simp only [literalOf, decide_eq_true_eq] at hneg
    omega
  have hf : Fits (literalOf n).value := hv.symm ▸ h
  rw [Literal.number?_whole rfl hz hf]
  simp [hv]

/-- The greatest key so far comes last. -/
theorem insert_last {k : String} {v : Json} {ms : List (String × Json)} (h : ∀ m ∈ ms, m.1 < k) :
    insert k v ms = ms ++ [(k, v)] := by
  induction ms with
  | nil => rfl
  | cons m r ih =>
    obtain ⟨k', v'⟩ := m
    have hlt : k' < k := h _ List.mem_cons_self
    rw [insert, if_neg (String.lt_asymm hlt), if_neg fun he => String.lt_irrefl _ (he ▸ hlt),
      ih fun m hm => h m (List.mem_cons_of_mem _ hm)]
    rfl

theorem sortMembers_of_sorted {ms : List (String × Json)} (h : Sorted ms) :
    sortMembers ms = ms := by
  suffices ∀ acc, Sorted (acc ++ ms) →
      ms.foldl (fun acc m => insert m.1 m.2 acc) acc = acc ++ ms from this [] h
  clear h
  induction ms with
  | nil => simp
  | cons m r ih =>
    intro acc hs
    have hlt : ∀ x ∈ acc, x.1 < m.1 := fun x hx =>
      (List.pairwise_append.mp hs).2.2 x hx m List.mem_cons_self
    have happ : acc ++ m :: r = (acc ++ [m]) ++ r := by simp
    rw [List.foldl_cons, insert_last hlt, happ]
    exact ih _ (happ ▸ hs)

theorem mem_sortMembers {ms : List (String × Json)} {m : String × Json} (h : m ∈ sortMembers ms) :
    m ∈ ms := by
  suffices ∀ acc, m ∈ ms.foldl (fun acc m => insert m.1 m.2 acc) acc → m ∈ acc ∨ m ∈ ms from
    (this [] h).resolve_left List.not_mem_nil
  clear h
  induction ms with
  | nil => exact fun acc h => .inl h
  | cons m' r ih =>
    intro acc h
    rcases ih _ h with h | h
    · rcases mem_insert h with rfl | h
      · exact .inr List.mem_cons_self
      · exact .inl h
    · exact .inr (List.mem_cons_of_mem _ h)

/-- The value is read back from its form where arrays and objects may nest so deep. -/
def ReadsBack (depth : Nat) (j : Json) : Prop := Form.readJson (formOf j) depth = .ok j

theorem readItems_formsOf {depth : Nat} {items : List Json} (h : ∀ j ∈ items, ReadsBack depth j) :
    Form.readItems (formsOf items) true depth = .ok items := by
  induction items with
  | nil => rfl
  | cons j r ih =>
    have hj : Form.readJson (formOf j) depth = .ok j := h j List.mem_cons_self
    have hr := ih fun i hi => h i (List.mem_cons_of_mem _ hi)
    rw [formsOf, Form.readItems, hj, hr]
    rfl

theorem readMembers_membersOf {depth : Nat} {ms : List (String × Json)}
    (h : ∀ m ∈ ms, ReadsBack depth m.2) :
    Form.readMembers (membersOf ms) true depth = .ok ms := by
  induction ms with
  | nil => rfl
  | cons m r ih =>
    obtain ⟨k, j⟩ := m
    have hj : Form.readJson (formOf j) depth = .ok j := h (k, j) List.mem_cons_self
    have hr := ih fun i hi => h i (List.mem_cons_of_mem _ hi)
    rw [membersOf, Form.readMembers, hj, hr]
    rfl

/-- **From its form a value is read back.** -/
theorem readJson_formOf {depth : Nat} {j : Json} (h : Arranged depth j) (hf : FloatFree j) :
    ReadsBack depth j := by
  unfold ReadsBack
  induction h with
  | null => rfl
  | bool => rfl
  | num depth n =>
    cases hf with
    | whole n hn => simp only [formOf, Form.readJson, number?_literalOf hn]
  | str => rfl
  | @arr depth items hi ih =>
    cases hf with
    | arr hff =>
      rw [formOf, Form.readJson, readItems_formsOf fun j hj => ih j hj (hff j hj)]
      rfl
  | @obj depth ms hs hm ih =>
    cases hf with
    | obj hff =>
      rw [formOf, Form.readJson, readMembers_membersOf fun m hm => ih m hm (hff m hm)]
      simp [Except.map, object, sortMembers_of_sorted hs]

mutual

/-- **Only such values are read.** -/
theorem arranged_readJson {f : Form} {depth : Nat} {j : Json}
    (h : Form.readJson f depth = .ok j) : Arranged depth j := by
  match f, depth with
  | .null, _ => cases h; exact .null _
  | .bool b, _ => cases h; exact .bool _ b
  | .num l, _ =>
    rw [Form.readJson] at h
    split at h
    · cases h; exact .num _ _
    · cases h
  | .str none, _ => cases h
  | .str (some s), _ => cases h; exact .str _ s
  | .arr items closed, 0 => cases h
  | .obj ms closed, 0 => cases h
  | .arr items closed, depth + 1 =>
    rw [Form.readJson] at h
    obtain ⟨js, hjs, rfl⟩ := map_eq_ok h
    exact .arr (arranged_readItems hjs)
  | .obj ms closed, depth + 1 =>
    rw [Form.readJson] at h
    obtain ⟨js, hjs, rfl⟩ := map_eq_ok h
    exact .obj (sorted_sortMembers js) fun m hm => arranged_readMembers hjs m (mem_sortMembers hm)
  | .broken, _ => cases h

theorem arranged_readItems {fs : List Form} {closed : Bool} {depth : Nat} {js : List Json}
    (h : Form.readItems fs closed depth = .ok js) : ∀ j ∈ js, Arranged depth j := by
  match fs with
  | [] =>
    obtain ⟨-, -, rfl⟩ := map_eq_ok h
    simp
  | f :: r =>
    rw [Form.readItems] at h
    obtain ⟨j, hj, h⟩ := bind_eq_ok h
    obtain ⟨js', hr, h⟩ := bind_eq_ok h
    cases h
    simpa using ⟨arranged_readJson hj, arranged_readItems hr⟩

theorem arranged_readMembers {fs : List (Option String × Form)} {closed : Bool} {depth : Nat}
    {ms : List (String × Json)} (h : Form.readMembers fs closed depth = .ok ms) :
    ∀ m ∈ ms, Arranged depth m.2 := by
  match fs with
  | [] =>
    obtain ⟨-, -, rfl⟩ := map_eq_ok h
    simp
  | (none, f) :: r => cases h
  | (some k, f) :: r =>
    rw [Form.readMembers] at h
    obtain ⟨j, hj, h⟩ := bind_eq_ok h
    obtain ⟨js', hr, h⟩ := bind_eq_ok h
    cases h
    simp only [List.mem_cons, forall_eq_or_imp]
    exact ⟨arranged_readJson hj, arranged_readMembers hr⟩

end

end LayeredCache.Json

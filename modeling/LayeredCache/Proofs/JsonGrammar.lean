import Mathlib.Data.Nat.Basic
import LayeredCache.Json.Form

/-!
# The grammar of JSON texts

Which texts are JSON, and the form that each of them writes: white space around every value and
every member's name, strings with any escapes, numbers of any length, arrays and objects nested
without bound. A name or string with a lone half of a surrogate pair is in the grammar, too; it
stands for no text.

Results:
* `readNumber_text`: the literal of a number text.
* `ofString_of_spells`: a text of the grammar is a document of the form that it writes.
* `complete_of_spells`: such a form is JSON to its end.
-/

namespace LayeredCache.Json

open Text

/-! ## Number texts -/

/-- One or more decimal digits. -/
def Digits (cs : List Char) : Prop := cs ≠ [] ∧ ∀ c ∈ cs, c.isDigit = true

/-- The values of digits. -/
def digitValues (cs : List Char) : List Nat := cs.map fun c => c.toNat - '0'.toNat

/-- The exponent of a number as it is written. -/
structure ExponentText where
  mark : Char
  sign : List Char
  digits : List Char
  isMark : mark = 'e' ∨ mark = 'E'
  isSign : sign = [] ∨ sign = ['+'] ∨ sign = ['-']
  areDigits : Digits digits

/-- A number as it is written. A zero before the point stands alone. -/
structure NumberText where
  negative : Bool
  whole : List Char
  fraction : Option (List Char)
  exponent : Option ExponentText
  areDigits : Digits whole
  zeroAlone : whole.head? = some '0' → whole = ['0']
  areFraction : ∀ ds, fraction = some ds → Digits ds

namespace ExponentText

def text (x : ExponentText) : List Char := x.mark :: (x.sign ++ x.digits)

end ExponentText

namespace NumberText

def fractionText (w : NumberText) : List Char := (w.fraction.map ('.' :: ·)).getD []

def exponentText (w : NumberText) : List Char := (w.exponent.map ExponentText.text).getD []

/-- The number without its sign. -/
def size (w : NumberText) : List Char := w.whole ++ (w.fractionText ++ w.exponentText)

def text (w : NumberText) : List Char := if w.negative then '-' :: w.size else w.size

/-- The parts that the number is read as. -/
def literal (w : NumberText) : Literal where
  negative := w.negative
  digits := digitValues w.whole
  fraction := digitValues (w.fraction.getD [])
  exponent := w.exponent.map fun x => (x.sign = ['-'], digitValues x.digits)

end NumberText

/-! ## Reading numbers -/

theorem digit?_eq_some {c : Char} (h : c.isDigit = true) :
    digit? c = some (c.toNat - '0'.toNat) := by
  have hc : '0' ≤ c ∧ c ≤ '9' := by simpa [Char.isDigit, Char.le_def] using h
  exact if_pos hc

/-- What follows a number and cannot continue it. -/
def Ends (rest : List Char) : Prop :=
  ∀ c ∈ rest.head?, digit? c = none ∧ c ≠ '.' ∧ c ≠ 'e' ∧ c ≠ 'E'

theorem ends_nil : Ends [] := by simp [Ends]

/-- What does not begin with a digit. -/
def NoDigit (rest : List Char) : Prop := ∀ c ∈ rest.head?, digit? c = none

theorem readDigits_append {cs rest : List Char} (hc : ∀ c ∈ cs, c.isDigit = true)
    (hr : NoDigit rest) :
    readDigits ((cs ++ rest).map some) = (digitValues cs, rest.map some) := by
  induction cs with
  | nil =>
    cases rest with
    | nil => rfl
    | cons c rest => simp [readDigits, digitValues, hr c rfl]
  | cons c cs ih =>
    have ih := ih fun d hd => hc d (List.mem_cons_of_mem _ hd)
    simp only [List.cons_append, List.map_cons, readDigits, digitValues,
      digit?_eq_some (hc c List.mem_cons_self), ih]

theorem digitValues_ne_nil {cs : List Char} (h : Digits cs) : digitValues cs ≠ [] := by
  simpa [digitValues] using h.1

theorem digit?_zero {c : Char} (h : c.isDigit = true) (hz : c.toNat - '0'.toNat = 0) :
    c = '0' := by
  have hc : '0'.toNat ≤ c.toNat := by
    have h' : '0' ≤ c ∧ c ≤ '9' := by simpa [Char.isDigit, Char.le_def] using h
    exact h'.1
  exact Char.toNat_inj.mp (by omega)

theorem readWhole_text (w : NumberText) {rest : List Char} (hr : NoDigit rest) :
    readWhole ((w.whole ++ rest).map some) = some (digitValues w.whole, rest.map some) := by
  rw [readWhole, readDigits_append w.areDigits.2 hr]
  rcases hw : w.whole with _ | ⟨c, _ | ⟨c', cs⟩⟩
  · exact absurd hw w.areDigits.1
  · rfl
  · have hne : c.toNat - '0'.toNat ≠ 0 := by
      intro hz
      have hd : c.isDigit = true := w.areDigits.2 c (hw ▸ List.mem_cons_self)
      obtain rfl := digit?_zero hd hz
      have := w.zeroAlone (by rw [hw]; rfl)
      rw [hw] at this
      cases this
    obtain ⟨n, hn⟩ := Nat.exists_eq_succ_of_ne_zero hne
    simp only [digitValues, List.map_cons, hn]

theorem readFraction_text (w : NumberText) {rest : List Char} (hr : NoDigit rest)
    (hp : rest.head? ≠ some '.') :
    readFraction ((w.fractionText ++ rest).map some) =
      some (digitValues (w.fraction.getD []), rest.map some) := by
  cases hf : w.fraction with
  | none =>
    rw [NumberText.fractionText, hf]
    cases rest with
    | nil => rfl
    | cons c rest =>
      have hc : c ≠ '.' := fun h => hp (h ▸ rfl)
      simp [readFraction, hc, digitValues]
  | some ds =>
    have hd := w.areFraction ds hf
    have hread := readDigits_append hd.2 hr
    rw [NumberText.fractionText, hf]
    change readFraction (some '.' :: (ds ++ rest).map some) = some (digitValues ds, rest.map some)
    rw [readFraction, hread]
    split
    · rename_i he
      exact absurd (Prod.mk.inj he).1 (digitValues_ne_nil hd)
    · rename_i he
      rw [← he]

theorem readPower_text (down : Bool) {cs rest : List Char} (h : Digits cs) (hr : NoDigit rest) :
    readPower down ((cs ++ rest).map some) = some (some (down, digitValues cs), rest.map some) := by
  rw [readPower, readDigits_append h.2 hr]
  split
  · rename_i he
    exact absurd (Prod.mk.inj he).1 (digitValues_ne_nil h)
  · rename_i he
    obtain ⟨rfl, rfl⟩ := Prod.mk.inj he
    rfl

theorem readExponent_text (w : NumberText) {rest : List Char} (hr : Ends rest) :
    readExponent ((w.exponentText ++ rest).map some) =
      some (w.literal.exponent, rest.map some) := by
  have hn : NoDigit rest := fun c hc => (hr c hc).1
  rw [NumberText.exponentText, NumberText.literal]
  cases w.exponent with
  | none =>
    cases rest with
    | nil => rfl
    | cons c rest =>
      have hc := (hr c rfl).2.2
      simp [readExponent, hc.1, hc.2]
  | some x =>
    obtain ⟨mark, sign, ds, hm, hs, hd⟩ := x
    obtain ⟨c, cs, rfl⟩ := List.exists_cons_of_ne_nil hd.1
    have hc : c.isDigit = true := hd.2 c List.mem_cons_self
    have hplus : c ≠ '+' := by rintro rfl; exact absurd hc (by decide)
    have hminus : c ≠ '-' := by rintro rfl; exact absurd hc (by decide)
    have power (down : Bool) := readPower_text down hd hn
    rcases hm with rfl | rfl <;> rcases hs with rfl | rfl | rfl <;>
      simp_all [readExponent, ExponentText.text]

theorem noDigit_exponentText (w : NumberText) {rest : List Char} (hr : Ends rest) :
    NoDigit (w.exponentText ++ rest) ∧ (w.exponentText ++ rest).head? ≠ some '.' := by
  rw [NumberText.exponentText]
  cases w.exponent with
  | none => exact ⟨fun c hc => (hr c hc).1, fun h => (hr '.' h).2.1 rfl⟩
  | some x =>
    obtain ⟨mark, sign, ds, rfl | rfl, hs, hd⟩ := x <;>
      simp [NoDigit, ExponentText.text, digit?]

theorem noDigit_fractionText (w : NumberText) {rest : List Char} (hr : NoDigit rest) :
    NoDigit (w.fractionText ++ rest) := by
  rw [NumberText.fractionText]
  cases w.fraction with
  | none => exact hr
  | some ds => simp [NoDigit, digit?]

/-- **The literal of a number text**, whatever follows that cannot continue it. -/
theorem readNumber_text (w : NumberText) {rest : List Char} (hr : Ends rest) :
    readNumber w.negative ((w.size ++ rest).map some) = some (w.literal, rest.map some) := by
  obtain ⟨hd, hp⟩ := noDigit_exponentText w hr
  have whole := readWhole_text w (noDigit_fractionText w hd)
  have fraction := readFraction_text w hd hp
  have exponent := readExponent_text w hr
  rw [NumberText.size, List.append_assoc, List.append_assoc]
  simp only [readNumber, whole, fraction, exponent, Option.bind_eq_bind, Option.bind_some,
    Option.pure_def]
  rfl

/-! ## Strings -/

/-- One piece of a string as it is written: a character, a short escape or a numbered one. -/
inductive PieceText : List Char → Piece → Prop
  | plain {c : Char} (hc : ¬ c < ' ') (hq : c ≠ '"') (hb : c ≠ '\\') :
      PieceText [c] (.symbol (some c))
  | short {c x : Char} (h : shortEscape? c = some x) : PieceText ['\\', c] (.symbol (some x))
  | numbered {a b c d : Char} {n : Nat} (h : hexUnit? a b c d = some n) :
      PieceText ['\\', 'u', a, b, c, d] (.unit n)

/-- The pieces between the quotes of a string. -/
inductive BodyText : List Char → List Piece → Prop
  | nil : BodyText [] []
  | cons {w cs : List Char} {p : Piece} {ps : List Piece} (hp : PieceText w p)
      (h : BodyText cs ps) : BodyText (w ++ cs) (p :: ps)

/-- A string with its quotes, and what it stands for: a text, unless it holds a lone half of a
surrogate pair. -/
inductive StringText : List Char → Option String → Prop
  | quoted {cs : List Char} {ps : List Piece} (h : BodyText cs ps) :
      StringText ('"' :: (cs ++ ['"'])) ((assemble ps).map String.ofList)

theorem readPieces_piece {w : List Char} {p : Piece} (h : PieceText w p) (acc : List Piece)
    (rest : List Char) :
    readPieces acc ((w ++ rest).map some) = readPieces (p :: acc) (rest.map some) := by
  cases h with
  | plain hc hq hb => simp [readPieces, hb, hc]
  | @short c x h =>
    have hu : c ≠ 'u' := by
      rintro rfl
      cases h
    simp [readPieces, hu, h]
  | numbered h => simp [readPieces, h]

theorem readPieces_body {cs : List Char} {ps : List Piece} (h : BodyText cs ps)
    (acc : List Piece) (rest : List Char) :
    readPieces acc ((cs ++ '"' :: rest).map some) = some (acc.reverse ++ ps, rest.map some) := by
  induction h generalizing acc with
  | nil => simp [readPieces]
  | cons hp _ ih =>
    rw [List.append_assoc, readPieces_piece hp, ih, List.reverse_cons, List.append_assoc]
    rfl

/-! ## Texts -/

/-- Nothing but white space. -/
def Blank (cs : List Char) : Prop := ∀ c ∈ cs, isSpace c = true

theorem blank_nil : Blank [] := fun _ h => nomatch h

/-- A member of an object as it is written: its name, the white space around that, and the text of
its contents. -/
structure MemberText where
  before : List Char
  name : List Char
  after : List Char
  contents : List Char
  /-- What the name stands for. -/
  key : Option String
  /-- What the contents write. -/
  form : Form
  before_blank : Blank before
  after_blank : Blank after
  isName : StringText name key

namespace MemberText

/-- The member, with what follows it. -/
def textBefore (m : MemberText) (rest : List Char) : List Char :=
  m.before ++ (m.name ++ (m.after ++ ':' :: (m.contents ++ rest)))

def entry (m : MemberText) : Option String × Form := (m.key, m.form)

end MemberText

/-- What follows an item of an array: the others, each after a comma, and the closing bracket. -/
def itemsText : List (List Char × Form) → List Char
  | [] => [']']
  | i :: r => ',' :: (i.1 ++ itemsText r)

/-- What follows a member of an object: the others, each after a comma, and the closing brace. -/
def membersText : List MemberText → List Char
  | [] => ['\x7d']
  | m :: r => ',' :: m.textBefore (membersText r)

/-- **The grammar**: the text is one JSON value with white space around it, and writes the form. -/
inductive Spells : List Char → Form → Prop
  | pad {w w' cs : List Char} {f : Form} (hw : Blank w) (h : Spells cs f) (hw' : Blank w') :
      Spells (w ++ (cs ++ w')) f
  | null : Spells ['n', 'u', 'l', 'l'] .null
  | true : Spells ['t', 'r', 'u', 'e'] (.bool true)
  | false : Spells ['f', 'a', 'l', 's', 'e'] (.bool false)
  | num (w : NumberText) : Spells w.text (.num w.literal)
  | str {cs : List Char} {s : Option String} (h : StringText cs s) : Spells cs (.str s)
  | emptyArr {w : List Char} (hw : Blank w) : Spells ('[' :: (w ++ [']'])) (.arr [] true)
  | arr {i : List Char × Form} {r : List (List Char × Form)}
      (h : ∀ j ∈ i :: r, Spells j.1 j.2) :
      Spells ('[' :: (i.1 ++ itemsText r)) (.arr (i.2 :: r.map Prod.snd) true)
  | emptyObj {w : List Char} (hw : Blank w) :
      Spells ('\x7b' :: (w ++ ['\x7d'])) (.obj [] true)
  | obj {m : MemberText} {r : List MemberText}
      (h : ∀ n ∈ m :: r, Spells n.contents n.form) :
      Spells ('\x7b' :: m.textBefore (membersText r)) (.obj ((m :: r).map MemberText.entry) true)

/-! ## Their tokens -/

/-- The text is these tokens, one after the other and with white space between them. -/
inductive Lexes : List Symbol → List Token → Prop
  | nil : Lexes [] []
  | space {c : Char} {r : List Symbol} {ts : List Token} (hs : isSpace c = true)
      (h : Lexes r ts) : Lexes (some c :: r) ts
  | cons {c : Char} {w r : List Symbol} {t : Token} {ts : List Token} (hs : isSpace c = false)
      (hr : readToken (some c :: (w ++ r)) = some (t, r)) (h : Lexes r ts) :
      Lexes (some c :: (w ++ r)) (t :: ts)

theorem tokensWithin_of_lexes {ss : List Symbol} {ts : List Token} (h : Lexes ss ts) {limit : Nat}
    (hl : ss.length ≤ limit) : tokensWithin limit ss = ts := by
  induction h generalizing limit with
  | nil => cases limit <;> rfl
  | @space c r ts hs h ih =>
    cases limit with
    | zero => simp at hl
    | succ limit =>
      have htail : tokensWithin limit r = ts := ih (by simp at hl; omega)
      simp [tokensWithin, hs, htail]
  | @cons c w r t ts hs hr h ih =>
    cases limit with
    | zero => simp at hl
    | succ limit =>
      have htail : tokensWithin limit r = ts := ih (by simp at hl; omega)
      simp [tokensWithin, hs, hr, htail]

theorem tokens_of_lexes {ss : List Symbol} {ts : List Token} (h : Lexes ss ts) : tokens ss = ts :=
  tokensWithin_of_lexes h (Nat.le_refl _)

/-- The text, put before anything that cannot continue it, begins with these tokens. -/
def Begins (cs : List Char) (us : List Token) : Prop :=
  ∀ rest ts, Ends rest → Lexes (rest.map some) ts → Lexes ((cs ++ rest).map some) (us ++ ts)

theorem isSpace_digit {c : Char} (h : c.isDigit = true) : isSpace c = false := by
  simp only [isSpace, Bool.or_eq_false_iff, beq_eq_false_iff_ne]
  refine ⟨⟨⟨?_, ?_⟩, ?_⟩, ?_⟩ <;> (rintro rfl; exact absurd h (by decide))

theorem readToken_digit {c : Char} (h : c.isDigit = true) (r : List Symbol) :
    readToken (some c :: r) =
      (readNumber false (some c :: r)).map fun (l, r) => (.num l, r) := by
  unfold readToken
  split
  case h_12 => rfl
  all_goals
    rename_i he
    obtain rfl := Option.some.inj (List.cons.inj he).1
    exact absurd h (by decide)

theorem lexes_string {cs : List Char} {s : Option String} (hs : StringText cs s)
    {rest : List Char} {ts : List Token} (h : Lexes (rest.map some) ts) :
    Lexes ((cs ++ rest).map some) (.str s :: ts) := by
  obtain @⟨body, ps, hb⟩ := hs
  have htext : ('"' :: (body ++ ['"']) ++ rest).map some =
      some '"' :: ((body ++ ['"']).map some ++ rest.map some) := by simp
  have hread : readString ((body ++ ['"']).map some ++ rest.map some) =
      some ((assemble ps).map String.ofList, rest.map some) := by
    rw [← List.map_append, List.append_assoc]
    change readString ((body ++ '"' :: rest).map some) = _
    rw [readString, readPieces_body hb]
    rfl
  rw [htext]
  exact .cons rfl (by rw [readToken, hread]; rfl) h

theorem lexes_blank {w rest : List Char} (hw : Blank w) {ts : List Token}
    (h : Lexes (rest.map some) ts) : Lexes ((w ++ rest).map some) ts := by
  induction w with
  | nil => exact h
  | cons c w ih =>
    exact .space (hw c List.mem_cons_self) (ih fun d hd => hw d (List.mem_cons_of_mem _ hd))

theorem ends_blank {w rest : List Char} (hw : Blank w) (hr : Ends rest) : Ends (w ++ rest) := by
  cases w with
  | nil => exact hr
  | cons c w =>
    have hc : isSpace c = true := hw c List.mem_cons_self
    simp only [isSpace, Bool.or_eq_true, beq_iff_eq] at hc
    rcases hc with ((rfl | rfl) | rfl) | rfl <;> simp [Ends, digit?]

theorem begins_number_text (w : NumberText) : Begins w.text [.num w.literal] := by
  intro rest ts hr h
  have hread := readNumber_text w hr
  rw [NumberText.text]
  cases hneg : w.negative with
  | true =>
    rw [hneg] at hread
    rw [if_pos rfl, List.cons_append, List.map_cons, List.map_append]
    refine .cons rfl ?_ h
    rw [← List.map_append, readToken, hread]
    rfl
  | false =>
    obtain ⟨c, cs, hc⟩ := List.exists_cons_of_ne_nil w.areDigits.1
    have hd : c.isDigit = true := w.areDigits.2 c (hc ▸ List.mem_cons_self)
    have hsize : w.size = c :: (cs ++ (w.fractionText ++ w.exponentText)) := by
      rw [NumberText.size, hc]
      rfl
    rw [hneg] at hread
    rw [if_neg Bool.false_ne_true]
    rw [hsize, List.cons_append, List.map_cons, List.map_append] at hread ⊢
    refine .cons (isSpace_digit hd) ?_ h
    rw [readToken_digit hd, hread]
    rfl

/-- The tokens, whatever follows, are the form, given two steps for each token. -/
def ParsesAs (us : List Token) (f : Form) : Prop :=
  ∀ depth ts, 2 * us.length ≤ depth → Form.parse depth (us ++ ts) = (f, ts)

/-- The tokens of a form are not none, and do not begin with a closing bracket. -/
theorem ParsesAs.cons {us : List Token} {f : Form} (h : ParsesAs us f) :
    ∃ t vs, us = t :: vs ∧ t ≠ .closeArray := by
  cases us with
  | nil => exact absurd (h 1 [.null] (Nat.zero_le _)) (by simp [Form.parse])
  | cons t vs =>
    refine ⟨t, vs, rfl, ?_⟩
    rintro rfl
    have hnull := h (2 * (vs.length + 1)) [.null] (Nat.le_refl _)
    rw [Nat.mul_succ, List.cons_append, Form.parse] at hnull
    all_goals simp_all

theorem ParsesAs.one {t : Token} {f : Form}
    (h : ∀ depth ts, Form.parse (depth + 1) (t :: ts) = (f, ts)) : ParsesAs [t] f := by
  intro depth ts hd
  obtain ⟨depth, rfl⟩ : ∃ d, depth = d + 1 := ⟨depth - 1, by simp at hd; omega⟩
  exact h depth ts

/-- The text is tokens that are the form. -/
def Yields (cs : List Char) (f : Form) : Prop := ∃ us, Begins cs us ∧ ParsesAs us f

theorem ends_itemsText (r : List (List Char × Form)) (rest : List Char) :
    Ends (itemsText r ++ rest) := by
  cases r <;> simp [itemsText, Ends, digit?]

theorem ends_membersText (r : List MemberText) (rest : List Char) :
    Ends (membersText r ++ rest) := by
  cases r <;> simp [membersText, Ends, digit?]

/-- What follows an item is tokens that end the array. -/
theorem yields_itemsText {r : List (List Char × Form)} (h : ∀ i ∈ r, Yields i.1 i.2) :
    ∃ vs, (∀ rest ts, Lexes (rest.map some) ts →
        Lexes ((itemsText r ++ rest).map some) (vs ++ ts)) ∧
      ∀ us f, ParsesAs us f → ∀ depth ts, 2 * (us.length + vs.length) ≤ depth + 1 →
        Form.parseItems depth (us ++ (vs ++ ts)) = (f :: r.map Prod.snd, true, ts) := by
  induction r with
  | nil =>
    refine ⟨[.closeArray], fun rest ts h => .cons (w := []) rfl rfl h, ?_⟩
    intro us f hf depth ts hd
    obtain ⟨depth, rfl⟩ : ∃ d, depth = d + 1 := ⟨depth - 1, by simp at hd; omega⟩
    rw [Form.parseItems, hf depth _ (by simp at hd; omega)]
    rfl
  | cons i r ih =>
    obtain ⟨vs, hlexes, hparses⟩ := ih fun j hj => h j (List.mem_cons_of_mem _ hj)
    obtain ⟨ws, hbegins, hitem⟩ := h i List.mem_cons_self
    refine ⟨.comma :: (ws ++ vs), fun rest ts h => ?_, ?_⟩
    · have htail := hbegins _ _ (ends_itemsText r rest) (hlexes rest ts h)
      simp only [itemsText, List.cons_append, List.append_assoc]
      exact .cons (w := []) rfl rfl htail
    · intro us f hf depth ts hd
      simp only [List.length_cons, List.length_append] at hd
      obtain ⟨depth, rfl⟩ : ∃ d, depth = d + 1 := ⟨depth - 1, by omega⟩
      have htail := hparses ws i.2 hitem depth ts (by omega)
      rw [Form.parseItems, hf depth _ (by omega)]
      simp only [List.cons_append, List.append_assoc, htail, List.map_cons]

/-- A member, with what follows it, is the tokens of its name, a colon, those of its contents and
what follows. -/
theorem lexes_member_text {m : MemberText} {us ts : List Token} (hb : Begins m.contents us)
    {rest : List Char} (hr : Ends rest) (h : Lexes (rest.map some) ts) :
    Lexes ((m.textBefore rest).map some) (.str m.key :: .colon :: (us ++ ts)) :=
  lexes_blank m.before_blank <| lexes_string m.isName <| lexes_blank m.after_blank <|
    .cons (w := []) rfl rfl (hb _ _ hr h)

theorem textBefore_append (m : MemberText) (cs rest : List Char) :
    m.textBefore cs ++ rest = m.textBefore (cs ++ rest) := by
  simp [MemberText.textBefore]

/-- What follows a member is tokens that end the object. -/
theorem yields_membersText {r : List MemberText} (h : ∀ m ∈ r, Yields m.contents m.form) :
    ∃ vs, (∀ rest ts, Lexes (rest.map some) ts →
        Lexes ((membersText r ++ rest).map some) (vs ++ ts)) ∧
      ∀ us k f, ParsesAs us f → ∀ depth ts, 2 * (us.length + vs.length) ≤ depth + 1 →
        Form.parseMembers depth (.str k :: .colon :: (us ++ (vs ++ ts))) =
          ((k, f) :: r.map MemberText.entry, true, ts) := by
  induction r with
  | nil =>
    refine ⟨[.closeObject], fun rest ts h => .cons (w := []) rfl rfl h, ?_⟩
    intro us k f hf depth ts hd
    obtain ⟨depth, rfl⟩ : ∃ d, depth = d + 1 := ⟨depth - 1, by simp at hd; omega⟩
    rw [Form.parseMembers, hf depth _ (by simp at hd; omega)]
    rfl
  | cons m r ih =>
    obtain ⟨vs, hlexes, hparses⟩ := ih fun n hn => h n (List.mem_cons_of_mem _ hn)
    obtain ⟨ws, hbegins, hcontents⟩ := h m List.mem_cons_self
    refine ⟨.comma :: .str m.key :: .colon :: (ws ++ vs), fun rest ts h => ?_, ?_⟩
    · have htail := lexes_member_text hbegins (ends_membersText r rest) (hlexes rest ts h)
      simp only [membersText, List.cons_append, textBefore_append, List.append_assoc]
      exact .cons (w := []) rfl rfl htail
    · intro us k f hf depth ts hd
      simp only [List.length_cons, List.length_append] at hd
      obtain ⟨depth, rfl⟩ : ∃ d, depth = d + 1 := ⟨depth - 1, by omega⟩
      have htail := hparses ws m.key m.form hcontents depth ts (by omega)
      rw [Form.parseMembers, hf depth _ (by omega)]
      simp only [List.cons_append, List.append_assoc, htail, List.map_cons, MemberText.entry]

/-- **Every text of the grammar is tokens that are its form.** -/
theorem yields_of_spells {cs : List Char} {f : Form} (h : Spells cs f) : Yields cs f := by
  induction h with
  | @pad w w' cs f hw _ hw' ih =>
    obtain ⟨us, hb, hp⟩ := ih
    refine ⟨us, fun rest ts hr hl => ?_, hp⟩
    rw [List.append_assoc, List.append_assoc]
    exact lexes_blank hw (hb _ _ (ends_blank hw' hr) (lexes_blank hw' hl))
  | null =>
    exact ⟨[.null], fun _ _ _ h => .cons (w := [some 'u', some 'l', some 'l']) rfl rfl h,
      .one fun _ _ => rfl⟩
  | true =>
    exact ⟨[.bool true],
      fun _ _ _ h => .cons (w := [some 'r', some 'u', some 'e']) rfl rfl h, .one fun _ _ => rfl⟩
  | false =>
    exact ⟨[.bool false],
      fun _ _ _ h => .cons (w := [some 'a', some 'l', some 's', some 'e']) rfl rfl h,
      .one fun _ _ => rfl⟩
  | num w => exact ⟨_, begins_number_text w, .one fun _ _ => rfl⟩
  | @str _ s hs => exact ⟨[.str s], fun _ _ _ h => lexes_string hs h, .one fun _ _ => rfl⟩
  | @emptyArr w hw =>
    refine ⟨[.openArray, .closeArray], fun rest ts _ h => ?_, fun depth ts hd => ?_⟩
    · rw [List.cons_append, List.append_assoc]
      exact .cons (w := []) rfl rfl (lexes_blank hw (.cons (w := []) rfl rfl h))
    · obtain ⟨depth, rfl⟩ : ∃ d, depth = d + 1 := ⟨depth - 1, by simp at hd; omega⟩
      rfl
  | @arr i r _ ih =>
    obtain ⟨us, hb, hp⟩ := ih i List.mem_cons_self
    obtain ⟨vs, hlexes, hparses⟩ := yields_itemsText fun j hj => ih j (List.mem_cons_of_mem _ hj)
    refine ⟨.openArray :: (us ++ vs), fun rest ts _ h => ?_, fun depth ts hd => ?_⟩
    · have htail := hb _ _ (ends_itemsText r rest) (hlexes rest ts h)
      rw [List.cons_append, List.append_assoc, List.cons_append, List.append_assoc]
      exact .cons (w := []) rfl rfl htail
    · simp only [List.length_cons, List.length_append] at hd
      obtain ⟨depth, rfl⟩ : ∃ d, depth = d + 1 := ⟨depth - 1, by omega⟩
      have hitems := hparses us i.2 hp depth ts (by omega)
      obtain ⟨t, ws, ht, hne⟩ := hp.cons
      rw [List.cons_append, List.append_assoc, Form.parse, hitems]
      intro ws' hws
      rw [ht] at hws
      exact hne (List.cons.inj hws).1
  | @emptyObj w hw =>
    refine ⟨[.openObject, .closeObject], fun rest ts _ h => ?_, fun depth ts hd => ?_⟩
    · rw [List.cons_append, List.append_assoc]
      exact .cons (w := []) rfl rfl (lexes_blank hw (.cons (w := []) rfl rfl h))
    · obtain ⟨depth, rfl⟩ : ∃ d, depth = d + 1 := ⟨depth - 1, by simp at hd; omega⟩
      rfl
  | @obj m r _ ih =>
    obtain ⟨us, hb, hp⟩ := ih m List.mem_cons_self
    obtain ⟨vs, hlexes, hparses⟩ := yields_membersText fun n hn => ih n (List.mem_cons_of_mem _ hn)
    refine ⟨.openObject :: .str m.key :: .colon :: (us ++ vs), fun rest ts _ h => ?_,
      fun depth ts hd => ?_⟩
    · have htail := lexes_member_text hb (ends_membersText r rest) (hlexes rest ts h)
      simp only [List.cons_append, textBefore_append, List.append_assoc]
      exact .cons (w := []) rfl rfl htail
    · simp only [List.length_cons, List.length_append] at hd
      obtain ⟨depth, rfl⟩ : ∃ d, depth = d + 1 := ⟨depth - 1, by omega⟩
      have hmembers := hparses us m.key m.form hp depth ts (by omega)
      simp only [List.cons_append, List.append_assoc]
      rw [Form.parse, hmembers]
      · rfl
      · simp

/-- **A text of the grammar is a document of its form.** -/
theorem ofString_of_spells {s : String} {f : Form} (h : Spells s.toList f) :
    Document.ofString s = ⟨f, true⟩ := by
  obtain ⟨us, hb, hp⟩ := yields_of_spells h
  have hl := hb [] [] ends_nil .nil
  have hf := hp (2 * us.length + 2) [] (by omega)
  rw [List.append_nil] at hf
  rw [List.append_nil, List.append_nil] at hl
  rw [Document.ofString, Document.ofSymbols, tokens_of_lexes hl]
  simp [hf]

/-- A text writes one form. -/
theorem spells_unique {cs : List Char} {f g : Form} (hf : Spells cs f) (hg : Spells cs g) :
    f = g := by
  have main {f : Form} (h : Spells cs f) : Document.ofString (.ofList cs) = ⟨f, true⟩ :=
    ofString_of_spells (by rwa [String.toList_ofList])
  exact congrArg Document.form ((main hf).symm.trans (main hg))

/-! ## Their forms -/

theorem completeItems_iff {fs : List Form} :
    Form.completeItems fs = true ↔ ∀ f ∈ fs, f.complete = true := by
  induction fs with
  | nil => simp [Form.completeItems]
  | cons f r ih => simp [Form.completeItems, ih]

theorem completeMembers_iff {ms : List (Option String × Form)} :
    Form.completeMembers ms = true ↔ ∀ m ∈ ms, m.2.complete = true := by
  induction ms with
  | nil => simp [Form.completeMembers]
  | cons m r ih => simp [Form.completeMembers, ih]

/-- **The form of a text of the grammar is JSON to its end.** -/
theorem complete_of_spells {cs : List Char} {f : Form} (h : Spells cs f) : f.complete = true := by
  induction h with
  | pad _ _ _ ih => exact ih
  | @arr i r _ ih =>
    rw [Form.complete, Bool.true_and, completeItems_iff]
    intro f hf
    change f ∈ (i :: r).map Prod.snd at hf
    obtain ⟨j, hj, rfl⟩ := List.mem_map.mp hf
    exact ih j hj
  | @obj m r _ ih =>
    rw [Form.complete, Bool.true_and, completeMembers_iff]
    intro e he
    obtain ⟨n, hn, rfl⟩ := List.mem_map.mp he
    exact ih n hn
  | _ => simp [Form.complete, Form.completeItems, Form.completeMembers]

end LayeredCache.Json

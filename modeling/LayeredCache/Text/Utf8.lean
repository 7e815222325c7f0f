/-!
# UTF-8

Bytes are read as a list of symbols: a character for each well-formed sequence, and a gap (`none`)
for each byte that belongs to none. A text is what has no gaps.

Results:
* `decode_ascii`: an ASCII byte stands for itself, whatever follows.
* `text?_eq_some_iff`: a byte list is a text exactly when its symbols are all characters.
-/

namespace LayeredCache.Text

/-- A character, or a byte that belongs to no character. -/
abbrev Symbol := Option Char

/-- The character numbered `n`, if there is one and it needs at least `least`. -/
def scalar? (least n : Nat) : Option Char :=
  if n.isValidChar ∧ least ≤ n then some (Char.ofNat n) else none

/-- The six bits of a continuation byte. -/
def continuation? (b : UInt8) : Option Nat :=
  if 0x80 ≤ b ∧ b < 0xC0 then some (b.toNat - 0x80) else none

/-- A character written in two bytes. -/
def pair? (a b : UInt8) : Option Char :=
  if 0xC0 ≤ a ∧ a < 0xE0 then do
    let y ← continuation? b
    scalar? 0x80 ((a.toNat - 0xC0) * 64 + y)
  else none

/-- A character written in three bytes. -/
def triple? (a b c : UInt8) : Option Char :=
  if 0xE0 ≤ a ∧ a < 0xF0 then do
    let y ← continuation? b
    let z ← continuation? c
    scalar? 0x800 (((a.toNat - 0xE0) * 64 + y) * 64 + z)
  else none

/-- A character written in four bytes. -/
def quadruple? (a b c d : UInt8) : Option Char :=
  if 0xF0 ≤ a ∧ a < 0xF8 then do
    let y ← continuation? b
    let z ← continuation? c
    let w ← continuation? d
    scalar? 0x10000 ((((a.toNat - 0xF0) * 64 + y) * 64 + z) * 64 + w)
  else none

/-- A byte by itself: an ASCII character or a gap. -/
def single (a : UInt8) : Symbol :=
  if a < 0x80 then some (Char.ofNat a.toNat) else none

/-- The symbols of a byte list. -/
def decode : List UInt8 → List Symbol
  | [] => []
  | [a] => [single a]
  | [a, b] =>
    match pair? a b with
    | some x => [some x]
    | none => single a :: decode [b]
  | [a, b, c] =>
    match triple? a b c, pair? a b with
    | some x, _ => [some x]
    | none, some x => some x :: decode [c]
    | none, none => single a :: decode [b, c]
  | a :: b :: c :: d :: r =>
    match quadruple? a b c d, triple? a b c, pair? a b with
    | some x, _, _ => some x :: decode r
    | none, some x, _ => some x :: decode (d :: r)
    | none, none, some x => some x :: decode (c :: d :: r)
    | none, none, none => single a :: decode (b :: c :: d :: r)

/-- The characters of a symbol list without gaps. -/
def characters? (ss : List Symbol) : Option (List Char) := ss.mapM id

/-- The text that the bytes write, if they write one. -/
def text? (bs : List UInt8) : Option String := (characters? (decode bs)).map String.ofList

theorem characters?_map_some (cs : List Char) : characters? (cs.map some) = some cs := by
  unfold characters?
  induction cs with
  | nil => rfl
  | cons c cs ih => simp [List.mapM_cons, ih]

theorem characters?_eq_some_iff {ss : List Symbol} {cs : List Char} :
    characters? ss = some cs ↔ ss = cs.map some := by
  constructor
  · intro h
    induction ss generalizing cs with
    | nil => simp [characters?] at h; simp [← h]
    | cons s ss ih =>
      unfold characters? at h ih
      rw [List.mapM_cons] at h
      cases s with
      | none => simp at h
      | some c =>
        cases ht : ss.mapM id with
        | none => simp [ht] at h
        | some ds =>
          simp only [id_eq, ht, Option.pure_def, Option.bind_eq_bind, Option.bind_some,
            Option.some.injEq] at h
          rw [← h, List.map_cons, ← ih ht]
  · rintro rfl
    exact characters?_map_some cs

theorem text?_eq_some_iff {bs : List UInt8} {s : String} :
    text? bs = some s ↔ decode bs = s.toList.map some := by
  unfold text?
  rw [Option.map_eq_some_iff]
  constructor
  · rintro ⟨cs, h, rfl⟩
    simpa using characters?_eq_some_iff.mp h
  · intro h
    exact ⟨s.toList, characters?_eq_some_iff.mpr h, by simp⟩

/-- No lead byte of a longer sequence is ASCII. -/
theorem decode_ascii {a : UInt8} (h : a < 0x80) (r : List UInt8) :
    decode (a :: r) = some (Char.ofNat a.toNat) :: decode r := by
  have h2 : ¬ (0xC0 ≤ a ∧ a < 0xE0) := by
    simp only [UInt8.lt_iff_toNat_lt, UInt8.le_iff_toNat_le] at h ⊢
    intro ⟨h', _⟩
    exact absurd (Nat.lt_of_le_of_lt h' h) (by decide)
  have h3 : ¬ (0xE0 ≤ a ∧ a < 0xF0) := by
    simp only [UInt8.lt_iff_toNat_lt, UInt8.le_iff_toNat_le] at h ⊢
    intro ⟨h', _⟩
    exact absurd (Nat.lt_of_le_of_lt h' h) (by decide)
  have h4 : ¬ (0xF0 ≤ a ∧ a < 0xF8) := by
    simp only [UInt8.lt_iff_toNat_lt, UInt8.le_iff_toNat_le] at h ⊢
    intro ⟨h', _⟩
    exact absurd (Nat.lt_of_le_of_lt h' h) (by decide)
  match r with
  | [] => simp [decode, single, h]
  | [b] => simp [decode, pair?, h2, single, h]
  | [b, c] => simp [decode, triple?, pair?, h2, h3, single, h]
  | b :: c :: d :: r => simp [decode, quadruple?, triple?, pair?, h2, h3, h4, single, h]

end LayeredCache.Text

import LayeredCache.Json.Literal
import LayeredCache.Text.Utf8

/-!
# JSON tokens

A JSON text as a list of tokens. Reading stops at the first place that no token begins, which is
shown as a last token `broken`; what was read before it stays usable.

A string token holds its text, or nothing when the string is well formed but names no text: one
with a lone half of a surrogate pair or with a stray byte. Such a string can only be skipped.
-/

namespace LayeredCache.Json

open Text

inductive Token where
  | openArray | closeArray | openObject | closeObject | comma | colon
  | null | bool (b : Bool)
  | num (l : Literal)
  | str (s : Option String)
  | broken
  deriving DecidableEq

/-! ## Strings -/

/-- A piece of a string: a symbol given directly or by a short escape, or a numbered code unit. -/
inductive Piece where
  | symbol (s : Symbol)
  | unit (n : Nat)
  deriving DecidableEq

/-- The value of a hexadecimal digit. -/
def hexDigit? (c : Char) : Option Nat :=
  if '0' ≤ c ∧ c ≤ '9' then some (c.toNat - '0'.toNat)
  else if 'a' ≤ c ∧ c ≤ 'f' then some (c.toNat - 'a'.toNat + 10)
  else if 'A' ≤ c ∧ c ≤ 'F' then some (c.toNat - 'A'.toNat + 10)
  else none

/-- The number written by four hexadecimal digits. -/
def hexUnit? (a b c d : Char) : Option Nat := do
  let a ← hexDigit? a
  let b ← hexDigit? b
  let c ← hexDigit? c
  let d ← hexDigit? d
  return ((a * 16 + b) * 16 + c) * 16 + d

/-- The character that a one-letter escape stands for. -/
def shortEscape? : Char → Option Char
  | '"' => some '"'
  | '\\' => some '\\'
  | '/' => some '/'
  | 'b' => some '\x08'
  | 'f' => some '\x0c'
  | 'n' => some '\n'
  | 'r' => some '\r'
  | 't' => some '\t'
  | _ => none

/-- The pieces of a string after its opening quote, in reverse before `acc`, and what follows the
closing quote. -/
def readPieces (acc : List Piece) : List Symbol → Option (List Piece × List Symbol)
  | [] => none
  | some '"' :: r => some (acc.reverse, r)
  | some '\\' :: some 'u' :: some a :: some b :: some c :: some d :: r =>
    match hexUnit? a b c d with
    | some n => readPieces (.unit n :: acc) r
    | none => none
  | some '\\' :: some c :: r =>
    match shortEscape? c with
    | some x => readPieces (.symbol (some x) :: acc) r
    | none => none
  | some '\\' :: _ => none
  | some c :: r => if c < ' ' then none else readPieces (.symbol (some c) :: acc) r
  | none :: r => readPieces (.symbol none :: acc) r

def isHighSurrogate (n : Nat) : Bool := 0xD800 ≤ n && n < 0xDC00

def isLowSurrogate (n : Nat) : Bool := 0xDC00 ≤ n && n < 0xE000

/-- The text that pieces write: each surrogate half needs its partner, and no byte is stray. -/
def assemble : List Piece → Option (List Char)
  | [] => some []
  | .symbol s :: r => do return (← s) :: (← assemble r)
  | .unit n :: .unit m :: r =>
    if isHighSurrogate n then
      if isLowSurrogate m then
        (assemble r).map (Char.ofNat (0x10000 + (n - 0xD800) * 0x400 + (m - 0xDC00)) :: ·)
      else none
    else if isLowSurrogate n then none
    else (assemble (.unit m :: r)).map (Char.ofNat n :: ·)
  | .unit n :: r =>
    if isHighSurrogate n || isLowSurrogate n then none
    else (assemble r).map (Char.ofNat n :: ·)

/-- A string after its opening quote. -/
def readString (ss : List Symbol) : Option (Option String × List Symbol) :=
  (readPieces [] ss).map fun (ps, r) => ((assemble ps).map String.ofList, r)

/-! ## Numbers -/

/-- The leading decimal digits, and what follows them. -/
def readDigits : List Symbol → List Nat × List Symbol
  | [] => ([], [])
  | some c :: r =>
    match digit? c with
    | some d => let (ds, r') := readDigits r; (d :: ds, r')
    | none => ([], some c :: r)
  | none :: r => ([], none :: r)

/-- The digits of the part before the point: a zero stands alone. -/
def readWhole (ss : List Symbol) : Option (List Nat × List Symbol) :=
  match readDigits ss with
  | ([], _) => none
  | ([d], r) => some ([d], r)
  | (0 :: _, _) => none
  | (ds, r) => some (ds, r)

/-- The part after a point, if there is a point. -/
def readFraction : List Symbol → Option (List Nat × List Symbol)
  | some '.' :: r =>
    match readDigits r with
    | ([], _) => none
    | (ds, r) => some (ds, r)
  | ss => some ([], ss)

/-- The digits of an exponent after its sign. -/
def readPower (down : Bool) (ss : List Symbol) : Option (Option (Bool × List Nat) × List Symbol) :=
  match readDigits ss with
  | ([], _) => none
  | (ds, r) => some (some (down, ds), r)

/-- The exponent, if there is one. -/
def readExponent : List Symbol → Option (Option (Bool × List Nat) × List Symbol)
  | some 'e' :: r | some 'E' :: r =>
    match r with
    | some '+' :: r => readPower false r
    | some '-' :: r => readPower true r
    | _ => readPower false r
  | ss => some (none, ss)

/-- A number after its sign. -/
def readNumber (negative : Bool) (ss : List Symbol) : Option (Literal × List Symbol) := do
  let (digits, ss) ← readWhole ss
  let (fraction, ss) ← readFraction ss
  let (exponent, ss) ← readExponent ss
  return (⟨negative, digits, fraction, exponent⟩, ss)

/-! ## Texts -/

/-- The white space of JSON. -/
def isSpace (c : Char) : Bool := c == ' ' || c == '\n' || c == '\t' || c == '\r'

/-- One token that does not begin with white space, and what follows it. -/
def readToken : List Symbol → Option (Token × List Symbol)
  | some '[' :: r => some (.openArray, r)
  | some ']' :: r => some (.closeArray, r)
  | some '{' :: r => some (.openObject, r)
  | some '}' :: r => some (.closeObject, r)
  | some ',' :: r => some (.comma, r)
  | some ':' :: r => some (.colon, r)
  | some 'n' :: some 'u' :: some 'l' :: some 'l' :: r => some (.null, r)
  | some 't' :: some 'r' :: some 'u' :: some 'e' :: r => some (.bool true, r)
  | some 'f' :: some 'a' :: some 'l' :: some 's' :: some 'e' :: r => some (.bool false, r)
  | some '"' :: r => (readString r).map fun (s, r) => (.str s, r)
  | some '-' :: r => (readNumber true r).map fun (l, r) => (.num l, r)
  | ss => (readNumber false ss).map fun (l, r) => (.num l, r)

/-- The tokens of a text, at most `limit` symbols and tokens. -/
def tokensWithin : Nat → List Symbol → List Token
  | _, [] => []
  | 0, _ => [.broken]
  | limit + 1, some c :: r =>
    if isSpace c then tokensWithin limit r
    else match readToken (some c :: r) with
      | some (t, r') => t :: tokensWithin limit r'
      | none => [.broken]
  | _ + 1, none :: _ => [.broken]

/-- The tokens of a text. Every token uses up a symbol, so the length is limit enough. -/
def tokens (ss : List Symbol) : List Token := tokensWithin ss.length ss

end LayeredCache.Json

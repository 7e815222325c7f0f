import LayeredCache.Json.Basic
import LayeredCache.Decimal.Shortest

/-!
# Printing JSON

JSON text without white space. Strings escape the quote, the backslash and the control characters
below the space; everything else is written as it is. A double always shows a fraction or an
exponent: positional notation from a leading exponent of -5 to 15, else one digit before the point
and a signed exponent of at least two digits.
-/

namespace LayeredCache

/-- The binary fraction that a double's bits stand for, without its sign. -/
def Double.binary (d : Double) : Decimal.Binary :=
  if d.exponentBits = 0 then ⟨d.fractionBits, -1074, false⟩
  else ⟨0x10_0000_0000_0000 + d.fractionBits, (d.exponentBits : Int) - 1075,
    d.fractionBits = 0 && 1 < d.exponentBits⟩

namespace Json

/-- A hexadecimal digit in lower case. -/
def hexChar (n : Nat) : Char := (Nat.toDigits 16 (n % 16)).headD '0'

/-- A character of a string as it is written. -/
def escapeChar (c : Char) : List Char :=
  match c with
  | '"' => ['\\', '"']
  | '\\' => ['\\', '\\']
  | '\x08' => ['\\', 'b']
  | '\x0c' => ['\\', 'f']
  | '\n' => ['\\', 'n']
  | '\r' => ['\\', 'r']
  | '\t' => ['\\', 't']
  | c =>
    if c < ' ' then ['\\', 'u', '0', '0', hexChar (c.toNat / 16), hexChar c.toNat] else [c]

/-- A string with its quotes. -/
def quote (s : String) : List Char := '"' :: s.toList.flatMap escapeChar ++ ['"']

/-- Digits with a point after the first `n`; a fraction of zero where there is none. -/
def pointed (ds : List Char) (n : Nat) : List Char :=
  if ds.length ≤ n then ds ++ List.replicate (n - ds.length) '0' ++ ['.', '0']
  else ds.take n ++ '.' :: ds.drop n

/-- The exponent of a double, with its sign and at least two digits. -/
def exponentText (x : Int) : List Char :=
  let ds := Nat.toDigits 10 x.natAbs
  ['e', if x < 0 then '-' else '+'] ++ (if ds.length < 2 then '0' :: ds else ds)

/-- The positive value with these significant digits, the first one at the power `x` of ten. -/
def floatSize (ds : List Char) (x : Int) : List Char :=
  if 0 ≤ x ∧ x ≤ 15 then pointed ds (x.toNat + 1)
  else if -5 ≤ x ∧ x < 0 then '0' :: '.' :: List.replicate (-x - 1).toNat '0' ++ ds
  else
    match ds with
    | [d] => d :: exponentText x
    | d :: r => d :: '.' :: r ++ exponentText x
    | [] => []

/-- A double. -/
def floatText (d : Double) : List Char :=
  let size :=
    if d.binary.mantissa = 0 then ['0', '.', '0']
    else
      let s := d.binary.shortest
      floatSize s.significant s.leading
  if d.negative then '-' :: size else size

/-- A number. -/
def numberText : Number → List Char
  | .whole n _ => if n < 0 then '-' :: Nat.toDigits 10 n.natAbs else Nat.toDigits 10 n.natAbs
  | .float d => floatText d

mutual

/-- A value. -/
def print : Json → List Char
  | .null => ['n', 'u', 'l', 'l']
  | .bool true => ['t', 'r', 'u', 'e']
  | .bool false => ['f', 'a', 'l', 's', 'e']
  | .num n => numberText n
  | .str s => quote s
  | .arr [] => ['[', ']']
  | .arr (j :: r) => '[' :: print j ++ printItems r
  | .obj [] => ['\x7b', '\x7d']
  | .obj ((k, j) :: r) => '\x7b' :: quote k ++ ':' :: print j ++ printMembers r

/-- The items after the first, and the closing bracket. -/
def printItems : List Json → List Char
  | [] => [']']
  | j :: r => ',' :: print j ++ printItems r

/-- The members after the first, and the closing brace. -/
def printMembers : List (String × Json) → List Char
  | [] => ['\x7d']
  | (k, j) :: r => ',' :: quote k ++ ':' :: print j ++ printMembers r

end

/-- The text of a value. -/
def render (j : Json) : String := String.ofList (print j)

end Json
end LayeredCache

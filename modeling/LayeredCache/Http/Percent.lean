/-!
# Percent encoding

A percent sign with two hexadecimal digits stands for a byte; any other percent sign stands for
itself. What comes of the bytes may be no text, which is for whoever asked to see.
-/

namespace LayeredCache.Http.Percent

/-- The value of an ASCII hexadecimal digit. -/
def hexByte? (b : UInt8) : Option UInt8 :=
  if 0x30 ≤ b ∧ b ≤ 0x39 then some (b - 0x30)
  else if 0x41 ≤ b ∧ b ≤ 0x46 then some (b - 0x41 + 10)
  else if 0x61 ≤ b ∧ b ≤ 0x66 then some (b - 0x61 + 10)
  else none

/-- The percent sign. -/
def sign : UInt8 := 0x25

/-- The byte that two digits write. -/
def pair? (a b : UInt8) : Option UInt8 := do return (← hexByte? a) * 16 + (← hexByte? b)

/-- The bytes that an encoded text stands for. -/
def decode : List UInt8 → List UInt8
  | [] => []
  | [a] => [a]
  | [a, b] => [a, b]
  | p :: a :: b :: r =>
    if p = sign then
      match pair? a b with
      | some x => x :: decode r
      | none => p :: decode (a :: b :: r)
    else p :: decode (a :: b :: r)

end LayeredCache.Http.Percent

import LayeredCache.Json.Basic
import LayeredCache.Text.Numeral

/-!
# Number literals

A JSON number literal by its parts, and the number it stands for. An integer literal that fits 64
bits is that whole number, except that minus zero is a double. Every other literal is a double:
its digits are gathered into 64 bits, those beyond are dropped, and the result is scaled by one
power of ten. A literal too large for a double stands for no number.

Results:
* `number?_whole`: an integer literal other than minus zero whose value fits stands for that value.
* `number?_eq_whole`: only such a literal stands for a whole number.
-/

namespace LayeredCache.Json

/-- The parts of a number literal: digits before and after the point, and the exponent's sign
and digits. -/
structure Literal where
  negative : Bool
  digits : List Nat
  fraction : List Nat
  exponent : Option (Bool × List Nat)
  deriving Repr, DecidableEq

namespace Literal

/-- Neither a fraction nor an exponent. -/
def isInteger (l : Literal) : Bool := l.fraction.isEmpty && l.exponent.isNone

/-- The size of the part before the point. -/
def magnitude (l : Literal) : Nat := Text.ofDigits l.digits

/-- The value of an integer literal. -/
def value (l : Literal) : Int := if l.negative then -(l.magnitude : Int) else l.magnitude

/-- Appends digits to a 64-bit significand until one does not fit; answers the significand and
how many digits were left. -/
def gather (significand : Nat) : List Nat → Nat × Nat
  | [] => (significand, 0)
  | d :: ds =>
    if significand * 10 + d < 0x1_0000_0000_0000_0000 then gather (significand * 10 + d) ds
    else (significand, ds.length + 1)

/-- The significand and its power of ten, before the exponent is applied. -/
def significand (l : Literal) : Nat × Int :=
  let (s, dropped) := gather 0 l.digits
  let (s', rest) := gather s l.fraction
  (s', (dropped : Int) - ((l.fraction.length - rest : Nat) : Int))

/-- A power of ten as a double. -/
def power (n : Nat) : Float := Float.ofScientific 1 false n

/-- A significand times a power of ten, each step rounded; `none` beyond the largest double. -/
def scale (significand : Nat) (e : Int) : Option Float :=
  let f := significand.toUInt64.toFloat
  if 308 < e then if significand = 0 then some f else none
  else if 0 ≤ e then
    let r := f * power e.toNat
    if r.isInf then none else some r
  else if -308 ≤ e then some (f / power (-e).toNat)
  else if -616 ≤ e then some (f / power 308 / power (-e - 308).toNat)
  else some 0

/-- The double that a literal stands for. -/
def float? (l : Literal) : Option Double :=
  let (s, e) := l.significand
  let size : Option Float :=
    match l.exponent with
    | none => scale s e
    | some (down, ds) =>
      let x := Text.ofDigits ds
      if 0x8000_0000 ≤ x then if s = 0 || down then some 0 else none
      else scale s (if down then e - x else e + x)
  size.map fun f => Double.ofFloat (if l.negative then -f else f)

/-- The number that a literal stands for, if it is in range. -/
def number? (l : Literal) : Option Number :=
  if l.isInteger && !(l.negative && l.magnitude == 0) then
    if h : Fits l.value then some (.whole l.value h)
    else l.float?.map .float
  else l.float?.map .float

theorem number?_whole {l : Literal} (hi : l.isInteger = true)
    (hz : ¬ (l.negative = true ∧ l.magnitude = 0)) (h : Fits l.value) :
    l.number? = some (.whole l.value h) := by
  unfold number?
  rw [if_pos, dif_pos h]
  simp only [hi, Bool.true_and, Bool.not_eq_true', Bool.and_eq_false_iff]
  cases hn : l.negative with
  | false => exact .inl rfl
  | true => exact .inr (by simpa [hn] using hz)

theorem number?_eq_whole {l : Literal} {n : Int} {h} (hn : l.number? = some (.whole n h)) :
    l.isInteger = true ∧ ¬ (l.negative = true ∧ l.magnitude = 0) ∧ n = l.value := by
  unfold number? at hn
  split at hn
  · rename_i hc
    simp only [Bool.and_eq_true, Bool.not_eq_true'] at hc
    split at hn
    · simp only [Option.some.injEq, Number.whole.injEq] at hn
      refine ⟨hc.1, fun ⟨h₁, h₂⟩ => ?_, hn.symm⟩
      simp [h₁, h₂] at hc
    · simp at hn
  · simp at hn

end Literal
end LayeredCache.Json

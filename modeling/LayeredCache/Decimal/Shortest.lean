/-!
# Shortest decimals

The decimal with the fewest digits that lies in the interval of reals rounding to a given binary
fraction, and of those the one nearest to it. All arithmetic is exact, on natural numbers.

A value is `m * 2 ^ q`. In quarters of its last place it is `4 * m`; its neighbours' midpoints lie
two quarters off, and only one quarter below when `m` is the least mantissa of its binade. The
ends of the interval round to the value exactly when `m` is even.
-/

namespace LayeredCache.Decimal

/-- The number `digits * 10 ^ exponent`. -/
structure Scaled where
  digits : Nat
  exponent : Int
  deriving Repr, DecidableEq

/-- A binary fraction `mantissa * 2 ^ exponent`. -/
structure Binary where
  mantissa : Nat
  exponent : Int
  /-- The gap to the next lower value is half the gap to the next higher one. -/
  narrowBelow : Bool
  deriving Repr, DecidableEq

namespace Binary

/-- `k` quarters of the last place, as a fraction in natural numbers. -/
def quarters (b : Binary) (k : Nat) : Nat × Nat :=
  if 2 ≤ b.exponent then (k <<< (b.exponent - 2).toNat, 1)
  else (k, 1 <<< (2 - b.exponent).toNat)

/-- The fraction `f` in units of `10 ^ e`. -/
def inUnits (f : Nat × Nat) (e : Int) : Nat × Nat :=
  if 0 ≤ e then (f.1, f.2 * Nat.pow 10 e.toNat) else (f.1 * Nat.pow 10 (-e).toNat, f.2)

/-- The multiple `d` of `10 ^ e` rounds to `b`. -/
def roundsTo (b : Binary) (d : Nat) (e : Int) : Bool :=
  let low := inUnits (b.quarters (4 * b.mantissa - if b.narrowBelow then 1 else 2)) e
  let high := inUnits (b.quarters (4 * b.mantissa + 2)) e
  if b.mantissa % 2 = 0 then low.1 ≤ d * low.2 && d * high.2 ≤ high.1
  else low.1 < d * low.2 && d * high.2 < high.1

/-- The multiple of `10 ^ e` nearest to `b` that rounds to it, if any does. A value half way
between two goes to the even one. -/
def nearest? (b : Binary) (e : Int) : Option Nat :=
  let v := inUnits (b.quarters (4 * b.mantissa)) e
  let d := v.1 / v.2
  match b.roundsTo d e, b.roundsTo (d + 1) e with
  | true, false => some d
  | false, true => some (d + 1)
  | false, false => none
  | true, true =>
    if 2 * v.1 < (2 * d + 1) * v.2 then some d
    else if (2 * d + 1) * v.2 < 2 * v.1 then some (d + 1)
    else some (if d % 2 = 0 then d else d + 1)

/-- The number of digits before the decimal point: `10 ^ (places - 1) ≤ b < 10 ^ places`. -/
def places (b : Binary) : Int :=
  let f := inUnits (b.quarters (4 * b.mantissa)) (-400)
  ((Nat.toDigits 10 (f.1 / f.2)).length : Int) - 400

/-- Tries `n` digits, then one more, and so on, `tries` times. -/
def search (b : Binary) (n : Nat) : Nat → Scaled
  | 0 => ⟨0, 0⟩
  | tries + 1 =>
    let e := b.places - n
    match b.nearest? e with
    | some d => ⟨d, e⟩
    | none => search b (n + 1) tries

/-- The shortest decimal that rounds to `b`; seventeen digits always suffice. -/
def shortest (b : Binary) : Scaled := b.search 1 17

end Binary

namespace Scaled

/-- The digits without trailing zeros. -/
def significant (s : Scaled) : List Char :=
  ((Nat.toDigits 10 s.digits).reverse.dropWhile (· == '0')).reverse

/-- The exponent of the first digit. -/
def leading (s : Scaled) : Int :=
  (Nat.toDigits 10 s.digits).length - 1 + s.exponent

end Scaled
end LayeredCache.Decimal

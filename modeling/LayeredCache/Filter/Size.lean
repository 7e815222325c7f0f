/-!
# Sizing a membership filter

How many bits and hashes a filter needs for a number of items and a rate of false positives, by
the usual formulas in doubles: `-n ln p / (ln 2)^2` bits, rounded up to whole words of 64, and
`(bits / n) ln 2` hashes. The rate is kept between `1e-9` and one half.

The doubles are the machine's own. What is proved of sizes uses the order of doubles and a few of
their operations, and nothing of the logarithm.
-/

namespace LayeredCache.Filter

/-- The shape of a filter. -/
structure Size where
  words : Nat
  hashes : Nat
  deriving DecidableEq, Repr

namespace Size

/-- The natural logarithm of two. -/
def ln2 : Float := 0.693147180559945309417232121458

/-- `x` kept between two bounds; not-a-number stays. -/
def clamp (low high x : Float) : Float := if x < low then low else if high < x then high else x

/-- The greater of the two, where not-a-number counts as less. -/
def atLeast (low x : Float) : Float := if low < x then x else low

/-- The bits that the formula asks for, 64 at least. -/
def bitsFor (items : Nat) (rate : Float) : UInt64 :=
  let n := Float.ofNat (max items 1)
  let p := clamp 1e-9 0.5 rate
  (atLeast 64 (-(n * p.log) / (ln2 * ln2)).ceil).toUInt64

/-- The number of hashes that the formula gives, before it is rounded. -/
def hashesFor (bits : UInt64) (items : Nat) : Float :=
  bits.toFloat / Float.ofNat (max items 1) * ln2

/-- The whole number from 1 to 32 nearest to `x`, a half going up; zero for not-a-number. It is
found in halves: twice `x` is cut off, and the bounds may come first as they are whole. -/
def nearest (x : Float) : Nat := ((clamp 2 64 (x * 2)).toUInt64.toNat + 1) / 2

/-- The shape for `items` items at a rate of false positives. -/
def ofRate (items : Nat) (rate : Float) : Size :=
  let bits := bitsFor items rate
  ⟨(bits.toNat + 63) / 64, nearest (hashesFor bits items)⟩

/-- The number of bits. -/
def bits (s : Size) : Nat := 64 * s.words

end Size
end LayeredCache.Filter

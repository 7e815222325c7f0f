/-!
# White space

The characters with the Unicode property `White_Space`, and trimming by it.

Results:
* `trimStart_eq_self_iff`: trimming keeps exactly the texts that start with no blank.
-/

namespace LayeredCache.Text

/-- A character with the Unicode property `White_Space`. -/
def isBlank (c : Char) : Bool :=
  let n := c.toNat
  (9 ≤ n && n ≤ 13) || n == 0x20 || n == 0x85 || n == 0xA0 || n == 0x1680 ||
    (0x2000 ≤ n && n ≤ 0x200A) || n == 0x2028 || n == 0x2029 || n == 0x202F || n == 0x205F ||
    n == 0x3000

/-- The text without its leading blanks. -/
def trimStart (cs : List Char) : List Char := cs.dropWhile isBlank

/-- The text without its leading and trailing blanks. -/
def trim (cs : List Char) : List Char := (trimStart (trimStart cs).reverse).reverse

theorem trimStart_eq_self_iff {cs : List Char} :
    trimStart cs = cs ↔ ∀ c, cs.head? = some c → isBlank c = false := by
  cases cs with
  | nil => simp [trimStart]
  | cons c cs =>
    simp only [trimStart, List.dropWhile_cons, List.head?_cons, Option.some.injEq, forall_eq']
    cases hb : isBlank c with
    | false => simp
    | true =>
      simp only [if_true, Bool.true_eq_false, iff_false]
      intro h
      have hl : (cs.dropWhile isBlank).length ≤ cs.length :=
        (List.dropWhile_sublist isBlank).length_le
      rw [h, List.length_cons] at hl
      omega

end LayeredCache.Text

import SyntaxChart.Binary64
import SyntaxChart.Decimal.Numeral

/-!
# The nearest binary64 number

A decimal number becomes the nearest binary64 number, in exact arithmetic; of two that are equally
near, the one with the even last bit. A number from half a step above the greatest finite number
on is out of range.
-/

namespace SyntaxChart.Binary64

/-- The whole number nearest to `num / den`; a half goes to the even neighbour. -/
def roundHalfEven (num den : Nat) : Nat :=
  let quotient := num / den
  let twice := 2 * (num % den)
  if twice < den ∨ (twice = den ∧ quotient % 2 = 0) then quotient else quotient + 1

/-- The magnitude nearest to `num / den` units. Within one binade the magnitudes are `2 ^ s` units
apart; where rounding leaves the binade at its upper end, the sum carries into the next. -/
def nearestMagnitude (num den : Nat) : Nat :=
  let s := (num / den).log2 - 52
  s * binade + roundHalfEven num (den * Nat.pow 2 s)

/-- The magnitude nearest to `digits * 10 ^ exponent`. Exponents beyond the two bounds give the
same magnitude as the bound: above the upper one the number is out of range unless it is zero, and
below the lower one it is nearer to zero than to the least positive number. -/
def decimalMagnitude (digits : Nat) : Int → Nat
  | .ofNat n => nearestMagnitude (digits * Nat.pow 10 (min n 400) * Nat.pow 2 1074) 1
  | .negSucc n =>
    nearestMagnitude (digits * Nat.pow 2 1074) (Nat.pow 10 (min (n + 1) (digits.log2 + 1100)))

/-- The nearest binary64 number, or `none` if the number is out of range. The sign stays, also
where the result is zero. -/
def ofDecimal? (d : Decimal) : Option Binary64 :=
  let magnitude := decimalMagnitude d.digits d.exponent
  if h : magnitude < infinityMagnitude then
    some ⟨d.negative, magnitude, Nat.lt_trans h (by decide)⟩
  else
    none

/-- The finite number that a numeral stands for, or `none` for a text that is no numeral or is out
of range. -/
def ofNumeral? (text : String) : Option Binary64 :=
  (Decimal.ofNumeral? text.toList).bind ofDecimal?

end SyntaxChart.Binary64

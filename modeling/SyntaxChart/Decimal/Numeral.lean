import SyntaxChart.Decimal

/-!
# Numerals

The texts that write a decimal number: a sign if any, digits with a point among, before or behind
them, and an exponent if any. At least one digit stands outside the exponent, and at least one in it.
-/

namespace SyntaxChart.Decimal

/-- Takes a sign off the front and says whether it was a minus. -/
def splitSign : List Char → Bool × List Char
  | '-' :: cs => (true, cs)
  | '+' :: cs => (false, cs)
  | cs => (false, cs)

/-- Takes a point and the digits behind it off the front; gives the digits and the rest. -/
def splitFraction : List Char → List Char × List Char
  | '.' :: cs => (cs.takeWhile Char.isDigit, cs.dropWhile Char.isDigit)
  | cs => ([], cs)

/-- The value of a text that is a sign if any and digits. -/
def readInteger? (cs : List Char) : Option Int :=
  let (negative, ds) := splitSign cs
  if ds ≠ [] ∧ ds.all Char.isDigit then
    let n : Int := Nat.ofDigitChars 10 ds 0
    some (if negative then -n else n)
  else
    none

/-- The exponent that a numeral ends with; without one it is zero. -/
def readExponent? : List Char → Option Int
  | [] => some 0
  | c :: cs => if c = 'e' ∨ c = 'E' then readInteger? cs else none

/-- The number that a numeral writes, or `none` for any other text. -/
def ofNumeral? (cs : List Char) : Option Decimal :=
  let (negative, cs) := splitSign cs
  let whole := cs.takeWhile Char.isDigit
  let (fraction, cs) := splitFraction (cs.dropWhile Char.isDigit)
  if whole = [] ∧ fraction = [] then
    none
  else
    (readExponent? cs).map fun exponent =>
      ⟨negative, Nat.ofDigitChars 10 (whole ++ fraction) 0, exponent - fraction.length⟩

end SyntaxChart.Decimal

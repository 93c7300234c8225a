/-!
# Decimal numbers

A decimal number is a sign, a natural number of digits and a power of ten. Its positional text
has no exponent, no point without a digit behind it, and no final zero behind the point.
-/

namespace SyntaxChart

/-- The number `± digits * 10 ^ exponent`; zero has a sign too. -/
structure Decimal where
  negative : Bool
  digits : Nat
  exponent : Int
deriving DecidableEq

namespace Decimal

/-- The digits of `n`, with zeros in front up to `width` characters. -/
def paddedDigits (width n : Nat) : List Char :=
  List.replicate (width - (Nat.toDigits 10 n).length) '0' ++ Nat.toDigits 10 n

def dropFinalZeros (cs : List Char) : List Char :=
  (cs.reverse.dropWhile (· == '0')).reverse

/-- The point and the digits behind it, or nothing where there is no digit but zero. -/
def fractionText (places n : Nat) : List Char :=
  match dropFinalZeros (paddedDigits places n) with
  | [] => []
  | cs => '.' :: cs

/-- The text of `digits * 10 ^ exponent` without an exponent. -/
def magnitudeText (digits : Nat) : Int → List Char
  | .ofNat zeros => Nat.toDigits 10 (digits * Nat.pow 10 zeros)
  | .negSucc n =>
    Nat.toDigits 10 (digits / Nat.pow 10 (n + 1))
      ++ fractionText (n + 1) (digits % Nat.pow 10 (n + 1))

/-- The positional text: a minus sign if there is one, then the digits with their point. -/
def positional (d : Decimal) : List Char :=
  (if d.negative then ['-'] else []) ++ magnitudeText d.digits d.exponent

end Decimal

end SyntaxChart

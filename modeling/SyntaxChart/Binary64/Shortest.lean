import SyntaxChart.Binary64.Nearest

/-!
# The shortest decimal text

A finite binary64 number is written with the fewest digits that read back as it, and among those
with the nearest ones; of two that are equally near the greater absolute value is taken. The text is
positional, whatever the size of the number.
-/

namespace SyntaxChart.Binary64

/-- The number in units of `10 ^ (-1074)`, which divide every finite number. -/
def decimalUnits (x : Binary64) : Nat :=
  units x.magnitude * Nat.pow 5 1074

/-- Of the two neighbours of the number among the multiples of `10 ^ step` decimal units, the nearer
one that reads back as the number. -/
def onGrid? (x : Binary64) (step : Nat) : Option Decimal :=
  let low : Decimal := ⟨x.negative, x.decimalUnits / Nat.pow 10 step, (step : Int) - 1074⟩
  let high := { low with digits := low.digits + 1 }
  let lowNearer := decide (2 * (x.decimalUnits % Nat.pow 10 step) < Nat.pow 10 step)
  match decide (ofDecimal? low = some x), decide (ofDecimal? high = some x) with
  | true, true => some (if lowNearer then low else high)
  | true, false => some low
  | false, true => some high
  | false, false => none

/-- The shortest decimal that reads back as the number. Seventeen digits always suffice; were there
none among them, it would be the exact value. -/
def shortest (x : Binary64) : Decimal :=
  let length := (Nat.toDigits 10 x.decimalUnits).length
  ((List.range 17).findSome? fun n => x.onGrid? (length - (n + 1))).getD
    ⟨x.negative, x.decimalUnits, -1074⟩

/-- The text of a number; an infinity keeps its sign and what is not a number has none. -/
def text (x : Binary64) : String :=
  if x.IsFinite then
    String.ofList x.shortest.positional
  else if x.magnitude = infinityMagnitude then
    if x.negative then "-inf" else "inf"
  else
    "NaN"

end SyntaxChart.Binary64

/-!
# Binary64 numbers

The 64-bit binary floating-point numbers, as a sign and the 63 bits below it. Read as a natural
number these bits grow with the absolute value, so neighbouring numbers have neighbouring
magnitudes; infinity lies one above the greatest finite number, and every magnitude above infinity
is not a number.
-/

namespace SyntaxChart

/-- A 64-bit floating-point number: its sign bit and the 63 bits below. -/
structure Binary64 where
  negative : Bool
  magnitude : Nat
  magnitude_lt : magnitude < 0x8000000000000000
deriving DecidableEq

namespace Binary64

/-- The value of the sign bit, one above every magnitude. -/
abbrev signBit : Nat := 0x8000000000000000

/-- The number of magnitudes with the same exponent, `2 ^ 52`. -/
abbrev binade : Nat := 0x10000000000000

def ofBits (bits : UInt64) : Binary64 where
  negative := decide (signBit ≤ bits.toNat)
  magnitude := bits.toNat % signBit
  magnitude_lt := Nat.mod_lt _ (by decide)

def bits (x : Binary64) : UInt64 :=
  .ofNat ((if x.negative then signBit else 0) + x.magnitude)

/-- The magnitude of the two infinities: all exponent bits, no fraction bit. -/
abbrev infinityMagnitude : Nat := 0x7FF0000000000000

/-- Neither infinite nor not a number. -/
def IsFinite (x : Binary64) : Prop :=
  x.magnitude < infinityMagnitude

instance (x : Binary64) : Decidable x.IsFinite :=
  inferInstanceAs (Decidable (x.magnitude < infinityMagnitude))

/-- The absolute value that a finite magnitude stands for, counted in units of `2 ^ (-1074)`, the
least positive number. -/
def units (magnitude : Nat) : Nat :=
  if magnitude < binade then
    magnitude
  else
    (binade + magnitude % binade) * Nat.pow 2 (magnitude / binade - 1)

end Binary64

end SyntaxChart

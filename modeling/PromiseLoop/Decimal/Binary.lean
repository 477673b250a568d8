/-!
# Binary fractions

A finite nonzero double is `± m · 2 ^ q`.  This module takes the bits of a double apart and names
the interval of reals that round to it, which is all that printing needs: the text of a double is
decided by which short decimals fall into that interval.
-/

namespace PromiseLoop.Decimal

/-- A nonnegative binary fraction `significand * 2 ^ exponent` as a double stores it. -/
structure Binary where
  significand : Nat
  exponent : Int
  /-- Whether the next smaller double is only half as far away as the next larger one. -/
  narrowBelow : Bool
deriving DecidableEq, Repr

namespace Binary

/-- The field of the eleven exponent bits. -/
def exponentField (bits : UInt64) : Nat := bits.toNat / Nat.pow 2 52 % Nat.pow 2 11

/-- The field of the fifty-two fraction bits. -/
def fractionField (bits : UInt64) : Nat := bits.toNat % Nat.pow 2 52

/-- The magnitude that the bits of a finite double stand for.  An exponent field of zero marks a
subnormal number, which has no hidden leading bit. -/
def ofBits (bits : UInt64) : Binary :=
  if exponentField bits = 0 then
    { significand := fractionField bits, exponent := -1074, narrowBelow := false }
  else
    { significand := fractionField bits + Nat.pow 2 52
      exponent := exponentField bits - 1075
      narrowBelow := fractionField bits = 0 && exponentField bits ≠ 1 }

/-!
## The rounding interval

All three points are given in quarters of the last binary place, so that they are whole numbers.
-/

/-- The value itself, in quarters of the last place. -/
def quarters (b : Binary) : Nat := 4 * b.significand

/-- The lower end of the interval that rounds to the value, in quarters of the last place. -/
def lowerQuarters (b : Binary) : Nat :=
  4 * b.significand - (if b.narrowBelow then 1 else 2)

/-- The upper end of the interval that rounds to the value, in quarters of the last place. -/
def upperQuarters (b : Binary) : Nat := 4 * b.significand + 2

/-- Rounding goes to the even significand, so the ends belong to the interval of an even one. -/
def closed (b : Binary) : Bool := b.significand % 2 = 0

end Binary
end PromiseLoop.Decimal

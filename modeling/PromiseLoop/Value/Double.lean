import PromiseLoop.Decimal.Layout

/-!
# Doubles

An IEEE 754 double is kept as its bits, so that two doubles can be told apart exactly; the numeric
comparison, under which a NaN differs from itself and the two zeros agree, is `Double.equal`.

A double has two texts.  The *display* form never uses an exponent and shows no sign of a zero; the
*debug* form keeps `.0` behind whole numbers and the sign of zero, and goes over to an exponent
outside of `10 ^ -4 ≤ |x| < 10 ^ 16`.
-/

namespace PromiseLoop

/-- An IEEE 754 double, given by its bits. -/
structure Double where
  bits : UInt64
deriving DecidableEq, Repr, Inhabited

namespace Double

/-- The bits without the sign. -/
def magnitude (x : Double) : Nat := x.bits.toNat % Nat.pow 2 63

def isNegative (x : Double) : Bool := Nat.pow 2 63 ≤ x.bits.toNat

def isZero (x : Double) : Bool := x.magnitude = 0

/-- The magnitude of an infinity: all exponent bits set and no fraction. -/
def infiniteMagnitude : Nat := 0x7ff0000000000000

def isInfinite (x : Double) : Bool := x.magnitude = infiniteMagnitude

def isNaN (x : Double) : Bool := infiniteMagnitude < x.magnitude

/-- The numeric comparison: a NaN equals nothing, and the two zeros equal each other. -/
def equal (x y : Double) : Bool :=
  !x.isNaN && !y.isNaN && (x.bits = y.bits || (x.isZero && y.isZero))

/-- The one NaN that stands for all of them. -/
def quietNaN : Double := ⟨0x7ff8000000000000⟩

/-- The double with every NaN replaced by `quietNaN`. -/
def canonical (x : Double) : Double := if x.isNaN then quietNaN else x

/-! ## Texts -/

/-- Display never writes an exponent and keeps no trace of a fraction in a whole number. -/
def displayLayout : Decimal.Layout := { positional := fun _ => true, wholeSuffix := "" }

/-- Debug writes `.0` behind a whole number and an exponent for very large and small ones. -/
def debugLayout : Decimal.Layout :=
  { positional := fun e => -4 ≤ e && e < 16, wholeSuffix := ".0" }

/-- The text of the magnitude of a finite nonzero double. -/
def magnitudeText (x : Double) (l : Decimal.Layout) : String :=
  l.text (Decimal.Binary.ofBits (UInt64.ofNat x.magnitude)).shortest

def sign (x : Double) : String := if x.isNegative then "-" else ""

/-- The display form: both zeros are `0`. -/
def display (x : Double) : String :=
  if x.isNaN then "NaN"
  else if x.isInfinite then x.sign ++ "Infinity"
  else if x.isZero then "0"
  else x.sign ++ x.magnitudeText displayLayout

/-- The debug form. -/
def debug (x : Double) : String :=
  if x.isNaN then "NaN"
  else if x.isInfinite then x.sign ++ "inf"
  else if x.isZero then x.sign ++ "0.0"
  else x.sign ++ x.magnitudeText debugLayout

end Double

/-! ## How doubles look -/

example : (Double.mk 0x8000000000000000).display = "0" := by decide +kernel
example : (Double.mk 0x8000000000000000).debug = "-0.0" := by decide +kernel
example : (Double.mk 0x4059000000000000).debug = "100.0" := by decide +kernel
example : (Double.mk 0x444b1ae4d6e2ef50).display = "1000000000000000000000" := by decide +kernel
example : (Double.mk 0x444b1ae4d6e2ef50).debug = "1e21" := by decide +kernel
example : (Double.mk 0xbe8421f5f40d8376).debug = "-1.5e-7" := by decide +kernel

end PromiseLoop

import PromiseLoop.Decimal.Shortest

/-!
# Laying out decimals

How the digits of a number become text: with a point at its place (`0.001`, `1500`) or with an
exponent (`1.5e-7`).  A `Layout` holds the choices that a form of output makes.
-/

namespace PromiseLoop.Decimal

/-- The choices of one form of output. -/
structure Layout where
  /-- Exponents of the leading digit for which the number is written without an exponent part. -/
  positional : Int → Bool
  /-- What follows a number without fractional digits when it is written positionally. -/
  wholeSuffix : String

/-- The digits with a point at its place: the number is `0.ds` shifted by `point` places. -/
def positionalText (ds : String) (point : Int) (wholeSuffix : String) : String :=
  if point ≤ 0 then
    "0." ++ "".pushn '0' (-point).toNat ++ ds
  else if point.toNat < ds.length then
    String.ofList (ds.toList.take point.toNat) ++ "." ++ String.ofList (ds.toList.drop point.toNat)
  else
    ds ++ "".pushn '0' (point.toNat - ds.length) ++ wholeSuffix

/-- The first digit, the others behind a point, and the exponent of the first digit. -/
def scientificText (ds : String) (exponent : Int) : String :=
  let rest := String.ofList (ds.toList.drop 1)
  String.ofList (ds.toList.take 1) ++ (if rest.isEmpty then "" else "." ++ rest)
    ++ "e" ++ toString exponent

/-- The text of a positive decimal. -/
def Layout.text (l : Layout) (d : Digits) : String :=
  let ds := toString d.digits
  let point := ds.length + d.exponent
  if l.positional (point - 1) then positionalText ds point l.wholeSuffix
  else scientificText ds (point - 1)

end PromiseLoop.Decimal

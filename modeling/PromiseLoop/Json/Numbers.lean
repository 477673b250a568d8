import PromiseLoop.Json.Scan

/-!
# JSON numbers

Numbers are never wanted by a reader of this library, so they are only taken apart far enough to
find their end and to see whether they fit a double.  Passing over a number and refusing it differ
in one point: where the text ends in the middle of a number, passing over calls it malformed.
-/

namespace PromiseLoop.Json

def isDigit (c : Char) : Bool := '0' ≤ c && c ≤ '9'

/-- The parts of a number, without its sign. -/
structure NumberParts where
  whole : List Char
  fraction : List Char
  exponentIsNegative : Bool
  exponent : List Char
deriving DecidableEq, Repr, Inhabited

/-- The digits at the head of a text, of which there has to be one. -/
def digits (atEnd : ReadError) (cs : List Char) : Reading (List Char) :=
  match cs with
  | [] => .error atEnd
  | c :: _ => if isDigit c then .ok (cs.span isDigit) else .error .malformed

/-- The whole part: a zero stands alone. -/
def wholePart (atEnd : ReadError) (cs : List Char) : Reading (List Char) :=
  match cs with
  | '0' :: rest =>
    match rest with
    | c :: _ => if isDigit c then .error .malformed else .ok (['0'], rest)
    | [] => .ok (['0'], rest)
  | _ => digits atEnd cs

/-- The digits behind a point, if there is one. -/
def fractionPart (atEnd : ReadError) (cs : List Char) : Reading (List Char) :=
  match cs with
  | '.' :: rest => digits atEnd rest
  | _ => .ok ([], cs)

/-- The sign and the digits behind an `e`, if there is one. -/
def exponentPart (atEnd : ReadError) (cs : List Char) : Reading (Bool × List Char) :=
  match cs with
  | c :: rest =>
    if c = 'e' || c = 'E' then
      let signed := match rest with
        | '-' :: rest => (true, rest)
        | '+' :: rest => (false, rest)
        | _ => (false, rest)
      match digits atEnd signed.2 with
      | .ok (ds, rest) => .ok ((signed.1, ds), rest)
      | .error e => .error e
    else .ok ((false, []), cs)
  | [] => .ok ((false, []), cs)

/-- A number without its sign. -/
def numberParts (atEnd : ReadError) (cs : List Char) :
    Except ReadError (NumberParts × List Char) := do
  let (whole, cs) ← wholePart atEnd cs
  let (fraction, cs) ← fractionPart atEnd cs
  let ((negative, exponent), cs) ← exponentPart atEnd cs
  return ({ whole, fraction, exponentIsNegative := negative, exponent }, cs)

/-- Passes over a number, given without its sign. -/
def skipNumber (cs : List Char) : Except ReadError (List Char) :=
  (numberParts .malformed cs).map Prod.snd

/-! ## Size

A number is weighed as the double of its leading digits times the double of a power of ten.
-/

def digitValue (c : Char) : Nat := c.toNat - '0'.toNat

def decimalValue (ds : List Char) : Nat := ds.foldl (fun n c => n * 10 + digitValue c) 0

/-- Takes digits into a number for as long as it fits 64 bits, and counts the digits left over. -/
def takeDigits (n : Nat) : List Char → Nat × Nat
  | [] => (n, 0)
  | c :: cs =>
    if n * 10 + digitValue c < Nat.pow 2 64 then takeDigits (n * 10 + digitValue c) cs
    else (n, cs.length + 1)

/-- The nearest number of at most fifty-three binary digits; a tie goes to the even one. -/
def roundBinary (n : Nat) : Nat :=
  let unit := Nat.pow 2 (n.log2 - 52)
  let below := n / unit
  let rest := n % unit
  if unit < 2 * rest || (2 * rest = unit && below % 2 = 1) then (below + 1) * unit
  else below * unit

/-- Whether a number is too large for a double.  Only a narrow range of exponents is in doubt. -/
def NumberParts.tooLarge (p : NumberParts) : Bool :=
  let (significand, dropped) := takeDigits 0 (p.whole ++ p.fraction)
  let written : Int := if p.exponentIsNegative then -decimalValue p.exponent
    else decimalValue p.exponent
  let exponent := written + dropped - p.fraction.length
  if significand = 0 || exponent < 280 then false
  else if 308 < exponent then true
  else Nat.pow 2 1024 ≤ roundBinary (roundBinary significand * roundBinary (Nat.pow 10 exponent.toNat))

/-- What is wrong with a number, given without its sign, where something else was wanted. -/
def refuseNumber (cs : List Char) : ReadError :=
  match numberParts .ended cs with
  | .error e => e
  | .ok (p, _) => if p.tooLarge then .malformed else .mismatch

end PromiseLoop.Json

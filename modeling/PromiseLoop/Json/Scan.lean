/-!
# Scanning JSON text

The pieces that every reader of JSON text shares: the three ways in which reading fails, blanks
between tokens, and the three literal words.
-/

namespace PromiseLoop.Json

/-- Why a text was refused, decided at the first place where reading from left to right fails. -/
inductive ReadError
  /-- The text ends too early. -/
  | ended
  /-- The text is no JSON here. -/
  | malformed
  /-- The text is JSON so far, but not what was asked for. -/
  | mismatch
deriving DecidableEq, Repr, Inhabited

/-- The name of the class of an error. -/
def ReadError.name : ReadError → String
  | ended => "Eof"
  | malformed => "Syntax"
  | mismatch => "Data"

/-- What a reader gives: a result with the rest of the text, or an error. -/
abbrev Reading (α : Type) := Except ReadError (α × List Char)

/-- The blanks of JSON. -/
def isBlank (c : Char) : Bool := c = ' ' || c = '\n' || c = '\t' || c = '\r'

/-- The text behind its leading blanks. -/
def skipBlanks (cs : List Char) : List Char := cs.dropWhile isBlank

/-- Reads the remaining letters of a literal word. -/
def expectWord : List Char → List Char → Except ReadError (List Char)
  | [], cs => .ok cs
  | _ :: _, [] => .error .ended
  | w :: ws, c :: cs => if c = w then expectWord ws cs else .error .malformed

/-- The value of a hexadecimal digit. -/
def hexValue? (c : Char) : Option Nat :=
  if '0' ≤ c && c ≤ '9' then some (c.toNat - '0'.toNat)
  else if 'a' ≤ c && c ≤ 'f' then some (c.toNat - 'a'.toNat + 10)
  else if 'A' ≤ c && c ≤ 'F' then some (c.toNat - 'A'.toNat + 10)
  else none

/-- The code unit written by four hexadecimal digits. -/
def codeUnit? (a b c d : Char) : Option Nat := do
  let a ← hexValue? a
  let b ← hexValue? b
  let c ← hexValue? c
  let d ← hexValue? d
  return ((a * 16 + b) * 16 + c) * 16 + d

/-- What is wrong where fewer than four characters follow `\u`: the text ended, unless the
characters that are left fill four bytes, none of which can be the missing digits. -/
def shortEscape (cs : List Char) : ReadError :=
  if cs.foldl (fun n c => n + c.utf8Size) 0 < 4 then .ended else .malformed

end PromiseLoop.Json

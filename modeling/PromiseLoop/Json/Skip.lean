import PromiseLoop.Json.Numbers
import PromiseLoop.Json.Strings

/-!
# Passing over JSON values

`skipValue` finds the end of any JSON value, nested to any depth, and `refuse` says what is wrong
with a value that is not of the wanted kind.
-/

namespace PromiseLoop.Json

mutual

/-- Passes over one value and the blanks before it.  The fuel bounds the recursion, which takes two
steps for a character at most. -/
def skipValueWith : Nat → List Char → Except ReadError (List Char)
  | 0, _ => .error .malformed
  | fuel + 1, cs =>
    match skipBlanks cs with
    | [] => .error .ended
    | 'n' :: rest => expectWord ['u', 'l', 'l'] rest
    | 't' :: rest => expectWord ['r', 'u', 'e'] rest
    | 'f' :: rest => expectWord ['a', 'l', 's', 'e'] rest
    | '"' :: rest => skipString rest
    | '-' :: rest => skipNumber rest
    | '[' :: rest =>
      match skipBlanks rest with
      | [] => .error .ended
      | ']' :: rest => .ok rest
      | rest => skipItemsWith fuel rest
    | '\x7b' :: rest =>
      match skipBlanks rest with
      | [] => .error .ended
      | '\x7d' :: rest => .ok rest
      | rest => skipMembersWith fuel rest
    | c :: rest => if isDigit c then skipNumber (c :: rest) else .error .malformed

/-- Passes over the items of an array that has at least one, and its closing bracket. -/
def skipItemsWith : Nat → List Char → Except ReadError (List Char)
  | 0, _ => .error .malformed
  | fuel + 1, cs => do
    let cs ← skipValueWith fuel cs
    match skipBlanks cs with
    | [] => .error .ended
    | ']' :: rest => .ok rest
    | ',' :: rest => skipItemsWith fuel rest
    | _ => .error .malformed

/-- Passes over the members of an object that has at least one, and its closing brace. -/
def skipMembersWith : Nat → List Char → Except ReadError (List Char)
  | 0, _ => .error .malformed
  | fuel + 1, cs =>
    match skipBlanks cs with
    | [] => .error .ended
    | '"' :: rest => do
      let cs ← skipString rest
      match skipBlanks cs with
      | [] => .error .ended
      | ':' :: rest => do
        let cs ← skipValueWith fuel rest
        match skipBlanks cs with
        | [] => .error .ended
        | '\x7d' :: rest => .ok rest
        | ',' :: rest => skipMembersWith fuel rest
        | _ => .error .malformed
      | _ => .error .malformed
    | _ => .error .malformed

end

/-- Passes over one value and the blanks before it. -/
def skipValue (cs : List Char) : Except ReadError (List Char) :=
  skipValueWith (2 * cs.length + 1) cs

/-- What is wrong with the value at the head of a text where a value of another kind was wanted.
Words, strings and numbers are read to their end first; arrays and objects are refused at once. -/
def refuse (cs : List Char) : ReadError :=
  match cs with
  | [] => .ended
  | 'n' :: rest => afterWord (expectWord ['u', 'l', 'l'] rest)
  | 't' :: rest => afterWord (expectWord ['r', 'u', 'e'] rest)
  | 'f' :: rest => afterWord (expectWord ['a', 'l', 's', 'e'] rest)
  | '"' :: rest =>
    match readString rest with
    | .error e => e
    | .ok _ => .mismatch
  | '-' :: rest => refuseNumber rest
  | '[' :: _ => .mismatch
  | '\x7b' :: _ => .mismatch
  | c :: rest => if isDigit c then refuseNumber (c :: rest) else .malformed
where
  afterWord : Except ReadError (List Char) → ReadError
    | .error e => e
    | .ok _ => .mismatch

end PromiseLoop.Json

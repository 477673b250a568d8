import PromiseLoop.Config.Basic
import PromiseLoop.Json.Skip

/-!
# Reading configurations

A configuration is written as an object with its settings as members, or as an array with the
settings in their order.  Missing settings keep their defaults.  An object may have members of
other names, whose values are passed over; a setting named twice is refused.
-/

namespace PromiseLoop.Config

open Json

/-- The settings read so far. -/
structure Found where
  trackUnhandledRejections : Option Bool := none
  collectAtCheckpoint : Option Bool := none
  workerThreadName : Option String := none
deriving DecidableEq, Repr, Inhabited

namespace Found

/-- Whether a setting has been read. -/
def has (f : Found) : Key → Bool
  | .trackUnhandledRejections => f.trackUnhandledRejections.isSome
  | .collectAtCheckpoint => f.collectAtCheckpoint.isSome
  | .workerThreadName => f.workerThreadName.isSome

/-- The configuration with the defaults for what was not read. -/
def complete (f : Found) : Config :=
  { trackUnhandledRejections :=
      f.trackUnhandledRejections.getD Config.default.trackUnhandledRejections
    collectAtCheckpoint := f.collectAtCheckpoint.getD Config.default.collectAtCheckpoint
    workerThreadName := f.workerThreadName.getD Config.default.workerThreadName }

end Found

/-- Reads a truth value and the blanks before it. -/
def readFlag (cs : List Char) : Reading Bool :=
  match skipBlanks cs with
  | 't' :: rest => (expectWord ['r', 'u', 'e'] rest).map (fun rest => (true, rest))
  | 'f' :: rest => (expectWord ['a', 'l', 's', 'e'] rest).map (fun rest => (false, rest))
  | other => .error (refuse other)

/-- Reads a string and the blanks before it. -/
def readText (cs : List Char) : Reading String :=
  match skipBlanks cs with
  | '"' :: rest => (readString rest).map (fun r => (String.ofList r.1, r.2))
  | other => .error (refuse other)

/-- Reads the value of a setting. -/
def readSetting (f : Found) (k : Key) (cs : List Char) : Reading Found :=
  match k with
  | .trackUnhandledRejections =>
    (readFlag cs).map (fun r => ({ f with trackUnhandledRejections := some r.1 }, r.2))
  | .collectAtCheckpoint =>
    (readFlag cs).map (fun r => ({ f with collectAtCheckpoint := some r.1 }, r.2))
  | .workerThreadName =>
    (readText cs).map (fun r => ({ f with workerThreadName := some r.1 }, r.2))

/-- Reads the colon of a member and the blanks before it. -/
def readColon (cs : List Char) : Except ReadError (List Char) :=
  match skipBlanks cs with
  | [] => .error .ended
  | ':' :: rest => .ok rest
  | _ => .error .malformed

/-- Reads a member from the first character of its key. -/
def readMember (f : Found) (cs : List Char) : Except ReadError (Found × List Char) := do
  let (key, cs) ← readString cs
  match Key.ofName? (String.ofList key) with
  | some k =>
    -- the second naming of a setting is refused before its value is looked at
    if f.has k then .error .mismatch
    else readSetting f k (← readColon cs)
  | none => return (f, ← skipValue (← readColon cs))

/-- Reads the members of an object up to its closing brace, from the first key on.  Every member
takes at least one character, so the length of the text is enough fuel. -/
def readMembers : Nat → Found → List Char → Except ReadError (Found × List Char)
  | 0, _, _ => .error .malformed
  | fuel + 1, f, cs => do
    let (f, cs) ← readMember f cs
    match skipBlanks cs with
    | [] => .error .ended
    | '\x7d' :: rest => .ok (f, rest)
    | ',' :: rest =>
      match skipBlanks rest with
      | [] => .error .ended
      | '"' :: rest => readMembers fuel f rest
      | _ => .error .malformed
    | _ => .error .malformed

/-- Reads an object behind its opening brace. -/
def readObject (cs : List Char) : Reading Found :=
  match skipBlanks cs with
  | [] => .error .ended
  | '\x7d' :: rest => .ok ({}, rest)
  | '"' :: rest => readMembers (rest.length + 1) {} rest
  | _ => .error .malformed

/-- Reads the closing bracket of an array that has all its items. -/
def readEnd (f : Found) (cs : List Char) : Reading Found :=
  match skipBlanks cs with
  | [] => .error .ended
  | ']' :: rest => .ok (f, rest)
  | _ => .error .malformed

/-- Reads the items of an array for the given settings, each behind a comma. -/
def readItems : List Key → Found → List Char → Except ReadError (Found × List Char)
  | [], f, cs => readEnd f cs
  | k :: ks, f, cs =>
    match skipBlanks cs with
    | [] => .error .ended
    | ']' :: rest => .ok (f, rest)
    | ',' :: rest =>
      match skipBlanks rest with
      | [] => .error .ended
      | ']' :: _ => .error .malformed
      | rest => do
        let (f, cs) ← readSetting f k rest
        readItems ks f cs
    | _ => .error .malformed

/-- Reads an array behind its opening bracket.  The first item has no comma before it. -/
def readArray (cs : List Char) : Except ReadError (Found × List Char) :=
  match skipBlanks cs with
  | [] => .error .ended
  | ']' :: rest => .ok ({}, rest)
  | rest => do
    let (f, cs) ← readSetting {} .trackUnhandledRejections rest
    readItems [.collectAtCheckpoint, .workerThreadName] f cs

/-- Reads a configuration that makes up the whole text. -/
def read (text : String) : Except ReadError Config := do
  let (f, cs) ← match skipBlanks text.toList with
    | [] => .error .ended
    | '\x7b' :: rest => readObject rest
    | '[' :: rest => readArray rest
    | other => .error (refuse other)
  match skipBlanks cs with
  | [] => return f.complete
  | _ => .error .malformed

end PromiseLoop.Config

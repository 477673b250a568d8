import PromiseLoop.Promise.Id

/-!
# Callables

What a script can call: a routine it defined itself, one of the two functions that settle a promise
from outside, or one of the two promise methods of a loop.  A routine holds no values.  A resolver
holds its promise, so handing one around keeps the promise alive.
-/

namespace PromiseLoop

/-- The two sides of a settlement. -/
inductive Side
  | fulfill
  | reject
deriving DecidableEq, Repr, Inhabited

/-- The name of a side as texts show it. -/
def Side.name : Side → String
  | .fulfill => "Fulfill"
  | .reject => "Reject"

/-- What makes the two resolving functions of a promise one-shot. -/
inductive Guard
  /-- The lock of the promise record, shared with every other way to resolve the promise. -/
  | lock
  /-- A flag of this pair alone.  The record has been locked by whoever started the adoption. -/
  | flag (number : Nat)
deriving DecidableEq, Repr, Inhabited

/-- One of the two functions that settle a promise from outside. -/
structure Resolver where
  promise : Promise
  guard : Guard
  side : Side
deriving DecidableEq, Repr, Inhabited

/-- The promise methods that every loop provides. -/
inductive Method
  | then_
  | catch_
deriving DecidableEq, Repr, Inhabited

/-- The name under which scripts find a method. -/
def Method.name : Method → String
  | .then_ => "then"
  | .catch_ => "catch"

/-- The method of a given name. -/
def Method.ofName? (s : String) : Option Method :=
  [Method.then_, Method.catch_].find? (fun m => m.name = s)

/-- A function value.  Two functions are the same exactly if they are equal here. -/
inductive Callable
  | routine (number : Nat) (name : String)
  | resolver (r : Resolver)
  | method (home : LoopId) (m : Method)
deriving DecidableEq, Repr, Inhabited

namespace Callable

/-- The name of a function, used in messages. -/
def name : Callable → String
  | routine _ name => name
  | resolver r => match r.side with
    | .fulfill => "resolve"
    | .reject => "reject"
  | method _ m => m.name

/-- The text of a function value: its body is never shown. -/
def display (f : Callable) : String := "function " ++ f.name ++ "() \x7b [native code] \x7d"

end Callable
end PromiseLoop

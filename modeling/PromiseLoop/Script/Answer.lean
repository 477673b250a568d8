import PromiseLoop.Config.Basic
import PromiseLoop.Fault
import PromiseLoop.Promise.Record
import PromiseLoop.Value.Inspection

/-!
# Answers

What a script run shows of itself.  An answer outlives the values it speaks of, so it shows a
reference by the names of the variables that hold it at that time and is itself no handle.
-/

namespace PromiseLoop

/-- A value as an answer shows it. -/
inductive Shown
  | undefined
  | null
  | boolean (b : Bool)
  | small (n : Int32)
  | double (x : Double)
  | text (s : String)
  | big (n : Int)
  | error (e : ErrorValue)
  | object (holders : List String)
  | function (name : String) (holders : List String)
  | promise (holders : List String)
  | native (holders : List String)
deriving DecidableEq, Repr, Inhabited

/-- Shows a value, given the names of the variables that hold it. -/
def Value.shown (holders : Value → List String) (v : Value) : Shown :=
  match v with
  | .undefined => .undefined
  | .null => .null
  | .boolean b => .boolean b
  | .small n => .small n
  | .double x => .double x.canonical
  | .text s => .text s
  | .big n => .big n
  | .error e => .error e
  | .object _ => .object (holders v)
  | .function f => .function f.name (holders v)
  | .promise _ => .promise (holders v)
  | .native _ => .native (holders v)

/-- An event of a rejection log as an answer shows it. -/
inductive ShownEvent
  | unhandled (id : PromiseId) (reason : Shown)
  | handled (id : PromiseId)
deriving DecidableEq, Repr, Inhabited

/-- The sizes of the parts of a loop. -/
structure Counts where
  tasksEmpty : Bool
  microtasksEmpty : Bool
  microtasks : Nat
  background : Nat
  workers : Nat
deriving DecidableEq, Repr, Inhabited

/-- What a question of a script finds. -/
inductive Finding
  | nothing
  | flag (b : Bool)
  | text (s : String)
  | number (n : Nat)
  | texts (xs : List String)
  | numbers (ns : List Nat)
  | values (xs : List Shown)
  | inspection (i : Inspection)
  | settings (c : Config)
  | promise (state : State) (result : Option Shown) (handled : Bool)
  | counts (c : Counts)
  | events (es : List ShownEvent)
deriving DecidableEq, Repr, Inhabited

/-- How a step ended, as the answer shows it. -/
inductive Answer
  | done
  | value (x : Shown)
  | found (x : Finding)
  | thrown (x : Shown)
  | fault (f : Fault)
deriving DecidableEq, Repr, Inhabited

/-- A line of the trace. -/
inductive Entry
  /-- A step of a body ended. -/
  | step (word : String) (answer : Answer)
  /-- A function was called. -/
  | call (name : String) (this : Shown) (arguments : List Shown)
  | task (label : String)
  | microtask (label : String)
  | log (x : Shown)
  /-- The console was warned of a rejection that nobody handles. -/
  | warning (id : PromiseId) (reason : String)
  /-- The console was told that a reported rejection got its handler. -/
  | notice (id : PromiseId)
deriving DecidableEq, Repr, Inhabited

end PromiseLoop

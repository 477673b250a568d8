import PromiseLoop.Loop.Basic

/-!
# Frames

A machine runs scripts and loops in small steps.  Whatever has been begun and waits for something
else to end is a frame on its stack, so that a handler, a getter or an initializer can re-enter any
loop at any time.  A frame holds the values that its activity still needs; they are let go when it
ends.
-/

namespace PromiseLoop

/-- How an activity ended. -/
inductive Signal
  | done
  | value (v : Value)
  | thrown (v : Value)
  | fault (f : Fault)
  /-- A collection ended that freed this many records. -/
  | freed (count : Nat)
deriving DecidableEq, Repr, Inhabited

namespace Signal

/-- The value that a signal carries. -/
def held : Signal → List Value
  | value v => [v]
  | thrown v => [v]
  | _ => []

/-- Whether a signal ends a body, unless it is caught. -/
def isFailure : Signal → Bool
  | thrown _ => true
  | fault _ => true
  | _ => false

end Signal

/-- What has to be known about a command until it ends. -/
structure CommandInfo where
  word : String
  store : Option String
  catches : Bool
  /-- A control command shows no value. -/
  isControl : Bool
  /-- The loop that the command works on. -/
  loop : Option LoopId := none
deriving DecidableEq, Repr, Inhabited

/-- A control command that was given to the machine itself. -/
def CommandInfo.control : CommandInfo :=
  { word := "", store := none, catches := false, isControl := true }

/-- How far a collection has come. -/
structure Sweep where
  /-- The ids it still has to look at. -/
  pending : List PromiseId := []
  /-- The number of records freed so far. -/
  count : Nat := 0
  /-- Whether a checkpoint ends with it. -/
  closes : Bool
deriving DecidableEq, Repr, Inhabited

/-- An activity that waits for another one to end. -/
inductive Frame
  -- scripts
  /-- The commands of a body that are still to run. -/
  | block (rest : List Command)
  /-- A loop in its given round, with the number of rounds after this one. -/
  | rounds (body : List Command) (round remaining : Nat) (quiet : Bool)
  /-- A command with the operands it keeps until it ends. -/
  | command (info : CommandInfo) (operands : List Value)
  /-- The call of a routine. -/
  | call (this : Value) (arguments : List Value) (quiet : Bool)
  /-- A task or microtask of the host. -/
  | work (quiet : Bool)
  -- calls
  /-- Lets values go when the activity above ends, and passes its signal on. -/
  | hold (values : List Value)
  /-- Lets go of whatever the activity above gives, then of values, and ends with nothing. -/
  | discard (values : List Value)
  /-- As `hold`, but gives `v` where the activity above gives nothing. -/
  | give (v : Value) (values : List Value)
  /-- As `hold`, but shows a fault to the script as a thrown error. -/
  | surface (values : List Value)
  /-- Keeps a member that was read only if it is a function. -/
  | functionOnly
  /-- Calls the function that is being read off a value in that value's place. -/
  | substitute (this : Value) (arguments : List Value)
  -- promises
  /-- Resolving a promise, while its value is asked for a `then`. -/
  | resolving (promise : Promise) (v : Value)
  /-- A reaction whose handler runs. -/
  | reacting (handler : Value) (derived : Promise)
  /-- The adoption of a thenable, while its `then` runs. -/
  | adopting (promise : Promise) (resolver thenFunction : Value)
  /-- The construction of a promise, while its initializer runs. -/
  | constructing (promise : Promise)
  /-- A registration, while the tracker hears that it came late. -/
  | attaching (derived : Promise) (job : Option Job)
  -- turns of a loop
  | draining (loop : LoopId)
  /-- A checkpoint in its drain. -/
  | checkpoint (loop : LoopId)
  /-- A checkpoint with the reports it has still to make. -/
  | reporting (loop : LoopId) (reports : List (PromiseId × Value))
  /-- A collection, while the tracker hears of the record that has just been freed. -/
  | collecting (loop : LoopId) (sweep : Sweep) (record : Record)
  /-- A cycle in its task. -/
  | cycling (loop : LoopId)
  /-- Running until idle, in one of the cycles. -/
  | idling (loop : LoopId)
  /-- Running until done, in one of its runs until idle. -/
  | finishing (loop : LoopId)
  /-- Running until idle, after which the oldest waiting worker is let go. -/
  | concluding (loop : LoopId)
deriving Inhabited

namespace Frame

/-- The values that a frame holds, in the order in which it lets them go. -/
def held : Frame → List Value
  | command _ operands => operands
  | call this arguments _ => this :: arguments
  | hold values => values
  | discard values => values
  | give v values => v :: values
  | surface values => values
  | substitute this arguments => arguments ++ [this]
  | resolving p v => [v, .promise p]
  | reacting handler derived => [handler, .promise derived]
  | adopting p resolver thenFunction => [resolver, thenFunction, .promise p]
  | constructing p => [.promise p]
  | attaching derived job => .promise derived :: (job.map Job.held).getD []
  | reporting _ reports => reports.map Prod.snd
  | collecting _ _ record => record.held
  | block _ | rounds .. | work _ | functionOnly | draining _ | checkpoint _ | cycling _
  | idling _ | finishing _ | concluding _ => []

/-- The loop that a frame keeps alive. -/
def loop? : Frame → Option LoopId
  | command info _ => info.loop
  | draining l => some l
  | checkpoint l => some l
  | reporting l _ => some l
  | collecting l _ _ => some l
  | cycling l => some l
  | idling l => some l
  | finishing l => some l
  | concluding l => some l
  | resolving p _ => some p.home
  | reacting _ derived => some derived.home
  | adopting p _ _ => some p.home
  | constructing p => some p.home
  | attaching derived _ => some derived.home
  | _ => none

/-- Whether nothing is traced while a frame is on the stack. -/
def isQuiet : Frame → Bool
  | rounds _ _ _ quiet => quiet
  | call _ _ quiet => quiet
  | work quiet => quiet
  | _ => false

end Frame
end PromiseLoop

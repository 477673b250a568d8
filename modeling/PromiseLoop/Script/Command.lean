import PromiseLoop.Config.Basic
import PromiseLoop.Script.Operand

/-!
# The script language

A script is a list of commands.  The bodies of functions, tasks and microtasks are lists of
commands too.

Control commands (`ret`, `raise`, `fail`, `branch`, `loop`) steer a body.  Every other command is
a step, which may store its value in a variable and may catch its own failure.
-/

namespace PromiseLoop

/-- What a unit of background work will report.  Operands are looked up when the report is
applied. -/
inductive WorkResult
  | success (x : Operand)
  | failure (x : Operand)
  /-- A success with the name of the thread that did the work. -/
  | threadName
  /-- The work broke off without a result. -/
  | abandoned
deriving DecidableEq, Repr, Inhabited

/-- Who is told about rejections that nobody handles. -/
inductive Tracker
  /-- A log that records every event. -/
  | log
  /-- The console: each event is one line of the trace. -/
  | console
  /-- The functions in the variables `onUnhandled` and, if `late` is set, `onHandled`. -/
  | callbacks (late : Bool)
deriving DecidableEq, Repr, Inhabited

/-- The bridges a script can give a loop. -/
inductive BridgeChoice
  | native
  | counting
  | custom
deriving DecidableEq, Repr, Inhabited

mutual

/-- A command of a script or a body. -/
inductive Command
  /-- A step, the variable that takes its value, and whether a failure is caught. -/
  | step (s : Step) (store : Option String) (catches : Bool)
  | ret (x : Operand)
  | raise (x : Operand)
  | fail (message : String)
  | branch (condition : Operand) (yes no : List Command)
  | loop (count : Nat) (body : List Command) (quiet : Bool)

/-- What a step does. -/
inductive Step
  | ask (q : Query)
  -- values
  | give (x : Operand)
  | drop (names : List String)
  | log (x : Operand)
  | routine (name : String) (body : List Command) (quiet : Bool)
  | native
  | object (properties : List (String × Operand))
  | set (object : Operand) (key : String) (x : Operand)
  | get (object : Operand) (key : String)
  | getter (object : Operand) (key : String) (function : Operand)
  | add (a b : Operand)
  | cycleError
  | invoke (function on : Operand) (arguments : List Operand)
  /-- Asks a value for its `then` as the native bridge does. -/
  | probeNatively (x : Operand)
  -- loops
  | openLoop (name : String) (config : Config) (tracker : Tracker) (bridge : BridgeChoice)
  | dropLoop (name : String)
  | newPromise (loop : String)
  | resolve (loop : String) (promise x : Operand)
  | reject (loop : String) (promise x : Operand)
  | construct (loop : String) (initializer : Operand)
  | promiseResolve (loop : String) (x : Operand)
  | promiseReject (loop : String) (x : Operand)
  /-- Registers handlers; without a fulfill handler this is also how `catch` is meant. -/
  | attach (word : Method) (loop : String) (promise : Operand)
      (onFulfilled onRejected : Option Operand)
  | method (loop : String) (m : Method)
  | callMethod (loop : String) (name : String) (on : Operand) (arguments : List Operand)
  /-- Asks a value for its `then` as a loop does. -/
  | probe (loop : String) (x : Operand)
  | task (loop : String) (label : String) (body : List Command) (quiet : Bool)
  | microtask (loop : String) (label : String) (body : List Command) (quiet : Bool)
  | drain (loop : String)
  | checkpoint (loop : String)
  | cycle (loop : String)
  | idle (loop : String)
  | done (loop : String)
  | collect (loop : String)
  -- background work
  | completer (loop : String) (name : String)
  | dropCompleter (name : String)
  | complete (name : String) (result : WorkResult)
  | spawn (loop : String) (result : WorkResult) (now : Bool)
  | finish (loop : String)

end

instance : Inhabited Step := ⟨.native⟩
instance : Inhabited Command := ⟨.fail ""⟩

/-- The word by which scripts write a step. -/
def Step.word : Step → String
  | ask q => q.word
  | give .. => "let"
  | drop .. => "drop"
  | log .. => "log"
  | routine .. => "func"
  | native => "native"
  | object .. => "object"
  | set .. => "set"
  | get .. => "get"
  | getter .. => "getter"
  | add .. => "add"
  | cycleError => "cycle_error"
  | invoke .. => "invoke"
  | probeNatively .. => "native_then"
  | openLoop .. => "loop"
  | dropLoop .. => "drop_loop"
  | newPromise .. => "new"
  | resolve .. => "resolve"
  | reject .. => "reject"
  | construct .. => "construct"
  | promiseResolve .. => "promise_resolve"
  | promiseReject .. => "promise_reject"
  | attach m .. => m.name
  | method _ .then_ => "then_fn"
  | method _ .catch_ => "catch_fn"
  | callMethod .. => "method"
  | probe .. => "then_cap"
  | task .. => "task"
  | microtask .. => "microtask"
  | drain .. => "micro"
  | checkpoint .. => "checkpoint"
  | cycle .. => "cycle"
  | idle .. => "idle"
  | done .. => "done"
  | collect .. => "collect"
  | completer .. => "completer"
  | dropCompleter .. => "drop_completer"
  | complete .. => "complete"
  | spawn .. => "spawn"
  | finish .. => "finish"

end PromiseLoop

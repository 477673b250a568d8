import PromiseLoop.Loop.Background
import PromiseLoop.Loop.Diagnostics
import PromiseLoop.Loop.Settlement
import PromiseLoop.Machine.Frame
import PromiseLoop.Script.Answer
import PromiseLoop.Script.Variables

/-!
# Machines

A machine is everything that a script run consists of: the loops, the objects, the variables, and
the stack of begun activities.  Its control says what happens next: a function is called, an
activity signals its end to the frame below, or the machine is idle and waits for a command.
-/

namespace PromiseLoop

/-- The body of a routine. -/
structure Routine where
  body : List Command
  quiet : Bool
deriving Inhabited

/-- The sending half of the promise of background work. -/
structure Completer where
  loop : LoopId
  promise : PromiseId
deriving DecidableEq, Repr, Inhabited

/-- A pair of one-shot functions: the promise that it settles, and whether one of the two has been
called.  The pair itself is no handle; the functions are. -/
structure Pair where
  promise : Promise
  fired : Bool := false
deriving DecidableEq, Repr, Inhabited

/-- What a machine does next. -/
inductive Control
  | call (f : Callable) (this : Value) (arguments : List Value)
  | signal (s : Signal)
  /-- A collection looks at the next record. -/
  | collect (loop : LoopId) (s : Sweep)
  /-- The last command ended with this answer. -/
  | idle (answer : Answer)
deriving Inhabited

/-- The values that the control holds. -/
def Control.held : Control → List Value
  | .call f this arguments => .function f :: this :: arguments
  | .signal s => s.held
  | .collect _ _ => []
  | .idle _ => []

/-- The loop that the control keeps alive. -/
def Control.loop? : Control → Option LoopId
  | .collect loop _ => some loop
  | _ => none

/-- The state of a script run. -/
structure Machine where
  /-- The loops by number.  A loop that is gone leaves its place empty. -/
  loops : List (Option Loop) := []
  /-- The loops that the script has under a name. -/
  names : List (String × LoopId) := []
  /-- The last loop created under each name. -/
  created : List (String × LoopId) := []
  vars : Variables := .empty
  completers : List (String × Completer) := []
  routines : List Routine := []
  /-- The objects with their properties, newest first. -/
  objects : List (ObjectId × Properties) := []
  nextObject : Nat := 0
  nextNative : Nat := 0
  /-- The one-shot pairs by number. -/
  pairs : List Pair := []
  /-- What has been traced since the last command began, newest first. -/
  trace : List Entry := []
  stack : List Frame := []
  control : Control := .idle .done
deriving Inhabited

namespace Machine

/-! ## Loops -/

def loop? (m : Machine) (id : LoopId) : Option Loop := (m.loops[id.number]?).join

/-- Changes a loop, if it is alive. -/
def modifyLoop (m : Machine) (id : LoopId) (f : Loop → Loop) : Machine :=
  { m with loops := m.loops.modify id.number (Option.map f) }

/-- Puts a loop back in its place. -/
def setLoop (m : Machine) (l : Loop) : Machine := m.modifyLoop l.id fun _ => l

@[simp] theorem loop?_modifyLoop_self (m : Machine) (id : LoopId) (f : Loop → Loop) :
    (m.modifyLoop id f).loop? id = (m.loop? id).map f := by
  simp only [loop?, modifyLoop, List.getElem?_modify, if_true]
  cases m.loops[id.number]? with
  | none => rfl
  | some l => cases l <;> rfl

theorem loop?_modifyLoop_of_ne (m : Machine) {id other : LoopId} (h : id ≠ other)
    (f : Loop → Loop) : (m.modifyLoop id f).loop? other = m.loop? other := by
  have hn : id.number ≠ other.number := fun e => h (by cases id; cases other; simp_all)
  simp [loop?, modifyLoop, hn]

theorem loop?_setLoop {m : Machine} {l k : Loop} (h : m.loop? l.id = some k) :
    (m.setLoop l).loop? l.id = some l := by
  simp [setLoop, h]

/-- The loop of a given name. -/
def named? (m : Machine) (name : String) : Option LoopId :=
  (m.names.find? fun e => e.1 = name).map Prod.snd

/-- The bridges that scripts can choose. -/
def bridgeOf : BridgeChoice → Bridge
  | .native => .native
  | .counting => .counting
  | .custom => .custom

/-- Creates a loop under a name.  A loop that had the name loses it. -/
def openLoop (m : Machine) (name : String) (config : Config) (tracker : Tracker)
    (bridge : Bridge) : Machine :=
  let id : LoopId := ⟨m.loops.length⟩
  { m with
    loops := m.loops ++ [some { id, config, tracker, bridge }]
    names := (name, id) :: m.names.filter fun e => e.1 ≠ name
    created := (name, id) :: m.created.filter fun e => e.1 ≠ name }

/-! ## Objects, routines and pairs -/

/-- The properties of an object. -/
def properties (m : Machine) (o : ObjectId) : Properties :=
  ((m.objects.find? fun e => e.1 = o).map Prod.snd).getD .empty

/-- Puts a property on an object. -/
def putProperty (m : Machine) (o : ObjectId) (key : String) (p : Property) : Machine :=
  { m with objects := m.objects.map fun e => if e.1 = o then (e.1, e.2.put key p) else e }

/-- Creates an object. -/
def newObject (m : Machine) (ps : Properties) : ObjectId × Machine :=
  let o : ObjectId := ⟨m.nextObject⟩
  (o, { m with objects := (o, ps) :: m.objects, nextObject := m.nextObject + 1 })

/-- Registers the body of a new routine. -/
def newRoutine (m : Machine) (name : String) (r : Routine) : Callable × Machine :=
  (.routine m.routines.length name, { m with routines := m.routines ++ [r] })

/-- Creates a native object. -/
def newNative (m : Machine) : Value × Machine :=
  (.native m.nextNative, { m with nextNative := m.nextNative + 1 })

/-- Makes a fresh one-shot pair for a promise. -/
def newPair (m : Machine) (p : Promise) : Guard × Machine :=
  (.flag m.pairs.length, { m with pairs := m.pairs ++ [{ promise := p }] })

/-! ## Control -/

def signal (m : Machine) (s : Signal) : Machine := { m with control := .signal s }

def push (m : Machine) (f : Frame) : Machine := { m with stack := f :: m.stack }

/-- Whether nothing is traced at present. -/
def isQuiet (m : Machine) : Bool := m.stack.any Frame.isQuiet

/-- Adds a line to the trace, unless a quiet activity is running. -/
def traceEntry (m : Machine) (e : Entry) : Machine :=
  if m.isQuiet then m else { m with trace := e :: m.trace }

/-- A value as an answer shows it now. -/
def shown (m : Machine) (v : Value) : Shown := v.shown m.vars.holders

/-! ## Operands -/

/-- The receiver and the arguments of the running body.  Work of the host has none. -/
def scope (m : Machine) : Value × List Value :=
  (m.stack.findSome? fun
    | .call this arguments _ => some (this, arguments)
    | .work _ => some (.undefined, [])
    | _ => none).getD (.undefined, [])

/-- The number of the current round of the innermost running loop. -/
def round (m : Machine) : Nat :=
  (m.stack.findSome? fun
    | .rounds _ round _ _ => some round
    | _ => none).getD 0

/-- Looks an operand up for a body with the given receiver and arguments. -/
def evaluateIn (m : Machine) (scope : Value × List Value) : Operand → Value
  | .literal x => x.value
  | .variable name => (m.vars.lookup? name).getD .undefined
  | .receiver => scope.1
  | .argument n => (scope.2[n]?).getD .undefined
  | .round => .small (Int32.ofNat m.round)

/-- Looks an operand up for the running body. -/
def evaluate (m : Machine) (x : Operand) : Value := m.evaluateIn m.scope x

end Machine
end PromiseLoop

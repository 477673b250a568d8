import PromiseLoop.Machine.Basic

/-!
# Questions

What scripts can ask without changing anything.
-/

namespace PromiseLoop.Machine

/-- Asks a loop something; a loop that is gone has nothing to say. -/
def askLoop (m : Machine) (name : String) (question : Loop → Finding) : Finding :=
  match (m.named? name).bind m.loop? with
  | some l => question l
  | none => .nothing

/-- Asks a loop about the promise in an operand, which has to be its own. -/
def askRecord (m : Machine) (name : String) (promise : Operand) (question : Record → Finding) :
    Except Fault Finding :=
  match (m.named? name).bind m.loop?, (m.evaluate promise).asPromise? with
  | some l, some p => (l.record p).map question
  | _, _ => .ok .nothing

/-- The value a record was settled with, as an answer shows it. -/
def showResult (m : Machine) (r : Record) : Option Shown := r.value.map m.shown

def showEvent (m : Machine) : RejectionEvent → ShownEvent
  | .unhandled id reason => .unhandled id (m.shown reason)
  | .handled id => .handled id

/-- The events of a loop's rejection log, if it has one. -/
def showEvents (m : Machine) (l : Loop) : Finding :=
  match l.tracker with
  | .log => .events (l.log.map m.showEvent)
  | _ => .nothing

/-- The reasons of the unhandled rejections in a loop's log, if it has one. -/
def showUnhandled (m : Machine) (l : Loop) : Finding :=
  match l.tracker with
  | .log => .values (l.unhandledReasons.map m.shown)
  | _ => .nothing

def countsOf (l : Loop) : Counts :=
  { tasksEmpty := l.tasks.isEmpty
    microtasksEmpty := l.microtasks.isEmpty
    microtasks := l.microtasks.size
    background := l.inFlight.length
    workers := l.workers.length }

/-- Whether the last loop created under a name is alive. -/
def isAlive (m : Machine) (name : String) : Bool :=
  match m.created.find? fun e => e.1 = name with
  | some e => (m.loop? e.2).isSome
  | none => false

/-- Answers a question. -/
def answer (m : Machine) (q : Query) : Except Fault Finding :=
  match q with
  | .has o key =>
    .ok (.flag (match m.evaluate o with
      | .object o => (m.properties o).has key
      | _ => false))
  | .debugObject o =>
    .ok (match m.evaluate o with
      | .object o => .text (m.properties o).debug
      | _ => .nothing)
  | .debugFunction f =>
    .ok (match m.evaluate f with
      | .function f => .text f.debug
      | _ => .nothing)
  | .same a b => .ok (.flag ((m.evaluate a).equal (m.evaluate b)))
  | .inspect x => .ok (.inspection ((m.evaluate x).inspect m.properties))
  | .isCallable x => .ok (.flag (Bridge.native.isCallable m.properties (m.evaluate x)))
  | .id p =>
    .ok (match m.evaluate p with
      | .promise p => .texts [p.id.text, p.debug]
      | _ => .nothing)
  | .samePromise a b =>
    .ok (.flag (match m.evaluate a, m.evaluate b with
      | .promise p, .promise q => p = q
      | _, _ => false))
  | .alive name => .ok (.flag (m.isAlive name))
  | .bridgeCounts loop =>
    .ok (m.askLoop loop fun l => .numbers [l.bridgeCounts.1, l.bridgeCounts.2])
  | .config loop => .ok (m.askLoop loop fun l => .settings l.config)
  | .state loop p => m.askRecord loop p fun r => .text r.state.name
  | .result loop p =>
    m.askRecord loop p fun r => ((m.showResult r).map fun x => .values [x]).getD .nothing
  | .handled loop p => m.askRecord loop p fun r => .flag r.isHandled
  | .info loop p =>
    m.askRecord loop p fun r => .promise r.state (m.showResult r) r.isHandled
  | .isPromise loop x =>
    .ok (m.askLoop loop fun l => .flag (l.ownPromise? (m.evaluate x)).isSome)
  | .live loop => .ok (m.askLoop loop fun l => .number l.heap.size)
  | .counts loop => .ok (m.askLoop loop fun l => .counts (countsOf l))
  | .debugLoop loop => .ok (m.askLoop loop fun l => .text l.debug)
  | .events loop => .ok (m.askLoop loop m.showEvents)
  | .unhandled loop => .ok (m.askLoop loop m.showUnhandled)
  | .completerInfo name =>
    .ok (match m.completers.find? fun e => e.1 = name with
      | some e => .texts [e.2.promise.text, e.2.promise.completerText]
      | none => .nothing)

end PromiseLoop.Machine

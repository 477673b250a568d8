import PromiseLoop.Fault
import PromiseLoop.Queue

/-!
# Queue sessions

A session fills and empties a task queue and a microtask queue.  An entry that runs logs its label
and may then fail.
-/

namespace PromiseLoop

/-- The two queues of a session. -/
inductive QueueChoice
  | tasks
  | microtasks
deriving DecidableEq, Repr, Inhabited

/-- An entry of either queue. -/
structure QueueEntry where
  label : String
  failure : Option String
deriving DecidableEq, Repr, Inhabited

/-- An operation on a queue. -/
inductive QueueOperation
  | enqueue (e : QueueEntry)
  /-- Takes the oldest entry and runs it. -/
  | run
  /-- Takes the oldest entry and lets it go. -/
  | discard
deriving DecidableEq, Repr

/-- What an operation on a queue gives. -/
inductive QueueFinding
  | nothing
  | done
  | fault (f : Fault)
  | text (s : String)
deriving DecidableEq, Repr, Inhabited

/-- What is found after an operation. -/
structure QueueAnswer where
  finding : QueueFinding
  ran : List String
  sizes : List Nat
  empties : List Bool
  debug : String
deriving DecidableEq, Repr, Inhabited

/-- The queues of a session. -/
structure QueueSession where
  tasks : Queue QueueEntry := .empty
  microtasks : Queue QueueEntry := .empty
deriving Inhabited

namespace QueueSession

def queue (s : QueueSession) : QueueChoice → Queue QueueEntry
  | .tasks => s.tasks
  | .microtasks => s.microtasks

def setQueue (s : QueueSession) (c : QueueChoice) (q : Queue QueueEntry) : QueueSession :=
  match c with
  | .tasks => { s with tasks := q }
  | .microtasks => { s with microtasks := q }

/-- The name that an entry has in texts. -/
def entryName : QueueChoice → String
  | .tasks => "Task"
  | .microtasks => "MicroTask"

/-- The name that a queue has in texts. -/
def queueName : QueueChoice → String
  | .tasks => "TaskQueue"
  | .microtasks => "MicrotaskQueue"

/-- What running an entry gives. -/
def runEntry (e : QueueEntry) : QueueFinding :=
  match e.failure with
  | some message => .fault (.task message)
  | none => .done

/-- Applies an operation to one of the queues.  Gives the finding and the labels that ran. -/
def apply (s : QueueSession) (c : QueueChoice) (op : QueueOperation) :
    QueueFinding × List String × QueueSession :=
  let q := s.queue c
  match op with
  | .enqueue e => (.nothing, [], s.setQueue c (q.enqueue e))
  | .run =>
    match q.dequeue? with
    | none => (.nothing, [], s)
    | some (e, q) => (runEntry e, [e.label], s.setQueue c q)
  | .discard =>
    match q.dequeue? with
    | none => (.nothing, [], s)
    | some (_, q) => (.text (Text.hidden (entryName c)), [], s.setQueue c q)

/-- Applies an operation and looks at the queues afterwards. -/
def step (s : QueueSession) (c : QueueChoice) (op : QueueOperation) : QueueAnswer × QueueSession :=
  let (finding, ran, s) := s.apply c op
  ({ finding, ran
     sizes := [s.tasks.size, s.microtasks.size]
     empties := [s.tasks.isEmpty, s.microtasks.isEmpty]
     debug := (s.queue c).debug (queueName c) (entryName c) }, s)

end QueueSession
end PromiseLoop

import PromiseLoop.Promise.Record
import PromiseLoop.Queue
import PromiseLoop.Script.Command

/-!
# Jobs

What waits in the queues of a loop, and what a loop records of its own doings.
-/

namespace PromiseLoop

/-- A task or microtask of the host. -/
structure Work where
  label : String
  body : List Command
  quiet : Bool
deriving Inhabited

/-- What background work posts about its promise, exactly once. -/
structure Report where
  promise : PromiseId
  result : WorkResult
deriving DecidableEq, Repr, Inhabited

/-- An entry of the microtask queue. -/
inductive Job
  /-- Runs a reaction with the value its promise was settled with. -/
  | reaction (r : Reaction) (argument : Value)
  /-- Asks a thenable to settle a promise, through the `then` that was found on it. -/
  | adoption (promise : Promise) (thenable thenFunction : Value)
  /-- Settles the promise of background work. -/
  | settlement (report : Report)
  | host (work : Work)
deriving Inhabited

/-- The values that a waiting job holds, in the order in which it lets them go. -/
def Job.held : Job → List Value
  | reaction r argument => r.held ++ [argument]
  | adoption p thenable thenFunction => [.promise p, thenable, thenFunction]
  | settlement _ => []
  | host _ => []

/-- What a rejection log records. -/
inductive RejectionEvent
  /-- A rejection that nobody handles, with its reason. -/
  | unhandled (id : PromiseId) (reason : Value)
  /-- A handler was attached after the rejection had been reported. -/
  | handled (id : PromiseId)
deriving DecidableEq, Repr, Inhabited

/-- The values that a recorded event holds. -/
def RejectionEvent.held : RejectionEvent → List Value
  | unhandled _ reason => [reason]
  | handled _ => []

/-- What a loop does, as its history tells it. -/
inductive Event
  /-- The bridge was asked to call a value. -/
  | invoked (callable : Value)
  /-- The bridge was asked for the `then` of a value. -/
  | probed (v : Value)
  /-- A resolution of a promise from outside was attempted, and accepted or not. -/
  | attempted (id : PromiseId) (accepted : Bool)
  | settled (id : PromiseId) (state : State) (v : Value)
  /-- Handlers were registered on a promise. -/
  | attached (id : PromiseId) (derived : Promise) (onFulfilled onRejected : Option Value)
  /-- A registration ended and gave its derived promise. -/
  | returned (derived : Promise)
  | queued (j : Job)
  | started (j : Job)
  | taskQueued (w : Work)
  | taskStarted (w : Work)
  /-- A worker was started that settles a promise. -/
  | spawned (p : Promise)
  | posted (r : Report)
  | reported (id : PromiseId) (reason : Value)
  | handledLate (id : PromiseId)
  /-- A record was freed, as it was then. -/
  | freed (id : PromiseId) (r : Record)
  /-- A drain ended because no microtask was left. -/
  | drained
  /-- A checkpoint ended without a fault. -/
  | checked
deriving Inhabited

end PromiseLoop

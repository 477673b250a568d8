import PromiseLoop.Loop.Basic

/-!
# Background work

Work on other threads never touches a record.  It posts a report to the loop's channel, and the
loop turns each report into a microtask that settles the promise.  Until that microtask runs the
promise is in flight, and the loop itself keeps it alive.
-/

namespace PromiseLoop.Loop

/-- Creates a promise for background work. -/
def openFlight (l : Loop) : Promise × Loop :=
  let (p, l) := l.newPromise
  (p, { l with inFlight := l.inFlight ++ [p] })

/-- Registers a promise in flight as that of a worker. -/
def addWorker (l : Loop) (p : Promise) : Loop :=
  { l with workers := l.workers ++ [p.id] }.note (.spawned p)

/-- Posts a report to the channel. -/
def post (l : Loop) (r : Report) : Loop :=
  { l with channel := l.channel ++ [r] }.note (.posted r)

/-- Lets a worker wait before it posts. -/
def addWaiting (l : Loop) (r : Report) : Loop := { l with waiting := l.waiting ++ [r] }

/-- Lets the oldest waiting worker post.  Gives whether there was one. -/
def releaseWorker (l : Loop) : Bool × Loop :=
  match l.waiting with
  | [] => (false, l)
  | r :: rest => (true, { l with waiting := rest }.post r)

/-- Turns the oldest report into a microtask. -/
def receive? (l : Loop) : Option Loop :=
  match l.channel with
  | [] => none
  | r :: rest => some ({ l with channel := rest }.enqueue (.settlement r))

/-- Turns every posted report into a microtask. -/
def deliver (l : Loop) : Loop :=
  l.channel.foldl (fun l r => l.enqueue (.settlement r)) { l with channel := [] }

/-- Strikes a promise off the list of workers and takes it out of flight.  Gives the loop's handle on
it, if it was still in flight. -/
def land (l : Loop) (id : PromiseId) : Option Promise × Loop :=
  (l.inFlight.find? fun p => p.id = id,
    { l with
      workers := l.workers.erase id
      inFlight := l.inFlight.eraseP fun p => p.id = id })

/-- The error with which abandoned work rejects its promise. -/
def abandonedError : Value :=
  .error { kind := .internalError, message := "background work was abandoned before settling" }

end PromiseLoop.Loop

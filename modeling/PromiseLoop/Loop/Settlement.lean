import PromiseLoop.Loop.Diagnostics

/-!
# Settling promises

A promise is resolved from outside at most once: the first attempt takes the lock of its record,
and every later one finds it taken.  Settling enqueues the reactions of the side that happened, in
the order of their registration.  Registering handlers on a promise that has settled enqueues the
matching reaction at once.
-/

namespace PromiseLoop.Loop

/-- Takes the resolution lock of a promise.  Gives whether it was still free. -/
def lock (l : Loop) (p : Promise) : Except Fault (Bool × Loop) :=
  (l.record p).map fun r =>
    let accepted := !r.alreadyResolved
    (accepted,
      (l.modifyRecord p.id fun r => { r with alreadyResolved := true }).note
        (.attempted p.id accepted))

/-- Enqueues the job of a reaction. -/
def enqueueReaction (v : Value) (l : Loop) (r : Reaction) : Loop := l.enqueue (.reaction r v)

/-- Remembers a rejection that nobody handles until the next checkpoint, if rejections are
tracked. -/
def awaitReport (l : Loop) (id : PromiseId) : Loop :=
  if l.config.trackUnhandledRejections then { l with awaiting := l.awaiting ++ [id] } else l

/-- Settles a promise and enqueues its reactions.  Gives what is let go: the reactions of the other
side, or the value itself where nothing was left to settle. -/
def settle (l : Loop) (id : PromiseId) (s : State) (v : Value) : Loop × List Value :=
  match (l.heap.get? id).bind (fun r => r.settle s v) with
  | none => (l, [v])
  | some (r, released) =>
    let l := (l.modifyRecord id fun _ => r).note (.settled id s v)
    let l := released.fire.foldl (enqueueReaction v) l
    -- whether a handler was there is judged now; the report comes at the next checkpoint
    let l := if s = .rejected && !r.isHandled then l.awaitReport id else l
    (l, heldByReactions released.discarded)

/-! ## Registering handlers -/

/-- What registering handlers gives. -/
structure Attached where
  loop : Loop
  /-- The promise settled by whichever handler runs. -/
  derived : Promise
  /-- The job of the matching reaction, if the promise has settled. -/
  job : Option Job
  /-- Whether this is the first handler of a rejection that has been reported. -/
  late : Bool
  /-- What is let go: the reaction of the side that did not happen. -/
  dropped : List Value

/-- Whether the first handler of a record would come after the report of its rejection. -/
def handledLate (r : Record) : Bool :=
  r.state = .rejected && !r.isHandled && r.rejectionReported

/-- Marks a record as handled, and reports that if it is late. -/
def markHandled (l : Loop) (id : PromiseId) (derived : Promise)
    (onFulfilled onRejected : Option Value) (late : Bool) : Loop :=
  let l := (l.modifyRecord id fun r => { r with isHandled := true }).note
    (.attached id derived onFulfilled onRejected)
  if late then l.reportHandled id else l

/-- Registers handlers on a promise.  Neither of them runs now: the reactions wait for the
settlement, or the matching one becomes a job, which is left to whoever ends the registration. -/
def attach (l : Loop) (p : Promise) (onFulfilled onRejected : Option Value) :
    Except Fault Attached :=
  (l.record p).map fun r =>
    let (derived, l) := l.newPromise
    let fulfill : Reaction := ⟨.fulfill, onFulfilled, derived⟩
    let reject : Reaction := ⟨.reject, onRejected, derived⟩
    let late := handledLate r
    -- from now on the promise is handled, whether or not a handler was given
    let l := l.markHandled p.id derived onFulfilled onRejected late
    match r.state with
    | .pending =>
      { loop := l.modifyRecord p.id fun r => (r.addReaction fulfill).addReaction reject
        derived, job := none, late, dropped := [] }
    | .fulfilled =>
      { loop := l, derived, job := some (.reaction fulfill r.reason), late, dropped := reject.held }
    | .rejected =>
      { loop := l, derived, job := some (.reaction reject r.reason), late, dropped := fulfill.held }

/-- Ends a registration: enqueues the job of the matching reaction, if the promise has settled. -/
def endAttach (l : Loop) (derived : Promise) (job : Option Job) : Loop :=
  (match job with
  | some j => l.enqueue j
  | none => l).note (.returned derived)

end PromiseLoop.Loop

import PromiseLoop.Config.Basic
import PromiseLoop.Fault
import PromiseLoop.Loop.Bridge
import PromiseLoop.Loop.Job
import PromiseLoop.Promise.Heap

/-!
# Event loops

The state of one event loop: its records, its queues, and its dealings with background work and
with whoever is told about rejections.  The operations here touch the loop alone and never run any
script; whatever may run script is done by the machine, one small step at a time.
-/

namespace PromiseLoop

/-- The state of an event loop. -/
structure Loop where
  id : LoopId
  config : Config
  bridge : Bridge
  tracker : Tracker
  heap : Heap := .empty
  /-- The number of promises created so far. -/
  nextSerial : Nat := 0
  /-- Promises whose last handle has gone, oldest first. -/
  releases : List PromiseId := []
  /-- Promises that were rejected without a handler since the last checkpoint. -/
  awaiting : List PromiseId := []
  /-- Promises whose background work has not been applied.  The loop holds a handle on each. -/
  inFlight : List Promise := []
  /-- The promises in flight that belong to workers of this loop. -/
  workers : List PromiseId := []
  /-- Workers that have not been told to go on, oldest first. -/
  waiting : List Report := []
  /-- Reports that have been posted and not been delivered, oldest first. -/
  channel : List Report := []
  tasks : Queue Work := .empty
  microtasks : Queue Job := .empty
  /-- Whether the microtask queue is being drained. -/
  draining : Bool := false
  /-- The events recorded by the loop's rejection log. -/
  log : List RejectionEvent := []
  /-- What the loop has done, newest first. -/
  history : List Event := []
deriving Inhabited

namespace Loop

/-- The loop with one more event in its history. -/
def note (l : Loop) (e : Event) : Loop := { l with history := e :: l.history }

def owns (l : Loop) (p : Promise) : Bool := p.home = l.id

/-- The promise in a value, if it belongs to this loop. -/
def ownPromise? (l : Loop) (v : Value) : Option Promise := v.asPromise?.filter l.owns

/-- The record behind a handle. -/
def record (l : Loop) (p : Promise) : Except Fault Record :=
  if l.owns p then
    match l.heap.get? p.id with
    | some r => .ok r
    | none => .error (.collected p.id)
  else .error (.foreignPromise p.id)

/-- Changes one record. -/
def modifyRecord (l : Loop) (id : PromiseId) (f : Record → Record) : Loop :=
  { l with heap := l.heap.modify id f }

/-- Creates a pending promise. -/
def newPromise (l : Loop) : Promise × Loop :=
  let (id, heap) := l.heap.allocate .pending
  ({ home := l.id, serial := l.nextSerial, id := id },
    { l with heap := heap, nextSerial := l.nextSerial + 1 })

/-! ## Queues -/

/-- Adds a microtask. -/
def enqueue (l : Loop) (j : Job) : Loop :=
  { l with microtasks := l.microtasks.enqueue j }.note (.queued j)

/-- Takes the oldest microtask. -/
def dequeue? (l : Loop) : Option (Job × Loop) :=
  l.microtasks.dequeue?.map fun (j, rest) => (j, { l with microtasks := rest }.note (.started j))

/-- Marks the microtask queue as being drained. -/
def startDraining (l : Loop) : Loop := { l with draining := true }

def stopDraining (l : Loop) : Loop := { l with draining := false }

/-- Adds a task. -/
def enqueueTask (l : Loop) (w : Work) : Loop :=
  { l with tasks := l.tasks.enqueue w }.note (.taskQueued w)

/-- Takes the oldest task. -/
def dequeueTask? (l : Loop) : Option (Work × Loop) :=
  l.tasks.dequeue?.map fun (w, rest) => (w, { l with tasks := rest }.note (.taskStarted w))

/-- Whether nothing waits in either queue. -/
def isIdle (l : Loop) : Bool := l.tasks.isEmpty && l.microtasks.isEmpty

/-! ## What a loop holds -/

/-- The values held by the loop, in the order in which a dropped loop lets them go. -/
def held (l : Loop) : List Value :=
  l.log.flatMap RejectionEvent.held ++ l.heap.held
    ++ l.inFlight.map .promise
    ++ l.microtasks.entries.flatMap Job.held

/-! ## Counting -/

/-- How often the bridge was asked to call a value, and how often for a `then`. -/
def bridgeCounts (l : Loop) : Nat × Nat :=
  if l.bridge.counts then
    (l.history.countP fun | .invoked _ => true | _ => false,
      l.history.countP fun | .probed _ => true | _ => false)
  else (0, 0)

/-- The text of a loop: the sizes of its parts. -/
def debug (l : Loop) : String :=
  Text.fields "EventLoop"
    [ ("tasks", toString l.tasks.size),
      ("microtasks", toString l.microtasks.size),
      ("heap", l.heap.debug),
      ("inflight", toString l.inFlight.length),
      ("workers", toString l.workers.length) ]

end Loop
end PromiseLoop

import PromiseLoop.Machine.Calls
import PromiseLoop.Outcome

/-!
# Turns of a loop

Running jobs, draining the microtask queue, checkpoints, cycles, and running until nothing is left.
Each turn is begun by pushing its frame; how it goes on when the activity above it ends is said by
the `resume` functions.  These take a machine whose control is spent, that is, signals nothing.
-/

namespace PromiseLoop.Machine

/-! ## Jobs -/

/-- Begins the body of a task or microtask of the host. -/
def startWork (m : Machine) (w : Work) (entry : Entry) : Machine :=
  let m := (m.push (.work w.quiet)).traceEntry entry
  (m.push (.block w.body)).signal .done

/-- Runs a reaction.  Without a handler the settlement passes through to the derived promise. -/
def startReaction (m : Machine) (loop : LoopId) (r : Reaction) (argument : Value) : Machine :=
  match r.handler with
  | some h => (m.push (.reacting h r.derived)).invoke loop h .undefined [argument]
  | none =>
    let m := m.push (.hold [.promise r.derived])
    match r.side with
    | .fulfill => m.resolve loop r.derived argument
    | .reject => m.reject loop r.derived argument

/-- Asks a thenable to settle a promise through a fresh pair of one-shot functions. -/
def startAdoption (m : Machine) (loop : LoopId) (p : Promise) (thenable thenFunction : Value) :
    Machine :=
  let (guard, m) := m.newPair p
  let resolver (side : Side) : Value := .function (.resolver { promise := p, guard, side })
  (m.push (.adopting p (resolver .reject) thenFunction)).invoke loop thenFunction thenable
    [resolver .fulfill, resolver .reject]

/-- What a report settles its promise with. -/
def reportOutcome (m : Machine) (l : Loop) (r : WorkResult) : Outcome Value :=
  match r with
  | .success x => .success (m.evaluateIn (.undefined, []) x)
  | .failure x => .failure (m.evaluateIn (.undefined, []) x)
  | .threadName => .success (.text l.config.workerThreadName)
  | .abandoned => .failure Loop.abandonedError

/-- Applies a report: its promise is no longer in flight, and is settled. -/
def startSettlement (m : Machine) (loop : LoopId) (r : Report) : Machine :=
  match m.loop? loop with
  | none => m.signal .done
  | some l =>
    -- the operands are looked up first, while the promise is still in flight
    let outcome := m.reportOutcome l r.result
    let (inFlight, l) := l.land r.promise
    let m := m.setLoop l
    match inFlight with
    | some p =>
      let m := m.push (.hold [.promise p])
      match outcome with
      | .success v => m.resolve loop p v
      | .failure v => m.reject loop p v
    | none => drop [outcome.content] (m.signal .done)

/-- Runs a job. -/
def startJob (m : Machine) (loop : LoopId) (j : Job) : Machine :=
  match j with
  | .reaction r argument => m.startReaction loop r argument
  | .adoption p thenable thenFunction => m.startAdoption loop p thenable thenFunction
  | .settlement r => m.startSettlement loop r
  | .host w => m.startWork w (.microtask w.label)

/-! ## Draining -/

/-- Ends a drain that has run every microtask. -/
def endDrain (m : Machine) (loop : LoopId) : Machine :=
  (m.modifyLoop loop fun l => l.stopDraining.note .drained).signal .done

/-- Breaks a drain off because of a fault. -/
def breakDrain (m : Machine) (loop : LoopId) (f : Fault) : Machine :=
  (m.modifyLoop loop Loop.stopDraining).signal (.fault f)

/-- Runs the oldest microtask, or ends the drain if there is none. -/
def nextMicrotask (m : Machine) (loop : LoopId) : Machine :=
  match (m.loop? loop).bind Loop.dequeue? with
  | none => m.endDrain loop
  | some (j, l) => ((m.setLoop l).push (.draining loop)).startJob loop j

/-- Drains the microtask queue.  A drain from inside of a drain does nothing. -/
def drain (m : Machine) (loop : LoopId) : Machine :=
  match m.loop? loop with
  | none => m.signal .done
  | some l =>
    if l.draining then m.signal .done
    else ((m.setLoop l.startDraining).push (.draining loop)).signal .done

/-- Goes on draining when a microtask has ended.  A fault stops the drain, and what is left stays
queued. -/
def resumeDraining (m : Machine) (loop : LoopId) (s : Signal) : Machine :=
  match s with
  | .fault f => m.breakDrain loop f
  | s => (drop s.held m).nextMicrotask loop

/-! ## Reports and collection -/

/-- Makes the next record of a collection the next thing to look at. -/
def sweep (m : Machine) (loop : LoopId) (s : Sweep) : Machine :=
  { m with control := .collect loop s }

/-- Begins a collection. -/
def collect (m : Machine) (loop : LoopId) : Machine :=
  if (m.loop? loop).isSome then m.sweep loop { closes := false } else m.signal (.freed 0)

/-- Ends a checkpoint. -/
def endCheckpoint (m : Machine) (loop : LoopId) : Machine :=
  (m.modifyLoop loop fun l => l.note .checked).signal .done

/-- Ends a collection, and with it the checkpoint that it belongs to. -/
def endCollection (m : Machine) (loop : LoopId) (s : Sweep) : Machine :=
  if s.closes then m.endCheckpoint loop else m.signal (.freed s.count)

/-- Looks at the next released id, or at what has been released in the meantime. -/
def collectNext (m : Machine) (loop : LoopId) (s : Sweep) : Machine :=
  match s.pending with
  | [] =>
    -- records that went may have released others
    match (m.loop? loop).map Loop.takeReleases with
    | none => m.endCollection loop s
    | some ([], _) => m.endCollection loop s
    | some (released, l) => (m.setLoop l).sweep loop { s with pending := released }
  | id :: rest =>
    match (m.loop? loop).bind fun l => l.free? id with
    | none => m.sweep loop { s with pending := rest }
    | some (r, l) =>
      -- from here on the slot is vacant, whatever the tracker may do
      let m := m.setLoop l
      let s := { s with pending := rest, count := s.count + 1 }
      if l.reportsOnFree r then
        let m := (m.push (.collecting loop s r)).push (.hold [r.reason])
        (m.signal .done).tellUnhandled loop id r.reason
      else drop r.held (m.sweep loop s)

/-- Goes on collecting when the tracker has heard of a record, which is let go first. -/
def resumeCollecting (m : Machine) (loop : LoopId) (sweep : Sweep) (r : Record) (s : Signal) :
    Machine :=
  drop (s.held ++ r.held) (m.sweep loop sweep)

/-- Goes on with a checkpoint after its reports, with a collection if the loop is configured so. -/
def finishCheckpoint (m : Machine) (loop : LoopId) : Machine :=
  match m.loop? loop with
  | none => m.signal .done
  | some l =>
    if l.config.collectAtCheckpoint then m.sweep loop { closes := true }
    else m.endCheckpoint loop

/-- Makes the next report of a checkpoint, or ends the checkpoint. -/
def resumeReporting (m : Machine) (loop : LoopId) (reports : List (PromiseId × Value))
    (s : Signal) : Machine :=
  match reports with
  | [] => (drop s.held m).finishCheckpoint loop
  | (id, reason) :: rest =>
    let m := drop s.held ((m.push (.reporting loop rest)).push (.hold [reason]))
    (m.modifyLoop loop fun l => l.report id reason).tellUnhandled loop id reason

/-- Begins a checkpoint: delivers the reports of background work and drains the microtasks. -/
def checkpoint (m : Machine) (loop : LoopId) : Machine :=
  ((m.modifyLoop loop Loop.deliver).push (.checkpoint loop)).drain loop

/-- Goes on with a checkpoint after its drain: selects the rejections to report. -/
def resumeCheckpoint (m : Machine) (loop : LoopId) (s : Signal) : Machine :=
  match s with
  | .fault f => m.signal (.fault f)
  | s =>
    let m := drop s.held m
    match (m.loop? loop).map Loop.takeReports with
    | none => m
    | some (reports, l) => (m.setLoop l).push (.reporting loop reports)

/-! ## Cycles -/

/-- Begins a cycle: one task, then a checkpoint. -/
def cycle (m : Machine) (loop : LoopId) : Machine :=
  let m := m.modifyLoop loop Loop.deliver
  match (m.loop? loop).bind Loop.dequeueTask? with
  | none => m.checkpoint loop
  | some (w, l) => ((m.setLoop l).push (.cycling loop)).startWork w (.task w.label)

def resumeCycling (m : Machine) (loop : LoopId) (s : Signal) : Machine :=
  match s with
  | .fault f => m.signal (.fault f)
  | s => (drop s.held m).checkpoint loop

/-- Begins to run cycles until neither a task nor a microtask waits. -/
def idle (m : Machine) (loop : LoopId) : Machine := (m.push (.idling loop)).cycle loop

def resumeIdling (m : Machine) (loop : LoopId) (s : Signal) : Machine :=
  match s with
  | .fault f => m.signal (.fault f)
  | s =>
    let m := drop s.held m
    if ((m.loop? loop).map Loop.isIdle).getD true then m else m.idle loop

/-- Begins to run until no task, microtask or worker is left. -/
def finish (m : Machine) (loop : LoopId) : Machine := (m.push (.finishing loop)).idle loop

/-- Goes on running until done.  Where only workers are left, waits for the next report; while there
is none, the machine stands still. -/
def resumeFinishing (m : Machine) (loop : LoopId) (s : Signal) : Machine :=
  match s with
  | .fault f => m.signal (.fault f)
  | s =>
    let m := drop s.held m
    match m.loop? loop with
    | none => m
    | some l =>
      if l.workers.isEmpty then m
      else
        -- no more than one report is taken at a time
        match l.receive? with
        | some l => (m.setLoop l).finish loop
        | none => m.push (.finishing loop)

/-- Begins to run until done, letting the waiting workers go one by one whenever nothing else is
left to run. -/
def conclude (m : Machine) (loop : LoopId) : Machine :=
  if ((m.loop? loop).map fun l => l.waiting.isEmpty).getD true then m.finish loop
  else (m.push (.concluding loop)).idle loop

def resumeConcluding (m : Machine) (loop : LoopId) (s : Signal) : Machine :=
  match s with
  | .fault f => m.signal (.fault f)
  | s => ((drop s.held m).modifyLoop loop fun l => l.releaseWorker.2).conclude loop

end PromiseLoop.Machine

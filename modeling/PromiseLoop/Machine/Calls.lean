import PromiseLoop.Machine.Holding

/-!
# Calls

Calling functions, reading members, asking for a `then`, and resolving promises.  Every operation
here takes a machine whose control is spent, pushes the frames of what it begins, and leaves in the
control either a signal or the call of a function.
-/

namespace PromiseLoop.Machine

/-- Makes a call the next thing to happen. -/
def willCall (m : Machine) (f : Callable) (this : Value) (arguments : List Value) : Machine :=
  { m with control := .call f this arguments }

/-! ## Members and bridges -/

/-- Reads a member of an object.  A getter is called with the object as its receiver. -/
def read (m : Machine) (o : ObjectId) (key : String) : Machine :=
  match (m.properties o).lookup? key with
  | none => m.signal (.value .undefined)
  | some (.data v) => m.signal (.value v)
  | some (.getter g) => (m.push (.hold [.function g])).willCall g (.object o) []

/-- Calls a value that has to be a function. -/
def callValue (m : Machine) (f this : Value) (arguments : List Value) : Machine :=
  match f with
  | .function c => m.willCall c this arguments
  | v =>
    drop (arguments ++ [this])
      (m.signal (.thrown (.typeError (v.display ++ " is not a function"))))

/-- Calls a value through the bridge of a loop. -/
def invoke (m : Machine) (loop : LoopId) (f this : Value) (arguments : List Value) : Machine :=
  let m := m.modifyLoop loop fun l => l.note (.invoked f)
  -- a loop that is gone has no say in how values are called
  let plan := ((m.loop? loop).map fun l => l.bridge.callPlan f).getD .direct
  match plan, f with
  | .member key, .object o => (m.push (.substitute this arguments)).read o key
  | _, _ => m.callValue f this arguments

/-- Asks a value for its `then` in the way that a bridge has decided.  The answer is a function,
nothing, or a thrown value. -/
def askThen (m : Machine) (v : Value) (plan : ProbePlan) : Machine :=
  match plan, v with
  | .member key, .object o => (m.push .functionOnly).read o key
  | .throws, v => m.signal (.thrown v)
  | _, _ => m.signal .done

/-- Asks a value for its `then`.  Promises of the loop answer with the loop's own method, and values
without properties are not asked at all. -/
def probe (m : Machine) (loop : LoopId) (v : Value) : Machine :=
  match m.loop? loop with
  | none => m.signal .done
  | some l =>
    if (l.ownPromise? v).isSome then m.signal (.value (.function (.method loop .then_)))
    else if v.isObjectLike then
      (m.setLoop (l.note (.probed v))).askThen v (l.bridge.probePlan v)
    else m.signal .done

/-! ## Settling and resolving -/

/-- The error with which a promise that is resolved with itself is rejected. -/
def cycleError : Value := .typeError "Chaining cycle detected for promise"

/-- Settles a promise, and lets go of `spent` values last. -/
def settle (m : Machine) (p : Promise) (s : State) (v : Value) (spent : List Value) : Machine :=
  match m.loop? p.home with
  | none => drop (v :: spent) (m.signal .done)
  | some l =>
    let (l, dropped) := l.settle p.id s v
    drop (dropped ++ spent) ((m.setLoop l).signal .done)

/-- Resolves a promise whose lock has been taken.  A promise cannot be resolved with itself; any
other value is asked for a `then` first. -/
def resolveLocked (m : Machine) (p : Promise) (v : Value) : Machine :=
  if v = .promise p then m.settle p .rejected cycleError [v]
  else (m.push (.resolving p v)).probe p.home v

/-- Takes the lock of a promise for `act`.  Where the lock is taken already or the promise belongs
to another loop, the value is let go and nothing else happens. -/
def withLock (m : Machine) (loop : LoopId) (p : Promise) (v : Value)
    (act : Machine → Machine) : Machine :=
  match m.loop? loop with
  | none => drop [v] (m.signal .done)
  | some l =>
    match l.lock p with
    | .error f => drop [v] (m.signal (.fault f))
    | .ok (false, l) => drop [v] ((m.setLoop l).signal .done)
    | .ok (true, l) => act (m.setLoop l)

/-- Resolves a promise, if nobody has done so before. -/
def resolve (m : Machine) (loop : LoopId) (p : Promise) (v : Value) : Machine :=
  m.withLock loop p v fun m => m.resolveLocked p v

/-- Rejects a promise, if nobody has resolved it before. -/
def reject (m : Machine) (loop : LoopId) (p : Promise) (v : Value) : Machine :=
  m.withLock loop p v fun m => m.settle p .rejected v []

/-- Creates a pending promise. -/
def newPromise (m : Machine) (loop : LoopId) : Option (Promise × Machine) :=
  (m.loop? loop).map fun l =>
    let (p, l) := l.newPromise
    (p, m.setLoop l)

/-! ## Telling about rejections -/

/-- Calls the function in a variable, if there is one.  What it gives does not matter. -/
def callback (m : Machine) (name : String) (arguments : List Value) : Machine :=
  match m.vars.lookup? name with
  | some (.function f) => (m.push (.discard [.function f])).willCall f .undefined arguments
  | _ => m

/-- Lets the tracker hear of a rejection that has been reported.  A log has it by then. -/
def tellUnhandled (m : Machine) (loop : LoopId) (id : PromiseId) (reason : Value) : Machine :=
  match (m.loop? loop).map Loop.tracker with
  | some .console => m.traceEntry (.warning id reason.display)
  | some (.callbacks _) => m.callback "onUnhandled" [.text id.text, reason]
  | _ => m

/-- Lets the tracker hear that a reported rejection got its first handler. -/
def tellHandled (m : Machine) (loop : LoopId) (id : PromiseId) : Machine :=
  match (m.loop? loop).map Loop.tracker with
  | some .console => m.traceEntry (.notice id)
  | some (.callbacks true) => m.callback "onHandled" [.text id.text]
  | _ => m

/-! ## Registering handlers -/

/-- Registers handlers on a promise and lets go of `unused` values first.  Where the tracker has to
hear of a late handler, the registration ends only after that. -/
def attach (m : Machine) (loop : LoopId) (p : Promise) (onFulfilled onRejected : Option Value)
    (unused : List Value) : Machine :=
  match m.loop? loop with
  | none => drop (unused ++ onRejected.toList ++ onFulfilled.toList) (m.signal .done)
  | some l =>
    match l.attach p onFulfilled onRejected with
    | .error f => drop (unused ++ onRejected.toList ++ onFulfilled.toList) (m.signal (.fault f))
    | .ok a =>
      if a.late then
        -- the frame keeps the job until the tracker has been told
        let m := ((m.setLoop a.loop).push (.attaching a.derived a.job)).signal .done
        (drop (unused ++ a.dropped) m).tellHandled loop p.id
      else
        drop (unused ++ a.dropped)
          ((m.setLoop (a.loop.endAttach a.derived a.job)).signal (.value (.promise a.derived)))

/-- The method `then` of a loop, with `unused` values to be let go first. -/
def thenMethod (m : Machine) (home : LoopId) (this : Value) (arguments unused : List Value) :
    Machine :=
  match m.loop? home with
  | none =>
    drop (unused ++ arguments ++ [this]) (m.signal (.thrown (.typeError "event loop is gone")))
  | some l =>
    match l.ownPromise? this with
    | none =>
      drop (unused ++ arguments ++ [this])
        (m.signal (.thrown
          (.typeError "Method Promise.prototype.then called on incompatible receiver")))
    | some p =>
      let isCallable := l.bridge.isCallable m.properties
      -- further arguments and the receiver are kept until the registration is over, arguments that
      -- cannot be called only until it begins
      let handlers := arguments.take 2
      (m.push (.surface (arguments.drop 2 ++ [this]))).attach home p
        (handlers[0]?.filter isCallable) (handlers[1]?.filter isCallable)
        (unused ++ handlers.filter fun v => !isCallable v)

/-- The method `catch` of a loop: `then` without a fulfill handler. -/
def catchMethod (m : Machine) (home : LoopId) (this : Value) (arguments : List Value) : Machine :=
  m.thenMethod home this [.undefined, arguments.headD .undefined] (arguments.drop 1)

/-! ## Entering functions -/

/-- Uses up the guard of a resolver.  Gives whether it was still unused. -/
def claim (m : Machine) (r : Resolver) : Except Fault (Bool × Machine) :=
  match r.guard with
  | .flag n =>
    .ok (m.pairs[n]?.any fun pair => !pair.fired,
      { m with pairs := m.pairs.modify n fun pair => { pair with fired := true } })
  | .lock =>
    match m.loop? r.promise.home with
    | none => .ok (false, m)
    | some l => (l.lock r.promise).map fun (accepted, l) => (accepted, m.setLoop l)

/-- Calls one of the two functions that settle a promise.  Only the first call of a pair has an
effect, and none after the loop is gone. -/
def enterResolver (m : Machine) (r : Resolver) (this : Value) (arguments : List Value) : Machine :=
  if (m.loop? r.promise.home).isNone then
    drop (arguments ++ [this]) (m.signal (.value .undefined))
  else
    match m.claim r with
    | .error f => drop (arguments ++ [this]) (m.signal (.thrown f.thrown))
    | .ok (false, m) => drop (arguments ++ [this]) (m.signal (.value .undefined))
    | .ok (true, m) =>
      let v := arguments.headD .undefined
      let m := m.push (.give .undefined [this])
      -- while the other arguments go, the control holds the one that counts
      let m := drop (arguments.drop 1) (m.signal (.value v))
      match r.side with
      | .fulfill => (m.signal .done).resolveLocked r.promise v
      | .reject => (m.signal .done).settle r.promise .rejected v []

/-- Begins the call of a routine: its body runs under a frame with the receiver and the
arguments. -/
def enterRoutine (m : Machine) (number : Nat) (name : String) (this : Value)
    (arguments : List Value) : Machine :=
  match m.routines[number]? with
  | none => drop (this :: arguments) (m.signal (.value .undefined))
  | some r =>
    -- a quiet routine does not even trace its own call
    let m := m.push (.call this arguments r.quiet)
    let m := m.traceEntry (.call name (m.shown this) (arguments.map m.shown))
    (m.push (.block r.body)).signal .done

/-- Begins the call of a function. -/
def enter (m : Machine) (f : Callable) (this : Value) (arguments : List Value) : Machine :=
  match f with
  | .routine number name => m.enterRoutine number name this arguments
  | .resolver r => m.enterResolver r this arguments
  | .method home .then_ => m.thenMethod home this arguments []
  | .method home .catch_ => m.catchMethod home this arguments

end PromiseLoop.Machine

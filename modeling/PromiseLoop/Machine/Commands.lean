import PromiseLoop.Machine.Queries
import PromiseLoop.Machine.Turns

/-!
# Commands

How a command of a script begins and ends.  A command that can be answered at once ends at once.
One that runs script or turns a loop leaves a frame behind and ends when the activity above that
frame does.
-/

namespace PromiseLoop.Machine

/-! ## Ending -/

/-- How a command ended: with a signal, or with something found out. -/
inductive Ending
  | signal (s : Signal)
  | found (x : Finding)

/-- How an answer shows a signal.  Control commands show no value. -/
def answerSignal (m : Machine) (info : CommandInfo) : Signal → Answer
  | .done => .done
  | .value v => if info.isControl then .done else .value (m.shown v)
  | .thrown v => .thrown (m.shown v)
  | .fault f => .fault f
  | .freed count => .found (.number count)

/-- Stores the value of a step in the variable it names. -/
def storeValue (m : Machine) (info : CommandInfo) (s : Signal) : Machine :=
  match s, info.store with
  | .value v, some name => if info.isControl then m else m.assign name v
  | _, _ => m

/-- Shows the answer of a command.  A command of a body goes to the trace, and the body goes on or
fails; the command that the machine was given makes it idle. -/
def showAnswer (m : Machine) (info : CommandInfo) (s : Signal) (answer : Answer) : Machine :=
  match m.stack with
  | [] => { m with control := .idle answer }
  | _ =>
    let next := if s.isFailure && !info.catches then s else .done
    (m.traceEntry (.step info.word answer)).signal next

/-- Ends a command: its operands go, its value is stored and shown, and then goes too. -/
def endCommand (m : Machine) (info : CommandInfo) (operands : List Value) (e : Ending) : Machine :=
  match e with
  | .found x => (drop operands (m.signal .done)).showAnswer info .done (.found x)
  | .signal s =>
    -- the answer is written after the value was stored, so that it names the variable
    let m := (drop operands (m.signal s)).storeValue info s
    drop s.held (m.showAnswer info s (m.answerSignal info s))

/-- Ends a step at once with a value. -/
def endWith (m : Machine) (info : CommandInfo) (v : Value) : Machine :=
  m.endCommand info [] (.signal (.value v))

/-- Ends a step at once with nothing to show. -/
def endDone (m : Machine) (info : CommandInfo) : Machine := m.endCommand info [] (.signal .done)

/-! ## Values -/

/-- Adds two small numbers, wrapping around; anything else cannot be added. -/
def sum (a b : Value) : Signal :=
  match a, b with
  | .small x, .small y => .value (.small (x + y))
  | .small _, b => .thrown (.typeError (b.display ++ " is not a number"))
  | a, _ => .thrown (.typeError (a.display ++ " is not a number"))

/-- Puts a property on an object and lets the old one go. -/
def replaceProperty (m : Machine) (o : ObjectId) (key : String) (p : Property) : Machine :=
  let old := ((m.properties o).lookup? key).map Property.held
  drop old.toList (m.putProperty o key p)

/-- The properties of a new object, put in their order. -/
def initialProperties (m : Machine) (ps : List (String × Operand)) : Properties :=
  ps.foldl (fun acc e => acc.put e.1 (.data (m.evaluate e.2))) .empty

/-! ## Completers -/

/-- Takes a completer out of its variable. -/
def takeCompleter (m : Machine) (name : String) : Option (Completer × Machine) :=
  (m.completers.find? fun e => e.1 = name).map fun e =>
    (e.2, { m with completers := m.completers.filter fun e => e.1 ≠ name })

/-- Uses a completer up: its report is posted, if the loop is alive. -/
def useCompleter (m : Machine) (name : String) (result : WorkResult) : Machine :=
  match m.takeCompleter name with
  | none => m
  | some (c, m) => m.modifyLoop c.loop fun l => l.post { promise := c.promise, result }

/-- Keeps a new completer under a name.  One that had the name before is dropped unused. -/
def keepCompleter (m : Machine) (name : String) (c : Completer) : Machine :=
  -- the older completer posts that it was abandoned
  let m := m.useCompleter name .abandoned
  { m with completers := (name, c) :: m.completers }

/-! ## Beginning -/

/-- Runs a turn of a named loop under the frame of its command, which keeps the loop alive. -/
def withLoop (m : Machine) (info : CommandInfo) (name : String) (operands : List Value)
    (run : Machine → LoopId → Machine) : Machine :=
  match m.named? name with
  | some loop => run (m.push (.command { info with loop := some loop } operands)) loop
  | none => m.endDone info

/-- As `withLoop`, for a promise in an operand. -/
def withPromise (m : Machine) (info : CommandInfo) (name : String) (x : Operand)
    (run : Machine → LoopId → Promise → Machine) : Machine :=
  match (m.evaluate x).asPromise? with
  | some p => m.withLoop info name [.promise p] fun m loop => run m loop p
  | none => m.endDone info

/-- Constructs a promise by calling an initializer with its two resolving functions. -/
def construct (m : Machine) (loop : LoopId) (initializer : Value) : Machine :=
  match m.loop? loop with
  | none => m.signal .done
  | some l =>
    if l.bridge.isCallable m.properties initializer then
      let (p, l) := l.newPromise
      let resolver (side : Side) : Value :=
        .function (.resolver { promise := p, guard := .lock, side })
      ((m.setLoop l).push (.constructing p)).invoke loop initializer .undefined
        [resolver .fulfill, resolver .reject]
    else
      m.signal (.thrown (.typeError
        ("Promise resolver " ++ initializer.display ++ " is not a function")))

/-- Goes on with a construction after its initializer: a thrown value rejects the promise, unless it
has been resolved. -/
def resumeConstructing (m : Machine) (p : Promise) (s : Signal) : Machine :=
  match s with
  | .thrown v => ((m.push (.surface [])).push (.give (.promise p) [])).reject p.home p v
  | s => drop s.held (m.signal (.value (.promise p)))

/-- Gives a promise for a value: the value itself if it is a promise of the loop. -/
def promiseResolve (m : Machine) (loop : LoopId) (v : Value) : Machine :=
  match m.loop? loop with
  | none => m.signal .done
  | some l =>
    match l.ownPromise? v with
    | some p => m.signal (.value (.promise p))
    | none =>
      let (p, l) := l.newPromise
      ((m.setLoop l).push (.give (.promise p) [])).resolve loop p v

/-- Gives a rejected promise. -/
def promiseReject (m : Machine) (loop : LoopId) (v : Value) : Machine :=
  match m.loop? loop with
  | none => m.signal .done
  | some l =>
    let (p, l) := l.newPromise
    ((m.setLoop l).push (.give (.promise p) [])).reject loop p v

/-- Calls a promise method of a loop by its name. -/
def callMethod (m : Machine) (loop : LoopId) (name : String) (this : Value)
    (arguments : List Value) : Machine :=
  match Method.ofName? name with
  | some method => m.willCall (.method loop method) this arguments
  | none =>
    drop (arguments ++ [this]) (m.signal (.thrown (.typeError (name ++ " is not a function"))))

/-- Begins a step. -/
def beginStep (m : Machine) (info : CommandInfo) (s : Step) : Machine :=
  match s with
  | .ask q =>
    match m.answer q with
    | .ok x => m.endCommand info [] (.found x)
    | .error f => m.endCommand info [] (.signal (.fault f))
  | .give x => m.endWith info (m.evaluate x)
  | .drop names => (names.foldl removeVariable m).endDone info
  | .log x => (m.traceEntry (.log (m.shown (m.evaluate x)))).endDone info
  | .routine name body quiet =>
    let (f, m) := m.newRoutine name { body, quiet }
    m.endWith info (.function f)
  | .native =>
    let (v, m) := m.newNative
    m.endWith info v
  | .object ps =>
    let (o, m) := m.newObject (m.initialProperties ps)
    m.endWith info (.object o)
  | .set o key x =>
    match m.evaluate o with
    | .object o => (m.replaceProperty o key (.data (m.evaluate x))).endDone info
    | _ => m.endDone info
  | .get o key =>
    match m.evaluate o with
    | .object o => (m.push (.command info [.object o])).read o key
    | _ => m.endDone info
  | .getter o key f =>
    match m.evaluate o, m.evaluate f with
    | .object o, .function f => (m.replaceProperty o key (.getter f)).endDone info
    | _, _ => m.endDone info
  | .add a b => m.endCommand info [] (.signal (sum (m.evaluate a) (m.evaluate b)))
  | .cycleError => m.endWith info cycleError
  | .invoke f on arguments =>
    let f := m.evaluate f
    let on := m.evaluate on
    let arguments := arguments.map m.evaluate
    (m.push (.command info [f])).callValue f on arguments
  | .probeNatively x =>
    let v := m.evaluate x
    (m.push (.command info [v])).askThen v (Bridge.native.probePlan v)
  | .openLoop name config tracker bridge =>
    (m.openLoop name config tracker (bridgeOf bridge)).endDone info
  | .dropLoop name => { m with names := m.names.filter fun e => e.1 ≠ name }.endDone info
  | .newPromise loop =>
    match (m.named? loop).bind m.newPromise with
    | some (p, m) => m.endWith info (.promise p)
    | none => m.endDone info
  | .resolve loop p x =>
    let v := m.evaluate x
    m.withPromise info loop p fun m loop p => m.resolve loop p v
  | .reject loop p x =>
    let v := m.evaluate x
    m.withPromise info loop p fun m loop p => m.reject loop p v
  | .construct loop x =>
    let v := m.evaluate x
    m.withLoop info loop [v] fun m loop => m.construct loop v
  | .promiseResolve loop x =>
    let v := m.evaluate x
    m.withLoop info loop [] fun m loop => m.promiseResolve loop v
  | .promiseReject loop x =>
    let v := m.evaluate x
    m.withLoop info loop [] fun m loop => m.promiseReject loop v
  | .attach _ loop p onFulfilled onRejected =>
    let onFulfilled := onFulfilled.map m.evaluate
    let onRejected := onRejected.map m.evaluate
    m.withPromise info loop p fun m loop p => m.attach loop p onFulfilled onRejected []
  | .method loop method =>
    match m.named? loop with
    | some loop => m.endWith info (.function (.method loop method))
    | none => m.endDone info
  | .callMethod loop name on arguments =>
    let on := m.evaluate on
    let arguments := arguments.map m.evaluate
    m.withLoop info loop [] fun m loop => m.callMethod loop name on arguments
  | .probe loop x =>
    let v := m.evaluate x
    m.withLoop info loop [v] fun m loop => m.probe loop v
  | .task loop label body quiet =>
    match m.named? loop with
    | some loop => (m.modifyLoop loop fun l => l.enqueueTask { label, body, quiet }).endDone info
    | none => m.endDone info
  | .microtask loop label body quiet =>
    match m.named? loop with
    | some loop =>
      (m.modifyLoop loop fun l => l.enqueue (.host { label, body, quiet })).endDone info
    | none => m.endDone info
  | .drain loop => m.withLoop info loop [] drain
  | .checkpoint loop => m.withLoop info loop [] checkpoint
  | .cycle loop => m.withLoop info loop [] cycle
  | .idle loop => m.withLoop info loop [] idle
  | .done loop => m.withLoop info loop [] conclude
  | .collect loop => m.withLoop info loop [] collect
  | .completer loop name =>
    match (m.named? loop).bind fun id => (m.loop? id) with
    | some l =>
      let (p, l) := l.openFlight
      ((m.setLoop l).keepCompleter name { loop := l.id, promise := p.id }).endWith info
        (.promise p)
    | none => m.endDone info
  | .dropCompleter name => (m.useCompleter name .abandoned).endDone info
  | .complete name result => (m.useCompleter name result).endDone info
  | .spawn loop result now =>
    match (m.named? loop).bind fun id => (m.loop? id) with
    | some l =>
      let (p, l) := l.openFlight
      let l := l.addWorker p
      let r : Report := { promise := p.id, result }
      (m.setLoop (if now then l.post r else l.addWaiting r)).endWith info (.promise p)
    | none => m.endDone info
  | .finish loop =>
    match (m.named? loop).bind fun id => (m.loop? id) with
    | some l =>
      let (released, l) := l.releaseWorker
      (m.setLoop l).endCommand info [] (.found (.flag released))
    | none => m.endDone info

/-- Begins the rounds of a loop. -/
def beginRounds (m : Machine) (count : Nat) (body : List Command) (quiet : Bool) : Machine :=
  match count with
  | 0 => m.signal .done
  | n + 1 => ((m.push (.rounds body 0 n quiet)).push (.block body)).signal .done

/-- Goes on with a loop after a round. -/
def resumeRounds (m : Machine) (body : List Command) (round remaining : Nat) (quiet : Bool)
    (s : Signal) : Machine :=
  match s, remaining with
  | .done, n + 1 => ((m.push (.rounds body (round + 1) n quiet)).push (.block body)).signal .done
  | s, _ => m.signal s

/-- Begins a command of a body.  Control commands signal to the body or begin another block. -/
def beginCommand (m : Machine) (c : Command) : Machine :=
  match c with
  | .step s store catches =>
    m.beginStep { word := s.word, store, catches, isControl := false } s
  | .ret x => m.signal (.value (m.evaluate x))
  | .raise x => m.signal (.thrown (m.evaluate x))
  | .fail message => m.signal (.fault (.task message))
  | .branch condition yes no =>
    (m.push (.block (if (m.evaluate condition).isTruthy then yes else no))).signal .done
  | .loop count body quiet => m.beginRounds count body quiet

/-- Goes on with a body after one of its commands. -/
def resumeBlock (m : Machine) (rest : List Command) (s : Signal) : Machine :=
  match s, rest with
  | .done, c :: rest => (m.push (.block rest)).beginCommand c
  | s, _ => m.signal s

end PromiseLoop.Machine

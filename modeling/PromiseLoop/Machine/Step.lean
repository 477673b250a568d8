import PromiseLoop.Machine.Commands

/-!
# Steps of a machine

A machine that is idle is given a command with `start` and then takes one `step` after another until
it is idle again.  Every step is a total function, and `run` bounds their number.

Main results:

* `step_of_isIdle`: an idle machine stays as it is.
* `run_add`: a run goes on where a shorter one has left off.
* `Reachable.run`: whatever a run leads to is reachable.
-/

namespace PromiseLoop.Machine

/-! ## Resuming -/

/-- Goes on after a routine's body: what the body returns is the result, or nothing is. -/
def resumeCall (m : Machine) (this : Value) (arguments : List Value) (s : Signal) : Machine :=
  let result : Signal := match s with
    | .value v => .value v
    | .thrown v => .thrown v
    | .fault f => .thrown f.thrown
    | _ => .value .undefined
  drop (this :: arguments) (m.signal result)

/-- Goes on after a body of the host: a thrown value becomes a fault. -/
def resumeWork (m : Machine) (s : Signal) : Machine :=
  match s with
  | .fault f => m.signal (.fault f)
  | .thrown v => drop [v] (m.signal (.fault (.task v.display)))
  | s => drop s.held (m.signal .done)

/-- Keeps what was read off a value only if it is a function. -/
def resumeFunctionOnly (m : Machine) (s : Signal) : Machine :=
  match s with
  | .value (.function f) => m.signal (.value (.function f))
  | .value v => drop [v] (m.signal .done)
  | s => m.signal s

/-- Calls the member that was read off a value. -/
def resumeSubstitute (m : Machine) (this : Value) (arguments : List Value) (s : Signal) : Machine :=
  match s with
  | .value f => (m.push (.hold [f])).callValue f this arguments
  | s => drop (arguments ++ [this]) (m.signal s)

/-- Goes on with a resolution when the value has answered: a `then` adopts the value in a job of its
own, no `then` fulfills with it, and a failure to answer rejects. -/
def resumeResolving (m : Machine) (p : Promise) (v : Value) (s : Signal) : Machine :=
  match s with
  | .value t =>
    drop [.promise p] ((m.modifyLoop p.home fun l => l.enqueue (.adoption p v t)).signal .done)
  | .thrown x => m.settle p .rejected x [v, .promise p]
  | _ => m.settle p .fulfilled v [.promise p]

/-- Goes on after a handler: what it gives resolves the derived promise, what it throws rejects
it. -/
def resumeReacting (m : Machine) (handler : Value) (derived : Promise) (s : Signal) : Machine :=
  let m := m.push (.hold [handler, .promise derived])
  match s with
  | .value v => m.resolve derived.home derived v
  | .thrown v => m.reject derived.home derived v
  | s => m.signal s

/-- Goes on after a `then`: what it throws rejects the promise, unless one of the two functions has
been called. -/
def resumeAdopting (m : Machine) (p : Promise) (resolver thenFunction : Value) (s : Signal) :
    Machine :=
  let m := m.push (.discard [resolver, thenFunction, .promise p])
  match s, resolver with
  -- the one-shot flag decides whether the throw still counts
  | .thrown v, .function (.resolver r) => m.enterResolver r .undefined [v]
  | s, _ => m.signal s

/-- Goes on after the tracker has heard of a late handler: the job is enqueued, and the derived
promise given. -/
def resumeAttaching (m : Machine) (derived : Promise) (job : Option Job) (s : Signal) : Machine :=
  let m := m.modifyLoop derived.home fun l => l.endAttach derived job
  drop s.held (m.signal (.value (.promise derived)))

/-- Goes on with a frame that has been taken off the stack. -/
def resume (m : Machine) (f : Frame) (s : Signal) : Machine :=
  match f with
  | .block rest => m.resumeBlock rest s
  | .rounds body round remaining quiet => m.resumeRounds body round remaining quiet s
  | .command info operands => m.endCommand info operands (.signal s)
  | .call this arguments _ => m.resumeCall this arguments s
  | .work _ => m.resumeWork s
  | .hold values => drop values (m.signal s)
  | .discard values => drop (s.held ++ values) (m.signal .done)
  | .give v values =>
    match s with
    | .done => drop values (m.signal (.value v))
    | s => drop (values ++ [v]) (m.signal s)
  | .surface values =>
    match s with
    | .fault f => drop values (m.signal (.thrown f.thrown))
    | s => drop values (m.signal s)
  | .functionOnly => m.resumeFunctionOnly s
  | .substitute this arguments => m.resumeSubstitute this arguments s
  | .resolving p v => m.resumeResolving p v s
  | .reacting handler derived => m.resumeReacting handler derived s
  | .adopting p resolver thenFunction => m.resumeAdopting p resolver thenFunction s
  | .constructing p => m.resumeConstructing p s
  | .attaching derived job => m.resumeAttaching derived job s
  | .draining loop => m.resumeDraining loop s
  | .checkpoint loop => m.resumeCheckpoint loop s
  | .reporting loop reports => m.resumeReporting loop reports s
  | .collecting loop sweep record => m.resumeCollecting loop sweep record s
  | .cycling loop => m.resumeCycling loop s
  | .idling loop => m.resumeIdling loop s
  | .finishing loop => m.resumeFinishing loop s
  | .concluding loop => m.resumeConcluding loop s

/-! ## Stepping -/

/-- One step.  A loop that nothing keeps alive is removed before anything else happens.  An idle
machine stays as it is. -/
def step (m : Machine) : Machine :=
  match m.orphan? with
  | some l => m.removeLoop l
  | none =>
    match m.control with
    | .idle _ => m
    | .call f this arguments => (m.signal .done).enter f this arguments
    | .collect loop s => (m.signal .done).collectNext loop s
    | .signal s =>
      match m.stack with
      -- a command answers before its stack is empty, so this is never met
      | [] => { m with control := .idle .done }
      | f :: rest => { m with stack := rest, control := .signal .done }.resume f s

/-- Whether the machine waits for a command. -/
def isIdle (m : Machine) : Bool :=
  match m.control with
  | .idle _ => m.orphan?.isNone
  | _ => false

/-- Steps until the machine is idle, at most `fuel` times. -/
def run : Nat → Machine → Machine
  | 0, m => m
  | fuel + 1, m => if m.isIdle then m else run fuel m.step

/-- An idle machine stays as it is. -/
theorem step_of_isIdle {m : Machine} (h : m.isIdle = true) : m.step = m := by
  unfold isIdle at h
  unfold step
  split at h
  · rename_i a hc
    rw [Option.isNone_iff_eq_none.mp h, hc]
  · exact absurd h (by simp)

theorem run_of_isIdle {m : Machine} (h : m.isIdle = true) (fuel : Nat) : run fuel m = m := by
  cases fuel with
  | zero => rfl
  | succ fuel => rw [run, if_pos h]

/-- Running is stepping: an idle machine only repeats itself. -/
theorem run_succ (fuel : Nat) (m : Machine) : run (fuel + 1) m = run fuel m.step := by
  rw [run]
  split
  · rename_i h
    rw [step_of_isIdle h, run_of_isIdle h]
  · rfl

/-- A run goes on where a shorter one has left off. -/
theorem run_add (a b : Nat) (m : Machine) : run (a + b) m = run b (run a m) := by
  induction a generalizing m with
  | zero => rw [Nat.zero_add]; rfl
  | succ a ih => rw [Nat.succ_add, run_succ, run_succ, ih]

/-- Gives an idle machine a command. -/
def start (m : Machine) (c : Command) : Machine :=
  let m := { m with trace := [] }
  match c with
  | .step s store catches =>
    m.beginStep { word := s.word, store, catches, isControl := false } s
  | c => (m.push (.command .control [])).beginCommand c

/-- The number of steps that a command may take.  No script that ends comes near it. -/
def patience : Nat := 1000000000

/-- Gives the machine a command and steps until it is idle again. -/
def perform (m : Machine) (c : Command) : Machine := run patience (m.start c)

/-! ## Reachable machines -/

/-- A machine with one loop called `main`. -/
def boot (config : Config) (tracker : Tracker) (bridge : Bridge) : Machine :=
  ({} : Machine).openLoop "main" config tracker bridge

/-- The machines that occur in some run: any commands, given whenever the machine is idle, and any
number of steps. -/
inductive Reachable : Machine → Prop
  | boot (config : Config) (tracker : Tracker) (bridge : Bridge) :
      Reachable (boot config tracker bridge)
  | start {m : Machine} (h : Reachable m) (idle : m.isIdle = true) (c : Command) :
      Reachable (m.start c)
  | step {m : Machine} (h : Reachable m) : Reachable m.step

theorem Reachable.run {m : Machine} (h : Reachable m) (fuel : Nat) :
    Reachable (Machine.run fuel m) := by
  induction fuel generalizing m with
  | zero => exact h
  | succ fuel ih =>
    unfold Machine.run
    split
    · exact h
    · exact ih h.step

end PromiseLoop.Machine

import PromiseLoop.Proofs.Views.Runs

/-!
# What becomes of the objects

Of all that a machine can do, only two commands put a property on an object, and only one creates one.
Everything else leaves the objects as they are, and may only take some of them away: those that were let go
for the last time.

## Results

* `OnlyHas.drop`: letting values go takes objects away and changes none.
* `OnlyHas.beginStep`, `OnlyHas.resume`: so does every command but the three, and every activity that goes on.
* `onlyHas_start`, `onlyHas_step`: what becomes of the objects in a move.
-/

namespace PromiseLoop

namespace Machine

/-- A machine has no objects but some given ones, which are as they were, and has created no more. -/
def OnlyHas (m : Machine) (os : List (ObjectId × Properties)) (n : Nat) : Prop :=
  m.objects.Sublist os ∧ m.nextObject = n

namespace OnlyHas

variable {m m' : Machine} {os : List (ObjectId × Properties)} {n : Nat}

theorem refl (m : Machine) : m.OnlyHas m.objects m.nextObject := ⟨.refl _, rfl⟩

variable (h : m.OnlyHas os n)
include h

/-- Letting values go takes objects away and changes none. -/
theorem drop (vs : List Value) : (drop vs m).OnlyHas os n := by
  apply drop_induction (P := fun m => m.OnlyHas os n)
  · exact fun _ _ h => h
  · intro m o ps m' h taken
    rw [eq_of_takeObject? taken]
    exact ⟨List.filter_sublist.trans h.1, h.2⟩
  · exact h

theorem traceEntry (e : Entry) : (m.traceEntry e).OnlyHas os n := by
  unfold Machine.traceEntry
  split <;> exact h

-- ---------------------------------------------------------------------------
-- Calls
-- ---------------------------------------------------------------------------

theorem read (o : ObjectId) (key : String) : (m.read o key).OnlyHas os n := by
  unfold Machine.read
  split <;> exact h

theorem callValue (f this : Value) (arguments : List Value) :
    (m.callValue f this arguments).OnlyHas os n := by
  unfold Machine.callValue
  split
  · exact h
  · apply drop
    exact h

theorem invoke (k : LoopId) (f this : Value) (arguments : List Value) :
    (m.invoke k f this arguments).OnlyHas os n := by
  unfold Machine.invoke
  dsimp only
  split
  · apply read
    exact h
  · apply callValue
    exact h

theorem askThen (v : Value) (plan : ProbePlan) : (m.askThen v plan).OnlyHas os n := by
  unfold Machine.askThen
  split
  · apply read
    exact h
  · exact h
  · exact h

theorem probe (k : LoopId) (v : Value) : (m.probe k v).OnlyHas os n := by
  unfold Machine.probe
  split
  · exact h
  · split
    · exact h
    · split
      · apply askThen
        exact h
      · exact h

theorem settle (p : Promise) (s : State) (v : Value) (spent : List Value) :
    (m.settle p s v spent).OnlyHas os n := by
  unfold Machine.settle
  split <;> (apply drop; exact h)

theorem resolveLocked (p : Promise) (v : Value) : (m.resolveLocked p v).OnlyHas os n := by
  unfold Machine.resolveLocked
  split
  · apply settle
    exact h
  · apply probe
    exact h

theorem withLock (k : LoopId) (p : Promise) (v : Value) {act : Machine → Machine}
    (acts : ∀ m : Machine, m.OnlyHas os n → (act m).OnlyHas os n) :
    (m.withLock k p v act).OnlyHas os n := by
  unfold Machine.withLock
  split
  · apply drop
    exact h
  · split
    · apply drop
      exact h
    · apply drop
      exact h
    · exact acts _ h

theorem resolve (k : LoopId) (p : Promise) (v : Value) : (m.resolve k p v).OnlyHas os n :=
  h.withLock k p v fun _ h => h.resolveLocked p v

theorem reject (k : LoopId) (p : Promise) (v : Value) : (m.reject k p v).OnlyHas os n :=
  h.withLock k p v fun _ h => h.settle p .rejected v []

theorem newPromise {k : LoopId} {p : Promise} (hn : m.newPromise k = some (p, m')) :
    m'.OnlyHas os n := by
  obtain ⟨l, -, heq⟩ := Option.map_eq_some_iff.mp hn
  rw [← (Prod.mk.inj heq).2]
  exact h

theorem callback (name : String) (arguments : List Value) : (m.callback name arguments).OnlyHas os n := by
  unfold Machine.callback
  split <;> exact h

theorem tellUnhandled (k : LoopId) (id : PromiseId) (reason : Value) :
    (m.tellUnhandled k id reason).OnlyHas os n := by
  unfold Machine.tellUnhandled
  split
  · apply traceEntry
    exact h
  · apply callback
    exact h
  · exact h

theorem tellHandled (k : LoopId) (id : PromiseId) : (m.tellHandled k id).OnlyHas os n := by
  unfold Machine.tellHandled
  split
  · apply traceEntry
    exact h
  · apply callback
    exact h
  · exact h

theorem attach (k : LoopId) (p : Promise) (f g : Option Value) (unused : List Value) :
    (m.attach k p f g unused).OnlyHas os n := by
  unfold Machine.attach
  split
  · apply drop
    exact h
  · split
    · apply drop
      exact h
    · split
      · apply tellHandled
        apply drop
        exact h
      · apply drop
        exact h

theorem thenMethod (home : LoopId) (this : Value) (arguments unused : List Value) :
    (m.thenMethod home this arguments unused).OnlyHas os n := by
  unfold Machine.thenMethod
  split
  · apply drop
    exact h
  · split
    · apply drop
      exact h
    · apply attach
      exact h

theorem claim {r : Resolver} {accepted : Bool} (hc : m.claim r = .ok (accepted, m')) :
    m'.OnlyHas os n := by
  unfold Machine.claim at hc
  split at hc
  · cases hc
    exact h
  · split at hc
    · cases hc
      exact h
    · rename_i l _
      cases hk : l.lock r.promise with
      | error f => rw [hk] at hc; cases hc
      | ok taken =>
        rw [hk] at hc
        cases hc
        exact h

theorem enterResolver (r : Resolver) (this : Value) (arguments : List Value) :
    (m.enterResolver r this arguments).OnlyHas os n := by
  unfold Machine.enterResolver
  split
  · apply drop
    exact h
  · split
    · apply drop
      exact h
    · rename_i m' hc
      have claimed := claim h hc
      apply drop
      exact claimed
    · rename_i m' hc
      have claimed := claim h hc
      dsimp only
      have begun : (Machine.drop (arguments.drop 1) ((m'.push (.give .undefined [this])).signal
          (.value (arguments.headD .undefined)))).OnlyHas os n := by
        apply drop
        exact claimed
      split
      · exact resolveLocked begun _ _
      · exact settle begun _ _ _ _

theorem enterRoutine (number : Nat) (name : String) (this : Value) (arguments : List Value) :
    (m.enterRoutine number name this arguments).OnlyHas os n := by
  unfold Machine.enterRoutine
  split
  · apply drop
    exact h
  · apply traceEntry
    exact h

theorem enter (f : Callable) (this : Value) (arguments : List Value) :
    (m.enter f this arguments).OnlyHas os n := by
  unfold Machine.enter
  split
  · apply enterRoutine
    exact h
  · apply enterResolver
    exact h
  · apply thenMethod
    exact h
  · apply thenMethod
    exact h

-- ---------------------------------------------------------------------------
-- Turns
-- ---------------------------------------------------------------------------

theorem startWork (w : Work) (e : Entry) : (m.startWork w e).OnlyHas os n := by
  have pushed : (m.push (.work w.quiet)).OnlyHas os n := h
  exact pushed.traceEntry e

theorem startReaction (k : LoopId) (r : Reaction) (argument : Value) :
    (m.startReaction k r argument).OnlyHas os n := by
  unfold Machine.startReaction
  split
  · apply invoke
    exact h
  · dsimp only
    split
    · apply resolve
      exact h
    · apply reject
      exact h

theorem startSettlement (k : LoopId) (r : Report) : (m.startSettlement k r).OnlyHas os n := by
  unfold Machine.startSettlement
  split
  · exact h
  · dsimp only
    split
    · split
      · apply resolve
        exact h
      · apply reject
        exact h
    · apply drop
      exact h

theorem startJob (k : LoopId) (j : Job) : (m.startJob k j).OnlyHas os n := by
  unfold Machine.startJob
  split
  · apply startReaction
    exact h
  · apply invoke
    exact h
  · apply startSettlement
    exact h
  · apply startWork
    exact h

theorem nextMicrotask (k : LoopId) : (m.nextMicrotask k).OnlyHas os n := by
  unfold Machine.nextMicrotask
  split
  · exact h
  · apply startJob
    exact h

theorem drain (k : LoopId) : (m.drain k).OnlyHas os n := by
  unfold Machine.drain
  split
  · exact h
  · split <;> exact h

theorem resumeDraining (k : LoopId) (s : Signal) : (m.resumeDraining k s).OnlyHas os n := by
  unfold Machine.resumeDraining
  split
  · exact h
  · apply nextMicrotask
    apply drop
    exact h

theorem collect (k : LoopId) : (m.collect k).OnlyHas os n := by
  unfold Machine.collect
  split <;> exact h

theorem endCollection (k : LoopId) (s : Sweep) : (m.endCollection k s).OnlyHas os n := by
  unfold Machine.endCollection
  split <;> exact h

theorem collectNext (k : LoopId) (s : Sweep) : (m.collectNext k s).OnlyHas os n := by
  unfold Machine.collectNext
  split
  · split
    · apply endCollection
      exact h
    · apply endCollection
      exact h
    · exact h
  · split
    · exact h
    · dsimp only
      split
      · apply tellUnhandled
        exact h
      · apply drop
        exact h

theorem finishCheckpoint (k : LoopId) : (m.finishCheckpoint k).OnlyHas os n := by
  unfold Machine.finishCheckpoint
  split
  · exact h
  · split <;> exact h

theorem resumeReporting (k : LoopId) (reports : List (PromiseId × Value)) (s : Signal) :
    (m.resumeReporting k reports s).OnlyHas os n := by
  unfold Machine.resumeReporting
  split
  · apply finishCheckpoint
    apply drop
    exact h
  · rename_i id reason rest
    dsimp only
    apply tellUnhandled
    apply drop
    exact h

theorem checkpoint (k : LoopId) : (m.checkpoint k).OnlyHas os n := by
  unfold Machine.checkpoint
  apply drain
  exact h

theorem resumeCheckpoint (k : LoopId) (s : Signal) : (m.resumeCheckpoint k s).OnlyHas os n := by
  unfold Machine.resumeCheckpoint
  split
  · exact h
  · dsimp only
    split <;> (apply drop; exact h)

theorem cycle (k : LoopId) : (m.cycle k).OnlyHas os n := by
  unfold Machine.cycle
  dsimp only
  split
  · apply checkpoint
    exact h
  · apply startWork
    exact h

theorem resumeCycling (k : LoopId) (s : Signal) : (m.resumeCycling k s).OnlyHas os n := by
  unfold Machine.resumeCycling
  split
  · exact h
  · apply checkpoint
    apply drop
    exact h

theorem idle (k : LoopId) : (m.idle k).OnlyHas os n := by
  unfold Machine.idle
  apply cycle
  exact h

theorem resumeIdling (k : LoopId) (s : Signal) : (m.resumeIdling k s).OnlyHas os n := by
  unfold Machine.resumeIdling
  split
  · exact h
  · dsimp only
    split
    · apply drop
      exact h
    · apply idle
      apply drop
      exact h

theorem finish (k : LoopId) : (m.finish k).OnlyHas os n := by
  unfold Machine.finish
  apply idle
  exact h

theorem resumeFinishing (k : LoopId) (s : Signal) : (m.resumeFinishing k s).OnlyHas os n := by
  unfold Machine.resumeFinishing
  split
  · exact h
  · dsimp only
    split
    · apply drop
      exact h
    · split
      · apply drop
        exact h
      · split
        · apply finish
          apply drop
          exact h
        · apply drop
          exact h

theorem conclude (k : LoopId) : (m.conclude k).OnlyHas os n := by
  unfold Machine.conclude
  split
  · apply finish
    exact h
  · apply idle
    exact h

theorem resumeConcluding (k : LoopId) (s : Signal) : (m.resumeConcluding k s).OnlyHas os n := by
  unfold Machine.resumeConcluding
  split
  · exact h
  · apply conclude
    apply drop
    exact h

-- ---------------------------------------------------------------------------
-- Commands
-- ---------------------------------------------------------------------------

theorem assign (name : String) (v : Value) : (m.assign name v).OnlyHas os n := by
  unfold Machine.assign
  apply drop
  exact h

theorem showAnswer (info : CommandInfo) (s : Signal) (answer : Answer) :
    (m.showAnswer info s answer).OnlyHas os n := by
  unfold Machine.showAnswer
  split
  · exact h
  · apply traceEntry
    exact h

theorem storeValue (info : CommandInfo) (s : Signal) : (m.storeValue info s).OnlyHas os n := by
  unfold Machine.storeValue
  split
  · split
    · exact h
    · apply assign
      exact h
  · exact h

theorem endCommand (info : CommandInfo) (operands : List Value) (e : Ending) :
    (m.endCommand info operands e).OnlyHas os n := by
  unfold Machine.endCommand
  split
  · apply showAnswer
    apply drop
    exact h
  · apply drop
    apply showAnswer
    apply storeValue
    apply drop
    exact h

theorem endWith (info : CommandInfo) (v : Value) : (m.endWith info v).OnlyHas os n := endCommand h _ _ _

theorem endDone (info : CommandInfo) : (m.endDone info).OnlyHas os n := endCommand h _ _ _

theorem removeVariables (names : List String) : (names.foldl removeVariable m).OnlyHas os n := by
  induction names generalizing m with
  | nil => exact h
  | cons name names ih =>
    refine ih ?_
    unfold removeVariable
    apply drop
    exact h

theorem useCompleter (name : String) (result : WorkResult) : (m.useCompleter name result).OnlyHas os n := by
  unfold Machine.useCompleter
  cases ht : m.takeCompleter name with
  | none => exact h
  | some x =>
    obtain ⟨e, -, rfl⟩ := Option.map_eq_some_iff.mp ht
    exact h

theorem keepCompleter (name : String) (c : Completer) : (m.keepCompleter name c).OnlyHas os n :=
  useCompleter h _ _

theorem withLoop (info : CommandInfo) (name : String) (operands : List Value)
    {run : Machine → LoopId → Machine} (runs : ∀ m : Machine, m.OnlyHas os n → ∀ k, (run m k).OnlyHas os n) :
    (m.withLoop info name operands run).OnlyHas os n := by
  unfold Machine.withLoop
  split
  · apply runs
    exact h
  · apply endDone
    exact h

theorem withPromise (info : CommandInfo) (name : String) (x : Operand)
    {run : Machine → LoopId → Promise → Machine}
    (runs : ∀ m : Machine, m.OnlyHas os n → ∀ k p, (run m k p).OnlyHas os n) :
    (m.withPromise info name x run).OnlyHas os n := by
  unfold Machine.withPromise
  split
  · exact withLoop h _ _ _ fun m h k => runs m h k _
  · apply endDone
    exact h

theorem construct (k : LoopId) (initializer : Value) : (m.construct k initializer).OnlyHas os n := by
  unfold Machine.construct
  split
  · exact h
  · split
    · apply invoke
      exact h
    · exact h

theorem resumeConstructing (p : Promise) (s : Signal) : (m.resumeConstructing p s).OnlyHas os n := by
  unfold Machine.resumeConstructing
  split
  · apply reject
    exact h
  · apply drop
    exact h

theorem promiseResolve (k : LoopId) (v : Value) : (m.promiseResolve k v).OnlyHas os n := by
  unfold Machine.promiseResolve
  split
  · exact h
  · split
    · exact h
    · apply resolve
      exact h

theorem promiseReject (k : LoopId) (v : Value) : (m.promiseReject k v).OnlyHas os n := by
  unfold Machine.promiseReject
  split
  · exact h
  · apply reject
    exact h

theorem callMethod (k : LoopId) (name : String) (this : Value) (arguments : List Value) :
    (m.callMethod k name this arguments).OnlyHas os n := by
  unfold Machine.callMethod
  split
  · exact h
  · apply drop
    exact h

theorem beginRounds (count : Nat) (body : List Command) (quiet : Bool) :
    (m.beginRounds count body quiet).OnlyHas os n := by
  unfold Machine.beginRounds
  split <;> exact h

-- ---------------------------------------------------------------------------
-- Going on
-- ---------------------------------------------------------------------------

theorem resumeRounds (body : List Command) (round remaining : Nat) (quiet : Bool) (s : Signal) :
    (m.resumeRounds body round remaining quiet s).OnlyHas os n := by
  unfold Machine.resumeRounds
  split <;> exact h

theorem resumeCall (this : Value) (arguments : List Value) (s : Signal) :
    (m.resumeCall this arguments s).OnlyHas os n := by
  unfold Machine.resumeCall
  split <;> (apply drop; exact h)

theorem resumeWork (s : Signal) : (m.resumeWork s).OnlyHas os n := by
  unfold Machine.resumeWork
  split
  · exact h
  · apply drop
    exact h
  · apply drop
    exact h

theorem resumeFunctionOnly (s : Signal) : (m.resumeFunctionOnly s).OnlyHas os n := by
  unfold Machine.resumeFunctionOnly
  split
  · exact h
  · apply drop
    exact h
  · exact h

theorem resumeSubstitute (this : Value) (arguments : List Value) (s : Signal) :
    (m.resumeSubstitute this arguments s).OnlyHas os n := by
  unfold Machine.resumeSubstitute
  split
  · apply callValue
    exact h
  · apply drop
    exact h

theorem resumeResolving (p : Promise) (v : Value) (s : Signal) :
    (m.resumeResolving p v s).OnlyHas os n := by
  unfold Machine.resumeResolving
  split
  · apply drop
    exact h
  · apply settle
    exact h
  · apply settle
    exact h

theorem resumeReacting (handler : Value) (derived : Promise) (s : Signal) :
    (m.resumeReacting handler derived s).OnlyHas os n := by
  unfold Machine.resumeReacting
  dsimp only
  split
  · apply resolve
    exact h
  · apply reject
    exact h
  · exact h

theorem resumeAdopting (p : Promise) (resolver thenFunction : Value) (s : Signal) :
    (m.resumeAdopting p resolver thenFunction s).OnlyHas os n := by
  unfold Machine.resumeAdopting
  dsimp only
  split
  · apply enterResolver
    exact h
  · exact h

/-- Every activity that goes on leaves the objects as they are, unless it is a body that begins its next
command. -/
theorem resume {f : Frame} (other : ∀ rest, f ≠ .block rest) (s : Signal) :
    (m.resume f s).OnlyHas os n := by
  cases f with
  | block rest => exact absurd rfl (other rest)
  | rounds body round remaining quiet => exact resumeRounds h _ _ _ _ _
  | command info operands => exact endCommand h _ _ _
  | call this arguments quiet => exact resumeCall h _ _ _
  | work quiet => exact resumeWork h _
  | hold values | discard values =>
    apply drop
    exact h
  | give v values | surface values =>
    unfold Machine.resume
    dsimp only
    split <;> (apply drop; exact h)
  | functionOnly => exact resumeFunctionOnly h _
  | substitute this arguments => exact resumeSubstitute h _ _ _
  | resolving p v => exact resumeResolving h _ _ _
  | reacting handler derived => exact resumeReacting h _ _ _
  | adopting p resolver thenFunction => exact resumeAdopting h _ _ _ _
  | constructing p => exact resumeConstructing h _ _
  | attaching derived job | collecting loop sweep record =>
    apply drop
    exact h
  | draining loop => exact resumeDraining h _ _
  | checkpoint loop => exact resumeCheckpoint h _ _
  | reporting loop reports => exact resumeReporting h _ _ _
  | cycling loop => exact resumeCycling h _ _
  | idling loop => exact resumeIdling h _ _
  | finishing loop => exact resumeFinishing h _ _
  | concluding loop => exact resumeConcluding h _ _

end OnlyHas

end Machine

-- ---------------------------------------------------------------------------
-- Putting properties
-- ---------------------------------------------------------------------------

/-- The step that a command is. -/
def Command.step? : Command → Option Step
  | .step s _ _ => some s
  | _ => none

/-- Whether a step creates an object or puts a property on one. -/
def Step.isPut : Step → Bool
  | .object _ | .set .. | .getter .. => true
  | _ => false

/-- The properties after some puts, in their order. -/
def Properties.putAll (ps : Properties) (puts : List (String × Property)) : Properties :=
  puts.foldl (fun ps e => ps.put e.1 e.2) ps

namespace Machine

variable {m m' : Machine}

/-- What a step puts on an object.  A new object is created with its first puts. -/
def putsOn (m : Machine) (o : ObjectId) : Step → List (String × Property)
  | .object ps => if o = ⟨m.nextObject⟩ then ps.map fun e => (e.1, .data (m.evaluate e.2)) else []
  | .set x key y => if m.evaluate x = .object o then [(key, .data (m.evaluate y))] else []
  | .getter x key y =>
    match m.evaluate y with
    | .function g => if m.evaluate x = .object o then [(key, .getter g)] else []
    | _ => []
  | _ => []

/-- The objects after a step has begun, unless some are let go. -/
def objectsAfter (m : Machine) : Step → List (ObjectId × Properties)
  | .object ps => (⟨m.nextObject⟩, Properties.empty.putAll (m.putsOn ⟨m.nextObject⟩ (.object ps))) :: m.objects
  | s => m.objects.map fun e => (e.1, e.2.putAll (m.putsOn e.1 s))

/-- The number of the next object after a step has begun. -/
def nextAfter (m : Machine) : Step → Nat
  | .object _ => m.nextObject + 1
  | _ => m.nextObject

theorem map_putAll_nil (os : List (ObjectId × Properties)) :
    (os.map fun e => (e.1, e.2.putAll [])) = os := List.map_id os

theorem objectsAfter_of_not_put {s : Step} (other : s.isPut = false) : m.objectsAfter s = m.objects := by
  cases s <;> first | exact map_putAll_nil m.objects | cases other

theorem nextAfter_of_not_put {s : Step} (other : s.isPut = false) : m.nextAfter s = m.nextObject := by
  cases s <;> first | rfl | cases other

theorem initialProperties_eq (m : Machine) (ps : List (String × Operand)) :
    m.initialProperties ps = Properties.empty.putAll (m.putsOn ⟨m.nextObject⟩ (.object ps)) := by
  simp [initialProperties, Properties.putAll, putsOn, List.foldl_map]

/-- Putting a property lets go of the one it replaces. -/
theorem onlyHas_replaceProperty (m : Machine) (o : ObjectId) (key : String) (p : Property) :
    (m.replaceProperty o key p).OnlyHas
      (m.objects.map fun e => (e.1, e.2.putAll (if o = e.1 then [(key, p)] else []))) m.nextObject := by
  apply OnlyHas.drop
  have put : (m.putProperty o key p).objects =
      m.objects.map fun e => (e.1, e.2.putAll (if o = e.1 then [(key, p)] else [])) := by
    refine List.map_congr_left fun e _ => ?_
    by_cases he : e.1 = o
    · simp [he, Properties.putAll]
    · simp [he, Ne.symm he, Properties.putAll]
  exact ⟨put ▸ .refl _, rfl⟩

/-- The beginning of a step that puts nothing leaves the objects as they are. -/
theorem OnlyHas.beginStep {os : List (ObjectId × Properties)} {n : Nat} (h : m.OnlyHas os n)
    (info : CommandInfo) {s : Step} (other : s.isPut = false) : (m.beginStep info s).OnlyHas os n := by
  cases s with
  | object | set | getter => cases other
  | ask q =>
    unfold Machine.beginStep
    dsimp only
    split <;> exact h.endCommand _ _ _
  | give | add | cycleError => exact h.endCommand _ _ _
  | drop names => exact (h.removeVariables names).endDone _
  | log x => exact (h.traceEntry _).endDone _
  | routine | native | openLoop | dropLoop =>
    apply OnlyHas.endCommand
    exact h
  | get o key =>
    unfold Machine.beginStep
    dsimp only
    split
    · apply OnlyHas.read
      exact h
    · exact h.endDone _
  | invoke f on arguments =>
    apply OnlyHas.callValue
    exact h
  | probeNatively x =>
    apply OnlyHas.askThen
    exact h
  | newPromise loop =>
    unfold Machine.beginStep
    dsimp only
    split
    · rename_i p m' hn
      obtain ⟨k, -, hn⟩ := Option.bind_eq_some_iff.mp hn
      exact (h.newPromise hn).endWith _ _
    · exact h.endDone _
  | resolve loop p x => exact h.withPromise _ _ _ fun _ h k p => h.resolve k p _
  | reject loop p x => exact h.withPromise _ _ _ fun _ h k p => h.reject k p _
  | construct loop x => exact h.withLoop _ _ _ fun _ h k => h.construct k _
  | promiseResolve loop x => exact h.withLoop _ _ _ fun _ h k => h.promiseResolve k _
  | promiseReject loop x => exact h.withLoop _ _ _ fun _ h k => h.promiseReject k _
  | attach word loop p f g => exact h.withPromise _ _ _ fun _ h k p => h.attach k p _ _ _
  | callMethod loop name on arguments => exact h.withLoop _ _ _ fun _ h k => h.callMethod k _ _ _
  | probe loop x => exact h.withLoop _ _ _ fun _ h k => h.probe k _
  | drain loop => exact h.withLoop _ _ _ fun _ h k => h.drain k
  | checkpoint loop => exact h.withLoop _ _ _ fun _ h k => h.checkpoint k
  | cycle loop => exact h.withLoop _ _ _ fun _ h k => h.cycle k
  | idle loop => exact h.withLoop _ _ _ fun _ h k => h.idle k
  | done loop => exact h.withLoop _ _ _ fun _ h k => h.conclude k
  | collect loop => exact h.withLoop _ _ _ fun _ h k => h.collect k
  | dropCompleter name => exact (h.useCompleter _ _).endDone _
  | complete name result => exact (h.useCompleter _ _).endDone _
  | method | task | microtask | finish =>
    unfold Machine.beginStep
    dsimp only
    split
    · apply OnlyHas.endCommand
      exact h
    · exact h.endDone _
  | completer loop name =>
    unfold Machine.beginStep
    dsimp only
    split
    · apply OnlyHas.endCommand
      apply OnlyHas.keepCompleter
      exact h
    · exact h.endDone _
  | spawn loop result now =>
    unfold Machine.beginStep
    dsimp only
    split
    · apply OnlyHas.endCommand
      exact h
    · exact h.endDone _

/-- The beginning of any step. -/
theorem onlyHas_beginStep (m : Machine) (info : CommandInfo) (s : Step) :
    (m.beginStep info s).OnlyHas (m.objectsAfter s) (m.nextAfter s) := by
  cases hs : s.isPut with
  | false =>
    rw [objectsAfter_of_not_put hs, nextAfter_of_not_put hs]
    exact (OnlyHas.refl m).beginStep info hs
  | true =>
    cases s with
    | object ps =>
      apply OnlyHas.endCommand
      exact ⟨initialProperties_eq m ps ▸ .refl _, rfl⟩
    | set x key y =>
      unfold Machine.beginStep
      dsimp only
      split
      · rename_i o ho
        apply OnlyHas.endCommand
        have put := onlyHas_replaceProperty m o key (.data (m.evaluate y))
        simpa only [objectsAfter, nextAfter, putsOn, ho, Value.object.injEq] using put
      · rename_i none
        apply OnlyHas.endCommand
        refine ⟨?_, rfl⟩
        have puts (o : ObjectId) : m.putsOn o (.set x key y) = [] := if_neg (none o)
        simp only [objectsAfter, puts, map_putAll_nil]
        exact .refl _
    | getter x key y =>
      unfold Machine.beginStep
      dsimp only
      split
      · rename_i o g ho hg
        apply OnlyHas.endCommand
        have put := onlyHas_replaceProperty m o key (.getter g)
        simpa only [objectsAfter, nextAfter, putsOn, ho, hg, Value.object.injEq] using put
      · rename_i none
        apply OnlyHas.endCommand
        refine ⟨?_, rfl⟩
        have puts (o : ObjectId) : m.putsOn o (.getter x key y) = [] := by
          simp only [putsOn]
          split
          · rename_i g hg
            exact if_neg fun ho => none o g ho hg
          · rfl
        simp only [objectsAfter, puts, map_putAll_nil]
        exact .refl _
    | _ => cases hs

-- ---------------------------------------------------------------------------
-- Moves
-- ---------------------------------------------------------------------------

/-- The step that a move of the machine begins. -/
def begun? (m : Machine) : Option Step :=
  match m.orphan?, m.control, m.stack with
  | none, .signal .done, .block (.step s _ _ :: _) :: _ => some s
  | _, _, _ => none

/-- What the machine has begun beneath a body does not matter to a step. -/
theorem objectsAfter_congr (objects : m'.objects = m.objects) (next : m'.nextObject = m.nextObject)
    (vars : m'.vars = m.vars) (scope : m'.scope = m.scope) (round : m'.round = m.round) (s : Step) :
    m'.objectsAfter s = m.objectsAfter s ∧ m'.nextAfter s = m.nextAfter s := by
  have evaluated (x : Operand) : m'.evaluate x = m.evaluate x := by
    cases x <;> simp only [evaluate, evaluateIn, vars, scope, round]
  have puts (o : ObjectId) : m'.putsOn o s = m.putsOn o s := by
    cases s <;> simp only [putsOn, evaluated, next]
  cases s <;> simp only [objectsAfter, nextAfter, puts, objects, next, and_self]

theorem onlyHas_beginCommand {c : Command} (other : ∀ s store catches, c ≠ .step s store catches) :
    (m.beginCommand c).OnlyHas m.objects m.nextObject := by
  cases c with
  | step s store catches => exact absurd rfl (other s store catches)
  | ret | raise | fail | branch => exact .refl m
  | loop count body quiet => exact (OnlyHas.refl m).beginRounds _ _ _

/-- What becomes of the objects when an idle machine is given a command. -/
theorem onlyHas_start (m : Machine) (c : Command) : (m.start c).OnlyHas
    (c.step?.elim m.objects m.objectsAfter) (c.step?.elim m.nextObject m.nextAfter) := by
  unfold start
  dsimp only
  split
  · exact onlyHas_beginStep _ _ _
  · rename_i other
    have none : c.step? = none := by
      cases c <;> first | rfl | exact absurd rfl (other _ _ _)
    rw [none]
    have begun := onlyHas_beginCommand (m := ({ m with trace := [] } : Machine).push (.command .control [])) other
    exact begun

/-- A body goes on with its next command, if there is one and nothing has failed. -/
theorem onlyHas_resumeBlock (m : Machine) (rest : List Command) (s : Signal) :
    (∃ t store catches more, rest = .step t store catches :: more ∧ s = .done ∧
      (m.resumeBlock rest s).OnlyHas (m.objectsAfter t) (m.nextAfter t)) ∨
    (∀ t store catches more, s = .done → rest ≠ .step t store catches :: more) ∧
      (m.resumeBlock rest s).OnlyHas m.objects m.nextObject := by
  unfold resumeBlock
  split
  · rename_i c rest
    by_cases hc : ∃ t store catches, c = .step t store catches
    · obtain ⟨t, store, catches, rfl⟩ := hc
      refine .inl ⟨t, store, catches, rest, rfl, rfl, ?_⟩
      exact onlyHas_beginStep _ _ _
    · have other : ∀ t store catches, c ≠ .step t store catches := fun t store catches h =>
        hc ⟨t, store, catches, h⟩
      refine .inr ⟨fun t store catches more _ h => other t store catches (List.cons.inj h).1, ?_⟩
      exact onlyHas_beginCommand (m := m.push (.block rest)) other
  · rename_i none
    exact .inr ⟨fun t store catches more hs h => none _ _ hs h, .refl m⟩

/-- What becomes of the objects in a step of the machine. -/
theorem onlyHas_step (m : Machine) : m.step.OnlyHas
    (m.begun?.elim m.objects m.objectsAfter) (m.begun?.elim m.nextObject m.nextAfter) := by
  unfold step begun?
  cases ho : m.orphan? with
  | some l =>
    apply OnlyHas.drop
    exact .refl m
  | none =>
    cases hc : m.control with
    | idle answer => exact .refl m
    | call f this arguments =>
      apply OnlyHas.enter
      exact .refl m
    | collect k s =>
      apply OnlyHas.collectNext
      exact .refl m
    | signal s =>
      cases hs : m.stack with
      | nil => cases s <;> exact .refl m
      | cons f base =>
        let popped : Machine := { m with stack := base, control := .signal .done }
        by_cases hf : ∃ rest, f = .block rest
        · obtain ⟨rest, rfl⟩ := hf
          rcases onlyHas_resumeBlock popped rest s with ⟨t, store, catches, more, rfl, rfl, has⟩ | ⟨none, has⟩
          · have same := objectsAfter_congr (show popped.objects = m.objects from rfl) rfl rfl
              (by simp only [popped, scope, hs, List.findSome?]) (by simp only [popped, round, hs, List.findSome?]) t
            rw [same.1, same.2] at has
            exact has
          · dsimp only
            split
            · rename_i t store catches more _ _ ended same
              exact absurd (Frame.block.inj (List.cons.inj same).1)
                (none t store catches more (Control.signal.inj ended))
            · exact has
        · have other : ∀ rest, f ≠ .block rest := fun rest h => hf ⟨rest, h⟩
          have resumed := (OnlyHas.refl popped).resume other s
          dsimp only
          split
          · rename_i same
            exact absurd (List.cons.inj same).1 (other _)
          · exact resumed


end Machine
end PromiseLoop

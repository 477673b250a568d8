import PromiseLoop.Proofs.Twins.Turns

/-!
# Commands of twin machines

A command that is begun in both of two twin machines ends in both in the same way, with the same answer:
nothing that a script can ask tells one from the other.

## Results

* `Twins.answer`: questions have the same answers.
* `Twins.beginStep`, `Twins.beginCommand`, `Twins.resumeBlock`: commands.
-/

namespace PromiseLoop.Machine

variable {gap : Gap} {past : List Pair} {m m' : Machine}

namespace Twins

-- ---------------------------------------------------------------------------
-- Questions
-- ---------------------------------------------------------------------------

/-- What is the same in alike loops is the same for whoever asks. -/
theorem askLoop (h : Twins gap past m m') (name : String) {question question' : Loop → Finding}
    (same : ∀ l l', l.Alike gap l' → question' l' = question l) :
    m'.askLoop name question' = m.askLoop name question := by
  unfold Machine.askLoop
  rw [h.named?]
  cases m.named? name with
  | none => rfl
  | some k =>
    rw [Option.bind_some, Option.bind_some]
    rcases h.found k with ⟨hl, hl'⟩ | ⟨l, l', hl, hl', alike⟩
    · rw [hl, hl']
    · rw [hl, hl']
      exact same l l' alike

theorem askRecord (h : Twins gap past m m') (name : String) (x : Operand)
    {question question' : Record → Finding} (same : question' = question) :
    m'.askRecord name x question' = m.askRecord name x question := by
  unfold Machine.askRecord
  rw [h.named?, h.evaluate, same]
  cases m.named? name with
  | none => rfl
  | some k =>
    rw [Option.bind_some, Option.bind_some]
    rcases h.found k with ⟨hl, hl'⟩ | ⟨l, l', hl, hl', alike⟩
    · rw [hl, hl']
    · rw [hl, hl']
      cases (m.evaluate x).asPromise? with
      | none => rfl
      | some p =>
        dsimp only
        rw [alike.record]

theorem isAlive (h : Twins gap past m m') (name : String) : m'.isAlive name = m.isAlive name := by
  have created : m'.created = m.created := by rw [h.same]
  unfold Machine.isAlive
  rw [created]
  split
  · rename_i e _
    rcases h.found e.2 with ⟨hl, hl'⟩ | ⟨l, l', hl, hl', -⟩
    · rw [hl, hl']
    · rw [hl, hl']
      rfl
  · rfl

/-- Questions have the same answers. -/
theorem answer (h : Twins gap past m m') (q : Query) : m'.answer q = m.answer q := by
  have shown : m'.shown = m.shown := funext h.shown
  have evaluate : m'.evaluate = m.evaluate := funext h.evaluate
  cases q with
  | has o key | debugObject o | debugFunction f | same a b | inspect x | isCallable x | id p
  | samePromise a b =>
    unfold Machine.answer
    simp only [evaluate, h.properties]
  | alive name => exact congrArg (fun b => Except.ok (Finding.flag b)) (h.isAlive name)
  | bridgeCounts name =>
    exact congrArg Except.ok (h.askLoop name fun l l' alike => by rw [alike.bridgeCounts])
  | config name => exact congrArg Except.ok (h.askLoop name fun l l' alike => by rw [alike.config])
  | state name p | handled name p => exact h.askRecord name p rfl
  | result name p =>
    refine h.askRecord name p ?_
    unfold showResult
    rw [shown]
  | info name p =>
    refine h.askRecord name p ?_
    unfold showResult
    rw [shown]
  | isPromise name x =>
    exact congrArg Except.ok (h.askLoop name fun l l' alike => by rw [h.evaluate, alike.ownPromise?])
  | live name => exact congrArg Except.ok (h.askLoop name fun l l' alike => by rw [alike.heap])
  | counts name => exact congrArg Except.ok (h.askLoop name fun l l' alike => by rw [alike.same]; rfl)
  | debugLoop name => exact congrArg Except.ok (h.askLoop name fun l l' alike => by rw [alike.same]; rfl)
  | events name =>
    have told : m'.showEvent = m.showEvent := by
      funext e
      cases e <;> simp only [showEvent, shown]
    refine congrArg Except.ok (h.askLoop name fun l l' alike => ?_)
    unfold showEvents
    rw [told, alike.same]
  | unhandled name =>
    refine congrArg Except.ok (h.askLoop name fun l l' alike => ?_)
    unfold showUnhandled
    rw [shown, alike.same]
    rfl
  | completerInfo name =>
    unfold Machine.answer
    dsimp only
    rw [h.completers]

-- ---------------------------------------------------------------------------
-- Ending
-- ---------------------------------------------------------------------------

theorem answerSignal (h : Twins gap past m m') (info : CommandInfo) (s : Signal) :
    m'.answerSignal info s = m.answerSignal info s := by
  have shown : m'.shown = m.shown := funext h.shown
  cases s <;> simp only [Machine.answerSignal, shown]

theorem assign (h : Twins gap past m m') (name : String) (v : Value) :
    Twins gap past (m.assign name v) (m'.assign name v) := by
  have assigned : Twins gap past { m with vars := m.vars.assign name v }
      { m' with vars := m.vars.assign name v } :=
    h.of_eq (by rw [h.same]) rfl rfl rfl rfl
  unfold Machine.assign
  rw [h.vars]
  exact assigned.drop _

theorem removeVariable (h : Twins gap past m m') (name : String) :
    Twins gap past (m.removeVariable name) (m'.removeVariable name) := by
  have removed : Twins gap past { m with vars := m.vars.remove name } { m' with vars := m.vars.remove name } :=
    h.of_eq (by rw [h.same]) rfl rfl rfl rfl
  unfold Machine.removeVariable
  rw [h.vars]
  exact removed.drop _

theorem removeVariables (h : Twins gap past m m') (names : List String) :
    Twins gap past (names.foldl Machine.removeVariable m) (names.foldl Machine.removeVariable m') := by
  induction names generalizing m m' with
  | nil => exact h
  | cons name names ih => exact ih (h.removeVariable name)

theorem storeValue (h : Twins gap past m m') (info : CommandInfo) (s : Signal) :
    Twins gap past (m.storeValue info s) (m'.storeValue info s) := by
  unfold Machine.storeValue
  split
  · split
    · exact h
    · exact h.assign _ _
  · exact h

theorem showAnswer (h : Twins gap past m m') (info : CommandInfo) (s : Signal) (answer : Answer) :
    Twins gap past (m.showAnswer info s answer) (m'.showAnswer info s answer) := by
  have emptied (n : Machine) (hn : n.stack = []) :
      n.showAnswer info s answer = { n with control := .idle answer } := by
    unfold Machine.showAnswer
    split
    · rfl
    · rename_i hs
      exact absurd hn hs
  have left (n : Machine) (hn : n.stack ≠ []) : n.showAnswer info s answer =
      (n.traceEntry (.step info.word answer)).signal (if s.isFailure && !info.catches then s else .done) := by
    unfold Machine.showAnswer
    split
    · rename_i hs
      exact absurd hs hn
    · rfl
  by_cases hs : m.stack = []
  · rw [emptied m hs, emptied m' (h.stack.trans hs)]
    exact h.idle _
  · rw [left m hs, left m' (by rw [h.stack]; exact hs)]
    exact (h.traceEntry _).signal _

theorem endCommand (h : Twins gap past m m') (info : CommandInfo) (operands : List Value) (e : Ending) :
    Twins gap past (m.endCommand info operands e) (m'.endCommand info operands e) := by
  unfold Machine.endCommand
  split
  · exact (h.drop_signal _ _).showAnswer _ _ _
  · rename_i s
    have stored := (h.drop_signal operands s).storeValue info s
    dsimp only
    rw [stored.answerSignal]
    exact (stored.showAnswer _ _ _).drop _

theorem endWith (h : Twins gap past m m') (info : CommandInfo) (v : Value) :
    Twins gap past (m.endWith info v) (m'.endWith info v) := h.endCommand info [] _

theorem endDone (h : Twins gap past m m') (info : CommandInfo) :
    Twins gap past (m.endDone info) (m'.endDone info) := h.endCommand info [] _

-- ---------------------------------------------------------------------------
-- Values
-- ---------------------------------------------------------------------------

theorem replaceProperty (h : Twins gap past m m') (o : ObjectId) (key : String) (p : Property) :
    Twins gap past (m.replaceProperty o key p) (m'.replaceProperty o key p) := by
  have put : Twins gap past (m.putProperty o key p) (m'.putProperty o key p) :=
    h.of_eq (by rw [h.same]; rfl) rfl rfl rfl rfl
  unfold Machine.replaceProperty
  rw [h.properties]
  exact put.drop _

theorem useCompleter (h : Twins gap past m m') (name : String) (result : WorkResult) :
    Twins gap past (m.useCompleter name result) (m'.useCompleter name result) := by
  unfold Machine.useCompleter takeCompleter
  rw [h.completers]
  cases m.completers.find? fun e => e.1 = name with
  | none => exact h
  | some e =>
    have taken : Twins gap past { m with completers := m.completers.filter fun e => e.1 ≠ name }
        { m' with completers := m.completers.filter fun e => e.1 ≠ name } :=
      h.of_eq (by rw [h.same]) rfl rfl rfl rfl
    exact taken.modifyLoop e.2.loop (fun _ _ alike => alike.post _) fun _ => rfl

theorem keepCompleter (h : Twins gap past m m') (name : String) (c : Completer) :
    Twins gap past (m.keepCompleter name c) (m'.keepCompleter name c) := by
  have used := h.useCompleter name .abandoned
  exact used.of_eq (by rw [Machine.keepCompleter, used.same]; rfl) rfl rfl rfl rfl

theorem openLoop (h : Twins gap past m m') (name : String) (config : Config) (tracker : Tracker)
    (bridge : Bridge) :
    Twins gap past (m.openLoop name config tracker bridge) (m'.openLoop name config tracker bridge) := by
  have size : m'.loops.length = m.loops.length := h.loops.length_eq.symm
  have fresh : Option.Rel (Loop.Alike gap)
      (some { id := ⟨m.loops.length⟩, config, tracker, bridge } : Option Loop)
      (some { id := ⟨m.loops.length⟩, config, tracker, bridge }) :=
    .some (.refl gap fun _ _ hv => by cases hv)
  refine ⟨⟨?_, ?_, ?_, h.pairs⟩, h.asks⟩
  · unfold Machine.openLoop
    dsimp only
    rw [size, h.same]
  · unfold Machine.openLoop
    rw [size]
    exact List.rel_append h.loops (.cons fresh .nil)
  · intro k l hl
    rw [loop?_openLoop] at hl
    split at hl
    · rw [← Option.some.inj hl]
    · exact h.placed k l hl

-- ---------------------------------------------------------------------------
-- Beginning
-- ---------------------------------------------------------------------------

theorem withLoop (h : Twins gap past m m') (info : CommandInfo) (name : String) (operands : List Value)
    {run : Machine → LoopId → Machine}
    (runs : ∀ n n' k, Twins gap past n n' → Ends gap past (run n k) (run n' k)) :
    Ends gap past (m.withLoop info name operands run) (m'.withLoop info name operands run) := by
  unfold Machine.withLoop
  rw [h.named?]
  split
  · exact runs _ _ _ (h.push (by trivial))
  · exact (h.endDone info).ends

theorem withPromise (h : Twins gap past m m') (info : CommandInfo) (name : String) (x : Operand)
    {run : Machine → LoopId → Promise → Machine}
    (runs : ∀ n n' k p, Twins gap past n n' → Ends gap past (run n k p) (run n' k p)) :
    Ends gap past (m.withPromise info name x run) (m'.withPromise info name x run) := by
  unfold Machine.withPromise
  rw [h.evaluate]
  split
  · exact h.withLoop info name _ fun n n' k => runs n n' k _
  · exact (h.endDone info).ends

theorem construct (h : Twins gap past m m') (k : LoopId) (initializer : Value) :
    Twins gap past (m.construct k initializer) (m'.construct k initializer) := by
  unfold Machine.construct
  rcases h.found k with ⟨hl, hl'⟩ | ⟨l, l', hl, hl', alike⟩
  · rw [hl, hl']
    exact h.signal _
  · rw [hl, hl']
    obtain ⟨derived, created⟩ := alike.newPromise
    dsimp only
    rw [alike.bridge, h.properties, derived]
    split
    · exact ((h.setLoop hl created l.id_newPromise).push (by trivial)).invoke _ _ _ _
    · exact h.signal _

theorem resumeConstructing (h : Twins gap past m m') (p : Promise) (s : Signal) :
    Ends gap past (m.resumeConstructing p s) (m'.resumeConstructing p s) := by
  unfold Machine.resumeConstructing
  split
  · exact ((h.push (f := .surface []) trivial).push (by trivial)).reject _ _ _
  · exact (h.drop_signal _ _).ends

theorem promiseResolve (h : Twins gap past m m') (k : LoopId) (v : Value) :
    Ends gap past (m.promiseResolve k v) (m'.promiseResolve k v) := by
  unfold Machine.promiseResolve
  rcases h.found k with ⟨hl, hl'⟩ | ⟨l, l', hl, hl', alike⟩
  · rw [hl, hl']
    exact (h.signal _).ends
  · rw [hl, hl']
    obtain ⟨derived, created⟩ := alike.newPromise
    dsimp only
    rw [alike.ownPromise?, derived]
    split
    · exact (h.signal _).ends
    · exact ((h.setLoop hl created l.id_newPromise).push (by trivial)).resolve _ _ _

theorem promiseReject (h : Twins gap past m m') (k : LoopId) (v : Value) :
    Ends gap past (m.promiseReject k v) (m'.promiseReject k v) := by
  unfold Machine.promiseReject
  rcases h.found k with ⟨hl, hl'⟩ | ⟨l, l', hl, hl', alike⟩
  · rw [hl, hl']
    exact (h.signal _).ends
  · rw [hl, hl']
    obtain ⟨derived, created⟩ := alike.newPromise
    dsimp only
    rw [derived]
    exact ((h.setLoop hl created l.id_newPromise).push (by trivial)).reject _ _ _

theorem callMethod (h : Twins gap past m m') (k : LoopId) (name : String) (this : Value)
    (arguments : List Value) :
    Twins gap past (m.callMethod k name this arguments) (m'.callMethod k name this arguments) := by
  unfold Machine.callMethod
  split
  · exact h.willCall _ _ _
  · exact h.drop_signal _ _

/-- A loop that a command names is found in both machines. -/
theorem named (h : Twins gap past m m') (name : String) :
    (m.named? name).bind m.loop? = none ∧ (m'.named? name).bind m'.loop? = none ∨
      ∃ k l l', m.loop? k = some l ∧ (m.named? name).bind m.loop? = some l ∧
        (m'.named? name).bind m'.loop? = some l' ∧ l.Alike gap l' := by
  rw [h.named?]
  cases m.named? name with
  | none => exact .inl ⟨rfl, rfl⟩
  | some k =>
    rcases h.found k with ⟨hl, hl'⟩ | ⟨l, l', hl, hl', alike⟩
    · exact .inl ⟨hl, hl'⟩
    · exact .inr ⟨k, l, l', hl, hl, hl', alike⟩

theorem newPromise (h : Twins gap past m m') (name : String) :
    (m.named? name).bind m.newPromise = none ∧ (m'.named? name).bind m'.newPromise = none ∨
      ∃ p n n', (m.named? name).bind m.newPromise = some (p, n) ∧
        (m'.named? name).bind m'.newPromise = some (p, n') ∧ Twins gap past n n' := by
  rw [h.named?]
  cases m.named? name with
  | none => exact .inl ⟨rfl, rfl⟩
  | some k =>
    simp only [Option.bind_some, Machine.newPromise]
    rcases h.found k with ⟨hl, hl'⟩ | ⟨l, l', hl, hl', alike⟩
    · rw [hl, hl']
      exact .inl ⟨rfl, rfl⟩
    · rw [hl, hl']
      obtain ⟨derived, created⟩ := alike.newPromise
      refine .inr ⟨_, _, _, rfl, ?_, h.setLoop hl created l.id_newPromise⟩
      simp only [Option.map_some, derived]

theorem beginStep (h : Twins gap past m m') (info : CommandInfo) (s : Step) :
    Ends gap past (m.beginStep info s) (m'.beginStep info s) := by
  have evaluate : m'.evaluate = m.evaluate := funext h.evaluate
  cases s with
  | ask q =>
    unfold Machine.beginStep
    dsimp only
    rw [h.answer q]
    split
    · exact (h.endCommand _ _ _).ends
    · exact (h.endCommand _ _ _).ends
  | give x =>
    unfold Machine.beginStep
    dsimp only
    rw [evaluate]
    exact (h.endWith _ _).ends
  | drop names => exact ((h.removeVariables names).endDone _).ends
  | log x =>
    unfold Machine.beginStep
    dsimp only
    rw [evaluate, h.shown]
    exact ((h.traceEntry _).endDone _).ends
  | routine name body quiet =>
    have known : Twins gap past (m.newRoutine name { body, quiet }).2
        { m' with routines := m.routines ++ [{ body, quiet }] } :=
      h.of_eq (by rw [h.same]; rfl) rfl rfl rfl rfl
    unfold Machine.beginStep Machine.newRoutine
    dsimp only
    rw [h.routines]
    exact (known.endWith _ _).ends
  | native =>
    have natives : m'.nextNative = m.nextNative := by rw [h.same]
    have known : Twins gap past m.newNative.2 { m' with nextNative := m.nextNative + 1 } :=
      h.of_eq (by rw [h.same]; rfl) rfl rfl rfl rfl
    unfold Machine.beginStep Machine.newNative
    dsimp only
    rw [natives]
    exact (known.endWith _ _).ends
  | object ps =>
    have initial : m'.initialProperties ps = m.initialProperties ps := by
      unfold initialProperties
      rw [evaluate]
    have next : m'.nextObject = m.nextObject := by rw [h.same]
    have known : Twins gap past (m.newObject (m.initialProperties ps)).2
        { m' with
          objects := (⟨m.nextObject⟩, m.initialProperties ps) :: m.objects
          nextObject := m.nextObject + 1 } :=
      h.of_eq (by rw [h.same]; rfl) rfl rfl rfl rfl
    unfold Machine.beginStep Machine.newObject
    dsimp only
    rw [initial, next, h.objects]
    exact (known.endWith _ _).ends
  | set o key x =>
    unfold Machine.beginStep
    dsimp only
    rw [evaluate]
    split
    · exact ((h.replaceProperty _ _ _).endDone _).ends
    · exact (h.endDone _).ends
  | get o key =>
    unfold Machine.beginStep
    dsimp only
    rw [evaluate]
    split
    · exact ((h.push (by trivial)).read _ _).ends
    · exact (h.endDone _).ends
  | getter o key f =>
    unfold Machine.beginStep
    dsimp only
    rw [evaluate]
    split
    · exact ((h.replaceProperty _ _ _).endDone _).ends
    · exact (h.endDone _).ends
  | add a b =>
    unfold Machine.beginStep
    dsimp only
    rw [evaluate]
    exact (h.endCommand _ _ _).ends
  | cycleError => exact (h.endWith info _).ends
  | invoke f on arguments =>
    unfold Machine.beginStep
    dsimp only
    rw [evaluate]
    exact ((h.push (by trivial)).callValue _ _ _).ends
  | probeNatively x =>
    unfold Machine.beginStep
    dsimp only
    rw [evaluate]
    exact ((h.push (by trivial)).askThen _ _).ends
  | openLoop name config tracker bridge => exact ((h.openLoop name config tracker _).endDone _).ends
  | dropLoop name =>
    have names : m'.names = m.names := by rw [h.same]
    have unnamed : Twins gap past { m with names := m.names.filter fun e => e.1 ≠ name }
        { m' with names := m.names.filter fun e => e.1 ≠ name } :=
      h.of_eq (by rw [h.same]) rfl rfl rfl rfl
    unfold Machine.beginStep
    dsimp only
    rw [names]
    exact (unnamed.endDone _).ends
  | newPromise loop =>
    unfold Machine.beginStep
    dsimp only
    rcases h.newPromise loop with ⟨hn, hn'⟩ | ⟨p, n, n', hn, hn', created⟩
    · rw [hn, hn']
      exact (h.endDone _).ends
    · rw [hn, hn']
      exact (created.endWith _ _).ends
  | resolve loop p x =>
    unfold Machine.beginStep
    dsimp only
    rw [evaluate]
    exact h.withPromise info loop p fun _ _ _ _ h => h.resolve _ _ _
  | reject loop p x =>
    unfold Machine.beginStep
    dsimp only
    rw [evaluate]
    exact h.withPromise info loop p fun _ _ _ _ h => h.reject _ _ _
  | construct loop x =>
    unfold Machine.beginStep
    dsimp only
    rw [evaluate]
    exact h.withLoop info loop _ fun _ _ _ h => (h.construct _ _).ends
  | promiseResolve loop x =>
    unfold Machine.beginStep
    dsimp only
    rw [evaluate]
    exact h.withLoop info loop _ fun _ _ _ h => h.promiseResolve _ _
  | promiseReject loop x =>
    unfold Machine.beginStep
    dsimp only
    rw [evaluate]
    exact h.withLoop info loop _ fun _ _ _ h => h.promiseReject _ _
  | attach method loop p onFulfilled onRejected =>
    unfold Machine.beginStep
    dsimp only
    rw [evaluate]
    exact h.withPromise info loop p fun _ _ _ _ h => (h.attach _ _ _ _ _).ends
  | method loop method =>
    unfold Machine.beginStep
    dsimp only
    rw [h.named?]
    split
    · exact (h.endWith _ _).ends
    · exact (h.endDone _).ends
  | callMethod loop name on arguments =>
    unfold Machine.beginStep
    dsimp only
    rw [evaluate]
    exact h.withLoop info loop _ fun _ _ _ h => (h.callMethod _ _ _ _).ends
  | probe loop x =>
    unfold Machine.beginStep
    dsimp only
    rw [evaluate]
    exact h.withLoop info loop _ fun _ _ _ h => (h.probe _ _).ends
  | task loop label body quiet =>
    unfold Machine.beginStep
    dsimp only
    rw [h.named?]
    split
    · exact ((h.modifyLoop _ (fun _ _ alike => alike.enqueueTask _) fun _ => rfl).endDone _).ends
    · exact (h.endDone _).ends
  | microtask loop label body quiet =>
    unfold Machine.beginStep
    dsimp only
    rw [h.named?]
    split
    · exact ((h.modifyLoop _ (fun _ _ alike => alike.enqueue _) fun _ => rfl).endDone _).ends
    · exact (h.endDone _).ends
  | drain loop => exact h.withLoop info loop _ fun _ _ k h => (h.drain k).ends
  | checkpoint loop => exact h.withLoop info loop _ fun _ _ k h => (h.checkpoint k).ends
  | cycle loop => exact h.withLoop info loop _ fun _ _ k h => (h.cycle k).ends
  | idle loop => exact h.withLoop info loop _ fun _ _ k h => (h.runIdle k).ends
  | done loop => exact h.withLoop info loop _ fun _ _ k h => (h.conclude k).ends
  | collect loop => exact h.withLoop info loop _ fun _ _ k h => (h.collect k).ends
  | completer loop name =>
    unfold Machine.beginStep
    dsimp only
    rcases h.named loop with ⟨hn, hn'⟩ | ⟨k, l, l', hl, hn, hn', alike⟩
    · rw [hn, hn']
      exact (h.endDone _).ends
    · rw [hn, hn']
      obtain ⟨derived, flown⟩ := alike.openFlight
      dsimp only
      rw [derived, flown.id]
      exact (((h.setLoop hl flown l.id_openFlight).keepCompleter name _).endWith _ _).ends
  | dropCompleter name => exact ((h.useCompleter name _).endDone _).ends
  | complete name result => exact ((h.useCompleter name _).endDone _).ends
  | spawn loop result now =>
    unfold Machine.beginStep
    dsimp only
    rcases h.named loop with ⟨hn, hn'⟩ | ⟨k, l, l', hl, hn, hn', alike⟩
    · rw [hn, hn']
      exact (h.endDone _).ends
    · rw [hn, hn']
      obtain ⟨derived, flown⟩ := alike.openFlight
      have manned := flown.addWorker l.openFlight.1
      dsimp only
      rw [derived]
      cases now with
      | false => exact ((h.setLoop hl (manned.addWaiting _) rfl).endWith _ _).ends
      | true => exact ((h.setLoop hl (manned.post _) rfl).endWith _ _).ends
  | finish loop =>
    unfold Machine.beginStep
    dsimp only
    rcases h.named loop with ⟨hn, hn'⟩ | ⟨k, l, l', hl, hn, hn', alike⟩
    · rw [hn, hn']
      exact (h.endDone _).ends
    · rw [hn, hn']
      obtain ⟨released, freed⟩ := alike.releaseWorker
      dsimp only
      rw [released]
      exact ((h.setLoop hl freed l.id_releaseWorker).endCommand _ _ _).ends

theorem beginRounds (h : Twins gap past m m') (count : Nat) (body : List Command) (quiet : Bool) :
    Twins gap past (m.beginRounds count body quiet) (m'.beginRounds count body quiet) := by
  unfold Machine.beginRounds
  split
  · exact h.signal _
  · exact ((h.push (by trivial)).push (by trivial)).signal _

theorem resumeRounds (h : Twins gap past m m') (body : List Command) (round remaining : Nat) (quiet : Bool)
    (s : Signal) :
    Twins gap past (m.resumeRounds body round remaining quiet s)
      (m'.resumeRounds body round remaining quiet s) := by
  unfold Machine.resumeRounds
  split
  · exact ((h.push (by trivial)).push (by trivial)).signal _
  · exact h.signal _

theorem beginCommand (h : Twins gap past m m') (c : Command) :
    Ends gap past (m.beginCommand c) (m'.beginCommand c) := by
  cases c with
  | step s store catches => exact h.beginStep _ s
  | ret x =>
    unfold Machine.beginCommand
    dsimp only
    rw [h.evaluate]
    exact (h.signal _).ends
  | raise x =>
    unfold Machine.beginCommand
    dsimp only
    rw [h.evaluate]
    exact (h.signal _).ends
  | fail message => exact (h.signal _).ends
  | branch condition yes no =>
    unfold Machine.beginCommand
    dsimp only
    rw [h.evaluate]
    exact ((h.push (by trivial)).signal _).ends
  | loop count body quiet => exact (h.beginRounds count body quiet).ends

theorem resumeBlock (h : Twins gap past m m') (rest : List Command) (s : Signal) :
    Ends gap past (m.resumeBlock rest s) (m'.resumeBlock rest s) := by
  unfold Machine.resumeBlock
  split
  · exact (h.push (by trivial)).beginCommand _
  · exact (h.signal _).ends

end Twins
end PromiseLoop.Machine

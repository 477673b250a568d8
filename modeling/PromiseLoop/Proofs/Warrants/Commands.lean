import PromiseLoop.Proofs.Handles.Commands
import PromiseLoop.Proofs.Warrants.Turns

/-!
# Commands and warrants

What a command looks up is known, because something held it.  Commands create promises, whose locks are
free, and have loops resolve and reject them; none of them comes by a warrant in any other way.

## Results

* `orderly_endSignal`, `orderly_endFound`: the end of any command.
* `orderly_beginCommand`: the beginning of any command.
-/

namespace PromiseLoop.Machine

variable {m m' : Machine} {k : LoopId} {ks : List Mark} {p : Promise} {v : Value}

-- ---------------------------------------------------------------------------
-- Ending
-- ---------------------------------------------------------------------------

/-- Showing an answer leaves at most what the signal holds in the control. -/
theorem orderly_showAnswer (h : m.Warranted k ks none) (info : CommandInfo) {s : Signal}
    (hs : Known ks s.held) (answer : Answer) :
    (m.showAnswer info s answer).Warranted k ks none ∧
      Known ks (m.showAnswer info s answer).control.held := by
  unfold showAnswer
  split
  · exact ⟨h.control _, known_nil⟩
  · dsimp only
    split
    · exact ⟨(h.traceEntry _).signal s, hs⟩
    · exact ⟨(h.traceEntry _).signal .done, known_nil⟩

theorem Warranted.storeValue (h : m.Warranted k ks none) (info : CommandInfo) {s : Signal}
    (hs : Known ks s.held) : (m.storeValue info s).Warranted k ks none := by
  unfold Machine.storeValue
  split
  · split
    · exact h
    · exact h.assign _ (by simpa [Signal.held] using hs)
  · exact h

theorem orderly_endSignal (h : m.Warranted k ks none) (info : CommandInfo) (operands : List Value)
    {s : Signal} (hs : Known ks s.held) : Orderly k (m.endCommand info operands (.signal s)) := by
  have stored := ((h.signal s).drop operands).storeValue info hs
  obtain ⟨shown, control⟩ := orderly_showAnswer stored info hs
    (((drop operands (m.signal s)).storeValue info s).answerSignal info s)
  exact ⟨ks, shown.drop s.held, (control_drop s.held _).symm ▸ control⟩

theorem orderly_endFound (h : m.Warranted k ks none) (info : CommandInfo) (operands : List Value)
    (x : Finding) : Orderly k (m.endCommand info operands (.found x)) := by
  obtain ⟨shown, control⟩ := orderly_showAnswer (s := .done) ((h.signal .done).drop operands) info
    known_nil (.found x)
  exact ⟨ks, shown, control⟩

theorem orderly_endWith (h : m.Warranted k ks none) (info : CommandInfo) (hv : v.Known ks) :
    Orderly k (m.endWith info v) := orderly_endSignal h info [] (by simpa [Signal.held] using hv)

theorem orderly_endDone (h : m.Warranted k ks none) (info : CommandInfo) : Orderly k (m.endDone info) :=
  orderly_endSignal h info [] known_nil

-- ---------------------------------------------------------------------------
-- Beginning
-- ---------------------------------------------------------------------------

theorem orderly_withLoop (h : m.Warranted k ks none) (info : CommandInfo) (name : String)
    {operands : List Value} (held : Known ks operands) {run : Machine → LoopId → Machine}
    (runs : ∀ (m' : Machine) loop, m'.Warranted k ks none → Orderly k (run m' loop)) :
    Orderly k (m.withLoop info name operands run) := by
  unfold withLoop
  split
  · exact runs _ _ (h.push held rfl)
  · exact orderly_endDone h info

theorem orderly_withPromise (h : m.Warranted k ks none) (info : CommandInfo) (name : String) (x : Operand)
    {run : Machine → LoopId → Promise → Machine}
    (runs : ∀ (m' : Machine) loop p, m'.Warranted k ks none → ⟨p, none⟩ ∈ ks → Orderly k (run m' loop p)) :
    Orderly k (m.withPromise info name x run) := by
  unfold withPromise
  split
  · rename_i p hp
    have known : (Value.promise p).Known ks := by
      have named : m.evaluate x = .promise p := by
        revert hp
        cases m.evaluate x <;> simp [Value.asPromise?]
      exact named ▸ h.evaluate x
    exact orderly_withLoop h info name (by simpa using known) fun m' loop h' =>
      runs m' loop p h' (Value.known_promise.mp known)
  · exact orderly_endDone h info

theorem orderly_construct (h : m.Warranted k ks none) (loop : LoopId) {initializer : Value}
    (hi : initializer.Known ks) : Orderly k (m.construct loop initializer) := by
  unfold construct
  cases hl : m.loop? loop with
  | none => exact orderly_signal h known_nil
  | some l =>
    dsimp only
    split
    · have known := hi.mono (List.subset_cons_self ⟨l.newPromise.1, none⟩ ks)
      have created := h.newPromise (h.loop?_id hl)
      have pushed := created.push (f := .constructing l.newPromise.1) (by simp [Frame.held]) rfl
      exact orderly_invoke pushed loop (by simp [known, Guard.pair?])
    · exact orderly_signal h (by simp [Signal.held])

theorem orderly_resumeConstructing (h : m.Warranted k ks none) (hp : ⟨p, none⟩ ∈ ks) {s : Signal}
    (hs : Known ks s.held) : Orderly k (m.resumeConstructing p s) := by
  unfold resumeConstructing
  split
  · rename_i v
    have pushed := (h.push (f := .surface []) known_nil rfl).push (f := .give (.promise p) [])
      (by simp [Frame.held, hp]) rfl
    exact orderly_reject pushed p.home ⟨_, hp⟩ (by simpa [Signal.held] using hs)
  · exact orderly_drop_signal h _ (by simp [Signal.held, hp])

/-- A loop creates a promise and keeps it in a frame until it is to be given. -/
theorem Warranted.giving (h : m.Warranted k ks none) {loop : LoopId} {l : Loop}
    (hl : m.loop? loop = some l) :
    ((m.setLoop l.newPromise.2).push (.give (.promise l.newPromise.1) [])).Warranted k
      (⟨l.newPromise.1, none⟩ :: ks) none :=
  (h.newPromise (h.loop?_id hl)).push (by simp [Frame.held]) rfl

theorem orderly_promiseResolve (h : m.Warranted k ks none) (loop : LoopId) (hv : v.Known ks) :
    Orderly k (m.promiseResolve loop v) := by
  unfold promiseResolve
  cases hl : m.loop? loop with
  | none => exact orderly_signal h known_nil
  | some l =>
    dsimp only
    split
    · rename_i p hp
      have given : v = .promise p := by
        revert hp
        cases v <;> simp [Loop.ownPromise?, Value.asPromise?, Option.filter]
      exact orderly_signal h (by simpa [Signal.held, given] using hv)
    · exact orderly_resolve (h.giving hl) loop ⟨none, List.mem_cons_self ..⟩
        (hv.mono (List.subset_cons_self ..))

theorem orderly_promiseReject (h : m.Warranted k ks none) (loop : LoopId) (hv : v.Known ks) :
    Orderly k (m.promiseReject loop v) := by
  unfold promiseReject
  cases hl : m.loop? loop with
  | none => exact orderly_signal h known_nil
  | some l =>
    exact orderly_reject (h.giving hl) loop ⟨none, List.mem_cons_self ..⟩
      (hv.mono (List.subset_cons_self ..))

theorem orderly_callMethod (h : m.Warranted k ks none) (loop : LoopId) (name : String) {this : Value}
    {arguments : List Value} (called : Known ks (this :: arguments)) :
    Orderly k (m.callMethod loop name this arguments) := by
  unfold callMethod
  split
  · exact orderly_willCall h (by simpa using called)
  · exact orderly_drop_signal h _ (by simp [Signal.held])

theorem known_held_sum (a b : Value) : Known ks (sum a b).held := by
  unfold sum
  split
  · exact known_cons.mpr ⟨Value.known_of_isPlain rfl, known_nil⟩
  · simp [Signal.held]
  · simp [Signal.held]

theorem Warranted.removeVariables (names : List String) (h : m.Warranted k ks none) :
    (names.foldl Machine.removeVariable m).Warranted k ks none := by
  induction names generalizing m with
  | nil => exact h
  | cons name names ih => exact ih (h.removeVariable name)

/-- A promise for background work is created. -/
theorem Warranted.openFlight (h : m.Warranted k ks none) {j : LoopId} {l : Loop}
    (hl : m.loop? j = some l) : (m.setLoop l.openFlight.2).Warranted k (⟨l.newPromise.1, none⟩ :: ks) none := by
  have created := h.newPromise (h.loop?_id hl)
  have found : (m.setLoop l.newPromise.2).loop? l.newPromise.2.id = some l.newPromise.2 :=
    loop?_setLoop (show m.loop? l.newPromise.2.id = some l from h.loop?_id hl)
  have flown := created.setLoop found
    (show l.newPromise.2.Mild l.openFlight.2 from Loop.mild_of_heap rfl rfl rfl rfl) (by
    have held := created.loops _ _ found
    rw [Loop.known_held] at held ⊢
    refine ⟨held.1, held.2.1, ?_, held.2.2.2⟩
    simpa [Loop.openFlight] using held.2.2.1)
  rwa [setLoop_setLoop m l.newPromise.2 l.openFlight.2 rfl] at flown

-- ---------------------------------------------------------------------------
-- Steps
-- ---------------------------------------------------------------------------

theorem orderly_beginStep (h : m.Warranted k ks none) (info : CommandInfo) (s : Step) :
    Orderly k (m.beginStep info s) := by
  have evaluated (x : Operand) : (m.evaluate x).Known ks := h.evaluate x
  cases s with
  | ask q =>
    unfold beginStep
    dsimp only
    split
    · exact orderly_endFound h info [] _
    · exact orderly_endSignal h info [] known_nil
  | give x => exact orderly_endWith h info (evaluated x)
  | drop names => exact orderly_endDone (h.removeVariables names) info
  | log x => exact orderly_endDone (h.traceEntry _) info
  | routine name body quiet =>
    have registered : (m.newRoutine name { body, quiet }).2.Warranted k ks none :=
      h.of_same rfl rfl rfl rfl rfl
    exact orderly_endWith registered info (by simp)
  | native =>
    have made : m.newNative.2.Warranted k ks none := h.of_same rfl rfl rfl rfl rfl
    exact orderly_endWith made info (by simp)
  | object ps => exact orderly_endWith (h.newObject (h.initialProperties ps)) info (by simp)
  | set o key x =>
    unfold beginStep
    dsimp only
    split
    · exact orderly_endDone (h.replaceProperty _ key (q := .data (m.evaluate x)) (evaluated x)) info
    · exact orderly_endDone h info
  | get o key =>
    unfold beginStep
    dsimp only
    split
    · exact orderly_read (h.push (by simp [Frame.held]) rfl) _ key
    · exact orderly_endDone h info
  | getter o key f =>
    unfold beginStep
    dsimp only
    split
    · rename_i g _ hg
      have getter : (Value.function g).Known ks := hg ▸ evaluated f
      exact orderly_endDone (h.replaceProperty _ key (q := .getter g) getter) info
    · exact orderly_endDone h info
  | add a b =>
    exact orderly_endSignal h info [] (known_held_sum _ _)
  | cycleError => exact orderly_endWith h info (by simp [cycleError])
  | invoke f on arguments =>
    refine orderly_callValue (h.push (f := .command info [m.evaluate f]) ?_ rfl) ?_
    · simpa [Frame.held] using evaluated f
    · simpa [evaluated] using h.evaluations arguments
  | probeNatively x =>
    exact orderly_askThen (h.push (f := .command info [m.evaluate x])
      (by simpa [Frame.held] using evaluated x) rfl) (evaluated x) _
  | openLoop name config tracker bridge => exact orderly_endDone (h.openLoop name config tracker _) info
  | dropLoop name =>
    have unnamed : ({ m with names := m.names.filter fun e => e.1 ≠ name } : Machine).Warranted k ks
        none := h.of_same rfl rfl rfl rfl rfl
    exact orderly_endDone unnamed info
  | newPromise loop =>
    unfold beginStep
    dsimp only
    split
    · rename_i p m' hm
      obtain ⟨id, -, hm⟩ := Option.bind_eq_some_iff.mp hm
      obtain ⟨l, hl, heq⟩ := Option.map_eq_some_iff.mp hm
      obtain ⟨rfl, rfl⟩ := Prod.mk.inj heq
      exact orderly_endWith (h.newPromise (h.loop?_id hl)) info
        (Value.known_promise.mpr (List.mem_cons_self ..))
    · exact orderly_endDone h info
  | resolve loop p x =>
    exact orderly_withPromise h info loop p fun m' loop p h' hp =>
      orderly_resolve h' loop ⟨_, hp⟩ (evaluated x)
  | reject loop p x =>
    exact orderly_withPromise h info loop p fun m' loop p h' hp =>
      orderly_reject h' loop ⟨_, hp⟩ (evaluated x)
  | construct loop x =>
    show Orderly k (m.withLoop info loop [m.evaluate x] fun m id => m.construct id _)
    exact orderly_withLoop h info loop (by simpa using evaluated x) fun m' loop h' =>
      orderly_construct h' loop (evaluated x)
  | promiseResolve loop x =>
    show Orderly k (m.withLoop info loop [] fun m id => m.promiseResolve id _)
    exact orderly_withLoop h info loop known_nil fun m' loop h' =>
      orderly_promiseResolve h' loop (evaluated x)
  | promiseReject loop x =>
    show Orderly k (m.withLoop info loop [] fun m id => m.promiseReject id _)
    exact orderly_withLoop h info loop known_nil fun m' loop h' =>
      orderly_promiseReject h' loop (evaluated x)
  | attach _ loop p onFulfilled onRejected =>
    refine orderly_withPromise h info loop p fun m' loop p h' _ => orderly_attach h' loop p ?_ _
    cases onFulfilled <;> cases onRejected <;> simp [evaluated]
  | method loop method =>
    unfold beginStep
    dsimp only
    split
    · exact orderly_endWith h info (by simp)
    · exact orderly_endDone h info
  | callMethod loop name on arguments =>
    show Orderly k (m.withLoop info loop [] fun m id => m.callMethod id name _ _)
    exact orderly_withLoop h info loop known_nil fun m' loop h' =>
      orderly_callMethod h' loop name (known_cons.mpr ⟨evaluated on, h.evaluations arguments⟩)
  | probe loop x =>
    show Orderly k (m.withLoop info loop [m.evaluate x] fun m id => m.probe id _)
    exact orderly_withLoop h info loop (by simpa using evaluated x) fun m' loop h' =>
      orderly_probe h' loop (evaluated x)
  | task loop label body quiet =>
    unfold beginStep
    dsimp only
    split
    · exact orderly_endDone (h.modify_state _ (f := fun l => l.enqueueTask { label, body, quiet })
        (fun _ => Loop.mild_of_heap rfl rfl rfl rfl) fun _ => rfl) info
    · exact orderly_endDone h info
  | microtask loop label body quiet =>
    unfold beginStep
    dsimp only
    split
    · exact orderly_endDone (h.modifyLoop _ (f := fun l => l.enqueue (.host { label, body, quiet }))
        (fun l => l.mild_enqueue rfl) fun _ held => Loop.known_enqueue held known_nil) info
    · exact orderly_endDone h info
  | drain loop => exact orderly_withLoop h info loop known_nil fun _ loop h' => orderly_drain h' loop
  | checkpoint loop =>
    exact orderly_withLoop h info loop known_nil fun _ loop h' => orderly_checkpoint h' loop
  | cycle loop => exact orderly_withLoop h info loop known_nil fun _ loop h' => orderly_cycle h' loop
  | idle loop => exact orderly_withLoop h info loop known_nil fun _ loop h' => orderly_idle h' loop
  | done loop => exact orderly_withLoop h info loop known_nil fun _ loop h' => orderly_conclude h' loop
  | collect loop => exact orderly_withLoop h info loop known_nil fun _ loop h' => orderly_collect h' loop
  | completer loop name =>
    unfold beginStep
    dsimp only
    split
    · rename_i l hl
      obtain ⟨id, -, hl⟩ := Option.bind_eq_some_iff.mp hl
      have kept := (h.openFlight hl).keepCompleter name { loop := l.id, promise := l.newPromise.1.id }
      exact orderly_endWith kept info (Value.known_promise.mpr (List.mem_cons_self ..))
    · exact orderly_endDone h info
  | dropCompleter name => exact orderly_endDone (h.useCompleter name _) info
  | complete name result => exact orderly_endDone (h.useCompleter name _) info
  | spawn loop result now =>
    unfold beginStep
    dsimp only
    split
    · rename_i l hl
      obtain ⟨id, -, hl⟩ := Option.bind_eq_some_iff.mp hl
      have flown := h.openFlight hl
      have found : (m.setLoop l.openFlight.2).loop? l.openFlight.2.id = some l.openFlight.2 :=
        loop?_setLoop (show m.loop? l.openFlight.2.id = some l from h.loop?_id hl)
      let r : Report := { promise := l.newPromise.1.id, result }
      let waits := if now then (l.openFlight.2.addWorker l.newPromise.1).post r
        else (l.openFlight.2.addWorker l.newPromise.1).addWaiting r
      have mild : l.openFlight.2.Mild waits := by
        unfold waits
        split <;> exact Loop.mild_of_heap rfl rfl rfl rfl
      have held : waits.held = l.openFlight.2.held := by
        unfold waits
        split <;> rfl
      have spawned := flown.setLoop found mild (by rw [held]; exact flown.loops _ _ found)
      rw [setLoop_setLoop m l.openFlight.2 _ mild.id] at spawned
      exact orderly_endWith spawned info (Value.known_promise.mpr (List.mem_cons_self ..))
    · exact orderly_endDone h info
  | finish loop =>
    unfold beginStep
    dsimp only
    split
    · rename_i l hl
      obtain ⟨id, -, hl⟩ := Option.bind_eq_some_iff.mp hl
      have released := h.setLoop (h.loop?_id hl) l.mild_releaseWorker
        (by rw [Loop.held_releaseWorker]; exact h.loops _ l hl)
      exact orderly_endFound released info [] _
    · exact orderly_endDone h info

-- ---------------------------------------------------------------------------
-- Bodies
-- ---------------------------------------------------------------------------

theorem orderly_beginRounds (h : m.Warranted k ks none) (count : Nat) (body : List Command)
    (quiet : Bool) : Orderly k (m.beginRounds count body quiet) := by
  unfold beginRounds
  split
  · exact orderly_signal h known_nil
  · exact orderly_signal ((h.push (f := .rounds body 0 _ quiet) known_nil rfl).push
      (f := .block body) known_nil rfl) known_nil

theorem orderly_resumeRounds (h : m.Warranted k ks none) (body : List Command) (round remaining : Nat)
    (quiet : Bool) {s : Signal} (hs : Known ks s.held) :
    Orderly k (m.resumeRounds body round remaining quiet s) := by
  unfold resumeRounds
  split
  · exact orderly_signal ((h.push (f := .rounds body (round + 1) _ quiet) known_nil rfl).push
      (f := .block body) known_nil rfl) known_nil
  · exact orderly_signal h hs

theorem orderly_beginCommand (h : m.Warranted k ks none) (c : Command) :
    Orderly k (m.beginCommand c) := by
  cases c with
  | step s store catches => exact orderly_beginStep h _ s
  | ret x => exact orderly_signal h (by simpa [Signal.held] using h.evaluate x)
  | raise x => exact orderly_signal h (by simpa [Signal.held] using h.evaluate x)
  | fail message => exact orderly_signal h known_nil
  | branch condition yes no => exact orderly_signal (h.push (f := .block _) known_nil rfl) known_nil
  | loop count body quiet => exact orderly_beginRounds h count body quiet

theorem orderly_resumeBlock (h : m.Warranted k ks none) (rest : List Command) {s : Signal}
    (hs : Known ks s.held) : Orderly k (m.resumeBlock rest s) := by
  unfold resumeBlock
  split
  · exact orderly_beginCommand (h.push (f := .block _) known_nil rfl) _
  · exact orderly_signal h hs

end PromiseLoop.Machine

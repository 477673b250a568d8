import PromiseLoop.Proofs.Handles.Turns

/-!
# Commands keep the books

The operands of a command are looked up, so what it begins with are copies of values that the machine
holds anyway.  Where a command creates a promise, the handle on it is the command's own until the
command ends.

## Results

* `passes_endCommand`: the end of any command.
* `passes_beginCommand`: the beginning of any command.
-/

namespace PromiseLoop

namespace Loop

variable {l : Loop}

/-- A promise for background work is held by the flight as well. -/
theorem trades_openFlight (h : l.Sound) :
    l.newPromise.2.Trades l.openFlight.2 [.promise l.newPromise.1] [] :=
  trades_of_heap h.newPromise rfl rfl rfl fun a => by
    simp only [mem_handles_held, openFlight, mem_handles_cons, handles_nil, List.map_append,
      List.mem_append, List.map_cons, List.map_nil, List.mem_singleton, List.not_mem_nil, or_false,
      Value.handle?_promise, Option.some.injEq]
    grind

theorem trades_addWorker (h : l.Sound) (p : Promise) : l.Trades (l.addWorker p) [] [] :=
  trades_of_eq h rfl rfl rfl rfl rfl rfl

theorem trades_addWaiting (h : l.Sound) (r : Report) : l.Trades (l.addWaiting r) [] [] :=
  trades_of_eq h rfl rfl rfl rfl rfl rfl

end Loop

namespace Machine

variable {m m' m'' : Machine} {k : LoopId} {extra : List Value}

-- ---------------------------------------------------------------------------
-- Ending
-- ---------------------------------------------------------------------------

/-- Showing an answer leaves at most what the signal holds in the control. -/
theorem books_showAnswer {s : Signal} (h : m.Books k s.held []) (info : CommandInfo)
    (answer : Answer) : (m.showAnswer info s answer).Books k
      (s.held ++ (m.showAnswer info s answer).control.held) [] := by
  unfold showAnswer
  split
  · exact (h.control _).regroup (by simp [Control.held])
  · dsimp only
    split
    · exact ((h.traceEntry _).signal s).regroup (by simp [Control.held])
    · exact ((h.traceEntry _).signal .done).regroup (by simp [Control.held, Signal.held])

/-- Showing an answer calls nothing and collects nothing. -/
theorem control_showAnswer (m : Machine) (info : CommandInfo) (s : Signal) (answer : Answer) :
    (∃ s', (m.showAnswer info s answer).control = .signal s') ∨
      ∃ a, (m.showAnswer info s answer).control = .idle a := by
  unfold showAnswer
  split
  · exact .inr ⟨_, rfl⟩
  · exact .inl ⟨_, rfl⟩

@[simp] theorem stack_showAnswer (m : Machine) (info : CommandInfo) (s : Signal) (answer : Answer) :
    (m.showAnswer info s answer).stack = m.stack := by
  unfold showAnswer
  split <;> simp

theorem passes_showAnswer {s : Signal} (h : m.Books k s.held []) (info : CommandInfo)
    (answer : Answer) : m.Passes k (drop s.held (m.showAnswer info s answer)) := by
  have dropped := (books_showAnswer h info answer).drop
  refine ⟨⟨?_, fun f this arguments hc => ?_⟩, by simp⟩
  · rcases control_showAnswer m info s answer with ⟨s', hc⟩ | ⟨a, hc⟩
    · rw [control_drop, hc] at dropped ⊢
      exact dropped
    · rw [control_drop, hc] at dropped ⊢
      exact dropped
  · rw [control_drop] at hc
    rcases control_showAnswer m info s answer with ⟨s', hc'⟩ | ⟨a, hc'⟩ <;>
      · rw [hc'] at hc
        cases hc

theorem books_storeValue {s : Signal} (h : m.Books k s.held []) (hc : m.control = .signal s)
    (info : CommandInfo) : (m.storeValue info s).Books k s.held [] := by
  unfold storeValue
  split
  · rename_i v name _
    split
    · exact h
    · have held : m.Books k m.control.held [] := by rw [hc]; exact h
      have assigned := held.assign name (v := v)
        fun a ha => .inr (by simp [hc, Control.held, Signal.held, ha])
      rwa [show (m.assign name v).control = .signal (.value v) by
        rw [assign, control_drop]; exact hc] at assigned
  · exact h

@[simp] theorem stack_storeValue (m : Machine) (info : CommandInfo) (s : Signal) :
    (m.storeValue info s).stack = m.stack := by
  unfold storeValue
  split
  · split
    · rfl
    · exact stack_drop ..
  · rfl

/-- A step of a script ends at once, which makes the machine idle if the step was given to the machine
itself; or it waits under a frame of its own. -/
structure Begins (k : LoopId) (m m' : Machine) : Prop where
  balanced : m'.Balanced k
  rooted : (m'.stack = m.stack ∧ (m.stack = [] → ∃ a, m'.control = .idle a)) ∨
    ∃ info operands, .command info operands :: m.stack <:+ m'.stack

theorem Begins.passes (h : m.Begins k m') : m.Passes k m' := by
  refine ⟨h.balanced, ?_⟩
  rcases h.rooted with ⟨same, -⟩ | ⟨info, operands, above⟩
  · exact same ▸ List.suffix_rfl
  · exact (List.suffix_cons ..).trans above

theorem Begins.of_stack (h : m'.Begins k m'') (same : m'.stack = m.stack) : m.Begins k m'' :=
  ⟨h.balanced, same ▸ h.rooted⟩

/-- A step goes on under its own frame. -/
theorem Passes.begins {info : CommandInfo} {operands : List Value}
    (h : (m.push (.command info operands)).Passes k m') : m.Begins k m' :=
  ⟨h.balanced, .inr ⟨info, operands, h.above⟩⟩

theorem idle_showAnswer (h : m.stack = []) (info : CommandInfo) (s : Signal) (answer : Answer) :
    (m.showAnswer info s answer).control = .idle answer := by
  unfold showAnswer
  rw [h]

theorem begins_endSignal {operands : List Value} {s : Signal} (h : m.Books k (operands ++ s.held) [])
    (info : CommandInfo) : m.Begins k (m.endCommand info operands (.signal s)) := by
  have control : (drop operands (m.signal s)).control = .signal s := by simp
  have dropped : (drop operands (m.signal s)).Books k s.held [] := by
    have dropped := (show (m.signal s).Books k (operands ++ (m.signal s).control.held) [] from
      h.signal s).drop
    rwa [control] at dropped
  refine ⟨(passes_showAnswer (books_storeValue dropped control info) info _).balanced,
    .inl ⟨by simp [endCommand], fun empty => ?_⟩⟩
  exact ⟨_, (control_drop ..).trans (idle_showAnswer (by simpa using empty) ..)⟩

theorem begins_endFound {operands : List Value} (h : m.Books k operands []) (info : CommandInfo)
    (x : Finding) : m.Begins k (m.endCommand info operands (.found x)) := by
  have dropped := (h.signal .done).drop_of_spent rfl
  have shown := passes_showAnswer (s := .done) dropped info (.found x)
  rw [show Signal.done.held = [] from rfl, drop_nil] at shown
  exact ⟨shown.balanced, .inl ⟨by simp [endCommand],
    fun empty => ⟨_, idle_showAnswer (by simpa using empty) ..⟩⟩⟩

theorem begins_endWith {v : Value} (h : m.Books k [v] []) (info : CommandInfo) :
    m.Begins k (m.endWith info v) := begins_endSignal h info

theorem begins_endDone (h : m.Books k [] []) (info : CommandInfo) : m.Begins k (m.endDone info) :=
  begins_endSignal h info

-- ---------------------------------------------------------------------------
-- Beginning
-- ---------------------------------------------------------------------------

theorem mem_kept_push {f : Frame} {a : Handle} (ha : a ∈ handles m.kept) :
    a ∈ handles (m.push f).kept := by
  rw [mem_kept] at ha ⊢
  rcases ha with ha | ha | ha
  · exact .inl ha
  · exact .inr (.inl (mem_heldByStack_push_of_mem ha))
  · exact .inr (.inr ha)

/-- A turn of a named loop runs under the frame of its command, which keeps copies of the operands. -/
theorem begins_withLoop (h : m.Books k [] []) (info : CommandInfo) (name : String)
    {operands : List Value} (held : ∀ a ∈ handles operands, a ∈ handles m.kept)
    {run : Machine → LoopId → Machine}
    (runs : ∀ info loop, (m.push (.command info operands)).Books k [] [] →
      (m.push (.command info operands)).Passes k (run (m.push (.command info operands)) loop)) :
    m.Begins k (m.withLoop info name operands run) := by
  unfold withLoop
  split
  · exact (runs _ _ (Books.push (h.borrow held) rfl rfl)).begins
  · exact begins_endDone h info

theorem begins_withPromise (h : m.Books k [] []) (info : CommandInfo) (name : String) (x : Operand)
    {run : Machine → LoopId → Promise → Machine}
    (runs : ∀ info loop p, (m.push (.command info [.promise p])).Books k [] [] →
      (m.push (.command info [.promise p])).Passes k
        (run (m.push (.command info [.promise p])) loop p)) :
    m.Begins k (m.withPromise info name x run) := by
  unfold withPromise
  split
  · rename_i p hp
    have named : m.evaluate x = .promise p := by
      revert hp
      cases m.evaluate x <;> simp [Value.asPromise?]
    refine begins_withLoop h info name (fun a ha => mem_kept_of_evaluate (x := x) ?_)
      fun info loop h' => runs info loop p h'
    rw [named]
    simpa using ha
  · exact begins_endDone h info

theorem passes_construct (h : m.Books k [] []) (loop : LoopId) {initializer : Value}
    (held : ∀ a, initializer.handle? = some a → a ∈ handles m.heldByStack) :
    m.Passes k (m.construct loop initializer) := by
  unfold construct
  cases hl : m.loop? loop with
  | none => exact passes_signal h
  | some l =>
    dsimp only
    split
    · let p := l.newPromise.1
      let resolver (side : Side) : Value :=
        .function (.resolver { promise := p, guard := .lock, side })
      have created : (m.setLoop l.newPromise.2).Books k [.promise p] [] :=
        h.newPromise (h.loop?_id hl)
      have begun : ((m.setLoop l.newPromise.2).push (.constructing p)).Books k
          (.undefined :: [resolver .fulfill, resolver .reject]) [] := by
        refine Books.push (created.regroup fun q => ?_) rfl rfl
        simp [Frame.held, resolver]
      refine ((passes_invoke begun loop fun a ha => ?_).of_push.of_stack rfl : m.Passes k _)
      exact mem_heldByStack_push_of_mem (held a ha)
    · exact passes_signal (h.regroup (by simp [Signal.held]))

/-- A construction whose initializer throws rejects its promise, and gives it nevertheless. -/
theorem passes_resumeConstructing {p : Promise} {s : Signal}
    (h : m.Books k (.promise p :: s.held) []) : m.Passes k (m.resumeConstructing p s) := by
  unfold resumeConstructing
  split
  · rename_i v
    have surfaced : (m.push (.surface [])).Books k (.promise p :: [v]) [] := Books.push h rfl rfl
    have giving : ((m.push (.surface [])).push (.give (.promise p) [])).Books k [v] [] :=
      Books.push surfaced rfl rfl
    exact (passes_reject giving p.home p).of_push.of_push
  · exact passes_drop_signal (h.regroup (by simp [Signal.held, or_comm]))

theorem passes_promiseResolve (h : m.Books k [] []) (loop : LoopId) {v : Value}
    (held : ∀ a, v.handle? = some a → a ∈ handles m.kept) :
    m.Passes k (m.promiseResolve loop v) := by
  unfold promiseResolve
  cases hl : m.loop? loop with
  | none => exact passes_signal h
  | some l =>
    dsimp only
    split
    · rename_i p hp
      have given : v = .promise p := by
        revert hp
        cases v <;> simp [Loop.ownPromise?, Value.asPromise?, Option.filter]
      exact passes_signal (h.lend fun a ha => held a (given ▸ ha))
    · have created := (h.lend held).newPromise (h.loop?_id hl)
      have giving := Books.push (f := .give (.promise l.newPromise.1) []) created rfl rfl
      exact (passes_resolve giving loop
        (mem_heldByStack_push (by simp [Frame.held]))).of_push.of_stack rfl

theorem passes_promiseReject (h : m.Books k [] []) (loop : LoopId) {v : Value}
    (held : ∀ a, v.handle? = some a → a ∈ handles m.kept) :
    m.Passes k (m.promiseReject loop v) := by
  unfold promiseReject
  cases hl : m.loop? loop with
  | none => exact passes_signal h
  | some l =>
    have created := (h.lend held).newPromise (h.loop?_id hl)
    have giving := Books.push (f := .give (.promise l.newPromise.1) []) created rfl rfl
    exact (passes_reject giving loop _).of_push.of_stack rfl

theorem passes_callMethod {this : Value} {arguments : List Value}
    (h : m.Books k (this :: arguments) []) (loop : LoopId) (name : String) :
    m.Passes k (m.callMethod loop name this arguments) := by
  unfold callMethod
  split
  · exact passes_willCall h (by simp)
  · exact passes_drop_signal (h.regroup (by simp [Signal.held, or_comm]))

-- ---------------------------------------------------------------------------
-- Values of steps
-- ---------------------------------------------------------------------------

/-- Sums and failures to add have no handle. -/
theorem handles_held_sum (a b : Value) : handles (sum a b).held = [] := by
  unfold sum
  split <;> rfl

/-- The properties of a new object are copies of operands. -/
theorem mem_kept_of_initialProperties {ps : List (String × Operand)} {a : Handle}
    (ha : a ∈ handles (m.initialProperties ps).held) : a ∈ handles m.kept := by
  have fold (ps : List (String × Operand)) : ∀ acc : Properties,
      a ∈ handles (ps.foldl (fun acc e => acc.put e.1 (.data (m.evaluate e.2))) acc).held →
      a ∈ handles acc.held ∨ a ∈ handles m.kept := by
    induction ps with
    | nil => exact fun _ ha => .inl ha
    | cons e ps ih =>
      intro acc ha
      rcases ih _ ha with ha | ha
      · exact (Properties.mem_handles_put.mp (.inl ha)).imp_right mem_kept_of_evaluate
      · exact .inr ha
  exact (fold ps .empty ha).resolve_left (by simp [Properties.held, Properties.empty])

/-- Copies of operands. -/
theorem mem_kept_of_evaluations {xs : List Operand} {a : Handle}
    (ha : a ∈ handles (xs.map m.evaluate)) : a ∈ handles m.kept := by
  obtain ⟨v, hv, ha⟩ := mem_handles.mp ha
  obtain ⟨x, -, rfl⟩ := List.mem_map.mp hv
  exact mem_kept_of_evaluate ha

theorem books_removeVariables (names : List String) (h : m.Books k [] [])
    (spent : m.control.held = []) : (names.foldl removeVariable m).Books k [] [] ∧
      (names.foldl removeVariable m).stack = m.stack := by
  induction names generalizing m with
  | nil => exact ⟨h, rfl⟩
  | cons name names ih =>
    have control : (m.removeVariable name).control = m.control := control_drop ..
    have removed := (show m.Books k m.control.held [] by rwa [spent]).removeVariable name
    rw [control, spent] at removed
    obtain ⟨books, stack⟩ := ih removed (control ▸ spent)
    exact ⟨books, stack.trans (stack_drop ..)⟩

theorem begins_replaceProperty (h : m.Books k [] []) (spent : m.control.held = [])
    (info : CommandInfo) (o : ObjectId) (key : String) {q : Property}
    (held : ∀ a, q.held.handle? = some a → a ∈ handles m.kept) :
    m.Begins k ((m.replaceProperty o key q).endDone info) := by
  have control : (m.replaceProperty o key q).control = m.control := control_drop ..
  have replaced := (show m.Books k m.control.held [] by rwa [spent]).replaceProperty o key
    fun a ha => .inl (held a ha)
  rw [control, spent] at replaced
  exact (begins_endDone replaced info).of_stack (stack_drop ..)

@[simp] theorem stack_useCompleter (m : Machine) (name : String) (result : WorkResult) :
    (m.useCompleter name result).stack = m.stack := by
  unfold useCompleter
  cases hc : m.takeCompleter name with
  | none => rfl
  | some taken =>
    obtain ⟨e, -, rfl⟩ := Option.map_eq_some_iff.mp hc
    rfl

theorem stack_keepCompleter (m : Machine) (name : String) (c : Completer) :
    (m.keepCompleter name c).stack = m.stack := stack_useCompleter ..

/-- A promise for background work is created, and a handle on it is under way. -/
theorem Books.openFlight (h : m.Books k extra []) {j : LoopId} {l : Loop} (hl : m.loop? j = some l) :
    (m.setLoop l.openFlight.2).Books k (.promise l.newPromise.1 :: extra) [] := by
  have created := h.newPromise (h.loop?_id hl)
  have found : (m.setLoop l.newPromise.2).loop? l.newPromise.2.id = some l.newPromise.2 :=
    loop?_setLoop (show m.loop? l.newPromise.2.id = some l from h.loop?_id hl)
  have copied : (m.setLoop l.newPromise.2).Books k
      ([.promise l.newPromise.1] ++ (.promise l.newPromise.1 :: extra)) [] :=
    created.regroup (by simp)
  have flown := copied.setLoop found (Loop.trades_openFlight (h.sound hl))
  rwa [setLoop_setLoop m l.newPromise.2 l.openFlight.2 rfl] at flown

-- ---------------------------------------------------------------------------
-- Steps
-- ---------------------------------------------------------------------------

theorem begins_beginStep (h : m.Books k [] []) (spent : m.control.held = [])
    (info : CommandInfo) (s : Step) : m.Begins k (m.beginStep info s) := by
  have evaluated {x : Operand} (a : Handle) (ha : (m.evaluate x).handle? = some a) :
      a ∈ handles m.kept := mem_kept_of_evaluate ha
  cases s with
  | ask q =>
    unfold beginStep
    dsimp only
    split
    · exact begins_endFound h info _
    · exact begins_endSignal h info
  | give x => exact begins_endWith (h.lend evaluated) info
  | drop names =>
    obtain ⟨removed, stack⟩ := books_removeVariables names h spent
    exact (begins_endDone removed info).of_stack stack
  | log x => exact (begins_endDone (h.traceEntry _) info).of_stack (by simp)
  | routine name body quiet =>
    have known : (m.newRoutine name { body, quiet }).2.Books k [] [] := h.of_eq rfl rfl rfl rfl rfl
    exact (begins_endWith (known.lend (by simp [newRoutine])) info).of_stack rfl
  | native =>
    have known : m.newNative.2.Books k [] [] := h.of_eq rfl rfl rfl rfl rfl
    exact (begins_endWith (known.lend (by simp [newNative, Value.handle?, Value.handle?]))
      info).of_stack rfl
  | object ps =>
    have known := h.newObject (m.initialProperties ps) fun a ha =>
      .inl (mem_kept_of_initialProperties ha)
    exact (begins_endWith known info).of_stack rfl
  | set o key x =>
    unfold beginStep
    dsimp only
    split
    · exact begins_replaceProperty h spent info _ key evaluated
    · exact begins_endDone h info
  | get o key =>
    unfold beginStep
    dsimp only
    split
    · rename_i found
      exact (passes_read (Books.push (h.lend fun a ha => evaluated (x := o) a (by rwa [found])) rfl rfl)
        _ key).begins
    · exact begins_endDone h info
  | getter o key f =>
    unfold beginStep
    dsimp only
    split
    · rename_i g _ hg
      exact begins_replaceProperty h spent info _ key fun a ha =>
        evaluated (x := f) a (by rwa [hg])
    · exact begins_endDone h info
  | add a b =>
    exact begins_endSignal (h.regroup (by simp [handles_held_sum])) info
  | cycleError => exact begins_endWith (h.lend (by simp [cycleError])) info
  | invoke f on arguments =>
    have lent : m.Books k ([m.evaluate f] ++ (m.evaluate on :: arguments.map m.evaluate)) [] := by
      have copied := h.borrow fun a (ha : a ∈ handles (arguments.map m.evaluate)) =>
        mem_kept_of_evaluations ha
      exact (((copied.regroup (by simp)).lend evaluated).lend evaluated)
    refine (passes_callValue (Books.push (f := .command info [m.evaluate f]) lent rfl rfl)
      fun a ha => ?_).begins
    exact mem_heldByStack_push (by simp [Frame.held, ha])
  | probeNatively x =>
    refine (passes_askThen (Books.push (f := .command info [m.evaluate x]) (h.lend evaluated) rfl rfl)
      _ fun a ha => ?_).begins
    exact mem_heldByStack_push (by simp [Frame.held, ha])
  | openLoop name config tracker bridge =>
    exact (begins_endDone (h.openLoop name config tracker _) info).of_stack rfl
  | dropLoop name =>
    have unnamed : ({ m with names := m.names.filter fun e => e.1 ≠ name } : Machine).Books k [] [] :=
      h.of_eq rfl rfl rfl rfl rfl
    exact (begins_endDone unnamed info).of_stack rfl
  | newPromise loop =>
    unfold beginStep
    dsimp only
    split
    · rename_i p m' hm
      obtain ⟨id, -, hm⟩ := Option.bind_eq_some_iff.mp hm
      obtain ⟨l, hl, heq⟩ := Option.map_eq_some_iff.mp hm
      obtain ⟨rfl, rfl⟩ := Prod.mk.inj heq
      exact (begins_endWith (h.newPromise (h.loop?_id hl)) info).of_stack rfl
    · exact begins_endDone h info
  | resolve loop p x =>
    refine begins_withPromise h info loop p fun info loop p h' => ?_
    exact passes_resolve (h'.lend fun a ha => mem_kept_push (evaluated a ha)) loop
      (mem_heldByStack_push (by simp [Frame.held]))
  | reject loop p x =>
    refine begins_withPromise h info loop p fun info loop p h' => ?_
    exact passes_reject (h'.lend fun a ha => mem_kept_push (evaluated a ha)) loop p
  | construct loop x =>
    show m.Begins k (m.withLoop info loop [m.evaluate x] fun m id => m.construct id _)
    refine begins_withLoop h info loop (fun a ha => evaluated (x := x) a (by simpa using ha))
      fun info loop h' => passes_construct h' loop fun a ha => ?_
    exact mem_heldByStack_push (by simp [Frame.held, ha])
  | promiseResolve loop x =>
    show m.Begins k (m.withLoop info loop [] fun m id => m.promiseResolve id _)
    exact begins_withLoop h info loop (by simp) fun info loop h' =>
      passes_promiseResolve h' loop fun a ha => mem_kept_push (evaluated a ha)
  | promiseReject loop x =>
    show m.Begins k (m.withLoop info loop [] fun m id => m.promiseReject id _)
    exact begins_withLoop h info loop (by simp) fun info loop h' =>
      passes_promiseReject h' loop fun a ha => mem_kept_push (evaluated a ha)
  | attach _ loop p onFulfilled onRejected =>
    refine begins_withPromise h info loop p fun info loop p h' => passes_attach ?_ loop p
    refine (h'.borrow fun a (ha : a ∈ handles ((onFulfilled.map m.evaluate).toList ++
      (onRejected.map m.evaluate).toList)) => mem_kept_push ?_).regroup (by simp)
    cases onFulfilled <;> cases onRejected <;> simp at ha
    · exact evaluated a ha
    · exact evaluated a ha
    · exact ha.elim (evaluated a) (evaluated a)
  | method loop method =>
    unfold beginStep
    dsimp only
    split
    · exact begins_endWith (h.lend (by simp)) info
    · exact begins_endDone h info
  | callMethod loop name on arguments =>
    show m.Begins k (m.withLoop info loop [] fun m id => m.callMethod id name _ _)
    refine begins_withLoop h info loop (by simp) fun info loop h' => passes_callMethod ?_ loop name
    have copied := h'.borrow fun a (ha : a ∈ handles (arguments.map m.evaluate)) =>
      mem_kept_push (mem_kept_of_evaluations ha)
    exact (copied.regroup (by simp)).lend fun a ha => mem_kept_push (evaluated a ha)
  | probe loop x =>
    show m.Begins k (m.withLoop info loop [m.evaluate x] fun m id => m.probe id _)
    refine begins_withLoop h info loop (fun a ha => evaluated (x := x) a (by simpa using ha))
      fun info loop h' => passes_probe h' loop fun a ha => ?_
    exact mem_heldByStack_push (by simp [Frame.held, ha])
  | task loop label body quiet =>
    unfold beginStep
    dsimp only
    split
    · exact (begins_endDone (h.modifyLoop _ fun sound => Loop.trades_enqueueTask sound _)
        info).of_stack rfl
    · exact begins_endDone h info
  | microtask loop label body quiet =>
    unfold beginStep
    dsimp only
    split
    · exact (begins_endDone (h.modifyLoop _ fun sound => Loop.trades_enqueue sound (.host _))
        info).of_stack rfl
    · exact begins_endDone h info
  | drain loop => exact begins_withLoop h info loop (by simp) fun _ loop h' => passes_drain h' loop
  | checkpoint loop =>
    exact begins_withLoop h info loop (by simp) fun _ loop h' => passes_checkpoint h' loop
  | cycle loop => exact begins_withLoop h info loop (by simp) fun _ loop h' => passes_cycle h' loop
  | idle loop => exact begins_withLoop h info loop (by simp) fun _ loop h' => passes_idle h' loop
  | done loop => exact begins_withLoop h info loop (by simp) fun _ loop h' => passes_conclude h' loop
  | collect loop => exact begins_withLoop h info loop (by simp) fun _ loop h' => passes_collect h' loop
  | completer loop name =>
    unfold beginStep
    dsimp only
    split
    · rename_i l hl
      obtain ⟨id, -, hl⟩ := Option.bind_eq_some_iff.mp hl
      have kept := (h.openFlight hl).keepCompleter name { loop := l.id, promise := l.newPromise.1.id }
      exact (begins_endWith kept info).of_stack (stack_keepCompleter ..)
    · exact begins_endDone h info
  | dropCompleter name =>
    exact (begins_endDone (h.useCompleter name _) info).of_stack (stack_useCompleter ..)
  | complete name result =>
    exact (begins_endDone (h.useCompleter name _) info).of_stack (stack_useCompleter ..)
  | spawn loop result now =>
    unfold beginStep
    dsimp only
    split
    · rename_i l hl
      obtain ⟨id, -, hl⟩ := Option.bind_eq_some_iff.mp hl
      have flown := h.openFlight hl
      have found : (m.setLoop l.openFlight.2).loop? l.openFlight.2.id = some l.openFlight.2 :=
        loop?_setLoop (show m.loop? l.openFlight.2.id = some l from h.loop?_id hl)
      have added := Loop.trades_addWorker (flown.sound found) l.newPromise.1
      let r : Report := { promise := l.newPromise.1.id, result }
      have waits : l.openFlight.2.Trades (if now then (l.openFlight.2.addWorker l.newPromise.1).post r
          else (l.openFlight.2.addWorker l.newPromise.1).addWaiting r) [] [] := by
        split
        · exact added.trans (Loop.trades_post added.sound r)
        · exact added.trans (Loop.trades_addWaiting added.sound r)
      have spawned := flown.update found waits
      rw [setLoop_setLoop m l.openFlight.2 _ waits.id] at spawned
      exact (begins_endWith spawned info).of_stack rfl
    · exact begins_endDone h info
  | finish loop =>
    unfold beginStep
    dsimp only
    split
    · rename_i l hl
      obtain ⟨id, -, hl⟩ := Option.bind_eq_some_iff.mp hl
      exact (begins_endFound (h.update (h.loop?_id hl) (Loop.trades_releaseWorker (h.sound hl)))
        info _).of_stack rfl
    · exact begins_endDone h info

-- ---------------------------------------------------------------------------
-- Bodies
-- ---------------------------------------------------------------------------

theorem passes_beginRounds (h : m.Books k [] []) (count : Nat) (body : List Command) (quiet : Bool) :
    m.Passes k (m.beginRounds count body quiet) := by
  unfold beginRounds
  split
  · exact passes_signal h
  · exact (passes_signal (s := .done) (Books.push (Books.push h rfl rfl) rfl rfl)).of_push.of_push

theorem passes_resumeRounds {s : Signal} (h : m.Books k s.held []) (body : List Command)
    (round remaining : Nat) (quiet : Bool) :
    m.Passes k (m.resumeRounds body round remaining quiet s) := by
  unfold resumeRounds
  split
  · exact (passes_signal (s := .done) (Books.push (Books.push h rfl rfl) rfl rfl)).of_push.of_push
  · exact passes_signal h

theorem passes_beginCommand (h : m.Books k [] []) (spent : m.control.held = []) (c : Command) :
    m.Passes k (m.beginCommand c) := by
  have evaluated {x : Operand} (a : Handle) (ha : (m.evaluate x).handle? = some a) :
      a ∈ handles m.kept := mem_kept_of_evaluate ha
  cases c with
  | step s store catches => exact (begins_beginStep h spent _ s).passes
  | ret x => exact passes_signal (h.lend evaluated)
  | raise x => exact passes_signal (h.lend evaluated)
  | fail message => exact passes_signal h
  | branch condition yes no => exact (passes_signal (s := .done) (Books.push h rfl rfl)).of_push
  | loop count body quiet => exact passes_beginRounds h count body quiet

theorem passes_resumeBlock {s : Signal} (h : m.Books k s.held []) (spent : m.control.held = [])
    (rest : List Command) : m.Passes k (m.resumeBlock rest s) := by
  unfold resumeBlock
  split
  · exact (passes_beginCommand (Books.push h rfl rfl) spent _).of_push
  · exact passes_signal h

end Machine
end PromiseLoop

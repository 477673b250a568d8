import PromiseLoop.Proofs.Faults.Runs
import PromiseLoop.Proofs.Workloads.Lays

/-!
# What bodies do

The commands of a body, and whatever an activity goes on with, lay ordinary frames, unless a command asks for a
turn of the loop.

## Results

* `lays_beginStep`, `lays_resume`: commands, and how activities go on.
* `lays_step`: what a step lays above a frame that waits.
-/

namespace PromiseLoop

/-- The name of the loop whose turn a step asks for. -/
def Step.turned? : Step → Option String
  | .drain name | .checkpoint name | .cycle name | .idle name | .done name => some name
  | _ => none

namespace Machine

variable {k j : LoopId} {m m' : Machine}

-- ---------------------------------------------------------------------------
-- Ending commands
-- ---------------------------------------------------------------------------

theorem lays_removeVariables (names : List String) (m : Machine) :
    Lays k m (names.foldl removeVariable m) := by
  induction names generalizing m with
  | nil => exact .refl m
  | cons name names ih => exact (Lays.of_aside (aside_removeVariable m name) (stack_drop ..)).trans (ih _)

theorem lays_replaceProperty (m : Machine) (o : ObjectId) (key : String) (p : Property) :
    Lays k m (m.replaceProperty o key p) :=
  .of_aside (aside_replaceProperty m o key p) (stack_drop ..)

theorem lays_showAnswer (m : Machine) (info : CommandInfo) (s : Signal) (answer : Answer) :
    Lays k m (m.showAnswer info s answer) := by
  unfold showAnswer
  split
  · exact lays_of_eq rfl rfl
  · exact (lays_traceEntry m _).trans (lays_signal _ _)

theorem lays_storeValue (m : Machine) (info : CommandInfo) (s : Signal) :
    Lays k m (m.storeValue info s) := by
  unfold storeValue
  split
  · split
    · exact .refl m
    · exact .of_aside (aside_assign m _ _) (stack_drop ..)
  · exact .refl m

theorem lays_endCommand (m : Machine) (info : CommandInfo) (operands : List Value) (e : Ending) :
    Lays k m (m.endCommand info operands e) := by
  unfold endCommand
  split
  · exact (lays_drop_signal _ m _).trans (lays_showAnswer _ _ _ _)
  · exact (lays_drop_signal _ m _).trans ((lays_storeValue _ _ _).trans
      ((lays_showAnswer _ _ _ _).trans (lays_drop _ _)))

theorem lays_endWith (m : Machine) (info : CommandInfo) (v : Value) : Lays k m (m.endWith info v) :=
  lays_endCommand m info [] _

theorem lays_endDone (m : Machine) (info : CommandInfo) : Lays k m (m.endDone info) :=
  lays_endCommand m info [] _

-- ---------------------------------------------------------------------------
-- Beginning commands
-- ---------------------------------------------------------------------------

theorem lays_withLoop (m : Machine) (info : CommandInfo) (name : String) (operands : List Value)
    {run : Machine → LoopId → Machine} (h : ∀ m j, Lays k m (run m j)) :
    Lays k m (m.withLoop info name operands run) := by
  unfold withLoop
  split
  · exact (lays_push m rfl rfl).trans (h _ _)
  · exact lays_endDone m info

/-- A turn of a loop that is not meant. -/
theorem lays_withTurn {name : String} (other : m.named? name ≠ some k) (info : CommandInfo)
    {run : Machine → LoopId → Machine} (h : ∀ m j, j ≠ k → Lays k m (run m j)) :
    Lays k m (m.withLoop info name [] run) := by
  unfold withLoop
  split
  · rename_i j found
    exact (lays_push m rfl rfl).trans (h _ j fun e => other (e ▸ found))
  · exact lays_endDone m info

theorem lays_withPromise (m : Machine) (info : CommandInfo) (name : String) (x : Operand)
    {run : Machine → LoopId → Promise → Machine} (h : ∀ m j p, Lays k m (run m j p)) :
    Lays k m (m.withPromise info name x run) := by
  unfold withPromise
  split
  · exact lays_withLoop m info name _ fun m j => h m j _
  · exact lays_endDone m info

/-- A new promise of a loop. -/
theorem lays_created {l : Loop} (hl : m.loop? j = some l) : Lays k m (m.setLoop l.newPromise.2) :=
  lays_setLoop hl l.id_newPromise (Loop.bides_of_eq rfl rfl)

theorem lays_construct (m : Machine) (j : LoopId) (initializer : Value) :
    Lays k m (m.construct j initializer) := by
  unfold construct
  cases hl : m.loop? j with
  | none => exact lays_signal m _
  | some l =>
    dsimp only
    split
    · exact (lays_created hl).trans ((lays_push _ rfl rfl).trans (lays_invoke _ _ _ _ _))
    · exact lays_signal m _

theorem lays_resumeConstructing (m : Machine) (p : Promise) (s : Signal) :
    Lays k m (m.resumeConstructing p s) := by
  unfold resumeConstructing
  split
  · exact (lays_push m rfl rfl).trans ((lays_push _ rfl rfl).trans (lays_reject _ _ _ _))
  · exact lays_drop_signal _ m _

theorem lays_promiseResolve (m : Machine) (j : LoopId) (v : Value) : Lays k m (m.promiseResolve j v) := by
  unfold promiseResolve
  cases hl : m.loop? j with
  | none => exact lays_signal m _
  | some l =>
    dsimp only
    split
    · exact lays_signal m _
    · exact (lays_created hl).trans ((lays_push _ rfl rfl).trans (lays_resolve _ _ _ _))

theorem lays_promiseReject (m : Machine) (j : LoopId) (v : Value) : Lays k m (m.promiseReject j v) := by
  unfold promiseReject
  cases hl : m.loop? j with
  | none => exact lays_signal m _
  | some l => exact (lays_created hl).trans ((lays_push _ rfl rfl).trans (lays_reject _ _ _ _))

theorem lays_callMethod (m : Machine) (j : LoopId) (name : String) (this : Value) (arguments : List Value) :
    Lays k m (m.callMethod j name this arguments) := by
  unfold callMethod
  split
  · exact lays_willCall m _ _ _
  · exact lays_drop_signal _ m _

theorem lays_openLoop (m : Machine) (name : String) (config : Config) (tracker : Tracker) (bridge : Bridge) :
    Lays k m (m.openLoop name config tracker bridge) where
  placed hp i l hl := by
    rw [loop?_openLoop] at hl
    split at hl
    · rw [← Option.some.inj hl]
    · exact hp i l hl
  above := ⟨[], rfl, .nil k⟩
  bides _ l hl := by
    refine ⟨l, ?_, .refl l⟩
    rw [loop?_openLoop, if_neg fun full => ?_, hl]
    simp [loop?, full] at hl

theorem lays_useCompleter (m : Machine) (name : String) (result : WorkResult) :
    Lays k m (m.useCompleter name result) :=
  .of_aside (aside_useCompleter m name result) (stack_useCompleter ..)

/-- A step, unless it asks for a turn of the loop. -/
theorem lays_beginStep (m : Machine) (info : CommandInfo) {s : Step}
    (other : ∀ name, s.turned? = some name → m.named? name ≠ some k) : Lays k m (m.beginStep info s) := by
  cases s with
  | ask q =>
    unfold beginStep
    dsimp only
    split <;> exact lays_endCommand m _ _ _
  | give x => exact lays_endWith m _ _
  | drop names => exact (lays_removeVariables names m).trans (lays_endDone _ _)
  | log x => exact (lays_traceEntry m _).trans (lays_endDone _ _)
  | routine name body quiet =>
    have known : Lays k m (m.newRoutine name { body, quiet }).2 := lays_of_eq rfl rfl
    exact known.trans (lays_endWith _ _ _)
  | native =>
    have known : Lays k m m.newNative.2 := lays_of_eq rfl rfl
    exact known.trans (lays_endWith _ _ _)
  | object ps =>
    have known : Lays k m (m.newObject (m.initialProperties ps)).2 := lays_of_eq rfl rfl
    exact known.trans (lays_endWith _ _ _)
  | set o key x =>
    unfold beginStep
    dsimp only
    split
    · exact (lays_replaceProperty m _ _ _).trans (lays_endDone _ _)
    · exact lays_endDone m _
  | get o key =>
    unfold beginStep
    dsimp only
    split
    · exact (lays_push m rfl rfl).trans (lays_read _ _ _)
    · exact lays_endDone m _
  | getter o key f =>
    unfold beginStep
    dsimp only
    split
    · exact (lays_replaceProperty m _ _ _).trans (lays_endDone _ _)
    · exact lays_endDone m _
  | add a b => exact lays_endCommand m info [] (.signal (sum (m.evaluate a) (m.evaluate b)))
  | cycleError => exact lays_endWith m _ _
  | invoke f on arguments => exact (lays_push m rfl rfl).trans (lays_callValue _ _ _ _)
  | probeNatively x => exact (lays_push m rfl rfl).trans (lays_askThen _ _ _)
  | openLoop name config tracker bridge => exact (lays_openLoop m _ _ _ _).trans (lays_endDone _ _)
  | dropLoop name =>
    have unnamed : Lays k m { m with names := m.names.filter fun e => e.1 ≠ name } := lays_of_eq rfl rfl
    exact unnamed.trans (lays_endDone _ _)
  | newPromise name =>
    unfold beginStep
    dsimp only
    split
    · rename_i p m' h
      obtain ⟨j, -, hn⟩ := Option.bind_eq_some_iff.mp h
      exact (lays_newPromise hn).trans (lays_endWith _ _ _)
    · exact lays_endDone m _
  | resolve name p x => exact lays_withPromise m _ _ _ fun m j p => lays_resolve m j p _
  | reject name p x => exact lays_withPromise m _ _ _ fun m j p => lays_reject m j p _
  | construct name x => exact lays_withLoop m _ _ _ fun m j => lays_construct m j _
  | promiseResolve name x => exact lays_withLoop m _ _ _ fun m j => lays_promiseResolve m j _
  | promiseReject name x => exact lays_withLoop m _ _ _ fun m j => lays_promiseReject m j _
  | attach word name p f r => exact lays_withPromise m _ _ _ fun m j p => lays_attach m j p _ _ _
  | method name method =>
    unfold beginStep
    dsimp only
    split
    · exact lays_endWith m _ _
    · exact lays_endDone m _
  | callMethod name method on arguments => exact lays_withLoop m _ _ _ fun m j => lays_callMethod m j _ _ _
  | probe name x => exact lays_withLoop m _ _ _ fun m j => lays_probe m j _
  | task name label body quiet =>
    unfold beginStep
    dsimp only
    split
    · rename_i j _
      have queued : Lays k m (m.modifyLoop j fun l => l.enqueueTask ⟨label, body, quiet⟩) :=
        lays_modifyLoop m j (fun _ => rfl) fun l => Loop.bides_enqueueTask l _
      exact queued.trans (lays_endDone _ _)
    · exact lays_endDone m _
  | microtask name label body quiet =>
    unfold beginStep
    dsimp only
    split
    · rename_i j _
      have queued : Lays k m (m.modifyLoop j fun l => l.enqueue (.host ⟨label, body, quiet⟩)) :=
        lays_modifyLoop m j (fun _ => rfl) fun l => Loop.bides_enqueue l _
      exact queued.trans (lays_endDone _ _)
    · exact lays_endDone m _
  | drain name => exact lays_withTurn (other name rfl) info fun m _ hj => lays_drain m hj
  | checkpoint name => exact lays_withTurn (other name rfl) info fun m _ hj => lays_checkpoint m hj
  | cycle name => exact lays_withTurn (other name rfl) info fun m _ hj => lays_cycle m hj
  | idle name => exact lays_withTurn (other name rfl) info fun m _ hj => lays_idle m hj
  | done name => exact lays_withTurn (other name rfl) info fun m _ hj => lays_conclude m hj
  | collect name => exact lays_withLoop m _ _ _ lays_collect
  | completer name completer =>
    unfold beginStep
    dsimp only
    split
    · rename_i l h
      obtain ⟨j, -, hl⟩ := Option.bind_eq_some_iff.mp h
      have flown : Lays k m (m.setLoop l.openFlight.2) := lays_setLoop hl rfl (Loop.bides_of_eq rfl rfl)
      have kept (x : Machine) (c : Completer) : Lays k x (x.keepCompleter completer c) :=
        .of_aside (aside_keepCompleter x completer c) (stack_keepCompleter ..)
      exact flown.trans ((kept _ _).trans (lays_endWith _ _ _))
    · exact lays_endDone m _
  | dropCompleter name => exact (lays_useCompleter m name .abandoned).trans (lays_endDone _ _)
  | complete name result => exact (lays_useCompleter m name result).trans (lays_endDone _ _)
  | spawn name result now =>
    unfold beginStep
    dsimp only
    split
    · rename_i l h
      obtain ⟨j, -, hl⟩ := Option.bind_eq_some_iff.mp h
      have listed : l.Bides (l.openFlight.2.addWorker l.openFlight.1) :=
        (Loop.bides_of_eq rfl rfl : l.Bides l.openFlight.2).trans (Loop.bides_addWorker _ _)
      refine (lays_setLoop hl ?_ ?_).trans (lays_endWith _ _ _)
      · split <;> rfl
      · split
        · exact listed.trans (Loop.bides_post _ _)
        · exact listed.trans (Loop.bides_of_eq rfl rfl)
    · exact lays_endDone m _
  | finish name =>
    unfold beginStep
    dsimp only
    split
    · rename_i l h
      obtain ⟨j, -, hl⟩ := Option.bind_eq_some_iff.mp h
      exact (lays_setLoop hl l.id_releaseWorker l.bides_releaseWorker).trans (lays_endCommand _ _ _ _)
    · exact lays_endDone m _

-- ---------------------------------------------------------------------------
-- Bodies
-- ---------------------------------------------------------------------------

/-- Whether the next step begins a command that asks for a turn of the loop. -/
def asksTurn (k : LoopId) (m : Machine) : Bool :=
  match m.control, m.stack with
  | .signal .done, .block (.step s _ _ :: _) :: _ => s.turned?.bind m.named? = some k
  | _, _ => false

theorem lays_beginRounds (m : Machine) (count : Nat) (body : List Command) (quiet : Bool) :
    Lays k m (m.beginRounds count body quiet) := by
  unfold beginRounds
  split
  · exact lays_signal m _
  · exact (lays_push m rfl rfl).trans ((lays_push _ rfl rfl).trans (lays_signal _ _))

theorem lays_beginCommand (m : Machine) {c : Command} (other : ∀ s store catches, c = .step s store catches →
    ∀ name, s.turned? = some name → m.named? name ≠ some k) : Lays k m (m.beginCommand c) := by
  cases c with
  | step s store catches => exact lays_beginStep m _ (other s store catches rfl)
  | ret x => exact lays_signal m _
  | raise x => exact lays_signal m _
  | fail message => exact lays_signal m _
  | branch condition yes no => exact (lays_push m rfl rfl).trans (lays_signal _ _)
  | loop count body quiet => exact lays_beginRounds m count body quiet

theorem lays_resumeBlock (m : Machine) (rest : List Command) (s : Signal)
    (other : asksTurn k { m with stack := .block rest :: m.stack, control := .signal s } = false) :
    Lays k m (m.resumeBlock rest s) := by
  unfold resumeBlock
  split
  · rename_i c rest
    refine (lays_push m rfl rfl).trans (lays_beginCommand _ ?_)
    rintro s store catches rfl name turned named
    refine absurd ?_ (of_decide_eq_false other)
    rw [turned]
    exact named
  · exact lays_signal m _

theorem lays_resumeRounds (m : Machine) (body : List Command) (round remaining : Nat) (quiet : Bool)
    (s : Signal) : Lays k m (m.resumeRounds body round remaining quiet s) := by
  unfold resumeRounds
  split
  · exact (lays_push m rfl rfl).trans ((lays_push _ rfl rfl).trans (lays_signal _ _))
  · exact lays_signal m _

-- ---------------------------------------------------------------------------
-- Going on
-- ---------------------------------------------------------------------------

theorem lays_resumeCall (m : Machine) (this : Value) (arguments : List Value) (s : Signal) :
    Lays k m (m.resumeCall this arguments s) := by
  unfold resumeCall
  split <;> exact lays_drop_signal _ m _

theorem lays_resumeWork (m : Machine) (s : Signal) : Lays k m (m.resumeWork s) := by
  unfold resumeWork
  split
  · exact lays_signal m _
  · exact lays_drop_signal _ m _
  · exact lays_drop_signal _ m _

theorem lays_resumeFunctionOnly (m : Machine) (s : Signal) : Lays k m (m.resumeFunctionOnly s) := by
  unfold resumeFunctionOnly
  split
  · exact lays_signal m _
  · exact lays_drop_signal _ m _
  · exact lays_signal m _

theorem lays_resumeSubstitute (m : Machine) (this : Value) (arguments : List Value) (s : Signal) :
    Lays k m (m.resumeSubstitute this arguments s) := by
  unfold resumeSubstitute
  split
  · exact (lays_push m rfl rfl).trans (lays_callValue _ _ _ _)
  · exact lays_drop_signal _ m _

theorem lays_resumeResolving (m : Machine) (p : Promise) (v : Value) (s : Signal) :
    Lays k m (m.resumeResolving p v s) := by
  unfold resumeResolving
  split
  · rename_i t
    have queued : Lays k m (m.modifyLoop p.home fun l => l.enqueue (.adoption p v t)) :=
      lays_modifyLoop m p.home (fun _ => rfl) fun l => Loop.bides_enqueue l _
    exact queued.trans (lays_drop_signal _ _ _)
  · exact lays_settle m p _ _ _
  · exact lays_settle m p _ _ _

theorem lays_resumeReacting (m : Machine) (handler : Value) (derived : Promise) (s : Signal) :
    Lays k m (m.resumeReacting handler derived s) := by
  unfold resumeReacting
  dsimp only
  split
  · exact (lays_push m rfl rfl).trans (lays_resolve _ _ _ _)
  · exact (lays_push m rfl rfl).trans (lays_reject _ _ _ _)
  · exact (lays_push m rfl rfl).trans (lays_signal _ _)

theorem lays_resumeAdopting (m : Machine) (p : Promise) (resolver thenFunction : Value) (s : Signal) :
    Lays k m (m.resumeAdopting p resolver thenFunction s) := by
  unfold resumeAdopting
  dsimp only
  split
  · exact (lays_push m rfl rfl).trans (lays_enterResolver _ _ _ _)
  · exact (lays_push m rfl rfl).trans (lays_signal _ _)

theorem lays_resumeAttaching (m : Machine) (derived : Promise) (job : Option Job) (s : Signal) :
    Lays k m (m.resumeAttaching derived job s) := by
  have ended : Lays k m (m.modifyLoop derived.home fun l => l.endAttach derived job) :=
    lays_modifyLoop m _ (fun l => l.id_endAttach derived job) fun l => Loop.bides_endAttach l derived job
  exact ended.trans (lays_drop_signal _ _ _)

/-- Whatever an activity goes on with, unless it is a turn of the loop or asks for one. -/
theorem lays_resume (m : Machine) {f : Frame} (s : Signal) (unturned : f.turns k = false)
    (other : asksTurn k { m with stack := f :: m.stack, control := .signal s } = false) :
    Lays k m (m.resume f s) := by
  have ne {j : LoopId} (h : decide (j = k) = false) : j ≠ k := of_decide_eq_false h
  cases f with
  | block rest => exact lays_resumeBlock m rest s other
  | rounds body round remaining quiet => exact lays_resumeRounds m _ _ _ _ s
  | command info operands => exact lays_endCommand m info operands (.signal s)
  | call this arguments quiet => exact lays_resumeCall m this arguments s
  | work quiet => exact lays_resumeWork m s
  | hold values => exact lays_drop_signal values m s
  | discard values => exact lays_drop_signal _ m .done
  | give v values => cases s <;> exact lays_drop_signal _ m _
  | surface values => cases s <;> exact lays_drop_signal _ m _
  | functionOnly => exact lays_resumeFunctionOnly m s
  | substitute this arguments => exact lays_resumeSubstitute m this arguments s
  | resolving p v => exact lays_resumeResolving m p v s
  | reacting handler derived => exact lays_resumeReacting m handler derived s
  | adopting p resolver thenFunction => exact lays_resumeAdopting m p resolver thenFunction s
  | constructing p => exact lays_resumeConstructing m p s
  | attaching derived job => exact lays_resumeAttaching m derived job s
  | draining j => exact lays_resumeDraining m (ne unturned) s
  | checkpoint j => exact lays_resumeCheckpoint m (ne unturned) s
  | reporting j reports => exact lays_resumeReporting m (ne unturned) reports s
  | collecting j sweep r => exact lays_resumeCollecting m j sweep r s
  | cycling j => exact lays_resumeCycling m (ne unturned) s
  | idling j => exact lays_resumeIdling m (ne unturned) s
  | finishing j => exact lays_resumeFinishing m (ne unturned) s
  | concluding j => exact lays_resumeConcluding m (ne unturned) s

-- ---------------------------------------------------------------------------
-- Steps
-- ---------------------------------------------------------------------------

/-- What is above some frames that wait is ordinary after a step, and no entry of the loop has begun, if no
turn of the loop is asked for. -/
theorem lays_step {above base : List Frame} {l : Loop} (hp : m.Placed) (kept : m.keepsLoop k = true)
    (hs : m.stack = above ++ base) (ordinary : Ordinary k above) (busy : ¬ IsBackAt base m)
    (other : asksTurn k m = false) (hl : m.loop? k = some l) :
    ∃ above' l', m.step.stack = above' ++ base ∧ Ordinary k above' ∧ m.step.loop? k = some l' ∧ l.Bides l' := by
  -- what an operation lays, it lays above what is left of the frames
  have laid {x y : Machine} {fs : List Frame} (hp : x.Placed) (hx : x.stack = fs ++ base)
      (ordinary : Ordinary k fs) (hl : x.loop? k = some l) (h : Lays k x y) :
      ∃ above' l', y.stack = above' ++ base ∧ Ordinary k above' ∧ y.loop? k = some l' ∧ l.Bides l' := by
    obtain ⟨above', stack, ordinary'⟩ := h.above
    obtain ⟨l', hl', bides⟩ := h.bides hp l hl
    exact ⟨above' ++ fs, l', by rw [stack, hx, List.append_assoc], ordinary'.append ordinary, hl', bides⟩
  rcases step_removes_or m hp kept with ⟨stack, -, aside⟩ | settled
  · exact laid hp hs ordinary hl (.of_aside aside stack)
  · cases hc : m.control with
    | idle a =>
      have step : m.step = m := by rw [Machine.step, settled, hc]
      have still : Lays k m m.step := by
        rw [step]
        exact .refl m
      exact laid hp hs ordinary hl still
    | call f this arguments =>
      have step : m.step = (m.signal .done).enter f this arguments := by rw [Machine.step, settled, hc]
      exact laid hp hs ordinary hl (step ▸ (lays_signal m .done).trans (lays_enter _ f this arguments))
    | collect j s =>
      exact laid hp hs ordinary hl (step_of_collect settled hc ▸
        (lays_signal m .done).trans (lays_collectNext _ j s))
    | signal s =>
      cases above with
      | nil => exact absurd ⟨hs, s, hc⟩ busy
      | cons f above =>
        rw [step_of_signal settled hc hs]
        have same : ({ m with stack := f :: (above ++ base), control := .signal s } : Machine) = m := by
          rw [← hc, ← List.cons_append, ← hs]
        exact laid (x := { m with stack := above ++ base, control := .signal .done }) hp rfl ordinary.tail hl
          (lays_resume _ s (ordinary.unturned f (List.mem_cons_self ..)) (same ▸ other))

end Machine
end PromiseLoop

import PromiseLoop.Machine.Commands
import PromiseLoop.Proofs.Views.Turns

/-!
# Commands in a view

The beginning and the end of every command of a script.

## Results

* `goes_beginCommand`: the beginning of a command.
* `quiet_endCommand`: its end.
-/

namespace PromiseLoop.Machine

open Relation

variable {loop : LoopId} {m m' : Machine}

-- ---------------------------------------------------------------------------
-- Ending
-- ---------------------------------------------------------------------------

theorem quiet_showAnswer (m : Machine) (info : CommandInfo) (s : Signal) (answer : Answer) :
    Quiet loop m (m.showAnswer info s answer) := by
  unfold showAnswer
  split
  · exact quiet_of_eq rfl rfl fun _ => rfl
  · exact (aside_traceEntry m _).quiet.trans (quiet_signal _ _)

theorem aside_storeValue (m : Machine) (info : CommandInfo) (s : Signal) :
    Aside loop m (m.storeValue info s) := by
  unfold storeValue
  split
  · split
    · exact .refl m
    · exact aside_assign m _ _
  · exact .refl m

theorem quiet_endCommand (m : Machine) (info : CommandInfo) (operands : List Value) (e : Ending) :
    Quiet loop m (m.endCommand info operands e) := by
  unfold endCommand
  split
  · exact (quiet_drop_signal _ m _).trans (quiet_showAnswer _ _ _ _)
  · exact (quiet_drop_signal _ m _).trans ((aside_storeValue _ _ _).quiet.trans
      ((quiet_showAnswer _ _ _ _).trans (quiet_drop _ _)))

theorem quiet_endWith (m : Machine) (info : CommandInfo) (v : Value) :
    Quiet loop m (m.endWith info v) :=
  quiet_endCommand m info [] _

theorem quiet_endDone (m : Machine) (info : CommandInfo) : Quiet loop m (m.endDone info) :=
  quiet_endCommand m info [] _

-- ---------------------------------------------------------------------------
-- Beginning
-- ---------------------------------------------------------------------------

theorem goes_withLoop (m : Machine) (info : CommandInfo) (name : String) (operands : List Value)
    {run : Machine → LoopId → Machine} (h : ∀ m id, Goes loop m (run m id)) :
    Goes loop m (m.withLoop info name operands run) := by
  unfold withLoop
  split
  · exact .quiet_trans (quiet_push m rfl) (h _ _)
  · exact (quiet_endDone m info).goes

theorem goes_withPromise (m : Machine) (info : CommandInfo) (name : String) (x : Operand)
    {run : Machine → LoopId → Promise → Machine} (h : ∀ m id p, Goes loop m (run m id p)) :
    Goes loop m (m.withPromise info name x run) := by
  unfold withPromise
  split
  · exact goes_withLoop m info name _ fun m id => h m id _
  · exact (quiet_endDone m info).goes

theorem quiet_construct (m : Machine) (id : LoopId) (initializer : Value) :
    Quiet loop m (m.construct id initializer) := by
  unfold construct
  cases hl : m.loop? id with
  | none => exact quiet_signal m _
  | some l =>
    have created : Quiet loop m (m.setLoop l.newPromise.2) :=
      quiet_setLoop hl l.id_newPromise (.created l)
    dsimp only
    split
    · exact created.trans ((quiet_push _ rfl).trans (quiet_invoke _ _ _ _ _))
    · exact quiet_signal m _

theorem quiet_resumeConstructing (m : Machine) (p : Promise) (s : Signal) :
    Quiet loop m (m.resumeConstructing p s) := by
  unfold resumeConstructing
  split
  · exact (quiet_push m rfl).trans ((quiet_push _ rfl).trans (quiet_reject _ _ _ _))
  · exact quiet_drop_signal _ m _

theorem quiet_promiseResolve (m : Machine) (id : LoopId) (v : Value) :
    Quiet loop m (m.promiseResolve id v) := by
  unfold promiseResolve
  cases hl : m.loop? id with
  | none => exact quiet_signal m _
  | some l =>
    have created : Quiet loop m (m.setLoop l.newPromise.2) :=
      quiet_setLoop hl l.id_newPromise (.created l)
    dsimp only
    split
    · exact quiet_signal m _
    · exact created.trans ((quiet_push _ rfl).trans (quiet_resolve _ _ _ _))

theorem quiet_promiseReject (m : Machine) (id : LoopId) (v : Value) :
    Quiet loop m (m.promiseReject id v) := by
  unfold promiseReject
  cases hl : m.loop? id with
  | none => exact quiet_signal m _
  | some l =>
    have created : Quiet loop m (m.setLoop l.newPromise.2) :=
      quiet_setLoop hl l.id_newPromise (.created l)
    exact created.trans ((quiet_push _ rfl).trans (quiet_reject _ _ _ _))

theorem quiet_callMethod (m : Machine) (id : LoopId) (name : String) (this : Value)
    (arguments : List Value) : Quiet loop m (m.callMethod id name this arguments) := by
  unfold callMethod
  split
  · exact quiet_willCall m _ _ _
  · exact quiet_drop_signal _ m _

theorem loop?_openLoop (m : Machine) (name : String) (config : Config) (tracker : Tracker)
    (bridge : Bridge) (k : LoopId) :
    (m.openLoop name config tracker bridge).loop? k =
      if k.number = m.loops.length then some { id := k, config, tracker, bridge }
      else m.loop? k := by
  unfold loop? openLoop
  rw [List.getElem?_append]
  split
  · rename_i h
    rw [if_neg (Nat.ne_of_lt h)]
  · rename_i h
    split
    · rename_i hk
      obtain ⟨number⟩ := k
      obtain rfl : number = m.loops.length := hk
      simp
    · rename_i hk
      have past : m.loops.length < k.number := by omega
      rw [List.getElem?_eq_none (by simp; omega), List.getElem?_eq_none (by omega)]

theorem number_lt_of_loop? {k : LoopId} {l : Loop} (h : m.loop? k = some l) :
    k.number < m.loops.length := by
  unfold loop? at h
  cases hk : m.loops[k.number]? with
  | none => rw [hk] at h; cases h
  | some x => exact (List.getElem?_eq_some_iff.mp hk).1

/-- A new loop is seen as it was created, and no other loop sees that it was. -/
theorem quiet_openLoop (m : Machine) (name : String) (config : Config) (tracker : Tracker)
    (bridge : Bridge) : Quiet loop m (m.openLoop name config tracker bridge) where
  placed hp k l hl := by
    rw [loop?_openLoop] at hl
    split at hl
    · rw [← Option.some.inj hl]
    · exact hp k l hl
  size := by simp [openLoop]
  stays _ v hv _ := by
    rw [sees_eq_some] at hv
    refine ⟨v, sees_eq_some.mpr ⟨?_, hv.2⟩, .refl⟩
    rw [loop?_openLoop, if_neg (Nat.ne_of_lt (number_lt_of_loop? hv.1)), hv.1]
  gone _ ha := by
    by_cases hk : loop.number = m.loops.length
    · have seen : (m.openLoop name config tracker bridge).sees loop =
          some (View.fresh loop config tracker bridge) :=
        sees_eq_some.mpr ⟨by rw [loop?_openLoop, if_pos hk]; rfl, ha.turns, ha.sweep⟩
      exact .inr ⟨Nat.le_of_eq hk.symm, config, tracker, bridge, _, seen, .refl⟩
    · exact .inl ⟨by rw [loop?_openLoop, if_neg hk, ha.gone], ha.turns, ha.sweep⟩

theorem goes_beginStep (m : Machine) (info : CommandInfo) (s : Step) :
    Goes loop m (m.beginStep info s) := by
  cases s with
  | ask q =>
    unfold beginStep
    dsimp only
    split
    · exact (quiet_endCommand m _ _ _).goes
    · exact (quiet_endCommand m _ _ _).goes
  | give x => exact (quiet_endWith m _ _).goes
  | drop names =>
    exact ((aside_removeVariables names m).quiet.trans (quiet_endDone _ _)).goes
  | log x => exact ((aside_traceEntry m _).quiet.trans (quiet_endDone _ _)).goes
  | routine name body quiet =>
    have known : Quiet loop m (m.newRoutine name { body, quiet }).2 :=
      quiet_of_eq rfl rfl fun h => h
    exact (known.trans (quiet_endWith _ _ _)).goes
  | native =>
    have known : Quiet loop m m.newNative.2 := quiet_of_eq rfl rfl fun h => h
    exact (known.trans (quiet_endWith _ _ _)).goes
  | object ps =>
    have known : Quiet loop m (m.newObject (m.initialProperties ps)).2 :=
      quiet_of_eq rfl rfl fun h => h
    exact (known.trans (quiet_endWith _ _ _)).goes
  | set o key x =>
    unfold beginStep
    dsimp only
    split
    · exact ((aside_replaceProperty m _ _ _).quiet.trans (quiet_endDone _ _)).goes
    · exact (quiet_endDone m _).goes
  | get o key =>
    unfold beginStep
    dsimp only
    split
    · exact ((quiet_push m rfl).trans (quiet_read _ _ _)).goes
    · exact (quiet_endDone m _).goes
  | getter o key f =>
    unfold beginStep
    dsimp only
    split
    · exact ((aside_replaceProperty m _ _ _).quiet.trans (quiet_endDone _ _)).goes
    · exact (quiet_endDone m _).goes
  | add a b =>
    exact (quiet_endCommand m info [] (.signal (sum (m.evaluate a) (m.evaluate b)))).goes
  | cycleError => exact (quiet_endWith m _ _).goes
  | invoke f on arguments => exact ((quiet_push m rfl).trans (quiet_callValue _ _ _ _)).goes
  | probeNatively x => exact ((quiet_push m rfl).trans (quiet_askThen _ _ _)).goes
  | openLoop name config tracker bridge =>
    exact ((quiet_openLoop m _ _ _ _).trans (quiet_endDone _ _)).goes
  | dropLoop name =>
    have unnamed : Quiet loop m { m with names := m.names.filter fun e => e.1 ≠ name } :=
      quiet_of_eq rfl rfl fun h => h
    exact (unnamed.trans (quiet_endDone _ _)).goes
  | newPromise name =>
    unfold beginStep
    dsimp only
    split
    · rename_i p m' h
      obtain ⟨id, -, hn⟩ := Option.bind_eq_some_iff.mp h
      exact ((quiet_newPromise hn).trans (quiet_endWith _ _ _)).goes
    · exact (quiet_endDone m _).goes
  | resolve name p x => exact goes_withPromise m _ _ _ fun m id p => (quiet_resolve m id p _).goes
  | reject name p x => exact goes_withPromise m _ _ _ fun m id p => (quiet_reject m id p _).goes
  | construct name x => exact goes_withLoop m _ _ _ fun m id => (quiet_construct m id _).goes
  | promiseResolve name x =>
    exact goes_withLoop m _ _ _ fun m id => (quiet_promiseResolve m id _).goes
  | promiseReject name x =>
    exact goes_withLoop m _ _ _ fun m id => (quiet_promiseReject m id _).goes
  | attach word name p f r => exact goes_withPromise m _ _ _ fun m id p => goes_attach m id p _ _ _
  | method name method =>
    unfold beginStep
    dsimp only
    split
    · exact (quiet_endWith m _ _).goes
    · exact (quiet_endDone m _).goes
  | callMethod name method on arguments =>
    exact goes_withLoop m _ _ _ fun m id => (quiet_callMethod m id _ _ _).goes
  | probe name x => exact goes_withLoop m _ _ _ fun m id => (quiet_probe m id _).goes
  | task name label body quiet =>
    unfold beginStep
    dsimp only
    split
    · have queued (id : LoopId) :
          Quiet loop m (m.modifyLoop id fun l => l.enqueueTask { label, body, quiet }) :=
        quiet_modifyLoop m id (fun _ => rfl) fun l => .taskQueued l _
      exact ((queued _).trans (quiet_endDone _ _)).goes
    · exact (quiet_endDone m _).goes
  | microtask name label body quiet =>
    unfold beginStep
    dsimp only
    split
    · have queued (id : LoopId) :
          Quiet loop m (m.modifyLoop id fun l => l.enqueue (.host { label, body, quiet })) :=
        quiet_modifyLoop m id (fun _ => rfl) fun l => .queued l rfl
      exact ((queued _).trans (quiet_endDone _ _)).goes
    · exact (quiet_endDone m _).goes
  | drain name => exact goes_withLoop m _ _ _ fun m id => (quiet_drain m id).goes
  | checkpoint name => exact goes_withLoop m _ _ _ fun m id => (quiet_checkpoint m id).goes
  | cycle name => exact goes_withLoop m _ _ _ fun m id => (quiet_cycle m id).goes
  | idle name => exact goes_withLoop m _ _ _ fun m id => (quiet_idle m id).goes
  | done name => exact goes_withLoop m _ _ _ fun m id => (quiet_conclude m id).goes
  | collect name => exact goes_withLoop m _ _ _ fun m id => goes_collect m id
  | completer name completer =>
    unfold beginStep
    dsimp only
    split
    · rename_i l h
      obtain ⟨id, -, hl⟩ := Option.bind_eq_some_iff.mp h
      have flown : Quiet loop m (m.setLoop l.openFlight.2) :=
        quiet_setLoop hl l.id_openFlight (.flown l)
      exact (flown.trans ((aside_keepCompleter _ _ _).quiet.trans (quiet_endWith _ _ _))).goes
    · exact (quiet_endDone m _).goes
  | dropCompleter name =>
    exact ((aside_useCompleter m _ _).quiet.trans (quiet_endDone _ _)).goes
  | complete name result =>
    exact ((aside_useCompleter m _ _).quiet.trans (quiet_endDone _ _)).goes
  | spawn name result now =>
    unfold beginStep
    dsimp only
    split
    · rename_i l h
      obtain ⟨id, -, hl⟩ := Option.bind_eq_some_iff.mp h
      generalize hr : ({ promise := l.openFlight.1.id, result } : Report) = r
      generalize hk : l.openFlight.2.addWorker l.openFlight.1 = k
      have hid : k.id = l.id := by simp [← hk]
      have worker (turns : List Frame) : View.Quiet ⟨l, turns, none⟩ ⟨k, turns, none⟩ := by
        rw [← hk]
        exact .head (.called (.flown l)) (.single (.called (.workerAdded _ _)))
      have posted (turns : List Frame) :
          View.Quiet ⟨l, turns, none⟩ ⟨if now then k.post r else k.addWaiting r, turns, none⟩ := by
        split
        · exact (worker turns).tail (.outside (.posted k r))
        · exact (worker turns).tail (.called (.workerWaits k r))
      have spawned : Quiet loop m (m.setLoop (if now then k.post r else k.addWaiting r)) :=
        quiet_setLoop_of_quiet hl (by split <;> simp [hid]) fun _ => posted
      exact (spawned.trans (quiet_endWith _ _ _)).goes
    · exact (quiet_endDone m _).goes
  | finish name =>
    unfold beginStep
    dsimp only
    split
    · rename_i l h
      obtain ⟨id, -, hl⟩ := Option.bind_eq_some_iff.mp h
      have released : Quiet loop m (m.setLoop l.releaseWorker.2) :=
        quiet_setLoop_of_quiet hl l.id_releaseWorker fun _ turns =>
          .single (.outside (.workerReleased l))
      exact (released.trans (quiet_endCommand _ _ _ _)).goes
    · exact (quiet_endDone m _).goes

theorem quiet_beginRounds (m : Machine) (count : Nat) (body : List Command) (quiet : Bool) :
    Quiet loop m (m.beginRounds count body quiet) := by
  unfold beginRounds
  split
  · exact quiet_signal m _
  · exact (quiet_push m rfl).trans ((quiet_push _ rfl).trans (quiet_signal _ _))

theorem quiet_resumeRounds (m : Machine) (body : List Command) (round remaining : Nat)
    (quiet : Bool) (s : Signal) :
    Quiet loop m (m.resumeRounds body round remaining quiet s) := by
  unfold resumeRounds
  split
  · exact (quiet_push m rfl).trans ((quiet_push _ rfl).trans (quiet_signal _ _))
  · exact quiet_signal m _

theorem goes_beginCommand (m : Machine) (c : Command) : Goes loop m (m.beginCommand c) := by
  cases c with
  | step s store catches => exact goes_beginStep m _ s
  | ret x => exact (quiet_signal m _).goes
  | raise x => exact (quiet_signal m _).goes
  | fail message => exact (quiet_signal m _).goes
  | branch condition yes no => exact ((quiet_push m rfl).trans (quiet_signal _ _)).goes
  | loop count body quiet => exact (quiet_beginRounds m count body quiet).goes

theorem goes_resumeBlock (m : Machine) (rest : List Command) (s : Signal) :
    Goes loop m (m.resumeBlock rest s) := by
  unfold resumeBlock
  split
  · exact .quiet_trans (quiet_push m rfl) (goes_beginCommand _ _)
  · exact (quiet_signal m _).goes

end PromiseLoop.Machine

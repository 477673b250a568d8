import PromiseLoop.Proofs.Changes.Turns
import PromiseLoop.Proofs.Queues

/-!
# What steps change

Commands and single steps, as changes of a machine.  What a move has an occasion for is read off the machine
before it: off the command that is given or comes next in a body, off the answer of a value that a promise
is resolved with, or off the queue of a loop that is being drained.

## Results

* `Changes.loops`: what becomes of the loops.
* `does_beginStep`, `does_resume`: the beginnings of commands, and how activities go on.
* `Advances.does`: whatever happens to a machine is changes, and its occasion at most once.
-/

namespace PromiseLoop

open Relation

namespace Machine

variable {m m' : Machine} {l l' : Loop}

-- ---------------------------------------------------------------------------
-- What becomes of the loops
-- ---------------------------------------------------------------------------

theorem loop?_setLoop_ite (hl : m.loop? l.id = some l) (hid : l'.id = l.id) (k : LoopId) :
    (m.setLoop l').loop? k = if k = l.id then some l' else m.loop? k := by
  by_cases hk : k = l.id
  · rw [if_pos hk, hk]
    exact loop?_setLoop_self hl hid
  · rw [if_neg hk, setLoop, loop?_modifyLoop_of_ne m (by rw [hid]; exact Ne.symm hk)]

/-- What becomes of the loops in a single change. -/
theorem Change.loops (hc : Change m m') (hp : m.Placed) : m'.Placed ∧ m'.completers = m.completers ∧
    m.loops.length ≤ m'.loops.length ∧ ∀ k l', m'.loop? k = some l' →
      (∃ l, m.loop? k = some l ∧ (l = l' ∨ l.Does l')) ∨
      (m.loops.length ≤ k.number ∧ ∃ config tracker bridge, l' = { id := k, config, tracker, bridge }) := by
  cases hc with
  | scene loops completers =>
    have look (k : LoopId) : m'.loop? k = m.loop? k := by rw [loop?, loop?, loops]
    exact ⟨fun k l hl => hp k l (look k ▸ hl), completers, Nat.le_of_eq (by rw [loops]),
      fun k l' hl' => .inl ⟨l', look k ▸ hl', .inl rfl⟩⟩
  | opened name config tracker bridge =>
    refine ⟨fun k l hl => ?_, rfl, by simp [openLoop], fun k l hl => ?_⟩
    all_goals
      rw [loop?_openLoop] at hl
      split at hl
    · rw [← Option.some.inj hl]
    · exact hp k l hl
    · rename_i hk
      exact .inr ⟨Nat.le_of_eq hk.symm, config, tracker, bridge, (Option.some.inj hl).symm⟩
    · exact .inl ⟨l, hl, .inl rfl⟩
  | removed k =>
    refine ⟨fun j l hl => ?_, rfl, by simp, fun j l hl => .inl ⟨l, ?_, .inl rfl⟩⟩
    all_goals
      rw [loop?_modify_none] at hl
      split at hl
      · cases hl
    · exact hp j l hl
    · exact hl
  | @modified k f id does =>
    refine ⟨hp.modifyLoop k fun l _ => id l, rfl, by simp [modifyLoop], fun j l' hl' => .inl ?_⟩
    by_cases hj : k = j
    · subst hj
      rw [loop?_modifyLoop_self] at hl'
      obtain ⟨l, hl, rfl⟩ := Option.map_eq_some_iff.mp hl'
      exact ⟨l, hl, .inr (does l)⟩
    · rw [loop?_modifyLoop_of_ne m hj] at hl'
      exact ⟨l', hl', .inl rfl⟩
  | @replaced k l l' found id does =>
    obtain rfl : l.id = k := hp k l found
    refine ⟨hp.setLoop found id, rfl, by simp [setLoop, modifyLoop], fun j x hx => .inl ?_⟩
    rw [loop?_setLoop_ite found id] at hx
    split at hx
    · rename_i hj
      subst hj
      exact ⟨l, found, .inr (Option.some.inj hx ▸ does)⟩
    · exact ⟨x, hx, .inl rfl⟩

/-- What becomes of the loops in changes, one operation after another. -/
theorem Changes.loops (hc : Changes m m') (hp : m.Placed) : m'.Placed ∧ m'.completers = m.completers ∧
    m.loops.length ≤ m'.loops.length ∧ ∀ k l', m'.loop? k = some l' →
      (∃ l, m.loop? k = some l ∧ ReflTransGen Loop.Does l l') ∨
      (m.loops.length ≤ k.number ∧ ∃ config tracker bridge,
        ReflTransGen Loop.Does { id := k, config, tracker, bridge } l') := by
  induction hc with
  | refl => exact ⟨hp, rfl, Nat.le_refl _, fun k l hl => .inl ⟨l, hl, .refl⟩⟩
  | tail _ hc ih =>
    obtain ⟨placed, completers, size, loops⟩ := ih
    obtain ⟨placed', completers', size', loops'⟩ := hc.loops placed
    refine ⟨placed', completers'.trans completers, Nat.le_trans size size', fun k l' hl' => ?_⟩
    rcases loops' k l' hl' with ⟨l, hl, does⟩ | ⟨new, config, tracker, bridge, rfl⟩
    · have later : ReflTransGen Loop.Does l l' := by
        rcases does with rfl | does
        · exact .refl
        · exact .single does
      exact (loops k l hl).imp (fun ⟨x, hx, earlier⟩ => ⟨x, hx, earlier.trans later⟩)
        fun ⟨new, config, tracker, bridge, earlier⟩ => ⟨new, config, tracker, bridge, earlier.trans later⟩
    · exact .inr ⟨Nat.le_trans size new, config, tracker, bridge, .refl⟩

-- ---------------------------------------------------------------------------
-- Occasions
-- ---------------------------------------------------------------------------

/-- The occasion to construct a promise: there is none unless the initializer can be called. -/
def construction? (m : Machine) (k : LoopId) (f : Value) : Option Occasion :=
  if (m.loop? k).any fun l => l.bridge.isCallable m.properties f then some (.construction k f) else none

/-- The occasion that a step has. -/
def occasionOf (m : Machine) : Step → Option Occasion
  | .construct name x => (m.named? name).bind fun k => m.construction? k (m.evaluate x)
  | .microtask name label body quiet =>
    (m.named? name).bind fun k => (m.loop? k).map fun _ => .hosting k { label, body, quiet }
  | _ => none

/-- The occasion that a command has. -/
def beginning (m : Machine) : Command → Option Occasion
  | .step s _ _ => m.occasionOf s
  | _ => none

/-- The occasion that a frame has when it goes on. -/
def resumption (m : Machine) (f : Frame) (s : Signal) : Option Occasion :=
  match f, s with
  | .block (c :: _), .done => m.beginning c
  | .resolving p v, .value t => (m.loop? p.home).map fun _ => .adoption p v t
  | .draining _, .fault _ => none
  | .draining k, _ => m.nextJob? k
  | _, _ => none

/-- The occasion of a step of the machine. -/
def occasion? (m : Machine) : Option Occasion :=
  match m.orphan?, m.control, m.stack with
  | none, .signal s, f :: _ => m.resumption f s
  | _, _, _ => none

/-- A machine is given a command while it waits for one, or takes a step, with the occasion it has. -/
inductive Advances : Machine → Option Occasion → Machine → Prop
  | start {m : Machine} (idle : m.isIdle = true) (c : Command) : Advances m (m.beginning c) (m.start c)
  | step (m : Machine) : Advances m m.occasion? m.step

theorem Next.advances (hn : Next m m') : ∃ o, Advances m o m' := by
  cases hn with
  | start idle c => exact ⟨_, .start idle c⟩
  | step => exact ⟨_, .step m⟩

theorem Advances.next {o : Option Occasion} (ha : Advances m o m') : Next m m' := by
  cases ha with
  | start idle c => exact .start idle c
  | step => exact .step m

/-- What the machine has begun beneath a body does not matter to the occasion of a command. -/
theorem beginning_congr {n : Machine} (loops : n.loops = m.loops) (names : n.names = m.names)
    (objects : n.objects = m.objects) (vars : n.vars = m.vars) (scope : n.scope = m.scope)
    (round : n.round = m.round) (c : Command) : n.beginning c = m.beginning c := by
  have evaluated (x : Operand) : n.evaluate x = m.evaluate x := by
    cases x <;> simp only [evaluate, evaluateIn, vars, scope, round]
  have looked (k : LoopId) : n.loop? k = m.loop? k := by rw [loop?, loop?, loops]
  have properties : n.properties = m.properties := by
    funext o
    rw [Machine.properties, Machine.properties, objects]
  cases c with
  | step s store catches =>
    cases s <;> simp only [beginning, occasionOf, construction?, named?, names, evaluated, looked, properties]
  | _ => rfl

/-- The occasion of a frame is the same when the frame has been taken off the stack. -/
theorem resumption_pop {f : Frame} {rest : List Frame} (hs : m.stack = f :: rest) (s : Signal) :
    ({ m with stack := rest, control := .signal .done } : Machine).resumption f s = m.resumption f s := by
  cases f with
  | block body =>
    cases body with
    | nil => cases s <;> rfl
    | cons c body =>
      cases s with
      | done =>
        have same : ({ m with stack := rest, control := .signal .done } : Machine).beginning c =
            m.beginning c := by
          apply beginning_congr <;> first | rfl | simp only [scope, round, hs, List.findSome?]
        exact same
      | _ => rfl
  | resolving p v => cases s <;> rfl
  | draining k => cases s <;> rfl
  | _ => cases s <;> rfl

-- ---------------------------------------------------------------------------
-- Ending commands
-- ---------------------------------------------------------------------------

theorem changes_assign (m : Machine) (name : String) (v : Value) : Changes m (m.assign name v) :=
  changes_drop_of_eq _ rfl rfl

theorem changes_removeVariables (names : List String) (m : Machine) :
    Changes m (names.foldl removeVariable m) := by
  induction names generalizing m with
  | nil => exact .refl
  | cons name names ih =>
    have removed : Changes m (m.removeVariable name) := changes_drop_of_eq _ rfl rfl
    exact removed.trans (ih _)

theorem changes_replaceProperty (m : Machine) (o : ObjectId) (key : String) (p : Property) :
    Changes m (m.replaceProperty o key p) :=
  changes_drop_of_eq _ rfl rfl

theorem changes_showAnswer (m : Machine) (info : CommandInfo) (s : Signal) (answer : Answer) :
    Changes m (m.showAnswer info s answer) := by
  unfold showAnswer
  split
  · exact changes_of_eq rfl rfl
  · exact (changes_traceEntry m _).trans (changes_signal _ _)

theorem changes_storeValue (m : Machine) (info : CommandInfo) (s : Signal) :
    Changes m (m.storeValue info s) := by
  unfold storeValue
  split
  · split
    · exact .refl
    · exact changes_assign m _ _
  · exact .refl

theorem changes_endCommand (m : Machine) (info : CommandInfo) (operands : List Value) (e : Ending) :
    Changes m (m.endCommand info operands e) := by
  unfold endCommand
  split
  · exact (changes_drop_signal _ m _).trans (changes_showAnswer _ _ _ _)
  · exact (changes_drop_signal _ m _).trans ((changes_storeValue _ _ _).trans
      ((changes_showAnswer _ _ _ _).trans (changes_drop _ _)))

theorem changes_endWith (m : Machine) (info : CommandInfo) (v : Value) : Changes m (m.endWith info v) :=
  changes_endCommand m info [] _

theorem changes_endDone (m : Machine) (info : CommandInfo) : Changes m (m.endDone info) :=
  changes_endCommand m info [] _

-- ---------------------------------------------------------------------------
-- Beginning commands
-- ---------------------------------------------------------------------------

theorem changes_withLoop (m : Machine) (info : CommandInfo) (name : String) (operands : List Value)
    {run : Machine → LoopId → Machine} (h : ∀ m k, Changes m (run m k)) :
    Changes m (m.withLoop info name operands run) := by
  unfold withLoop
  split
  · exact (changes_push m _).trans (h _ _)
  · exact changes_endDone m info

theorem changes_withPromise (m : Machine) (info : CommandInfo) (name : String) (x : Operand)
    {run : Machine → LoopId → Promise → Machine} (h : ∀ m k p, Changes m (run m k p)) :
    Changes m (m.withPromise info name x run) := by
  unfold withPromise
  split
  · exact changes_withLoop m info name _ fun m k => h m k _
  · exact changes_endDone m info

theorem does_construct (m : Machine) (k : LoopId) (initializer : Value) (hp : m.Placed) :
    Does (m.construction? k initializer) m (m.construct k initializer) := by
  unfold construct construction?
  cases hl : m.loop? k with
  | none => exact Changes.does (changes_signal m _)
  | some l =>
    dsimp only [Option.any_some]
    split
    · obtain rfl : l.id = k := hp k l hl
      have found : ((m.setLoop l.newPromise.2).push (.constructing l.newPromise.1)).loop? l.id =
          some l.newPromise.2 := loop?_setLoop_self hl l.id_newPromise
      refine .of_changes ((changes_setLoop hl l.id_newPromise (.created l)).trans (changes_push _ _))
        (Works.does (.called found initializer) ?_)
      rw [← modifyLoop_of_found (fun l => l.note (.invoked initializer)) found l.id_newPromise]
      exact changes_invoke _ _ _ _ _
    · exact Changes.does (changes_signal m _)

theorem changes_resumeConstructing (m : Machine) (p : Promise) (s : Signal) :
    Changes m (m.resumeConstructing p s) := by
  unfold resumeConstructing
  split
  · exact (changes_push m _).trans ((changes_push _ _).trans (changes_reject _ _ _ _))
  · exact changes_drop_signal _ m _

theorem changes_promiseResolve (m : Machine) (k : LoopId) (v : Value) :
    Changes m (m.promiseResolve k v) := by
  unfold promiseResolve
  cases hl : m.loop? k with
  | none => exact changes_signal m _
  | some l =>
    dsimp only
    split
    · exact changes_signal m _
    · exact (changes_setLoop hl l.id_newPromise (.created l)).trans
        ((changes_push _ _).trans (changes_resolve _ _ _ _))

theorem changes_promiseReject (m : Machine) (k : LoopId) (v : Value) :
    Changes m (m.promiseReject k v) := by
  unfold promiseReject
  cases hl : m.loop? k with
  | none => exact changes_signal m _
  | some l =>
    exact (changes_setLoop hl l.id_newPromise (.created l)).trans
      ((changes_push _ _).trans (changes_reject _ _ _ _))

theorem changes_callMethod (m : Machine) (k : LoopId) (name : String) (this : Value)
    (arguments : List Value) : Changes m (m.callMethod k name this arguments) := by
  unfold callMethod
  split
  · exact changes_willCall m _ _ _
  · exact changes_drop_signal _ m _

theorem does_beginStep (m : Machine) (info : CommandInfo) (s : Step) (hp : m.Placed) :
    Does (m.occasionOf s) m (m.beginStep info s) := by
  cases s with
  | ask q =>
    unfold beginStep
    dsimp only
    split
    · exact Changes.does (changes_endCommand m _ _ _)
    · exact Changes.does (changes_endCommand m _ _ _)
  | give x => exact Changes.does (changes_endWith m _ _)
  | drop names => exact Changes.does ((changes_removeVariables names m).trans (changes_endDone _ _))
  | log x => exact Changes.does ((changes_traceEntry m _).trans (changes_endDone _ _))
  | routine name body quiet =>
    have known : Changes m (m.newRoutine name { body, quiet }).2 := changes_of_eq rfl rfl
    exact Changes.does (known.trans (changes_endWith _ _ _))
  | native =>
    have known : Changes m m.newNative.2 := changes_of_eq rfl rfl
    exact Changes.does (known.trans (changes_endWith _ _ _))
  | object ps =>
    have known : Changes m (m.newObject (m.initialProperties ps)).2 := changes_of_eq rfl rfl
    exact Changes.does (known.trans (changes_endWith _ _ _))
  | set o key x =>
    unfold beginStep
    dsimp only
    split
    · exact Changes.does ((changes_replaceProperty m _ _ _).trans (changes_endDone _ _))
    · exact Changes.does (changes_endDone m _)
  | get o key =>
    unfold beginStep
    dsimp only
    split
    · exact Changes.does ((changes_push m _).trans (changes_read _ _ _))
    · exact Changes.does (changes_endDone m _)
  | getter o key f =>
    unfold beginStep
    dsimp only
    split
    · exact Changes.does ((changes_replaceProperty m _ _ _).trans (changes_endDone _ _))
    · exact Changes.does (changes_endDone m _)
  | add a b =>
    exact Changes.does (changes_endCommand m info [] (.signal (sum (m.evaluate a) (m.evaluate b))))
  | cycleError => exact Changes.does (changes_endWith m _ _)
  | invoke f on arguments => exact Changes.does ((changes_push m _).trans (changes_callValue _ _ _ _))
  | probeNatively x => exact Changes.does ((changes_push m _).trans (changes_askThen _ _ _))
  | openLoop name config tracker bridge =>
    have opened : Changes m (m.openLoop name config tracker (bridgeOf bridge)) :=
      .single (.opened m _ _ _ _)
    exact Changes.does (opened.trans (changes_endDone _ _))
  | dropLoop name =>
    have unnamed : Changes m { m with names := m.names.filter fun e => e.1 ≠ name } :=
      changes_of_eq rfl rfl
    exact Changes.does (unnamed.trans (changes_endDone _ _))
  | newPromise name =>
    unfold beginStep
    dsimp only
    split
    · rename_i p m' h
      obtain ⟨k, -, hn⟩ := Option.bind_eq_some_iff.mp h
      exact Changes.does ((changes_newPromise hn).trans (changes_endWith _ _ _))
    · exact Changes.does (changes_endDone m _)
  | resolve name p x => exact Changes.does (changes_withPromise m _ _ _ fun m k p => changes_resolve m k p _)
  | reject name p x => exact Changes.does (changes_withPromise m _ _ _ fun m k p => changes_reject m k p _)
  | construct name x =>
    show Does ((m.named? name).bind fun k => m.construction? k (m.evaluate x)) m
      (m.withLoop info name [m.evaluate x] fun n k => n.construct k (m.evaluate x))
    unfold withLoop
    cases m.named? name with
    | some k =>
      exact .of_changes (changes_push m (.command { info with loop := some k } [m.evaluate x]))
        (does_construct _ k _ hp)
    | none => exact Changes.does (changes_endDone m _)
  | promiseResolve name x =>
    exact Changes.does (changes_withLoop m _ _ _ fun m k => changes_promiseResolve m k _)
  | promiseReject name x =>
    exact Changes.does (changes_withLoop m _ _ _ fun m k => changes_promiseReject m k _)
  | attach word name p f r =>
    exact Changes.does (changes_withPromise m _ _ _ fun m k p => changes_attach m k p _ _ _)
  | method name method =>
    unfold beginStep
    dsimp only
    split
    · exact Changes.does (changes_endWith m _ _)
    · exact Changes.does (changes_endDone m _)
  | callMethod name method on arguments =>
    exact Changes.does (changes_withLoop m _ _ _ fun m k => changes_callMethod m k _ _ _)
  | probe name x => exact Changes.does (changes_withLoop m _ _ _ fun m k => changes_probe m k _)
  | task name label body quiet =>
    unfold beginStep
    dsimp only
    split
    · rename_i k _
      have queued : Changes m (m.modifyLoop k fun l => l.enqueueTask ⟨label, body, quiet⟩) :=
        changes_modifyLoop m k (fun _ => rfl) fun l => .taskQueued l _
      exact Changes.does (queued.trans (changes_endDone _ _))
    · exact Changes.does (changes_endDone m _)
  | microtask name label body quiet =>
    unfold beginStep occasionOf
    dsimp only
    cases m.named? name with
    | some k =>
      cases hl : m.loop? k with
      | some l =>
        have hosted : Works _ m (m.setLoop (l.enqueue (.host ⟨label, body, quiet⟩))) := .hosted hl _
        rw [← modifyLoop_of_found (fun l => l.enqueue _) hl (hp k l hl)] at hosted
        simp only [Option.bind_some, hl]
        exact hosted.does (changes_endDone _ _)
      | none =>
        simp only [Option.bind_some, hl, modifyLoop_of_gone hl]
        exact Changes.does (changes_endDone m _)
    | none => exact Changes.does (changes_endDone m _)
  | drain name => exact Changes.does (changes_withLoop m _ _ _ changes_drain)
  | checkpoint name => exact Changes.does (changes_withLoop m _ _ _ changes_checkpoint)
  | cycle name => exact Changes.does (changes_withLoop m _ _ _ changes_cycle)
  | idle name => exact Changes.does (changes_withLoop m _ _ _ changes_idle)
  | done name => exact Changes.does (changes_withLoop m _ _ _ changes_conclude)
  | collect name => exact Changes.does (changes_withLoop m _ _ _ changes_collect)
  | completer name completer =>
    unfold beginStep
    dsimp only
    split
    · rename_i l h
      obtain ⟨k, -, hl⟩ := Option.bind_eq_some_iff.mp h
      exact Works.does (.handedOut hl completer) (changes_endWith _ _ _)
    · exact Changes.does (changes_endDone m _)
  | dropCompleter name => exact Works.does (.used m name .abandoned) (changes_endDone _ _)
  | complete name result => exact Works.does (.used m name result) (changes_endDone _ _)
  | spawn name result now =>
    unfold beginStep
    dsimp only
    split
    · rename_i l h
      obtain ⟨k, -, hl⟩ := Option.bind_eq_some_iff.mp h
      exact Works.does (.spawned hl result now) (changes_endWith _ _ _)
    · exact Changes.does (changes_endDone m _)
  | finish name =>
    unfold beginStep
    dsimp only
    split
    · rename_i l h
      obtain ⟨k, -, hl⟩ := Option.bind_eq_some_iff.mp h
      exact Works.does (.letGo hl) (changes_endCommand _ _ _ _)
    · exact Changes.does (changes_endDone m _)

theorem changes_beginRounds (m : Machine) (count : Nat) (body : List Command) (quiet : Bool) :
    Changes m (m.beginRounds count body quiet) := by
  unfold beginRounds
  split
  · exact changes_signal m _
  · exact (changes_push m _).trans ((changes_push _ _).trans (changes_signal _ _))

theorem does_beginCommand (m : Machine) (c : Command) (hp : m.Placed) :
    Does (m.beginning c) m (m.beginCommand c) := by
  cases c with
  | step s store catches => exact does_beginStep m _ s hp
  | ret x => exact Changes.does (changes_signal m _)
  | raise x => exact Changes.does (changes_signal m _)
  | fail message => exact Changes.does (changes_signal m _)
  | branch condition yes no => exact Changes.does ((changes_push m _).trans (changes_signal _ _))
  | loop count body quiet => exact Changes.does (changes_beginRounds m count body quiet)

-- ---------------------------------------------------------------------------
-- Going on
-- ---------------------------------------------------------------------------

theorem changes_resumeRounds (m : Machine) (body : List Command) (round remaining : Nat)
    (quiet : Bool) (s : Signal) : Changes m (m.resumeRounds body round remaining quiet s) := by
  unfold resumeRounds
  split
  · exact (changes_push m _).trans ((changes_push _ _).trans (changes_signal _ _))
  · exact changes_signal m _

theorem does_resumeBlock (m : Machine) (rest : List Command) (s : Signal) (hp : m.Placed) :
    Does (m.resumption (.block rest) s) m (m.resumeBlock rest s) := by
  unfold resumeBlock
  split
  · rename_i c rest
    have same : (m.push (.block rest)).beginning c = m.beginning c :=
      beginning_congr rfl rfl rfl rfl rfl rfl c
    have begun := does_beginCommand (m.push (.block rest)) c hp
    rw [same] at begun
    exact .of_changes (changes_push m _) begun
  · rename_i others
    have none : m.resumption (.block rest) s = none := by
      unfold resumption
      split <;> first | rfl | simp_all
    exact none ▸ Changes.does (changes_signal m _)

theorem changes_resumeCall (m : Machine) (this : Value) (arguments : List Value) (s : Signal) :
    Changes m (m.resumeCall this arguments s) := by
  unfold resumeCall
  split <;> exact changes_drop_signal _ m _

theorem changes_resumeWork (m : Machine) (s : Signal) : Changes m (m.resumeWork s) := by
  unfold resumeWork
  split
  · exact changes_signal m _
  · exact changes_drop_signal _ m _
  · exact changes_drop_signal _ m _

theorem changes_resumeFunctionOnly (m : Machine) (s : Signal) :
    Changes m (m.resumeFunctionOnly s) := by
  unfold resumeFunctionOnly
  split
  · exact changes_signal m _
  · exact changes_drop_signal _ m _
  · exact changes_signal m _

theorem changes_resumeSubstitute (m : Machine) (this : Value) (arguments : List Value) (s : Signal) :
    Changes m (m.resumeSubstitute this arguments s) := by
  unfold resumeSubstitute
  split
  · exact (changes_push m _).trans (changes_callValue _ _ _ _)
  · exact changes_drop_signal _ m _

theorem does_resumeResolving (m : Machine) (p : Promise) (v : Value) (s : Signal) (hp : m.Placed) :
    Does (m.resumption (.resolving p v) s) m (m.resumeResolving p v s) := by
  cases s with
  | value t =>
    show Does ((m.loop? p.home).map fun _ => .adoption p v t) m
      (drop [.promise p] ((m.modifyLoop p.home fun l => l.enqueue (.adoption p v t)).signal .done))
    cases hl : m.loop? p.home with
    | some l =>
      have adopted : Works _ m (m.setLoop (l.enqueue (.adoption p v t))) := .adopted hl v t
      rw [← modifyLoop_of_found (fun l => l.enqueue _) hl (hp _ l hl)] at adopted
      exact adopted.does (changes_drop_signal _ _ _)
    | none =>
      rw [modifyLoop_of_gone hl]
      exact Changes.does (changes_drop_signal _ m _)
  | _ => exact Changes.does (changes_settle m p _ _ _)

theorem changes_resumeReacting (m : Machine) (handler : Value) (derived : Promise) (s : Signal) :
    Changes m (m.resumeReacting handler derived s) := by
  unfold resumeReacting
  dsimp only
  split
  · exact (changes_push m _).trans (changes_resolve _ _ _ _)
  · exact (changes_push m _).trans (changes_reject _ _ _ _)
  · exact (changes_push m _).trans (changes_signal _ _)

theorem changes_resumeAdopting (m : Machine) (p : Promise) (resolver thenFunction : Value)
    (s : Signal) : Changes m (m.resumeAdopting p resolver thenFunction s) := by
  unfold resumeAdopting
  dsimp only
  split
  · exact (changes_push m _).trans (changes_enterResolver _ _ _ _)
  · exact (changes_push m _).trans (changes_signal _ _)

/-- A registration ends by enqueueing a reaction, if anything. -/
theorem changes_resumeAttaching (m : Machine) (derived : Promise) {job : Option Job} (s : Signal)
    (h : ∀ l, m.loop? derived.home = some l → job.all Job.isReaction = true) :
    Changes m (m.resumeAttaching derived job s) := by
  have ended : Changes m (m.modifyLoop derived.home fun l => l.endAttach derived job) := by
    cases hl : m.loop? derived.home with
    | none => exact changes_of_eq (congrArg loops (modifyLoop_of_gone hl _)) rfl
    | some l =>
      exact changes_modifyLoop m _ (fun l => l.id_endAttach derived job)
        fun l' => .attachEnded l' derived (h l hl)
  exact ended.trans (changes_drop_signal _ _ _)

theorem does_resume (m : Machine) (f : Frame) (s : Signal) (hp : m.Placed)
    (reacts : ∀ derived job l, f = .attaching derived job → m.loop? derived.home = some l →
      job.all Job.isReaction = true) : Does (m.resumption f s) m (m.resume f s) := by
  cases f with
  | block rest => exact does_resumeBlock m rest s hp
  | rounds body round remaining quiet => exact Changes.does (changes_resumeRounds m _ _ _ _ s)
  | command info operands => exact Changes.does (changes_endCommand m info operands (.signal s))
  | call this arguments quiet => exact Changes.does (changes_resumeCall m this arguments s)
  | work quiet => exact Changes.does (changes_resumeWork m s)
  | hold values => exact Changes.does (changes_drop_signal values m s)
  | discard values => exact Changes.does (changes_drop_signal _ m .done)
  | give v values =>
    unfold resume
    dsimp only
    split <;> exact Changes.does (changes_drop_signal _ m _)
  | surface values =>
    unfold resume
    dsimp only
    split <;> exact Changes.does (changes_drop_signal _ m _)
  | functionOnly => exact Changes.does (changes_resumeFunctionOnly m s)
  | substitute this arguments => exact Changes.does (changes_resumeSubstitute m this arguments s)
  | resolving p v => exact does_resumeResolving m p v s hp
  | reacting handler derived => exact Changes.does (changes_resumeReacting m handler derived s)
  | adopting p resolver thenFunction =>
    exact Changes.does (changes_resumeAdopting m p resolver thenFunction s)
  | constructing p => exact Changes.does (changes_resumeConstructing m p s)
  | attaching derived job =>
    exact Changes.does (changes_resumeAttaching m derived s fun l => reacts derived job l rfl)
  | draining k =>
    have resumed := does_resumeDraining m k s hp
    cases s <;> exact resumed
  | checkpoint k => exact Changes.does (changes_resumeCheckpoint m k s)
  | reporting k reports => exact Changes.does (changes_resumeReporting m k reports s)
  | collecting k sweep r => exact Changes.does (changes_resumeCollecting m k sweep r s)
  | cycling k => exact Changes.does (changes_resumeCycling m k s)
  | idling k => exact Changes.does (changes_resumeIdling m k s)
  | finishing k => exact Changes.does (changes_resumeFinishing m k s)
  | concluding k => exact does_resumeConcluding m k s hp

-- ---------------------------------------------------------------------------
-- Any step
-- ---------------------------------------------------------------------------

/-- The registrations that are kept open have left reactions at most to their ends. -/
theorem isReaction_of_waiting {v v' : View} (h : v.Move v')
    (reacts : ∀ x ∈ v.waiting, x.2.all Job.isReaction = true) :
    ∀ x ∈ v'.waiting, x.2.all Job.isReaction = true := by
  rcases h.deeds with ⟨-, same⟩ | ⟨p, f, g, a, -, -, -, same⟩ |
    ⟨p, f, g, a, attached, -, -, more⟩ | ⟨derived, job, -, fewer⟩
  · rwa [same]
  · rwa [same]
  · intro x hx
    rw [more] at hx
    rcases List.mem_cons.mp hx with rfl | hx
    · exact Loop.isReaction_of_attach attached
    · exact reacts x hx
  · exact fun x hx => reacts x (fewer ▸ List.mem_cons_of_mem _ hx)

theorem Reachable.isReaction_of_attaching (hm : Reachable m) {derived : Promise} {job : Option Job}
    (hf : .attaching derived job ∈ m.stack) {l : Loop} (hl : m.loop? derived.home = some l) :
    job.all Job.isReaction = true := by
  have kept := hm.keepsView hl (P := fun v => ∀ x ∈ v.waiting, x.2.all Job.isReaction = true)
    (by intro config tracker bridge x hx; cases hx) isReaction_of_waiting
  refine kept (derived, job) (List.mem_filterMap.mpr ⟨.attaching derived job, ?_, rfl⟩)
  exact List.mem_filter.mpr ⟨hf, by simp [Frame.isTurnOf]⟩

/-- Whatever happens to a machine is a sequence of changes, with its occasion or background work dealt with
at most once. -/
theorem Advances.does {o : Option Occasion} (ha : Advances m o m') (hm : Reachable m) : Does o m m' := by
  cases ha with
  | start idle c =>
    have cleared : Changes m { m with trace := [] } := changes_of_eq rfl rfl
    have same : ({ m with trace := [] } : Machine).beginning c = m.beginning c :=
      beginning_congr rfl rfl rfl rfl rfl rfl c
    unfold Machine.start
    rw [← same]
    dsimp only
    split
    · exact .of_changes cleared (does_beginStep _ _ _ hm.placed)
    · rename_i others
      have pushed : (({ m with trace := [] } : Machine).push (.command .control [])).beginning c =
          ({ m with trace := [] } : Machine).beginning c := beginning_congr rfl rfl rfl rfl rfl rfl c
      rw [← pushed]
      exact .of_changes (cleared.trans (changes_push _ _)) (does_beginCommand _ c hm.placed)
  | step =>
    unfold Machine.step occasion?
    cases ho : m.orphan? with
    | some l =>
      have removed : Changes m { m with loops := m.loops.modify l.id.number fun _ => none } :=
        .single (.removed m l.id)
      exact Changes.does (removed.trans (changes_drop l.held _))
    | none =>
      cases hc : m.control with
      | idle answer => exact Changes.does .refl
      | call f this arguments => exact Changes.does ((changes_signal m .done).trans (changes_enter _ _ _ _))
      | collect k sweep => exact Changes.does ((changes_signal m .done).trans (changes_collectNext _ _ _))
      | signal s =>
        cases hs : m.stack with
        | nil => exact Changes.does (changes_of_eq rfl rfl)
        | cons f rest =>
          have popped : Changes m { m with stack := rest, control := .signal .done } :=
            changes_of_eq rfl rfl
          have resumed := does_resume { m with stack := rest, control := .signal .done } f s hm.placed
            (by rintro derived job l rfl hl; exact hm.isReaction_of_attaching (hs ▸ List.mem_cons_self) hl)
          rw [resumption_pop hs s] at resumed
          exact .of_changes popped resumed

end Machine
end PromiseLoop

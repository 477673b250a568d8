import PromiseLoop.Proofs.Views.Updates

/-!
# What operations change

Whatever a machine does is a sequence of single changes: the scene changes, that is, anything but loops
and completers; a loop is replaced by what one of its operations makes of it; or a loop is opened or goes.
Only a few commands and turns deal with background work, call script for a promise, run jobs, or queue any
other job than a reaction or a report; these are listed apart as `Machine.Works`.  All but those that deal
with background work have an `Occasion`.

## Results

* `changes_drop`: letting values go.
* `changes_resolve`, `changes_reject`, `changes_attach`: the operations on promises.
* `changes_enter`: the beginning of any call.
-/

namespace PromiseLoop

open Relation

/-- The report that a job applies. -/
def Job.report? : Job → Option Report
  | .settlement r => some r
  | _ => none

theorem Job.report?_eq_some {j : Job} {r : Report} : j.report? = some r ↔ j = .settlement r := by
  cases j <;> simp [report?]

/-- The value that a job calls, through the bridge of its loop, as soon as it is run. -/
def Job.callee? : Job → Option Value
  | .reaction r _ => r.handler
  | .adoption _ _ thenFunction => some thenFunction
  | _ => none

/-- The loop that calls what its job is to call. -/
def Loop.calling (l : Loop) (j : Job) : Loop :=
  match j.callee? with
  | some f => l.note (.invoked f)
  | none => l

theorem Loop.id_calling (l : Loop) (j : Job) : (l.calling j).id = l.id := by
  unfold calling
  split <;> rfl

/-- What operations do to a loop, unless they are listed in `Machine.Works`.  A report that is delivered
counts as one that waits, and is not dealt with before its job is run. -/
inductive Loop.Does : Loop → Loop → Prop
  | released (l : Loop) (id : PromiseId) : Does l (l.release id)
  | probed (l : Loop) (v : Value) : Does l (l.note (.probed v))
  | created (l : Loop) : Does l l.newPromise.2
  | attempted {l l' : Loop} {p : Promise} {accepted : Bool} (h : l.lock p = .ok (accepted, l')) :
      Does l l'
  | settled (l : Loop) (id : PromiseId) (s : State) (v : Value) : Does l (l.settle id s v).1
  | attached {l : Loop} {p : Promise} {f g : Option Value} {a : Attached} (h : l.attach p f g = .ok a) :
      Does l a.loop
  | chained {l : Loop} {p : Promise} {f g : Option Value} {a : Attached} (h : l.attach p f g = .ok a) :
      Does l (a.loop.endAttach a.derived a.job)
  | attachEnded (l : Loop) (derived : Promise) {job : Option Job} (h : job.all Job.isReaction = true) :
      Does l (l.endAttach derived job)
  | delivered (l : Loop) : Does l l.deliver
  | received {l l' : Loop} (h : l.receive? = some l') : Does l l'
  | taskQueued (l : Loop) (w : Work) : Does l (l.enqueueTask w)
  | taskTaken {l l' : Loop} {w : Work} (h : l.dequeueTask? = some (w, l')) : Does l l'
  | drainBegun (l : Loop) : Does l l.startDraining
  | drainEnded (l : Loop) : Does l (l.stopDraining.note .drained)
  | drainBroken (l : Loop) : Does l l.stopDraining
  | selected (l : Loop) : Does l l.takeReports.2
  | reported (l : Loop) (id : PromiseId) (reason : Value) : Does l (l.report id reason)
  | checked (l : Loop) : Does l (l.note .checked)
  | releasesTaken (l : Loop) : Does l l.takeReleases.2
  | freed {l l' : Loop} {id : PromiseId} {r : Record} (h : l.free? id = some (r, l')) : Does l l'

/-- The job that a registration leaves runs a reaction. -/
theorem Loop.isReaction_of_attach {l : Loop} {p : Promise} {f g : Option Value}
    {a : Loop.Attached} (h : l.attach p f g = .ok a) : a.job.all Job.isReaction = true := by
  unfold Loop.attach at h
  cases hr : l.record p with
  | error e => rw [hr] at h; cases h
  | ok r =>
    rw [hr] at h
    cases hs : r.state <;> simp only [Except.map, hs] at h <;> cases h <;> rfl

namespace Machine

/-- A single change of a machine. -/
inductive Change : Machine → Machine → Prop
  /-- Anything but loops and completers. -/
  | scene {m m' : Machine} (loops : m'.loops = m.loops) (completers : m'.completers = m.completers) :
      Change m m'
  | opened (m : Machine) (name : String) (config : Config) (tracker : Tracker) (bridge : Bridge) :
      Change m (m.openLoop name config tracker bridge)
  | removed (m : Machine) (k : LoopId) :
      Change m { m with loops := m.loops.modify k.number fun _ => none }
  | modified (m : Machine) (k : LoopId) {f : Loop → Loop} (id : ∀ l, (f l).id = l.id)
      (does : ∀ l : Loop, l.Does (f l)) : Change m (m.modifyLoop k f)
  | replaced {m : Machine} {k : LoopId} {l l' : Loop} (found : m.loop? k = some l) (id : l'.id = l.id)
      (does : l.Does l') : Change m (m.setLoop l')

/-- Any number of changes. -/
abbrev Changes : Machine → Machine → Prop := ReflTransGen Change

end Machine

/-- An occasion to call script for a promise, to run a job, or to queue one that is neither a reaction nor
a report. -/
inductive Occasion
  /-- A promise is constructed with an initializer that can be called. -/
  | construction (k : LoopId) (initializer : Value)
  /-- The host hands a microtask over. -/
  | hosting (k : LoopId) (w : Work)
  /-- The value of a resolution has answered with a `then`. -/
  | adoption (p : Promise) (thenable thenFunction : Value)
  /-- A drain comes to a job. -/
  | running (k : LoopId) (j : Job)

namespace Machine

/-- What is done at most once in a move, with its occasion.  A completer is handed out or used up, and a
worker is started or let go, without one. -/
inductive Works : Option Occasion → Machine → Machine → Prop
  | handedOut {m : Machine} {k : LoopId} {l : Loop} (found : m.loop? k = some l) (name : String) :
      Works none m
        ((m.setLoop l.openFlight.2).keepCompleter name { loop := l.id, promise := l.openFlight.1.id })
  | used (m : Machine) (name : String) (result : WorkResult) : Works none m (m.useCompleter name result)
  | spawned {m : Machine} {k : LoopId} {l : Loop} (found : m.loop? k = some l) (result : WorkResult)
      (now : Bool) :
      Works none m (m.setLoop
        (if now then (l.openFlight.2.addWorker l.openFlight.1).post ⟨l.openFlight.1.id, result⟩
        else (l.openFlight.2.addWorker l.openFlight.1).addWaiting ⟨l.openFlight.1.id, result⟩))
  | letGo {m : Machine} {k : LoopId} {l : Loop} (found : m.loop? k = some l) :
      Works none m (m.setLoop l.releaseWorker.2)
  | called {m : Machine} {k : LoopId} {l : Loop} (found : m.loop? k = some l) (f : Value) :
      Works (some (.construction k f)) m (m.setLoop (l.note (.invoked f)))
  | hosted {m : Machine} {k : LoopId} {l : Loop} (found : m.loop? k = some l) (w : Work) :
      Works (some (.hosting k w)) m (m.setLoop (l.enqueue (.host w)))
  | adopted {m : Machine} {p : Promise} {l : Loop} (found : m.loop? p.home = some l) (v t : Value) :
      Works (some (.adoption p v t)) m (m.setLoop (l.enqueue (.adoption p v t)))
  | run {m : Machine} {k : LoopId} {l l' : Loop} {j : Job} (found : m.loop? k = some l)
      (next : l.dequeue? = some (j, l')) (other : j.report? = none) :
      Works (some (.running k j)) m (m.setLoop (l'.calling j))
  | applied {m : Machine} {k : LoopId} {l l' : Loop} {r : Report} (found : m.loop? k = some l)
      (next : l.dequeue? = some (.settlement r, l')) :
      Works (some (.running k (.settlement r))) m (m.setLoop (l'.land r.promise).2)

variable {m m' m'' : Machine}

-- ---------------------------------------------------------------------------
-- Single changes
-- ---------------------------------------------------------------------------

theorem changes_of_eq (loops : m'.loops = m.loops) (completers : m'.completers = m.completers) :
    Changes m m' := .single (.scene loops completers)

/-- Putting a loop back as it is changes nothing. -/
theorem setLoop_self {k : LoopId} {l : Loop} (hl : m.loop? k = some l) (id : l.id = k) : m.setLoop l = m := by
  have place : m.loops[k.number]? = some (some l) := by
    rw [loop?] at hl
    exact Option.join_eq_some_iff.mp hl
  have same : m.loops.modify k.number (Option.map fun _ => l) = m.loops := by
    refine List.ext_getElem? fun i => ?_
    rw [List.getElem?_modify]
    split
    · rename_i hi
      rw [← hi, place]
      rfl
    · simp
  rw [setLoop, id, modifyLoop, same]

theorem changes_push (m : Machine) (f : Frame) : Changes m (m.push f) := changes_of_eq rfl rfl

theorem changes_signal (m : Machine) (s : Signal) : Changes m (m.signal s) := changes_of_eq rfl rfl

theorem changes_willCall (m : Machine) (f : Callable) (this : Value) (arguments : List Value) :
    Changes m (m.willCall f this arguments) := changes_of_eq rfl rfl

theorem changes_traceEntry (m : Machine) (e : Entry) : Changes m (m.traceEntry e) := by
  unfold traceEntry
  split
  · exact .refl
  · exact changes_of_eq rfl rfl

theorem changes_modifyLoop (m : Machine) (k : LoopId) {f : Loop → Loop} (id : ∀ l, (f l).id = l.id)
    (does : ∀ l : Loop, l.Does (f l)) : Changes m (m.modifyLoop k f) := .single (.modified m k id does)

theorem changes_setLoop {k : LoopId} {l l' : Loop} (found : m.loop? k = some l) (id : l'.id = l.id)
    (does : l.Does l') : Changes m (m.setLoop l') := .single (.replaced found id does)

/-- Values that are let go are released, and objects are taken apart. -/
theorem changes_drop (vs : List Value) (m : Machine) : Changes m (drop vs m) := by
  apply drop_induction (P := Changes m)
  · exact fun m' p h => h.trans (changes_modifyLoop m' p.home (fun _ => rfl) fun l => .released l p.id)
  · intro m' o ps m'' h ht
    rw [eq_of_takeObject? ht]
    exact h.trans (changes_of_eq rfl rfl)
  · exact .refl

/-- The end of an operation that lets values go last. -/
theorem changes_drop_signal (vs : List Value) (m : Machine) (s : Signal) :
    Changes m (drop vs (m.signal s)) :=
  (changes_signal m s).trans (changes_drop vs _)

/-- The end of an operation that changes the scene and lets values go. -/
theorem changes_drop_of_eq (vs : List Value) (loops : m'.loops = m.loops)
    (completers : m'.completers = m.completers) : Changes m (drop vs m') :=
  (changes_of_eq loops completers).trans (changes_drop vs m')

-- ---------------------------------------------------------------------------
-- Members and bridges
-- ---------------------------------------------------------------------------

theorem changes_read (m : Machine) (o : ObjectId) (key : String) : Changes m (m.read o key) := by
  unfold read
  split
  · exact changes_signal m _
  · exact changes_signal m _
  · exact (changes_push m _).trans (changes_willCall _ _ _ _)

theorem changes_callValue (m : Machine) (f this : Value) (arguments : List Value) :
    Changes m (m.callValue f this arguments) := by
  unfold callValue
  split
  · exact changes_willCall m _ _ _
  · exact changes_drop_signal _ m _

/-- After the bridge was asked to call a value. -/
theorem changes_invoke (m : Machine) (k : LoopId) (f this : Value) (arguments : List Value) :
    Changes (m.modifyLoop k fun l => l.note (.invoked f)) (m.invoke k f this arguments) := by
  unfold invoke
  dsimp only
  split
  · exact (changes_push _ _).trans (changes_read _ _ _)
  · exact changes_callValue _ _ _ _

theorem changes_askThen (m : Machine) (v : Value) (plan : ProbePlan) : Changes m (m.askThen v plan) := by
  unfold askThen
  split
  · exact (changes_push m _).trans (changes_read _ _ _)
  · exact changes_signal m _
  · exact changes_signal m _

theorem changes_probe (m : Machine) (k : LoopId) (v : Value) : Changes m (m.probe k v) := by
  unfold probe
  cases hl : m.loop? k with
  | none => exact changes_signal m _
  | some l =>
    dsimp only
    split
    · exact changes_signal m _
    · split
      · have noted : Changes m (m.setLoop (l.note (.probed v))) := changes_setLoop hl rfl (.probed l v)
        exact noted.trans (changes_askThen _ _ _)
      · exact changes_signal m _

-- ---------------------------------------------------------------------------
-- Promises
-- ---------------------------------------------------------------------------

theorem changes_settle (m : Machine) (p : Promise) (s : State) (v : Value) (spent : List Value) :
    Changes m (m.settle p s v spent) := by
  unfold settle
  cases hl : m.loop? p.home with
  | none => exact changes_drop_signal _ m _
  | some l =>
    exact (changes_setLoop hl (l.id_settle p.id s v) (.settled l p.id s v)).trans
      (changes_drop_signal _ _ _)

theorem changes_resolveLocked (m : Machine) (p : Promise) (v : Value) :
    Changes m (m.resolveLocked p v) := by
  unfold resolveLocked
  split
  · exact changes_settle m p _ _ _
  · exact (changes_push m _).trans (changes_probe _ _ _)

theorem changes_withLock (m : Machine) (k : LoopId) (p : Promise) (v : Value)
    {act : Machine → Machine} (h : ∀ m, Changes m (act m)) : Changes m (m.withLock k p v act) := by
  unfold withLock
  cases hl : m.loop? k with
  | none => exact changes_drop_signal _ m _
  | some l =>
    dsimp only
    split
    · exact changes_drop_signal _ m _
    · rename_i l' hlock
      exact (changes_setLoop hl (Loop.id_lock hlock) (.attempted hlock)).trans
        (changes_drop_signal _ _ _)
    · rename_i l' hlock
      exact (changes_setLoop hl (Loop.id_lock hlock) (.attempted hlock)).trans (h _)

theorem changes_resolve (m : Machine) (k : LoopId) (p : Promise) (v : Value) :
    Changes m (m.resolve k p v) :=
  changes_withLock m k p v fun m => changes_resolveLocked m p v

theorem changes_reject (m : Machine) (k : LoopId) (p : Promise) (v : Value) :
    Changes m (m.reject k p v) :=
  changes_withLock m k p v fun m => changes_settle m p .rejected v []

theorem changes_newPromise {k : LoopId} {p : Promise} (h : m.newPromise k = some (p, m')) :
    Changes m m' := by
  obtain ⟨l, hl, heq⟩ := Option.map_eq_some_iff.mp h
  rw [← (Prod.mk.inj heq).2]
  exact changes_setLoop hl l.id_newPromise (.created l)

theorem changes_callback (m : Machine) (name : String) (arguments : List Value) :
    Changes m (m.callback name arguments) := by
  unfold callback
  split
  · exact (changes_push m _).trans (changes_willCall _ _ _ _)
  · exact .refl

theorem changes_tellUnhandled (m : Machine) (k : LoopId) (id : PromiseId) (reason : Value) :
    Changes m (m.tellUnhandled k id reason) := by
  unfold tellUnhandled
  split
  · exact changes_traceEntry m _
  · exact changes_callback m _ _
  · exact .refl

theorem changes_tellHandled (m : Machine) (k : LoopId) (id : PromiseId) :
    Changes m (m.tellHandled k id) := by
  unfold tellHandled
  split
  · exact changes_traceEntry m _
  · exact changes_callback m _ _
  · exact .refl

theorem changes_attach (m : Machine) (k : LoopId) (p : Promise) (f g : Option Value)
    (unused : List Value) : Changes m (m.attach k p f g unused) := by
  unfold attach
  cases hl : m.loop? k with
  | none => exact changes_drop_signal _ m _
  | some l =>
    dsimp only
    cases h : l.attach p f g with
    | error e => exact changes_drop_signal _ m _
    | ok a =>
      dsimp only
      split
      · exact (changes_setLoop hl (Loop.id_attach h) (.attached h)).trans ((changes_push _ _).trans
          ((changes_signal _ _).trans ((changes_drop _ _).trans (changes_tellHandled _ _ _))))
      · exact (changes_setLoop hl (by simp [Loop.id_attach h]) (.chained h)).trans
          (changes_drop_signal _ _ _)

theorem changes_thenMethod (m : Machine) (home : LoopId) (this : Value)
    (arguments unused : List Value) : Changes m (m.thenMethod home this arguments unused) := by
  unfold thenMethod
  split
  · exact changes_drop_signal _ m _
  · split
    · exact changes_drop_signal _ m _
    · exact (changes_push m _).trans (changes_attach _ _ _ _ _ _)

-- ---------------------------------------------------------------------------
-- Entering functions
-- ---------------------------------------------------------------------------

theorem changes_claim {r : Resolver} {accepted : Bool} (h : m.claim r = .ok (accepted, m')) :
    Changes m m' := by
  unfold claim at h
  split at h
  · cases h
    exact changes_of_eq rfl rfl
  · cases hl : m.loop? r.promise.home with
    | none =>
      rw [hl] at h
      cases h
      exact .refl
    | some l =>
      rw [hl] at h
      dsimp only at h
      cases hk : l.lock r.promise with
      | error f => rw [hk] at h; cases h
      | ok taken =>
        rw [hk] at h
        cases h
        exact changes_setLoop hl (Loop.id_lock hk) (.attempted hk)

theorem changes_enterResolver (m : Machine) (r : Resolver) (this : Value) (arguments : List Value) :
    Changes m (m.enterResolver r this arguments) := by
  unfold enterResolver
  split
  · exact changes_drop_signal _ m _
  · split
    · exact changes_drop_signal _ m _
    · rename_i m' h
      exact (changes_claim h).trans (changes_drop_signal _ m' _)
    · rename_i m' h
      have begun := ((changes_claim h).trans (changes_push m' (.give .undefined [this]))).trans
        ((changes_drop_signal (arguments.drop 1) _ (.value (arguments.headD .undefined))).trans
          (changes_signal _ .done))
      dsimp only
      split
      · exact begun.trans (changes_resolveLocked _ _ _)
      · exact begun.trans (changes_settle _ _ _ _ _)

theorem changes_enterRoutine (m : Machine) (number : Nat) (name : String) (this : Value)
    (arguments : List Value) : Changes m (m.enterRoutine number name this arguments) := by
  unfold enterRoutine
  split
  · exact changes_drop_signal _ m _
  · exact (changes_push m _).trans ((changes_traceEntry _ _).trans
      ((changes_push _ _).trans (changes_signal _ _)))

theorem changes_enter (m : Machine) (f : Callable) (this : Value) (arguments : List Value) :
    Changes m (m.enter f this arguments) := by
  unfold enter
  split
  · exact changes_enterRoutine m _ _ _ _
  · exact changes_enterResolver m _ _ _
  · exact changes_thenMethod m _ _ _ _
  · exact changes_thenMethod m _ _ _ _

end Machine
end PromiseLoop

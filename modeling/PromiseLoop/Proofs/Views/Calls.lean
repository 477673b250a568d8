import PromiseLoop.Proofs.Views.Updates

/-!
# Calls in a view

Reading members, calling functions and resolving promises only takes a loop through plain moves.
Registering handlers may end with the tracker being told that they came late.

## Results

* `quiet_resolve`, `quiet_reject`: resolving and rejecting a promise.
* `goes_enter`: the beginning of any call.
-/

namespace PromiseLoop.Machine

open Relation

variable {loop : LoopId} {m m' : Machine}

-- ---------------------------------------------------------------------------
-- Members and bridges
-- ---------------------------------------------------------------------------

theorem quiet_read (m : Machine) (o : ObjectId) (key : String) : Quiet loop m (m.read o key) := by
  unfold read
  split
  · exact quiet_signal m _
  · exact quiet_signal m _
  · exact (quiet_push m rfl).trans (quiet_willCall _ _ _ _)

theorem quiet_callValue (m : Machine) (f this : Value) (arguments : List Value) :
    Quiet loop m (m.callValue f this arguments) := by
  unfold callValue
  split
  · exact quiet_willCall m _ _ _
  · exact quiet_drop_signal _ m _

theorem quiet_invoke (m : Machine) (id : LoopId) (f this : Value) (arguments : List Value) :
    Quiet loop m (m.invoke id f this arguments) := by
  have noted : Quiet loop m (m.modifyLoop id fun l => l.note (.invoked f)) :=
    quiet_modifyLoop m id (fun _ => rfl) fun l => .asked l rfl
  unfold invoke
  dsimp only
  split
  · exact noted.trans ((quiet_push _ rfl).trans (quiet_read _ _ _))
  · exact noted.trans (quiet_callValue _ _ _ _)

theorem quiet_askThen (m : Machine) (v : Value) (plan : ProbePlan) :
    Quiet loop m (m.askThen v plan) := by
  unfold askThen
  split
  · exact (quiet_push m rfl).trans (quiet_read _ _ _)
  · exact quiet_signal m _
  · exact quiet_signal m _

theorem quiet_probe (m : Machine) (id : LoopId) (v : Value) : Quiet loop m (m.probe id v) := by
  unfold probe
  cases hl : m.loop? id with
  | none => exact quiet_signal m _
  | some l =>
    dsimp only
    split
    · exact quiet_signal m _
    · split
      · have asked : Quiet loop m (m.setLoop (l.note (.probed v))) :=
          quiet_setLoop hl rfl (.asked l rfl)
        exact asked.trans (quiet_askThen _ _ _)
      · exact quiet_signal m _

-- ---------------------------------------------------------------------------
-- Settling and resolving
-- ---------------------------------------------------------------------------

theorem quiet_settle (m : Machine) (p : Promise) (s : State) (v : Value) (spent : List Value) :
    Quiet loop m (m.settle p s v spent) := by
  unfold settle
  cases hl : m.loop? p.home with
  | none => exact quiet_drop_signal _ m _
  | some l =>
    exact (quiet_setLoop hl (l.id_settle p.id s v) (.settled l p.id s v)).trans
      (quiet_drop_signal _ _ _)

theorem quiet_resolveLocked (m : Machine) (p : Promise) (v : Value) :
    Quiet loop m (m.resolveLocked p v) := by
  unfold resolveLocked
  split
  · exact quiet_settle m p _ _ _
  · exact (quiet_push m rfl).trans (quiet_probe _ _ _)

/-- Whatever is done under the lock of a promise, the lock is taken or refused first. -/
theorem quiet_withLock (m : Machine) (id : LoopId) (p : Promise) (v : Value)
    {act : Machine → Machine} (h : ∀ m, Quiet loop m (act m)) :
    Quiet loop m (m.withLock id p v act) := by
  unfold withLock
  cases hl : m.loop? id with
  | none => exact quiet_drop_signal _ m _
  | some l =>
    dsimp only
    split
    · exact quiet_drop_signal _ m _
    · rename_i l' hlock
      exact (quiet_setLoop hl (Loop.id_lock hlock) (.attempted hlock)).trans (quiet_drop_signal _ _ _)
    · rename_i l' hlock
      exact (quiet_setLoop hl (Loop.id_lock hlock) (.attempted hlock)).trans (h _)

theorem quiet_resolve (m : Machine) (id : LoopId) (p : Promise) (v : Value) :
    Quiet loop m (m.resolve id p v) :=
  quiet_withLock m id p v fun m => quiet_resolveLocked m p v

theorem quiet_reject (m : Machine) (id : LoopId) (p : Promise) (v : Value) :
    Quiet loop m (m.reject id p v) :=
  quiet_withLock m id p v fun m => quiet_settle m p .rejected v []

theorem quiet_newPromise {id : LoopId} {p : Promise} (h : m.newPromise id = some (p, m')) :
    Quiet loop m m' := by
  obtain ⟨l, hl, heq⟩ := Option.map_eq_some_iff.mp h
  rw [← (Prod.mk.inj heq).2]
  exact quiet_setLoop hl rfl (.created l)

-- ---------------------------------------------------------------------------
-- Telling about rejections
-- ---------------------------------------------------------------------------

/-- Calling a function of the script shows nowhere, unless it puts an end to a collection. -/
theorem aside_callback (m : Machine) (name : String) (arguments : List Value)
    (h : m.control.loop? = none) : Aside loop m (m.callback name arguments) := by
  have idle : m.sweepOf loop = none := by
    unfold sweepOf
    cases hc : m.control with
    | collect l s => rw [hc] at h; cases h
    | _ => rfl
  unfold callback
  split
  · exact ⟨id, Nat.le_refl _, fun l hl => ⟨l, hl, .refl⟩, id, rfl, idle.symm⟩
  · exact .refl m

theorem aside_tellUnhandled (m : Machine) (id : LoopId) (p : PromiseId) (reason : Value)
    (h : m.control.loop? = none) : Aside loop m (m.tellUnhandled id p reason) := by
  unfold tellUnhandled
  split
  · exact aside_traceEntry m _
  · exact aside_callback m _ _ h
  · exact .refl m

theorem aside_tellHandled (m : Machine) (id : LoopId) (p : PromiseId)
    (h : m.control.loop? = none) : Aside loop m (m.tellHandled id p) := by
  unfold tellHandled
  split
  · exact aside_traceEntry m _
  · exact aside_callback m _ _ h
  · exact .refl m

-- ---------------------------------------------------------------------------
-- Registering handlers
-- ---------------------------------------------------------------------------

/-- The derived promise of a registration belongs to the loop that gives it. -/
theorem home_derived_of_attach {l : Loop} {p : Promise} {f r : Option Value} {a : Loop.Attached}
    (h : l.attach p f r = .ok a) : a.derived.home = l.id := by
  unfold Loop.attach at h
  cases hr : l.record p with
  | error f => rw [hr] at h; cases h
  | ok rec =>
    rw [hr] at h
    cases hs : rec.state <;> simp only [Except.map, hs] at h <;> cases h <;> rfl

/-- A registration whose tracker has to be told stays begun. -/
theorem goes_attachLate {id : LoopId} {l : Loop} {p : Promise} {f r : Option Value}
    {a : Loop.Attached} (hl : m.loop? id = some l) (h : l.attach p f r = .ok a)
    (late : a.late = true) :
    Goes loop m (((m.setLoop a.loop).push (.attaching a.derived a.job)).signal .done) := by
  have home := home_derived_of_attach h
  refine relates_local (fun v => (View.Quiet.goes .refl)) hl (Loop.id_attach h) rfl ?_ ?_
  · intro hid k hk
    have other : a.derived.home ≠ k := fun e => hk (by rw [← e, home, hid])
    exact ⟨by simp [turnsOf, Frame.isTurnOf, other], fun _ => rfl⟩
  · intro _ hid _
    have own : a.derived.home = id := home.trans hid
    refine ⟨_, _, .refl, .inr (.attachedLate h late), .refl, ?_, rfl⟩
    simp [turnsOf, Frame.isTurnOf, own]

theorem goes_attach (m : Machine) (id : LoopId) (p : Promise) (f r : Option Value)
    (unused : List Value) : Goes loop m (m.attach id p f r unused) := by
  unfold attach
  cases hl : m.loop? id with
  | none => exact (quiet_drop_signal _ m _).goes
  | some l =>
    dsimp only
    cases h : l.attach p f r with
    | error f => exact (quiet_drop_signal _ m _).goes
    | ok a =>
      dsimp only
      cases late : a.late with
      | false =>
        have hid : (a.loop.endAttach a.derived a.job).id = l.id := by simp [Loop.id_attach h]
        exact ((quiet_setLoop hl hid (.attached h late)).trans (quiet_drop_signal _ _ _)).goes
      | true =>
        exact ((goes_attachLate hl h late).trans_aside (aside_drop _ _)).trans_aside
          (aside_tellHandled _ _ _ (by simp [Control.loop?]))

theorem goes_thenMethod (m : Machine) (home : LoopId) (this : Value)
    (arguments unused : List Value) : Goes loop m (m.thenMethod home this arguments unused) := by
  unfold thenMethod
  split
  · exact (quiet_drop_signal _ m _).goes
  · split
    · exact (quiet_drop_signal _ m _).goes
    · exact .quiet_trans (quiet_push m rfl) (goes_attach _ _ _ _ _ _)

theorem goes_catchMethod (m : Machine) (home : LoopId) (this : Value) (arguments : List Value) :
    Goes loop m (m.catchMethod home this arguments) :=
  goes_thenMethod m home this _ _

-- ---------------------------------------------------------------------------
-- Entering functions
-- ---------------------------------------------------------------------------

theorem quiet_claim {r : Resolver} {accepted : Bool} (h : m.claim r = .ok (accepted, m')) :
    Quiet loop m m' := by
  unfold claim at h
  split at h
  · cases h
    exact quiet_of_eq rfl rfl fun h => h
  · cases hl : m.loop? r.promise.home with
    | none =>
      rw [hl] at h
      cases h
      exact (Aside.refl m).quiet
    | some l =>
      rw [hl] at h
      dsimp only at h
      cases hk : l.lock r.promise with
      | error f => rw [hk] at h; cases h
      | ok taken =>
        rw [hk] at h
        cases h
        exact quiet_setLoop hl (Loop.id_lock hk) (.attempted hk)

theorem quiet_enterResolver (m : Machine) (r : Resolver) (this : Value) (arguments : List Value) :
    Quiet loop m (m.enterResolver r this arguments) := by
  unfold enterResolver
  split
  · exact quiet_drop_signal _ m _
  · split
    · exact quiet_drop_signal _ m _
    · rename_i m' h
      exact (quiet_claim h).trans (quiet_drop_signal _ m' _)
    · rename_i m' h
      have held : Quiet loop m (m'.push (.give .undefined [this])) :=
        (quiet_claim h).trans (quiet_push m' rfl)
      have begun := held.trans ((quiet_drop_signal (arguments.drop 1) _
        (.value (arguments.headD .undefined))).trans (quiet_signal _ .done))
      dsimp only
      split
      · exact begun.trans (quiet_resolveLocked _ _ _)
      · exact begun.trans (quiet_settle _ _ _ _ _)

theorem quiet_enterRoutine (m : Machine) (number : Nat) (name : String) (this : Value)
    (arguments : List Value) : Quiet loop m (m.enterRoutine number name this arguments) := by
  unfold enterRoutine
  split
  · exact quiet_drop_signal _ m _
  · exact (quiet_push m rfl).trans ((aside_traceEntry _ _).quiet.trans
      ((quiet_push _ rfl).trans (quiet_signal _ _)))

theorem goes_enter (m : Machine) (f : Callable) (this : Value) (arguments : List Value) :
    Goes loop m (m.enter f this arguments) := by
  unfold enter
  split
  · exact (quiet_enterRoutine m _ _ _ _).goes
  · exact (quiet_enterResolver m _ _ _).goes
  · exact goes_thenMethod m _ _ _ _
  · exact goes_catchMethod m _ _ _

end PromiseLoop.Machine

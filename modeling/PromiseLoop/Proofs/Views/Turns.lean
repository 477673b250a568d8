import PromiseLoop.Machine.Turns
import PromiseLoop.Proofs.Views.Calls

/-!
# Turns in a view

How jobs, drains, checkpoints, collections and cycles show in the view of a loop.  A frame that is
resumed has been taken off the stack, so that what comes of it is compared with the machine `under`
which the frame still was.

## Results

* `drains_resumeDraining`: a drain goes on, or ends.
* `resumes_resumeAttaching`, `resumes_resumeReporting`, `resumes_resumeCollecting`: what happens when
  the tracker has been told something.
* `sweeps_collectNext`: what a collection does next.
-/

namespace PromiseLoop

open Relation

namespace View

/-- One move after the tracker has been told something; else the loop is only touched from
outside. -/
def Resumes (v v' : View) : Prop := ∃ a b, v.Aside a ∧ a.Resume b ∧ b.Aside v'

/-- One move of a collection, after which the loop is only touched from outside. -/
def Sweeps (v v' : View) : Prop := ∃ a, v.Sweeping a ∧ a.Aside v'

/-- One move of a drain, or of anything else, and then light ones. -/
def Drains (v v' : View) : Prop := ∃ a b, v.Aside a ∧ a.Plain b ∧ b.Quiet v'

theorem Drains.moves {v v' : View} (h : v.Drains v') : ReflTransGen Move v v' := by
  obtain ⟨a, b, ha, hab, hb⟩ := h
  exact ha.quiet.moves.trans (.trans (.single (.plain hab)) hb.moves)

/-- Where no drain has been begun, none goes on. -/
theorem Drains.goes {v v' : View} (h : v.Drains v') (ht : v.turns = []) : v.Goes v' := by
  obtain ⟨a, b, ha, hab, hb⟩ := h
  rw [← ha.2.1] at ht
  cases hab with
  | light h => exact Quiet.goes ((ha.quiet.tail h).trans hb)
  | _ => cases ht

/-- Only a turn can be resumed. -/
theorem Resumes.turns_ne_nil {v v' : View} (h : v.Resumes v') : v.turns ≠ [] := by
  obtain ⟨a, b, ha, hab, -⟩ := h
  rw [← ha.2.1]
  cases hab <;> exact List.cons_ne_nil _ _

theorem Resumes.moves {v v' : View} (h : v.Resumes v') : ReflTransGen Move v v' := by
  obtain ⟨a, b, ha, hab, hb⟩ := h
  exact ha.quiet.moves.trans (.trans (.single (.resume hab)) hb.quiet.moves)

theorem Sweeps.moves {v v' : View} (h : v.Sweeps v') : ReflTransGen Move v v' := by
  obtain ⟨a, ha, hb⟩ := h
  exact .trans (.single (.sweeping ha)) hb.quiet.moves

end View

namespace Machine

variable {loop : LoopId} {m m' : Machine}

-- ---------------------------------------------------------------------------
-- Resuming a frame
-- ---------------------------------------------------------------------------

/-- The machine in which the innermost activity has just signalled to a frame. -/
def under (m : Machine) (f : Frame) (s : Signal) : Machine :=
  { m with stack := f :: m.stack, control := .signal s }

theorem eq_under {f : Frame} {rest : List Frame} {s : Signal} (hs : m.stack = f :: rest)
    (hc : m.control = .signal s) :
    m = { m with stack := rest, control := .signal .done }.under f s := by
  obtain ⟨⟩ := m
  subst hs hc
  rfl

theorem Placed.under (hp : m.Placed) (f : Frame) (s : Signal) : (m.under f s).Placed := hp

theorem sweepOf_of_signal {s : Signal} (h : m.control = .signal s) : m.sweepOf loop = none := by
  rw [sweepOf, h]
  rfl

theorem turnsOf_under_of_turn {f : Frame} (s : Signal) (hf : f.isTurnOf loop = true) :
    (m.under f s).turnsOf loop = f :: m.turnsOf loop := by
  simp [turnsOf, Machine.under, hf]

theorem turnsOf_under_of_not_turn {f : Frame} (s : Signal) (hf : f.isTurnOf loop = false) :
    (m.under f s).turnsOf loop = m.turnsOf loop := by
  simp [turnsOf, Machine.under, hf]

/-- Taking off a frame that is no turn of a loop does not show in the loop. -/
theorem relates_under_of_not_turn {R : View → View → Prop} {f : Frame} {s : Signal}
    (hc : m.control = .signal .done) (hf : f.isTurnOf loop = false) (h : Relates R loop m m') :
    Relates R loop (m.under f s) m' where
  placed := h.placed
  size := h.size
  stays hp v hv hs := by
    rw [sees_eq_some, turnsOf_under_of_not_turn s hf] at hv
    exact h.stays hp v (sees_eq_some.mpr ⟨hv.1, hv.2.1, (sweepOf_of_signal hc).trans hs.symm⟩) hs
  gone hp ha := by
    refine h.gone hp ⟨ha.gone, ?_, sweepOf_of_signal hc⟩
    rw [← turnsOf_under_of_not_turn s hf]
    exact ha.turns

/-- What comes of a turn of a loop is compared with the view in which the turn is the newest. -/
theorem relates_under_of_turn {R : View → View → Prop} {f : Frame} {s : Signal}
    (hc : m.control = .signal .done) (hf : f.isTurnOf loop = true)
    (other : ∀ k, k ≠ loop → Quiet k m m')
    (h : m.Placed → ∀ l, m.sees loop = some ⟨l, m.turnsOf loop, none⟩ → l.id = loop →
      ∃ v', m'.sees loop = some v' ∧ R ⟨l, f :: m.turnsOf loop, none⟩ v') :
    Relates R loop (m.under f s) m' where
  -- how loops are placed shows in any other loop as well
  placed := (other ⟨loop.number + 1⟩ fun e => by simpa using congrArg LoopId.number e).placed
  size := (other ⟨loop.number + 1⟩ fun e => by simpa using congrArg LoopId.number e).size
  stays hp v hv hs := by
    rw [sees_eq_some, turnsOf_under_of_turn s hf] at hv
    obtain ⟨l, turns, sweep⟩ := v
    obtain ⟨hl, rfl, -⟩ := hv
    obtain rfl : sweep = none := hs
    exact h hp l (sees_eq_some.mpr ⟨hl, rfl, sweepOf_of_signal hc⟩) (hp loop l hl)
  gone hp ha := by
    have := ha.turns
    rw [turnsOf_under_of_turn s hf] at this
    exact absurd this (by simp)

-- ---------------------------------------------------------------------------
-- Jobs
-- ---------------------------------------------------------------------------

theorem quiet_startWork (m : Machine) (w : Work) (e : Entry) :
    Quiet loop m (m.startWork w e) :=
  (quiet_push m rfl).trans ((aside_traceEntry _ _).quiet.trans
    ((quiet_push _ rfl).trans (quiet_signal _ _)))

theorem quiet_startReaction (m : Machine) (id : LoopId) (r : Reaction) (argument : Value) :
    Quiet loop m (m.startReaction id r argument) := by
  unfold startReaction
  split
  · exact (quiet_push m rfl).trans (quiet_invoke _ _ _ _ _)
  · dsimp only
    split
    · exact (quiet_push m rfl).trans (quiet_resolve _ _ _ _)
    · exact (quiet_push m rfl).trans (quiet_reject _ _ _ _)

theorem quiet_startAdoption (m : Machine) (id : LoopId) (p : Promise)
    (thenable thenFunction : Value) :
    Quiet loop m (m.startAdoption id p thenable thenFunction) := by
  have paired : Quiet loop m (m.newPair p).2 := quiet_of_eq rfl rfl fun h => h
  exact paired.trans ((quiet_push _ rfl).trans (quiet_invoke _ _ _ _ _))

theorem quiet_startSettlement (m : Machine) (id : LoopId) (r : Report) :
    Quiet loop m (m.startSettlement id r) := by
  unfold startSettlement
  cases hl : m.loop? id with
  | none => exact quiet_signal m _
  | some l =>
    have landed : Quiet loop m (m.setLoop (l.land r.promise).2) :=
      quiet_setLoop hl rfl (.landed l r.promise)
    dsimp only
    split
    · split
      · exact landed.trans ((quiet_push _ rfl).trans (quiet_resolve _ _ _ _))
      · exact landed.trans ((quiet_push _ rfl).trans (quiet_reject _ _ _ _))
    · exact landed.trans (quiet_drop_signal _ _ _)

theorem quiet_startJob (m : Machine) (id : LoopId) (j : Job) : Quiet loop m (m.startJob id j) := by
  cases j with
  | reaction r argument => exact quiet_startReaction m id r argument
  | adoption p thenable thenFunction => exact quiet_startAdoption m id p thenable thenFunction
  | settlement r => exact quiet_startSettlement m id r
  | host w => exact quiet_startWork m w _

-- ---------------------------------------------------------------------------
-- Draining
-- ---------------------------------------------------------------------------

theorem quiet_drain (m : Machine) (id : LoopId) : Quiet loop m (m.drain id) := by
  unfold drain
  cases hl : m.loop? id with
  | none => exact quiet_signal m _
  | some l =>
    dsimp only
    split
    · exact quiet_signal m _
    · rename_i hd
      refine relates_local (fun _ => .refl) hl l.id_startDraining (by rfl) ?_ ?_
      · intro _ k hk
        exact ⟨by simp [turnsOf, Frame.isTurnOf, Ne.symm hk], fun _ => rfl⟩
      · intro _ hid _
        subst hid
        have turns : (((m.setLoop l.startDraining).push (.draining l.id)).signal .done).turnsOf l.id =
            .draining l.id :: m.turnsOf l.id := by
          simp [turnsOf, Frame.isTurnOf]
        rw [turns]
        exact .single (.drainBegun (by simpa using hd))

/-- The microtasks of one loop leave the queue of another one alone. -/
theorem quiet_nextMicrotask_of_ne (m : Machine) {id : LoopId} (hne : loop ≠ id) :
    Quiet loop m (m.nextMicrotask id) := by
  unfold nextMicrotask
  split
  · have ended : Aside loop m (m.modifyLoop id fun l => l.stopDraining.note .drained) :=
      aside_modifyLoop_of_ne m hne fun l => l.id_stopDraining
    exact ended.quiet.trans (quiet_signal _ _)
  · rename_i j l' h
    obtain ⟨l, hl, hd⟩ := Option.bind_eq_some_iff.mp h
    exact (quiet_setLoop_of_ne hl (Loop.id_dequeue? hd) hne).trans
      ((quiet_push _ (by simp [Frame.isTurnOf, Ne.symm hne])).trans (quiet_startJob _ _ _))

theorem quiet_resumeDraining_of_ne (m : Machine) {id : LoopId} (s : Signal) (hne : loop ≠ id) :
    Quiet loop m (m.resumeDraining id s) := by
  unfold resumeDraining
  split
  · exact (aside_modifyLoop_of_ne m hne Loop.id_stopDraining).quiet.trans (quiet_signal _ _)
  · exact (quiet_drop _ _).trans (quiet_nextMicrotask_of_ne _ hne)

/-- A drain ends, or runs its next microtask. -/
theorem view_nextMicrotask {l : Loop} (hp : m.Placed) (hc : m.control = .signal .done)
    (hl : m.loop? loop = some l) :
    ∃ v', (m.nextMicrotask loop).sees loop = some v' ∧
      View.Drains ⟨l, .draining loop :: m.turnsOf loop, none⟩ v' := by
  obtain rfl : l.id = loop := hp loop l hl
  have still : m.sweepOf l.id = none := sweepOf_of_signal hc
  unfold nextMicrotask
  cases hd : l.dequeue? with
  | none =>
    simp only [hl, hd, Option.bind_some]
    exact ⟨_, sees_modifyLoop_signal hl _ _, _, _, .refl _, .drainEnded hd, .refl⟩
  | some taken =>
    obtain ⟨j, l'⟩ := taken
    have hid : l'.id = l.id := Loop.id_dequeue? hd
    have set := sees_setLoop hl hid
    simp only [hl, hd, Option.bind_some]
    have seen : ((m.setLoop l').push (.draining l.id)).sees l.id =
        some ⟨l', .draining l.id :: m.turnsOf l.id, none⟩ := by
      rw [sees_eq_some] at set ⊢
      exact ⟨set.1, by simp [turnsOf, Frame.isTurnOf], still⟩
    have run : Quiet l.id ((m.setLoop l').push (.draining l.id)) _ := quiet_startJob _ l.id j
    obtain ⟨v', hv', hq⟩ := run.stays (hp.setLoop hl hid) _ seen rfl
    exact ⟨v', hv', _, _, .refl _, .taken hd, hq⟩

theorem drains_resumeDraining (m : Machine) (s : Signal) (hc : m.control = .signal .done) :
    Relates View.Drains loop (m.under (.draining loop) s) (m.resumeDraining loop s) := by
  have other := fun k (hk : k ≠ loop) => quiet_resumeDraining_of_ne m s hk
  refine relates_under_of_turn hc (by simp [Frame.isTurnOf]) other fun hp l hv hid => ?_
  subst hid
  unfold resumeDraining
  split
  · exact ⟨_, sees_modifyLoop_signal (sees_eq_some.mp hv).1 _ _, _, _, .refl _, .drainBroken, .refl⟩
  · have dropped : Aside l.id m (drop s.held m) := aside_drop s.held m
    obtain ⟨⟨l', turns, sweep⟩, hv', ho, rfl, rfl⟩ := dropped.view hv
    rw [sees_eq_some] at hv'
    obtain ⟨v'', hv'', a, b, ha, hab, hb⟩ :=
      view_nextMicrotask (dropped.placed hp) (by simp [hc]) hv'.1
    rw [hv'.2.1] at ha
    have before : View.Aside ⟨l, .draining l.id :: m.turnsOf l.id, none⟩
        ⟨l', .draining l.id :: m.turnsOf l.id, none⟩ := ⟨ho, rfl, rfl⟩
    exact ⟨v'', hv'', a, b, before.trans ha, hab, hb⟩

-- ---------------------------------------------------------------------------
-- Checkpoints and collections
-- ---------------------------------------------------------------------------

/-- The collection of one loop does not show in another one. -/
theorem quiet_sweep_of_ne (m : Machine) {id : LoopId} (s : Sweep) (hne : loop ≠ id) :
    Quiet loop m (m.sweep id s) :=
  quiet_of_eq rfl rfl fun _ => by simp [sweepOf, Control.sweepOf, Ne.symm hne]

theorem goes_collect (m : Machine) (id : LoopId) : Goes loop m (m.collect id) := by
  unfold collect
  cases hl : m.loop? id with
  | none => exact (quiet_signal m _).goes
  | some l =>
    refine ⟨fun hp => hp, Nat.le_refl _, fun hp v hv hs => ?_, fun _ ha => .inl ?_⟩
    · obtain ⟨l', turns, sweep⟩ := v
      obtain rfl : sweep = none := hs
      rw [sees_eq_some] at hv
      refine ⟨⟨l', turns, if loop = id then some { closes := false } else none⟩,
        sees_eq_some.mpr ⟨hv.1, hv.2.1, ?_⟩, ?_⟩
      · simp [sweepOf, Control.sweepOf, eq_comm]
      · split
        · exact ⟨_, _, .refl, .inr (.swept l' turns), .refl _⟩
        · exact View.Quiet.goes .refl
    · have hne : loop ≠ id := by
        rintro rfl
        rw [ha.gone] at hl
        cases hl
      exact ⟨ha.gone, ha.turns, by simp [sweepOf, Control.sweepOf, Ne.symm hne]⟩

theorem quiet_endCheckpoint_of_ne (m : Machine) {id : LoopId} (hne : loop ≠ id) :
    Quiet loop m (m.endCheckpoint id) := by
  have noted : Aside loop m (m.modifyLoop id fun l => l.note .checked) :=
    aside_modifyLoop_of_ne m hne fun _ => rfl
  exact noted.quiet.trans (quiet_signal _ _)

theorem quiet_endCollection_of_ne (m : Machine) {id : LoopId} (s : Sweep) (hne : loop ≠ id) :
    Quiet loop m (m.endCollection id s) := by
  unfold endCollection
  split
  · exact quiet_endCheckpoint_of_ne m hne
  · exact quiet_signal m _

theorem quiet_finishCheckpoint_of_ne (m : Machine) {id : LoopId} (hne : loop ≠ id) :
    Quiet loop m (m.finishCheckpoint id) := by
  unfold finishCheckpoint
  split
  · exact quiet_signal m _
  · split
    · exact quiet_sweep_of_ne m _ hne
    · exact quiet_endCheckpoint_of_ne m hne

theorem quiet_tellUnhandled (m : Machine) (id : LoopId) (p : PromiseId) (reason : Value)
    (h : m.control.loop? = none) : Quiet loop m (m.tellUnhandled id p reason) :=
  (aside_tellUnhandled m id p reason h).quiet

theorem quiet_collectNext_of_ne (m : Machine) {id : LoopId} (s : Sweep) (hne : loop ≠ id) :
    Quiet loop m (m.collectNext id s) := by
  unfold collectNext
  split
  · split
    · exact quiet_endCollection_of_ne m s hne
    · exact quiet_endCollection_of_ne m s hne
    · rename_i released l' h
      obtain ⟨l, hl, heq⟩ := Option.map_eq_some_iff.mp h
      rw [← (Prod.mk.inj heq).2]
      exact (quiet_setLoop_of_ne hl l.id_takeReleases hne).trans (quiet_sweep_of_ne _ _ hne)
  · split
    · exact quiet_sweep_of_ne m _ hne
    · rename_i r l' h
      obtain ⟨l, hl, hf⟩ := Option.bind_eq_some_iff.mp h
      have freed : Quiet loop m (m.setLoop l') := quiet_setLoop_of_ne hl (Loop.id_free? hf) hne
      dsimp only
      split
      · have turn (s : Sweep) : (Frame.collecting id s r).isTurnOf loop = false := by
          simp [Frame.isTurnOf, Ne.symm hne]
        exact freed.trans ((quiet_push _ (turn _)).trans ((quiet_push _ rfl).trans
          ((quiet_signal _ _).trans (quiet_tellUnhandled _ _ _ _ rfl))))
      · exact freed.trans ((quiet_sweep_of_ne _ _ hne).trans (quiet_drop _ _))

theorem quiet_resumeCollecting_of_ne (m : Machine) {id : LoopId} (sweep : Sweep) (r : Record)
    (s : Signal) (hne : loop ≠ id) : Quiet loop m (m.resumeCollecting id sweep r s) :=
  (quiet_sweep_of_ne m sweep hne).trans (quiet_drop _ _)

theorem quiet_resumeReporting_of_ne (m : Machine) {id : LoopId}
    (reports : List (PromiseId × Value)) (s : Signal) (hc : m.control = .signal .done)
    (hne : loop ≠ id) : Quiet loop m (m.resumeReporting id reports s) := by
  unfold resumeReporting
  split
  · exact (quiet_drop _ _).trans (quiet_finishCheckpoint_of_ne _ hne)
  · rename_i p reason rest
    have turn : (Frame.reporting id rest).isTurnOf loop = false := by
      simp [Frame.isTurnOf, Ne.symm hne]
    have begun : Quiet loop m
        (drop s.held ((m.push (.reporting id rest)).push (.hold [reason]))) :=
      (quiet_push m turn).trans ((quiet_push _ rfl).trans (quiet_drop _ _))
    have reported : Quiet loop m _ := begun.trans
      (aside_modifyLoop_of_ne _ hne fun l => l.id_report p reason).quiet
    exact reported.trans (quiet_tellUnhandled _ _ _ _ (by simp [hc, Control.loop?]))

theorem quiet_resumeAttaching_of_ne (m : Machine) (derived : Promise) (job : Option Job)
    (s : Signal) (hne : loop ≠ derived.home) :
    Quiet loop m (m.resumeAttaching derived job s) := by
  have ended : Aside loop m (m.modifyLoop derived.home fun l => l.endAttach derived job) :=
    aside_modifyLoop_of_ne m hne fun l => l.id_endAttach derived job
  exact ended.quiet.trans (quiet_drop_signal _ _ _)

/-- A registration ends when the tracker has been told. -/
theorem resumes_resumeAttaching (m : Machine) (derived : Promise) (job : Option Job) (s : Signal)
    (hc : m.control = .signal .done) :
    Relates View.Resumes derived.home (m.under (.attaching derived job) s)
      (m.resumeAttaching derived job s) := by
  have other := fun k (hk : k ≠ derived.home) =>
    quiet_resumeAttaching_of_ne m derived job s hk
  refine relates_under_of_turn hc (by simp [Frame.isTurnOf]) other fun hp l hv _ => ?_
  have ended := sees_modifyLoop_signal (sees_eq_some.mp hv).1 (fun l => l.endAttach derived job)
    (.value (.promise derived))
  obtain ⟨v', hv', ha⟩ := (aside_drop s.held _).view ended
  exact ⟨v', hv', _, _, .refl _, .attachEnded, ha⟩

theorem resumes_resumeCollecting (m : Machine) (sweep : Sweep) (r : Record) (s : Signal)
    (hc : m.control = .signal .done) :
    Relates View.Resumes loop (m.under (.collecting loop sweep r) s)
      (m.resumeCollecting loop sweep r s) := by
  have other := fun k (hk : k ≠ loop) =>
    quiet_resumeCollecting_of_ne m sweep r s hk
  refine relates_under_of_turn hc (by simp [Frame.isTurnOf]) other fun hp l hv hid => ?_
  subst hid
  have swept : (m.sweep l.id sweep).sees l.id = some ⟨l, m.turnsOf l.id, some sweep⟩ :=
    sees_eq_some.mpr ⟨(sees_eq_some.mp hv).1, rfl, by simp [sweepOf, Control.sweepOf]⟩
  obtain ⟨v', hv', ha⟩ := (aside_drop (s.held ++ r.held) _).view swept
  exact ⟨v', hv', _, _, .refl _, .sweptOn, ha⟩

/-- A checkpoint makes its next report, or ends, or goes on with a collection. -/
theorem resumes_resumeReporting (m : Machine) (reports : List (PromiseId × Value)) (s : Signal)
    (hc : m.control = .signal .done) :
    Relates View.Resumes loop (m.under (.reporting loop reports) s)
      (m.resumeReporting loop reports s) := by
  have other := fun k (hk : k ≠ loop) =>
    quiet_resumeReporting_of_ne m reports s hc hk
  refine relates_under_of_turn hc (by simp [Frame.isTurnOf]) other fun hp l hv hid => ?_
  subst hid
  unfold resumeReporting
  cases reports with
  | nil =>
    have dropped : Aside l.id m (drop s.held m) := aside_drop s.held m
    obtain ⟨⟨l', turns, sweep⟩, hv', ho, rfl, rfl⟩ := dropped.view hv
    have hl' := (sees_eq_some.mp hv').1
    have hid : l'.id = l.id := dropped.placed hp _ _ hl'
    have before : View.Aside ⟨l, .reporting l.id [] :: m.turnsOf l.id, none⟩
        ⟨l', .reporting l'.id [] :: m.turnsOf l.id, none⟩ := ⟨ho, by rw [hid], rfl⟩
    dsimp only
    unfold finishCheckpoint
    simp only [hl']
    split
    · refine ⟨⟨l', m.turnsOf l.id, some { closes := true }⟩, ?_, _, _, before, .reportsSwept, .refl _⟩
      exact sees_eq_some.mpr ⟨hl', (sees_eq_some.mp hv').2.1, by simp [sweepOf, Control.sweepOf]⟩
    · have checked := sees_modifyLoop_signal hl' (fun l => l.note .checked) .done
      rw [(sees_eq_some.mp hv').2.1] at checked
      exact ⟨_, checked, _, _, before, .reportsChecked, .refl _⟩
  | cons first rest =>
    obtain ⟨p, reason⟩ := first
    dsimp only
    have pushed : ((m.push (.reporting l.id rest)).push (.hold [reason])).sees l.id =
        some ⟨l, .reporting l.id rest :: m.turnsOf l.id, none⟩ :=
      sees_eq_some.mpr ⟨(sees_eq_some.mp hv).1, by simp [turnsOf, Frame.isTurnOf],
        sweepOf_of_signal hc⟩
    have dropped : Aside l.id _ (drop s.held ((m.push (.reporting l.id rest)).push
      (.hold [reason]))) := aside_drop s.held _
    obtain ⟨⟨l', turns, sweep⟩, hv', ho, rfl, rfl⟩ := dropped.view pushed
    have hl' := (sees_eq_some.mp hv').1
    have hid : l'.id = l.id := dropped.placed hp _ _ hl'
    have next (turns : List Frame) :
        View.Resume ⟨l', .reporting l.id ((p, reason) :: rest) :: turns, none⟩
          ⟨l'.report p reason, .reporting l.id rest :: turns, none⟩ := by
      rw [← hid]
      exact .reported
    have reported := sees_modifyLoop hl' fun l => l.report p reason
    rw [(sees_eq_some.mp hv').2.1, (sees_eq_some.mp hv').2.2] at reported
    obtain ⟨v'', hv'', ha⟩ := (aside_tellUnhandled _ l.id p reason
      (by simp [hc, Control.loop?])).view reported
    have before (turns : List Frame) : View.Aside ⟨l, turns, none⟩ ⟨l', turns, none⟩ :=
      ⟨ho, rfl, rfl⟩
    exact ⟨v'', hv'', _, _, before _, next _, ha⟩

/-- Freeing a record does not change what freeing another one would report. -/
theorem reportsOnFree_of_free? {l l' : Loop} {id : PromiseId} {r x : Record}
    (h : l.free? id = some (r, l')) : l'.reportsOnFree x = l.reportsOnFree x := by
  obtain ⟨⟨r', heap⟩, -, heq⟩ := Option.map_eq_some_iff.mp h
  rw [← (Prod.mk.inj heq).2]
  split
  · simp only [Loop.reportsOnFree, Loop.note, Loop.report, Loop.logEvent]
    split <;> rfl
  · rfl

/-- A collection takes what has been released, looks at the next id, or ends. -/
theorem sweeps_collectNext {l : Loop} (hp : m.Placed) (hc : m.control = .signal .done)
    (hl : m.loop? loop = some l) (s : Sweep) :
    ∃ v', (m.collectNext loop s).sees loop = some v' ∧
      View.Sweeps ⟨l, m.turnsOf loop, some s⟩ v' := by
  obtain rfl : l.id = loop := hp loop l hl
  have still : m.sweepOf l.id = none := sweepOf_of_signal hc
  have begun (m' : Machine) (s' : Sweep) : (m'.sweep l.id s').sweepOf l.id = some s' := by
    simp [sweepOf, Control.sweepOf]
  unfold collectNext
  cases hpend : s.pending with
  | nil =>
    cases hr : l.releases with
    | nil =>
      simp only [hl, Option.map_some, Loop.takeReleases, hr]
      refine ⟨_, ?_, _, .ended hpend hr, .refl _⟩
      unfold endCollection
      split
      · exact sees_modifyLoop_signal hl _ _
      · exact sees_eq_some.mpr ⟨hl, rfl, rfl⟩
    | cons first rest =>
      simp only [hl, Option.map_some, Loop.takeReleases, hr]
      have taken : View.Sweeping ⟨l, m.turnsOf l.id, some s⟩ _ := .taken hpend (by simp [hr])
      rw [hr] at taken
      have seen : ((m.setLoop l.takeReleases.2).sweep l.id { s with pending := first :: rest }).sees
          l.id = some ⟨l.takeReleases.2, m.turnsOf l.id, some { s with pending := first :: rest }⟩ :=
        sees_eq_some.mpr ⟨loop?_setLoop_self hl l.id_takeReleases, rfl, begun _ _⟩
      exact ⟨_, seen, _, taken, .refl _⟩
  | cons id rest =>
    simp only [hl, Option.bind_some]
    cases hf : l.free? id with
    | none =>
      have seen : (m.sweep l.id { s with pending := rest }).sees l.id =
          some ⟨l, m.turnsOf l.id, some { s with pending := rest }⟩ :=
        sees_eq_some.mpr ⟨hl, rfl, begun _ _⟩
      exact ⟨_, seen, _, .skipped hpend hf, .refl _⟩
    | some freed =>
      obtain ⟨r, l'⟩ := freed
      have set : (m.setLoop l').loop? l.id = some l' := loop?_setLoop_self hl (Loop.id_free? hf)
      dsimp only
      rw [reportsOnFree_of_free? hf]
      generalize hs : { s with pending := rest, count := s.count + 1 } = s'
      split
      · rename_i reports
        have seen : ((((m.setLoop l').push (.collecting l.id s' r)).push (.hold [r.reason])).signal
            .done).sees l.id = some ⟨l', .collecting l.id s' r :: m.turnsOf l.id, none⟩ :=
          sees_eq_some.mpr ⟨set, by simp [turnsOf, Frame.isTurnOf], rfl⟩
        obtain ⟨v', hv', ha⟩ := (aside_tellUnhandled _ l.id id r.reason rfl).view seen
        exact ⟨v', hv', _, hs ▸ .reported hpend hf reports, ha⟩
      · rename_i silent
        have seen : ((m.setLoop l').sweep l.id s').sees l.id = some ⟨l', m.turnsOf l.id, some s'⟩ :=
          sees_eq_some.mpr ⟨set, rfl, begun _ _⟩
        obtain ⟨v', hv', ha⟩ := (aside_drop r.held _).view seen
        exact ⟨v', hv', _, hs ▸ .freed hpend hf (by simpa using silent), ha⟩

-- ---------------------------------------------------------------------------
-- Checkpoints and cycles
-- ---------------------------------------------------------------------------

theorem quiet_checkpoint (m : Machine) (id : LoopId) : Quiet loop m (m.checkpoint id) := by
  have delivered : Quiet loop m (m.modifyLoop id Loop.deliver) :=
    quiet_modifyLoop m id Loop.id_deliver .delivered
  exact delivered.trans ((quiet_push _ rfl).trans (quiet_drain _ _))

/-- A checkpoint selects the rejections to report when its drain has ended. -/
theorem goes_resumeCheckpoint (m : Machine) (id : LoopId) (s : Signal)
    (hc : m.control = .signal .done) : Goes loop m (m.resumeCheckpoint id s) := by
  unfold resumeCheckpoint
  split
  · exact (quiet_signal m _).goes
  · have dropped : Quiet loop m (drop s.held m) := quiet_drop s.held m
    have control : (drop s.held m).control = .signal .done := by simp [hc]
    dsimp only
    split
    · exact dropped.goes
    · rename_i reports l' h
      obtain ⟨l, hl, heq⟩ := Option.map_eq_some_iff.mp h
      have hid : l'.id = l.id := by simpa [heq] using l.id_takeReports
      refine .quiet_trans dropped ?_
      refine relates_local (fun v => View.Quiet.goes .refl) hl hid rfl ?_ ?_
      · intro _ k hk
        exact ⟨by simp [turnsOf, Frame.isTurnOf, Ne.symm hk], fun h => h⟩
      · intro _ hid still
        subst hid
        have selected := View.Final.selected l ((drop s.held m).turnsOf l.id)
        rw [heq] at selected
        refine ⟨_, _, .refl, .inr selected, .refl, ?_, still⟩
        simp [turnsOf, Frame.isTurnOf]

theorem quiet_cycle (m : Machine) (id : LoopId) : Quiet loop m (m.cycle id) := by
  have delivered : Quiet loop m (m.modifyLoop id Loop.deliver) :=
    quiet_modifyLoop m id Loop.id_deliver .delivered
  unfold cycle
  dsimp only
  split
  · exact delivered.trans (quiet_checkpoint _ _)
  · rename_i w l' h
    obtain ⟨l, hl, hd⟩ := Option.bind_eq_some_iff.mp h
    exact delivered.trans ((quiet_setLoop hl (Loop.id_dequeueTask? hd) (.taskTaken hd)).trans
      ((quiet_push _ rfl).trans (quiet_startWork _ _ _)))

theorem quiet_resumeCycling (m : Machine) (id : LoopId) (s : Signal) :
    Quiet loop m (m.resumeCycling id s) := by
  unfold resumeCycling
  split
  · exact quiet_signal m _
  · exact (quiet_drop _ _).trans (quiet_checkpoint _ _)

theorem quiet_idle (m : Machine) (id : LoopId) : Quiet loop m (m.idle id) :=
  (quiet_push m rfl).trans (quiet_cycle _ _)

theorem quiet_resumeIdling (m : Machine) (id : LoopId) (s : Signal) :
    Quiet loop m (m.resumeIdling id s) := by
  unfold resumeIdling
  split
  · exact quiet_signal m _
  · dsimp only
    split
    · exact quiet_drop _ _
    · exact (quiet_drop _ _).trans (quiet_idle _ _)

theorem quiet_finish (m : Machine) (id : LoopId) : Quiet loop m (m.finish id) :=
  (quiet_push m rfl).trans (quiet_idle _ _)

theorem quiet_resumeFinishing (m : Machine) (id : LoopId) (s : Signal) :
    Quiet loop m (m.resumeFinishing id s) := by
  unfold resumeFinishing
  split
  · exact quiet_signal m _
  · have dropped : Quiet loop m (drop s.held m) := quiet_drop s.held m
    dsimp only
    split
    · exact dropped
    · rename_i l hl
      split
      · exact dropped
      · split
        · rename_i l' hr
          exact dropped.trans ((quiet_setLoop hl (Loop.id_receive? hr) (.received hr)).trans
            (quiet_finish _ _))
        · exact dropped.trans (quiet_push _ rfl)

theorem quiet_conclude (m : Machine) (id : LoopId) : Quiet loop m (m.conclude id) := by
  unfold conclude
  split
  · exact quiet_finish m id
  · exact (quiet_push m rfl).trans (quiet_idle _ _)

theorem quiet_resumeConcluding (m : Machine) (id : LoopId) (s : Signal) :
    Quiet loop m (m.resumeConcluding id s) := by
  unfold resumeConcluding
  split
  · exact quiet_signal m _
  · have released (m : Machine) : Aside loop m (m.modifyLoop id fun l => l.releaseWorker.2) :=
      aside_modifyLoop m id Loop.id_releaseWorker fun l => .single (.workerReleased l)
    exact (quiet_drop _ _).trans ((released _).quiet.trans (quiet_conclude _ _))

end Machine
end PromiseLoop

import PromiseLoop.Proofs.Background.Runs
import PromiseLoop.Proofs.Workloads.Entries

/-!
# What is begun above an entry

While an entry of a loop or a job runs, the frame that waits for it lies beneath whatever is begun.  As long as
no script asks for a turn of the loop, all that is begun is ordinary: script, calls, promises, collections, and
turns of other loops.  Operations that begin nothing else *lay* ordinary frames, and begin no entry of the loop.

## Results

* `lays_enter`, `lays_resume`: calls, and whatever activities go on with.
* `lays_step`: what a step lays above a frame that waits.
-/

namespace PromiseLoop

open Relation

-- ---------------------------------------------------------------------------
-- Ordinary frames
-- ---------------------------------------------------------------------------

/-- Whether a frame is a turn of a loop in which entries are begun or which goes on after that. -/
def Frame.turns (k : LoopId) : Frame → Bool
  | .draining l | .checkpoint l | .reporting l _ | .cycling l | .idling l | .finishing l | .concluding l => l = k
  | _ => false

/-- Whether a frame waits for the body of an entry. -/
def Frame.isWork : Frame → Bool
  | .work _ => true
  | _ => false

/-- Frames none of which is a turn of the loop.  The lowest of them is not that of an entry. -/
structure Ordinary (k : LoopId) (fs : List Frame) : Prop where
  unturned : ∀ f ∈ fs, f.turns k = false
  idle : fs.getLast?.any Frame.isWork = false

namespace Ordinary

variable {k : LoopId} {fs gs : List Frame} {f : Frame}

theorem nil (k : LoopId) : Ordinary k [] := ⟨by simp, rfl⟩

theorem singleton (unturned : f.turns k = false) (idle : f.isWork = false) : Ordinary k [f] :=
  ⟨by simpa using unturned, by simpa using idle⟩

theorem append (h : Ordinary k fs) (h' : Ordinary k gs) : Ordinary k (fs ++ gs) where
  unturned f hf := by
    rcases List.mem_append.mp hf with hf | hf
    · exact h.unturned f hf
    · exact h'.unturned f hf
  idle := by
    rw [List.getLast?_append]
    cases hg : gs.getLast? with
    | none => exact h.idle
    | some g =>
      have last := h'.idle
      rwa [hg] at last

theorem cons (h : Ordinary k gs) (unturned : f.turns k = false) (some : gs ≠ []) : Ordinary k (f :: gs) where
  unturned := List.forall_mem_cons.mpr ⟨unturned, h.unturned⟩
  idle := by
    rw [List.getLast?_cons_of_ne_nil some]
    exact h.idle

theorem tail (h : Ordinary k (f :: fs)) : Ordinary k fs where
  unturned g hg := h.unturned g (List.mem_cons_of_mem _ hg)
  idle := by
    cases fs with
    | nil => rfl
    | cons g fs => exact h.idle

end Ordinary

namespace Machine

variable {k j : LoopId} {m m' m'' : Machine}

-- ---------------------------------------------------------------------------
-- Laying frames
-- ---------------------------------------------------------------------------

/-- A later machine in which ordinary frames have been begun, and no entry of the loop. -/
structure Lays (k : LoopId) (m m' : Machine) : Prop where
  placed : m.Placed → m'.Placed
  above : ∃ above, m'.stack = above ++ m.stack ∧ Ordinary k above
  bides : m.Placed → ∀ l, m.loop? k = some l → ∃ l', m'.loop? k = some l' ∧ l.Bides l'

theorem Lays.trans (h : Lays k m m') (h' : Lays k m' m'') : Lays k m m'' where
  placed hp := h'.placed (h.placed hp)
  above := by
    obtain ⟨above, stack, ordinary⟩ := h.above
    obtain ⟨above', stack', ordinary'⟩ := h'.above
    exact ⟨above' ++ above, by rw [stack', stack, List.append_assoc], ordinary'.append ordinary⟩
  bides hp l hl := by
    obtain ⟨l', hl', bides⟩ := h.bides hp l hl
    obtain ⟨l'', hl'', bides'⟩ := h'.bides (h.placed hp) l' hl'
    exact ⟨l'', hl'', bides.trans bides'⟩

theorem Lays.of_aside (h : Aside k m m') (stack : m'.stack = m.stack) : Lays k m m' where
  placed := h.placed
  above := ⟨[], stack, .nil k⟩
  bides _ l hl := by
    obtain ⟨l', hl', outside⟩ := h.stays l hl
    exact ⟨l', hl', Loop.bides_of_outside outside⟩

theorem lays_of_eq (loops : m'.loops = m.loops) (stack : m'.stack = m.stack) : Lays k m m' where
  placed hp i l hl := hp i l (by rwa [loop?, loops] at hl)
  above := ⟨[], stack, .nil k⟩
  bides _ l hl := ⟨l, by rw [loop?, loops]; exact hl, .refl l⟩

theorem Lays.refl (m : Machine) : Lays k m m := lays_of_eq rfl rfl

theorem lays_push (m : Machine) {f : Frame} (unturned : f.turns k = false) (idle : f.isWork = false) :
    Lays k m (m.push f) where
  placed := id
  above := ⟨[f], rfl, .singleton unturned idle⟩
  bides _ l hl := ⟨l, hl, .refl l⟩

theorem lays_signal (m : Machine) (s : Signal) : Lays k m (m.signal s) := lays_of_eq rfl rfl

theorem lays_willCall (m : Machine) (f : Callable) (this : Value) (arguments : List Value) :
    Lays k m (m.willCall f this arguments) := lays_of_eq rfl rfl

theorem lays_traceEntry (m : Machine) (e : Entry) : Lays k m (m.traceEntry e) := by
  unfold traceEntry
  split
  · exact .refl m
  · exact lays_of_eq rfl rfl

theorem lays_drop (vs : List Value) (m : Machine) : Lays k m (drop vs m) :=
  .of_aside (aside_drop vs m) (stack_drop vs m)

theorem lays_drop_signal (vs : List Value) (m : Machine) (s : Signal) : Lays k m (drop vs (m.signal s)) :=
  (lays_signal m s).trans (lays_drop vs _)

theorem lays_modifyLoop (m : Machine) (j : LoopId) {f : Loop → Loop} (id : ∀ l, (f l).id = l.id)
    (bides : ∀ l : Loop, l.Bides (f l)) : Lays k m (m.modifyLoop j f) where
  placed hp := hp.modifyLoop j fun l _ => id l
  above := ⟨[], rfl, .nil k⟩
  bides _ l hl := by
    by_cases hj : j = k
    · subst hj
      exact ⟨f l, (loop?_modifyLoop_self ..).trans (by rw [hl]; rfl), bides l⟩
    · exact ⟨l, (loop?_modifyLoop_of_ne m hj f).trans hl, .refl l⟩

/-- What becomes of another loop does not matter. -/
theorem lays_setLoop_of_ne {l l' : Loop} (found : m.loop? j = some l) (id : l'.id = l.id) (hj : j ≠ k) :
    Lays k m (m.setLoop l') where
  placed hp := by
    obtain rfl : l.id = j := hp j l found
    exact hp.setLoop found id
  above := ⟨[], rfl, .nil k⟩
  bides hp x hx := by
    obtain rfl : l.id = j := hp j l found
    exact ⟨x, by rw [loop?_setLoop_ite found id, if_neg (Ne.symm hj), hx], .refl x⟩

theorem lays_setLoop {l l' : Loop} (found : m.loop? j = some l) (id : l'.id = l.id) (bides : l.Bides l') :
    Lays k m (m.setLoop l') := by
  by_cases hj : j = k
  · subst hj
    refine ⟨fun hp => ?_, ⟨[], rfl, .nil j⟩, fun hp x hx => ?_⟩
    all_goals obtain rfl : l.id = j := hp j l found
    · exact hp.setLoop found id
    · exact ⟨l', loop?_setLoop_self found id, Option.some.inj (found.symm.trans hx) ▸ bides⟩
  · exact lays_setLoop_of_ne found id hj

-- ---------------------------------------------------------------------------
-- Members and bridges
-- ---------------------------------------------------------------------------

theorem lays_read (m : Machine) (o : ObjectId) (key : String) : Lays k m (m.read o key) := by
  unfold read
  split
  · exact lays_signal m _
  · exact lays_signal m _
  · exact (lays_push m rfl rfl).trans (lays_willCall _ _ _ _)

theorem lays_callValue (m : Machine) (f this : Value) (arguments : List Value) :
    Lays k m (m.callValue f this arguments) := by
  unfold callValue
  split
  · exact lays_willCall m _ _ _
  · exact lays_drop_signal _ m _

theorem lays_invoke (m : Machine) (j : LoopId) (f this : Value) (arguments : List Value) :
    Lays k m (m.invoke j f this arguments) := by
  have noted : Lays k m (m.modifyLoop j fun l => l.note (.invoked f)) :=
    lays_modifyLoop m j (fun _ => rfl) fun l => Loop.bides_note l rfl rfl
  unfold invoke
  dsimp only
  split
  · exact noted.trans ((lays_push _ rfl rfl).trans (lays_read _ _ _))
  · exact noted.trans (lays_callValue _ _ _ _)

theorem lays_askThen (m : Machine) (v : Value) (plan : ProbePlan) : Lays k m (m.askThen v plan) := by
  unfold askThen
  split
  · exact (lays_push m rfl rfl).trans (lays_read _ _ _)
  · exact lays_signal m _
  · exact lays_signal m _

theorem lays_probe (m : Machine) (j : LoopId) (v : Value) : Lays k m (m.probe j v) := by
  unfold probe
  cases hl : m.loop? j with
  | none => exact lays_signal m _
  | some l =>
    dsimp only
    split
    · exact lays_signal m _
    · split
      · have noted : Lays k m (m.setLoop (l.note (.probed v))) :=
          lays_setLoop hl rfl (Loop.bides_note l rfl rfl)
        exact noted.trans (lays_askThen _ _ _)
      · exact lays_signal m _

-- ---------------------------------------------------------------------------
-- Promises
-- ---------------------------------------------------------------------------

theorem lays_settle (m : Machine) (p : Promise) (s : State) (v : Value) (spent : List Value) :
    Lays k m (m.settle p s v spent) := by
  unfold settle
  cases hl : m.loop? p.home with
  | none => exact lays_drop_signal _ m _
  | some l =>
    exact (lays_setLoop hl (l.id_settle p.id s v) (Loop.bides_settle l p.id s v)).trans
      (lays_drop_signal _ _ _)

theorem lays_resolveLocked (m : Machine) (p : Promise) (v : Value) : Lays k m (m.resolveLocked p v) := by
  unfold resolveLocked
  split
  · exact lays_settle m p _ _ _
  · exact (lays_push m rfl rfl).trans (lays_probe _ _ _)

theorem lays_withLock (m : Machine) (j : LoopId) (p : Promise) (v : Value) {act : Machine → Machine}
    (h : ∀ m, Lays k m (act m)) : Lays k m (m.withLock j p v act) := by
  unfold withLock
  cases hl : m.loop? j with
  | none => exact lays_drop_signal _ m _
  | some l =>
    dsimp only
    split
    · exact lays_drop_signal _ m _
    · rename_i l' hlock
      exact (lays_setLoop hl (Loop.id_lock hlock) (Loop.bides_lock hlock)).trans (lays_drop_signal _ _ _)
    · rename_i l' hlock
      exact (lays_setLoop hl (Loop.id_lock hlock) (Loop.bides_lock hlock)).trans (h _)

theorem lays_resolve (m : Machine) (j : LoopId) (p : Promise) (v : Value) : Lays k m (m.resolve j p v) :=
  lays_withLock m j p v fun m => lays_resolveLocked m p v

theorem lays_reject (m : Machine) (j : LoopId) (p : Promise) (v : Value) : Lays k m (m.reject j p v) :=
  lays_withLock m j p v fun m => lays_settle m p .rejected v []

theorem lays_newPromise {p : Promise} (h : m.newPromise j = some (p, m')) : Lays k m m' := by
  obtain ⟨l, hl, heq⟩ := Option.map_eq_some_iff.mp h
  rw [← (Prod.mk.inj heq).2]
  exact lays_setLoop hl l.id_newPromise (Loop.bides_of_eq rfl rfl)

theorem lays_callback (m : Machine) (name : String) (arguments : List Value) :
    Lays k m (m.callback name arguments) := by
  unfold callback
  split
  · exact (lays_push m rfl rfl).trans (lays_willCall _ _ _ _)
  · exact .refl m

theorem lays_tellUnhandled (m : Machine) (j : LoopId) (id : PromiseId) (reason : Value) :
    Lays k m (m.tellUnhandled j id reason) := by
  unfold tellUnhandled
  split
  · exact lays_traceEntry m _
  · exact lays_callback m _ _
  · exact .refl m

theorem lays_tellHandled (m : Machine) (j : LoopId) (id : PromiseId) : Lays k m (m.tellHandled j id) := by
  unfold tellHandled
  split
  · exact lays_traceEntry m _
  · exact lays_callback m _ _
  · exact .refl m

theorem lays_attach (m : Machine) (j : LoopId) (p : Promise) (f g : Option Value) (unused : List Value) :
    Lays k m (m.attach j p f g unused) := by
  unfold attach
  cases hl : m.loop? j with
  | none => exact lays_drop_signal _ m _
  | some l =>
    dsimp only
    cases h : l.attach p f g with
    | error e => exact lays_drop_signal _ m _
    | ok a =>
      dsimp only
      split
      · exact (lays_setLoop hl (Loop.id_attach h) (Loop.bides_attach h)).trans ((lays_push _ rfl rfl).trans
          ((lays_signal _ _).trans ((lays_drop _ _).trans (lays_tellHandled _ _ _))))
      · exact (lays_setLoop hl (by simp [Loop.id_attach h])
          ((Loop.bides_attach h).trans (Loop.bides_endAttach _ _ _))).trans (lays_drop_signal _ _ _)

theorem lays_thenMethod (m : Machine) (home : LoopId) (this : Value) (arguments unused : List Value) :
    Lays k m (m.thenMethod home this arguments unused) := by
  unfold thenMethod
  split
  · exact lays_drop_signal _ m _
  · split
    · exact lays_drop_signal _ m _
    · exact (lays_push m rfl rfl).trans (lays_attach _ _ _ _ _ _)

-- ---------------------------------------------------------------------------
-- Entering functions
-- ---------------------------------------------------------------------------

theorem lays_claim {r : Resolver} {accepted : Bool} (h : m.claim r = .ok (accepted, m')) : Lays k m m' := by
  unfold claim at h
  split at h
  · cases h
    exact lays_of_eq rfl rfl
  · cases hl : m.loop? r.promise.home with
    | none =>
      rw [hl] at h
      cases h
      exact .refl m
    | some l =>
      rw [hl] at h
      dsimp only at h
      cases hk : l.lock r.promise with
      | error f => rw [hk] at h; cases h
      | ok taken =>
        rw [hk] at h
        cases h
        exact lays_setLoop hl (Loop.id_lock hk) (Loop.bides_lock hk)

theorem lays_enterResolver (m : Machine) (r : Resolver) (this : Value) (arguments : List Value) :
    Lays k m (m.enterResolver r this arguments) := by
  unfold enterResolver
  split
  · exact lays_drop_signal _ m _
  · split
    · exact lays_drop_signal _ m _
    · rename_i m' h
      exact (lays_claim h).trans (lays_drop_signal _ m' _)
    · rename_i m' h
      have pushed : Lays k m' (m'.push (.give .undefined [this])) := lays_push m' rfl rfl
      have begun := ((lays_claim h).trans pushed).trans
        ((lays_drop_signal (arguments.drop 1) _ (.value (arguments.headD .undefined))).trans
          (lays_signal _ .done))
      dsimp only
      split
      · exact begun.trans (lays_resolveLocked _ _ _)
      · exact begun.trans (lays_settle _ _ _ _ _)

theorem lays_enterRoutine (m : Machine) (number : Nat) (name : String) (this : Value)
    (arguments : List Value) : Lays k m (m.enterRoutine number name this arguments) := by
  unfold enterRoutine
  split
  · exact lays_drop_signal _ m _
  · exact (lays_push m rfl rfl).trans ((lays_traceEntry _ _).trans
      ((lays_push _ rfl rfl).trans (lays_signal _ _)))

theorem lays_enter (m : Machine) (f : Callable) (this : Value) (arguments : List Value) :
    Lays k m (m.enter f this arguments) := by
  unfold enter
  split
  · exact lays_enterRoutine m _ _ _ _
  · exact lays_enterResolver m _ _ _
  · exact lays_thenMethod m _ _ _ _
  · exact lays_thenMethod m _ _ _ _

-- ---------------------------------------------------------------------------
-- Jobs
-- ---------------------------------------------------------------------------

theorem lays_startReaction (m : Machine) (j : LoopId) (r : Reaction) (argument : Value) :
    Lays k m (m.startReaction j r argument) := by
  unfold startReaction
  split
  · exact (lays_push m rfl rfl).trans (lays_invoke _ _ _ _ _)
  · dsimp only
    split
    · exact (lays_push m rfl rfl).trans (lays_resolve _ _ _ _)
    · exact (lays_push m rfl rfl).trans (lays_reject _ _ _ _)

theorem lays_startAdoption (m : Machine) (j : LoopId) (p : Promise) (thenable thenFunction : Value) :
    Lays k m (m.startAdoption j p thenable thenFunction) := by
  have paired : Lays k m (m.newPair p).2 := lays_of_eq rfl rfl
  exact paired.trans ((lays_push _ rfl rfl).trans (lays_invoke _ _ _ _ _))

theorem lays_startSettlement (m : Machine) (j : LoopId) (r : Report) : Lays k m (m.startSettlement j r) := by
  unfold startSettlement
  cases hl : m.loop? j with
  | none => exact lays_signal m _
  | some l =>
    have landed : Lays k m (m.setLoop (l.land r.promise).2) := lays_setLoop hl rfl (Loop.bides_of_eq rfl rfl)
    dsimp only
    split
    · split
      · exact landed.trans ((lays_push _ rfl rfl).trans (lays_resolve _ _ _ _))
      · exact landed.trans ((lays_push _ rfl rfl).trans (lays_reject _ _ _ _))
    · exact landed.trans (lays_drop_signal _ _ _)

/-- The jobs of promises and of background work. -/
theorem lays_startJob (m : Machine) (j : LoopId) {job : Job} (own : ∀ w, job ≠ .host w) :
    Lays k m (m.startJob j job) := by
  cases job with
  | reaction r argument => exact lays_startReaction m j r argument
  | adoption p thenable thenFunction => exact lays_startAdoption m j p thenable thenFunction
  | settlement r => exact lays_startSettlement m j r
  | host w => exact absurd rfl (own w)

-- ---------------------------------------------------------------------------
-- Collections
-- ---------------------------------------------------------------------------

theorem lays_sweep (m : Machine) (j : LoopId) (s : Sweep) : Lays k m (m.sweep j s) := lays_of_eq rfl rfl

theorem lays_collect (m : Machine) (j : LoopId) : Lays k m (m.collect j) := by
  unfold collect
  split
  · exact lays_sweep m j _
  · exact lays_signal m _

theorem lays_endCheckpoint (m : Machine) (j : LoopId) : Lays k m (m.endCheckpoint j) := by
  have noted : Lays k m (m.modifyLoop j fun l => l.note .checked) :=
    lays_modifyLoop m j (fun _ => rfl) fun l => Loop.bides_note l rfl rfl
  exact noted.trans (lays_signal _ _)

theorem lays_endCollection (m : Machine) (j : LoopId) (s : Sweep) : Lays k m (m.endCollection j s) := by
  unfold endCollection
  split
  · exact lays_endCheckpoint m j
  · exact lays_signal m _

theorem lays_collectNext (m : Machine) (j : LoopId) (s : Sweep) : Lays k m (m.collectNext j s) := by
  unfold collectNext
  split
  · split
    · exact lays_endCollection m j s
    · exact lays_endCollection m j s
    · rename_i released l' h
      obtain ⟨l, hl, heq⟩ := Option.map_eq_some_iff.mp h
      rw [← (Prod.mk.inj heq).2]
      exact (lays_setLoop hl l.id_takeReleases (Loop.bides_of_eq rfl rfl)).trans (lays_sweep _ _ _)
  · split
    · exact lays_sweep m j _
    · rename_i r l' h
      obtain ⟨l, hl, hf⟩ := Option.bind_eq_some_iff.mp h
      have freed : Lays k m (m.setLoop l') := lays_setLoop hl (Loop.id_free? hf) (Loop.bides_free? hf)
      dsimp only
      split
      · exact freed.trans ((lays_push _ rfl rfl).trans ((lays_push _ rfl rfl).trans
          ((lays_signal _ _).trans (lays_tellUnhandled _ _ _ _))))
      · exact freed.trans ((lays_sweep _ _ _).trans (lays_drop _ _))

theorem lays_resumeCollecting (m : Machine) (j : LoopId) (sweep : Sweep) (r : Record) (s : Signal) :
    Lays k m (m.resumeCollecting j sweep r s) :=
  (lays_sweep m j sweep).trans (lays_drop _ _)

/-- A checkpoint makes a report above the frame of the reports that are left. -/
theorem lays_makeReport (m : Machine) (j : LoopId) (id : PromiseId) (reason : Value) (vs : List Value) :
    Lays k m (((drop vs (m.push (.hold [reason]))).modifyLoop j fun l => l.report id reason).tellUnhandled
      j id reason) :=
  (lays_push m rfl rfl).trans ((lays_drop vs _).trans ((lays_modifyLoop _ j (fun l => l.id_report id reason)
    fun l => Loop.bides_report l id reason).trans (lays_tellUnhandled _ _ _ _)))

-- ---------------------------------------------------------------------------
-- Turns of other loops
-- ---------------------------------------------------------------------------

/-- The turns of another loop are ordinary. -/
theorem lays_pushTurn (m : Machine) {f : Frame} (hj : j ≠ k) (own : f.turns j = true) :
    Lays k m (m.push f) := by
  have unturned : f.turns k = false := by
    cases f <;> simp_all [Frame.turns]
  exact lays_push m unturned (by cases f <;> first | rfl | cases own)

/-- The body of an entry of another loop begins above the turn that has taken the entry. -/
theorem lays_startWork (m : Machine) {f : Frame} (hj : j ≠ k) (own : f.turns j = true) (w : Work) (e : Entry) :
    Lays k m ((m.push f).startWork w e) := by
  have pushed : Lays k m (m.push f) := lays_pushTurn m hj own
  have traced : Lays k ((m.push f).push (.work w.quiet)) (((m.push f).push (.work w.quiet)).traceEntry e) :=
    lays_traceEntry _ e
  obtain ⟨turn, stack, ordinary⟩ := pushed.above
  obtain rfl : [f] = turn := (List.append_left_inj m.stack).mp stack
  exact ⟨fun hp => traced.placed (pushed.placed hp), ⟨[.block w.body, .work w.quiet, f], by simp [startWork],
    (ordinary.cons rfl (by simp)).cons rfl (by simp)⟩, fun hp => traced.bides (pushed.placed hp)⟩

theorem lays_drain (m : Machine) (hj : j ≠ k) : Lays k m (m.drain j) := by
  unfold drain
  cases hl : m.loop? j with
  | none => exact lays_signal m _
  | some l =>
    dsimp only
    split
    · exact lays_signal m _
    · have begun : Lays k m (m.setLoop l.startDraining) := lays_setLoop_of_ne hl rfl hj
      exact begun.trans ((lays_pushTurn _ hj (by simp [Frame.turns])).trans (lays_signal _ _))

theorem lays_endDrain (m : Machine) (j : LoopId) : Lays k m (m.endDrain j) := by
  have ended : Lays k m (m.modifyLoop j fun l => l.stopDraining.note .drained) :=
    lays_modifyLoop m j (fun _ => rfl) fun l =>
      (Loop.bides_of_eq rfl rfl : l.Bides l.stopDraining).trans (Loop.bides_note _ rfl rfl)
  exact ended.trans (lays_signal _ _)

theorem lays_nextMicrotask (m : Machine) (hj : j ≠ k) : Lays k m (m.nextMicrotask j) := by
  unfold nextMicrotask
  split
  · exact lays_endDrain m j
  · rename_i job l' h
    obtain ⟨l, hl, hd⟩ := Option.bind_eq_some_iff.mp h
    have taken : Lays k m (m.setLoop l') := lays_setLoop_of_ne hl (Loop.id_dequeue? hd) hj
    cases job with
    | host w => exact taken.trans (lays_startWork _ hj (by simp [Frame.turns]) w _)
    | _ =>
      exact taken.trans ((lays_pushTurn _ hj (by simp [Frame.turns])).trans (lays_startJob _ j fun w => nofun))

theorem lays_resumeDraining (m : Machine) (hj : j ≠ k) (s : Signal) : Lays k m (m.resumeDraining j s) := by
  unfold resumeDraining
  split
  · have broken : Lays k m (m.modifyLoop j Loop.stopDraining) :=
      lays_modifyLoop m j (fun _ => rfl) fun l => Loop.bides_of_eq rfl rfl
    exact broken.trans (lays_signal _ _)
  · exact (lays_drop _ m).trans (lays_nextMicrotask _ hj)

theorem lays_finishCheckpoint (m : Machine) (j : LoopId) : Lays k m (m.finishCheckpoint j) := by
  unfold finishCheckpoint
  split
  · exact lays_signal m _
  · split
    · exact lays_sweep m j _
    · exact lays_endCheckpoint m j

theorem lays_resumeReporting (m : Machine) (hj : j ≠ k) (reports : List (PromiseId × Value)) (s : Signal) :
    Lays k m (m.resumeReporting j reports s) := by
  unfold resumeReporting
  split
  · exact (lays_drop _ m).trans (lays_finishCheckpoint _ j)
  · rename_i id reason rest
    exact (lays_pushTurn m hj (by simp [Frame.turns])).trans
      (lays_makeReport _ j id reason s.held)

theorem lays_checkpoint (m : Machine) (hj : j ≠ k) : Lays k m (m.checkpoint j) :=
  (lays_modifyLoop m j Loop.id_deliver Loop.bides_deliver).trans
    ((lays_pushTurn _ hj (by simp [Frame.turns])).trans (lays_drain _ hj))

theorem lays_resumeCheckpoint (m : Machine) (hj : j ≠ k) (s : Signal) :
    Lays k m (m.resumeCheckpoint j s) := by
  unfold resumeCheckpoint
  split
  · exact lays_signal m _
  · dsimp only
    split
    · exact lays_drop s.held m
    · rename_i reports l' h
      obtain ⟨l, hl, heq⟩ := Option.map_eq_some_iff.mp h
      rw [← (Prod.mk.inj heq).2]
      exact (lays_drop s.held m).trans ((lays_setLoop_of_ne hl l.id_takeReports hj).trans
        (lays_pushTurn _ hj (by simp [Frame.turns])))

theorem lays_cycle (m : Machine) (hj : j ≠ k) : Lays k m (m.cycle j) := by
  have delivered : Lays k m (m.modifyLoop j Loop.deliver) :=
    lays_modifyLoop m j Loop.id_deliver Loop.bides_deliver
  unfold cycle
  dsimp only
  split
  · exact delivered.trans (lays_checkpoint _ hj)
  · rename_i w l' h
    obtain ⟨l, hl, hd⟩ := Option.bind_eq_some_iff.mp h
    exact delivered.trans ((lays_setLoop_of_ne hl (Loop.id_dequeueTask? hd) hj).trans
      (lays_startWork _ hj (by simp [Frame.turns]) _ _))

theorem lays_resumeCycling (m : Machine) (hj : j ≠ k) (s : Signal) : Lays k m (m.resumeCycling j s) := by
  unfold resumeCycling
  split
  · exact lays_signal m _
  · exact (lays_drop _ m).trans (lays_checkpoint _ hj)

theorem lays_idle (m : Machine) (hj : j ≠ k) : Lays k m (m.idle j) :=
  (lays_pushTurn m hj (by simp [Frame.turns])).trans (lays_cycle _ hj)

theorem lays_resumeIdling (m : Machine) (hj : j ≠ k) (s : Signal) : Lays k m (m.resumeIdling j s) := by
  unfold resumeIdling
  split
  · exact lays_signal m _
  · dsimp only
    split
    · exact lays_drop _ m
    · exact (lays_drop _ m).trans (lays_idle _ hj)

theorem lays_finish (m : Machine) (hj : j ≠ k) : Lays k m (m.finish j) :=
  (lays_pushTurn m hj (by simp [Frame.turns])).trans (lays_idle _ hj)

theorem lays_resumeFinishing (m : Machine) (hj : j ≠ k) (s : Signal) : Lays k m (m.resumeFinishing j s) := by
  unfold resumeFinishing
  split
  · exact lays_signal m _
  · have dropped : Lays k m (drop s.held m) := lays_drop s.held m
    dsimp only
    split
    · exact dropped
    · rename_i l hl
      split
      · exact dropped
      · split
        · rename_i l' hr
          exact dropped.trans ((lays_setLoop_of_ne hl (Loop.id_receive? hr) hj).trans (lays_finish _ hj))
        · exact dropped.trans (lays_pushTurn _ hj (by simp [Frame.turns]))

theorem lays_conclude (m : Machine) (hj : j ≠ k) : Lays k m (m.conclude j) := by
  unfold conclude
  split
  · exact lays_finish m hj
  · exact (lays_pushTurn m hj (by simp [Frame.turns])).trans (lays_idle _ hj)

theorem lays_resumeConcluding (m : Machine) (hj : j ≠ k) (s : Signal) : Lays k m (m.resumeConcluding j s) := by
  unfold resumeConcluding
  split
  · exact lays_signal m _
  · exact (lays_drop s.held m).trans ((lays_modifyLoop _ j Loop.id_releaseWorker Loop.bides_releaseWorker).trans
      (lays_conclude _ hj))

end Machine
end PromiseLoop

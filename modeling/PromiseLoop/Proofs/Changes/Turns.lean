import PromiseLoop.Machine.Turns
import PromiseLoop.Proofs.Changes.Basic

/-!
# What turns change

Jobs, drains, checkpoints, collections and cycles, as changes of a machine.  A drain that comes to a job has
an occasion to run it, and the letting go of a worker deals with background work.

## Results

* `does_resumeDraining`: a drain goes on with the job that comes next.
* `changes_collectNext`: a collection goes on.
* `changes_cycle`: the beginning of a cycle.
-/

namespace PromiseLoop

open Relation

namespace Machine

variable {m m' : Machine}

/-- Changes, and at most once what has an occasion or deals with background work. -/
def Does (o : Option Occasion) (m m' : Machine) : Prop :=
  ∃ a b, Changes m a ∧ (o = none ∧ a = b ∨ Works o a b) ∧ Changes b m'

theorem Changes.does (h : Changes m m') : Does none m m' := ⟨m', m', h, .inl ⟨rfl, rfl⟩, .refl⟩

theorem Does.of_changes {o : Option Occasion} {m'' : Machine} (h : Changes m m') (h' : Does o m' m'') :
    Does o m m'' := by
  obtain ⟨a, b, ha, hab, hb⟩ := h'
  exact ⟨a, b, h.trans ha, hab, hb⟩

theorem Works.does {o : Option Occasion} {m'' : Machine} (h : Works o m m') (h' : Changes m' m'') :
    Does o m m'' :=
  ⟨m, m', .refl, .inr h, h'⟩

-- ---------------------------------------------------------------------------
-- Jobs
-- ---------------------------------------------------------------------------

theorem changes_startWork (m : Machine) (w : Work) (e : Entry) : Changes m (m.startWork w e) :=
  (changes_push m _).trans ((changes_traceEntry _ _).trans
    ((changes_push _ _).trans (changes_signal _ _)))

/-- After a job has called what it is to call, the changes that are left of its beginning. -/
theorem changes_startJob {k : LoopId} {l : Loop} {j : Job} (hp : m.Placed) (hl : m.loop? k = some l)
    (other : j.report? = none) : Changes (m.setLoop (l.calling j)) (m.startJob k j) := by
  have called (n : Machine) {f : Value} (loops : n.loops = m.loops) (completers : n.completers = m.completers) :
      Changes (m.setLoop (l.note (.invoked f))) (n.modifyLoop k fun l => l.note (.invoked f)) := by
    rw [← modifyLoop_of_found (fun l => l.note (.invoked f)) hl (hp k l hl)]
    exact changes_of_eq (by rw [modifyLoop, modifyLoop, loops]) completers
  cases j with
  | reaction r argument =>
    cases hr : r.handler with
    | some f =>
      simp only [Loop.calling, Job.callee?, startJob, startReaction, hr]
      exact (called (m.push (.reacting f r.derived)) rfl rfl).trans (changes_invoke _ k f _ _)
    | none =>
      simp only [Loop.calling, Job.callee?, startJob, startReaction, hr, setLoop_self hl (hp k l hl)]
      split
      · exact (changes_push m _).trans (changes_resolve _ _ _ _)
      · exact (changes_push m _).trans (changes_reject _ _ _ _)
  | adoption p thenable thenFunction =>
    let paired := (m.newPair p).2.push
      (.adopting p (.function (.resolver ⟨p, (m.newPair p).1, .reject⟩)) thenFunction)
    exact (called paired rfl rfl).trans (changes_invoke paired k thenFunction _ _)
  | settlement r => cases other
  | host w =>
    simp only [Loop.calling, Job.callee?, startJob, setLoop_self hl (hp k l hl)]
    exact changes_startWork m w _

-- ---------------------------------------------------------------------------
-- Drains
-- ---------------------------------------------------------------------------

theorem changes_drain (m : Machine) (k : LoopId) : Changes m (m.drain k) := by
  unfold drain
  cases hl : m.loop? k with
  | none => exact changes_signal m _
  | some l =>
    dsimp only
    split
    · exact changes_signal m _
    · have begun : Changes m (m.setLoop l.startDraining) := changes_setLoop hl rfl (.drainBegun l)
      exact begun.trans ((changes_push _ _).trans (changes_signal _ _))

/-- Applying a report: it leaves the queue, its promise is not in flight any more, and is resolved or
rejected. -/
theorem does_startSettlement {k : LoopId} {l l' : Loop} {r : Report} (hp : m.Placed)
    (hl : m.loop? k = some l) (next : l.dequeue? = some (.settlement r, l')) (f : Frame) :
    Does (some (.running k (.settlement r))) m (((m.setLoop l').push f).startSettlement k r) := by
  obtain rfl : l.id = k := hp k l hl
  have hid : l'.id = l.id := Loop.id_dequeue? next
  have found : ((m.setLoop l').push f).loop? l.id = some l' := loop?_setLoop_self hl hid
  have landed : Changes (m.setLoop (l'.land r.promise).2)
      (((m.setLoop l').push f).setLoop (l'.land r.promise).2) := by
    refine changes_of_eq ?_ rfl
    simp [setLoop, modifyLoop, push, List.modify_modify_eq, Function.comp_def]
  unfold startSettlement
  simp only [found]
  refine Works.does (.applied hl next) (landed.trans ?_)
  split
  · split
    · exact (changes_push _ _).trans (changes_resolve _ _ _ _)
    · exact (changes_push _ _).trans (changes_reject _ _ _ _)
  · exact changes_drop_signal _ _ _

/-- Any other job leaves the queue and calls what it is to call. -/
theorem does_startJob {k : LoopId} {l l' : Loop} {j : Job} (hp : m.Placed) (hl : m.loop? k = some l)
    (next : l.dequeue? = some (j, l')) (other : j.report? = none) (f : Frame) :
    Does (some (.running k j)) m (((m.setLoop l').push f).startJob k j) := by
  obtain rfl : l.id = k := hp k l hl
  have hid : l'.id = l.id := Loop.id_dequeue? next
  have found : ((m.setLoop l').push f).loop? l.id = some l' := loop?_setLoop_self hl hid
  have placed : ((m.setLoop l').push f).Placed := hp.setLoop hl hid
  refine Works.does (.run hl next other) (.trans ?_ (changes_startJob placed found other))
  refine changes_of_eq ?_ rfl
  have same : (l'.calling j).id = l'.id := l'.id_calling j
  simp [setLoop, modifyLoop, push, same, List.modify_modify_eq, Function.comp_def]

/-- The job that a drain comes to next. -/
def nextJob? (m : Machine) (k : LoopId) : Option Occasion :=
  ((m.loop? k).bind Loop.dequeue?).map fun x => .running k x.1

theorem does_nextMicrotask (m : Machine) (k : LoopId) (hp : m.Placed) :
    Does (m.nextJob? k) m (m.nextMicrotask k) := by
  unfold nextMicrotask nextJob?
  cases h : (m.loop? k).bind Loop.dequeue? with
  | none =>
    have ended : Changes m (m.modifyLoop k fun l => l.stopDraining.note .drained) :=
      changes_modifyLoop m k (fun _ => rfl) .drainEnded
    exact Changes.does (ended.trans (changes_signal _ _))
  | some x =>
    obtain ⟨j, l'⟩ := x
    obtain ⟨l, hl, hd⟩ := Option.bind_eq_some_iff.mp h
    cases hj : j.report? with
    | none => exact does_startJob hp hl hd hj _
    | some r =>
      obtain rfl : j = .settlement r := Job.report?_eq_some.mp hj
      exact does_startSettlement hp hl hd _

/-- Letting values go does not matter to the job that comes next. -/
theorem nextJob?_drop (vs : List Value) (m : Machine) (k : LoopId) :
    (drop vs m).nextJob? k = m.nextJob? k := by
  obtain ⟨released, same⟩ := exists_loop?_drop vs m k
  unfold nextJob?
  rw [same]
  cases m.loop? k with
  | none => rfl
  | some l =>
    simp only [Option.map_some, Option.bind_some, Loop.dequeue?, Option.map_map]
    rfl

/-- A drain goes on with the job that comes next, unless a fault breaks it off. -/
theorem does_resumeDraining (m : Machine) (k : LoopId) (s : Signal) (hp : m.Placed) :
    Does (match s with | .fault _ => none | _ => m.nextJob? k) m (m.resumeDraining k s) := by
  have drained (vs : List Value) : Does (m.nextJob? k) m ((drop vs m).nextMicrotask k) := by
    have aside : Aside k m (drop vs m) := aside_drop vs m
    rw [← nextJob?_drop vs m k]
    exact .of_changes (changes_drop _ _) (does_nextMicrotask _ k (aside.placed hp))
  cases s with
  | fault f =>
    have broken : Changes m (m.modifyLoop k Loop.stopDraining) :=
      changes_modifyLoop m k (fun _ => rfl) .drainBroken
    exact Changes.does (broken.trans (changes_signal _ _))
  | _ => exact drained _

-- ---------------------------------------------------------------------------
-- Checkpoints and collections
-- ---------------------------------------------------------------------------

theorem changes_sweep (m : Machine) (k : LoopId) (s : Sweep) : Changes m (m.sweep k s) :=
  changes_of_eq rfl rfl

theorem changes_collect (m : Machine) (k : LoopId) : Changes m (m.collect k) := by
  unfold collect
  split
  · exact changes_sweep m k _
  · exact changes_signal m _

theorem changes_endCheckpoint (m : Machine) (k : LoopId) : Changes m (m.endCheckpoint k) := by
  have noted : Changes m (m.modifyLoop k fun l => l.note .checked) :=
    changes_modifyLoop m k (fun _ => rfl) .checked
  exact noted.trans (changes_signal _ _)

theorem changes_endCollection (m : Machine) (k : LoopId) (s : Sweep) :
    Changes m (m.endCollection k s) := by
  unfold endCollection
  split
  · exact changes_endCheckpoint m k
  · exact changes_signal m _

theorem changes_collectNext (m : Machine) (k : LoopId) (s : Sweep) : Changes m (m.collectNext k s) := by
  unfold collectNext
  split
  · split
    · exact changes_endCollection m k s
    · exact changes_endCollection m k s
    · rename_i released l' h
      obtain ⟨l, hl, heq⟩ := Option.map_eq_some_iff.mp h
      rw [← (Prod.mk.inj heq).2]
      exact (changes_setLoop hl l.id_takeReleases (.releasesTaken l)).trans (changes_sweep _ _ _)
  · split
    · exact changes_sweep m k _
    · rename_i r l' h
      obtain ⟨l, hl, hf⟩ := Option.bind_eq_some_iff.mp h
      have freed := changes_setLoop hl (Loop.id_free? hf) (.freed hf)
      dsimp only
      split
      · exact freed.trans ((changes_push _ _).trans ((changes_push _ _).trans
          ((changes_signal _ _).trans (changes_tellUnhandled _ _ _ _))))
      · exact freed.trans ((changes_sweep _ _ _).trans (changes_drop _ _))

theorem changes_resumeCollecting (m : Machine) (k : LoopId) (sweep : Sweep) (r : Record) (s : Signal) :
    Changes m (m.resumeCollecting k sweep r s) :=
  (changes_sweep m k sweep).trans (changes_drop _ _)

theorem changes_finishCheckpoint (m : Machine) (k : LoopId) : Changes m (m.finishCheckpoint k) := by
  unfold finishCheckpoint
  split
  · exact changes_signal m _
  · split
    · exact changes_sweep m k _
    · exact changes_endCheckpoint m k

theorem changes_resumeReporting (m : Machine) (k : LoopId) (reports : List (PromiseId × Value))
    (s : Signal) : Changes m (m.resumeReporting k reports s) := by
  unfold resumeReporting
  split
  · exact (changes_drop _ _).trans (changes_finishCheckpoint _ k)
  · rename_i id reason rest
    have begun := ((changes_push m (.reporting k rest)).trans (changes_push _ (.hold [reason]))).trans
      (changes_drop s.held _)
    exact (begun.trans (changes_modifyLoop _ k (fun l => l.id_report id reason)
      fun l => .reported l id reason)).trans (changes_tellUnhandled _ _ _ _)

theorem changes_checkpoint (m : Machine) (k : LoopId) : Changes m (m.checkpoint k) :=
  (changes_modifyLoop m k Loop.id_deliver .delivered).trans
    ((changes_push _ _).trans (changes_drain _ _))

theorem changes_resumeCheckpoint (m : Machine) (k : LoopId) (s : Signal) :
    Changes m (m.resumeCheckpoint k s) := by
  unfold resumeCheckpoint
  split
  · exact changes_signal m _
  · dsimp only
    split
    · exact changes_drop s.held m
    · rename_i reports l' h
      obtain ⟨l, hl, heq⟩ := Option.map_eq_some_iff.mp h
      rw [← (Prod.mk.inj heq).2]
      exact (changes_drop s.held m).trans ((changes_setLoop hl l.id_takeReports (.selected l)).trans
        (changes_push _ _))

-- ---------------------------------------------------------------------------
-- Cycles
-- ---------------------------------------------------------------------------

theorem changes_cycle (m : Machine) (k : LoopId) : Changes m (m.cycle k) := by
  have delivered : Changes m (m.modifyLoop k Loop.deliver) :=
    changes_modifyLoop m k Loop.id_deliver .delivered
  unfold cycle
  dsimp only
  split
  · exact delivered.trans (changes_checkpoint _ _)
  · rename_i w l' h
    obtain ⟨l, hl, hd⟩ := Option.bind_eq_some_iff.mp h
    exact delivered.trans ((changes_setLoop hl (Loop.id_dequeueTask? hd) (.taskTaken hd)).trans
      ((changes_push _ _).trans (changes_startWork _ _ _)))

theorem changes_resumeCycling (m : Machine) (k : LoopId) (s : Signal) :
    Changes m (m.resumeCycling k s) := by
  unfold resumeCycling
  split
  · exact changes_signal m _
  · exact (changes_drop _ _).trans (changes_checkpoint _ _)

theorem changes_idle (m : Machine) (k : LoopId) : Changes m (m.idle k) :=
  (changes_push m _).trans (changes_cycle _ _)

theorem changes_resumeIdling (m : Machine) (k : LoopId) (s : Signal) :
    Changes m (m.resumeIdling k s) := by
  unfold resumeIdling
  split
  · exact changes_signal m _
  · dsimp only
    split
    · exact changes_drop _ _
    · exact (changes_drop _ _).trans (changes_idle _ _)

theorem changes_finish (m : Machine) (k : LoopId) : Changes m (m.finish k) :=
  (changes_push m _).trans (changes_idle _ _)

theorem changes_resumeFinishing (m : Machine) (k : LoopId) (s : Signal) :
    Changes m (m.resumeFinishing k s) := by
  unfold resumeFinishing
  split
  · exact changes_signal m _
  · have dropped : Changes m (drop s.held m) := changes_drop s.held m
    dsimp only
    split
    · exact dropped
    · rename_i l hl
      split
      · exact dropped
      · split
        · rename_i l' hr
          exact dropped.trans ((changes_setLoop hl (Loop.id_receive? hr) (.received hr)).trans
            (changes_finish _ _))
        · exact dropped.trans (changes_push _ _)

theorem changes_conclude (m : Machine) (k : LoopId) : Changes m (m.conclude k) := by
  unfold conclude
  split
  · exact changes_finish m k
  · exact (changes_push m _).trans (changes_idle _ _)

theorem does_resumeConcluding (m : Machine) (k : LoopId) (s : Signal) (hp : m.Placed) :
    Does none m (m.resumeConcluding k s) := by
  unfold resumeConcluding
  split
  · exact Changes.does (changes_signal m _)
  · have aside : Aside k m (drop s.held m) := aside_drop s.held m
    refine .of_changes (changes_drop s.held m) ?_
    cases hl : (drop s.held m).loop? k with
    | none =>
      exact Changes.does ((changes_of_eq (congrArg loops (modifyLoop_of_gone hl _)) rfl).trans (changes_conclude _ _))
    | some l =>
      rw [modifyLoop_of_found _ hl (l.id_releaseWorker.trans (aside.placed hp k l hl))]
      exact Works.does (.letGo hl) (changes_conclude _ _)

end Machine
end PromiseLoop

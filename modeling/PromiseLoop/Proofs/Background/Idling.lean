import PromiseLoop.Proofs.Background.Settlements
import PromiseLoop.Proofs.Tasks

/-!
# What is left of background work when a loop is idle

A run until idle ends when nothing waits in the two queues of its loop.  Reports come into the queue at the
beginning of cycles and checkpoints, and so what had been posted by then has been applied when the run ends.
A report that is posted while the last checkpoint drains, or later, stays in the channel.

## Results

* `delivers_cycle`: a cycle begins with an empty channel.
* `idling_step`, `Winds.step`: how a run until idle or until done goes on, and what it has come to when it
  returns.
* `returning_applies_posted`: what every run until idle or until done has applied when it returns.
* `idle_leaves_report`: a run until idle that leaves a report in the channel.
-/

namespace PromiseLoop

open Relation

namespace Loop

variable {l l' x : Loop} {k : LoopId}

-- ---------------------------------------------------------------------------
-- Idle loops
-- ---------------------------------------------------------------------------

theorem isIdle_iff : l.isIdle = true ↔ l.tasks.entries = [] ∧ l.microtasks.entries = [] := by
  simp [isIdle, Queue.isEmpty]

/-- What touches a loop from outside puts nothing into its queues. -/
theorem Outside.isIdle (h : l.Outside l') : l'.isIdle = l.isIdle := by
  cases h with
  | released id => rfl
  | posted r => rfl
  | workerReleased =>
    unfold releaseWorker
    split <;> rfl

theorem isIdle_of_outside (h : ReflTransGen Outside l l') : l'.isIdle = l.isIdle := by
  induction h with
  | refl => rfl
  | tail _ h ih => exact h.isIdle.trans ih

/-- What is known of a loop when a run that began with the loop `l` leaves it idle: what had been posted before
is applied, and what has been posted since is applied up to the reports in the channel. -/
structure CaughtUp (l x : Loop) : Prop where
  tasks : x.tasks.entries = []
  microtasks : x.microtasks.entries = []
  applied : posted l.history <+: reports (started x.history)
  left : posted x.history = reports (started x.history) ++ x.channel

theorem SparesWork.posted (h : l.SparesWork l') : PromiseLoop.posted l'.history = PromiseLoop.posted l.history := by
  obtain ⟨newer, history, quiet⟩ := h.history
  rw [history]
  exact (of_not_isOfWork quiet l.history).1

theorem SparesWork.caughtUp (h : l.SparesWork l') (caught : l'.CaughtUp x) : l.CaughtUp x :=
  ⟨caught.tasks, caught.microtasks, h.posted ▸ caught.applied, caught.left⟩

theorem sparesWork_starting (l : Loop) (w : Work) (ws : List Work) : l.SparesWork (l.starting w ws) := by
  have shorter : l.deliver.SparesWork { l.deliver with tasks := ⟨ws⟩ } :=
    ⟨rfl, rfl, rfl, rfl, rfl, Nat.le_refl _, Nat.le_refl _, [], rfl, by simp⟩
  exact l.sparesWork_deliver.trans (shorter.trans (sparesWork_note _ rfl))

end Loop

namespace Machine

variable {m m' p : Machine} {k : LoopId} {l x : Loop} {base : List Frame} {n : Nat}

-- ---------------------------------------------------------------------------
-- Where reports come into the queue
-- ---------------------------------------------------------------------------

/-- The loop after a drain has been asked for. -/
theorem loop?_drain (hl : m.loop? k = some l) (id : l.id = k) :
    ∃ x, (m.drain k).loop? k = some x ∧ l.SparesWork x ∧ x.channel = l.channel := by
  subst id
  cases hd : l.draining with
  | true => exact ⟨l, by rw [drain_of_draining hl hd]; exact hl, .refl l, rfl⟩
  | false =>
    refine ⟨l.startDraining, ?_, (Loop.Does.drainBegun l).spares, rfl⟩
    simp only [drain, hl, hd]
    exact loop?_setLoop_self hl rfl

/-- A checkpoint begins with an empty channel. -/
theorem delivers_checkpoint (hl : m.loop? k = some l) (id : l.id = k) :
    ∃ x, (m.checkpoint k).loop? k = some x ∧ l.SparesWork x ∧ x.channel = [] := by
  have delivered : ((m.modifyLoop k Loop.deliver).push (.checkpoint k)).loop? k = some l.deliver :=
    loop?_deliver hl
  obtain ⟨x, hx, spares, channel⟩ := loop?_drain delivered (l.id_deliver.trans id)
  exact ⟨x, hx, l.sparesWork_deliver.trans spares, channel.trans l.channel_deliver⟩

/-- A cycle begins with an empty channel. -/
theorem delivers_cycle (hl : m.loop? k = some l) (id : l.id = k) :
    ∃ x, (m.cycle k).loop? k = some x ∧ l.SparesWork x ∧ x.channel = [] := by
  cases ht : l.tasks.entries with
  | cons w ws =>
    exact ⟨_, (cycle_of_waits hl id ht).1, l.sparesWork_starting w ws, l.channel_deliver⟩
  | nil =>
    have delivered := loop?_deliver hl
    have none : l.deliver.dequeueTask? = none := by
      rw [Loop.dequeueTask?, (Queue.dequeue?_eq_none_iff _).mpr (by simp [Queue.isEmpty, ht])]
      rfl
    have begun : m.cycle k = (m.modifyLoop k Loop.deliver).checkpoint k := by
      simp only [cycle, delivered, Option.bind_some, none]
    obtain ⟨x, hx, spares, channel⟩ := delivers_checkpoint delivered (l.id_deliver.trans id)
    exact ⟨x, begun ▸ hx, l.sparesWork_deliver.trans spares, channel⟩

/-- Whatever has been delivered is applied when nothing waits any more. -/
theorem caughtUp (hm : Reachable m) (hl : m.loop? k = some l) (channel : l.channel = []) (hr : Run m m')
    (hx : m'.loop? k = some x) (idle : x.isIdle = true) : l.CaughtUp x := by
  obtain ⟨tasks, microtasks⟩ := Loop.isIdle_iff.mp idle
  have reachable := hm.runs hr
  have before := (hm.staffed.2 k l hl).order
  have after := (reachable.staffed.2 k x hx).order
  simp only [Loop.underway, channel, List.append_nil] at before
  simp only [Loop.underway, microtasks] at after
  refine ⟨tasks, microtasks, ?_, after⟩
  obtain ⟨newer, history⟩ := (Run.acts hm hr hl hx).history
  have all : started x.history = enqueued l.history ++ enqueued newer := by
    have fifo := (reachable.queueKept hx).fifo
    rw [microtasks, List.append_nil, history, enqueued_append] at fifo
    rw [history, fifo]
  rw [all, (hm.queueKept hl).fifo, reports_append, reports_append, ← before]
  exact List.prefix_append ..

-- ---------------------------------------------------------------------------
-- How an activity returns
-- ---------------------------------------------------------------------------

theorem above_drain (m : Machine) (k : LoopId) : Above m (m.drain k) := by
  unfold drain
  split
  · exact above_of_eq rfl
  · split
    · exact above_of_eq rfl
    · exact above_push (m.setLoop _) _

theorem above_checkpoint (m : Machine) (k : LoopId) : Above m (m.checkpoint k) :=
  (above_push (m.modifyLoop k Loop.deliver) (.checkpoint k)).trans (above_drain _ k)

theorem above_cycle (m : Machine) (k : LoopId) : Above m (m.cycle k) := by
  unfold cycle
  dsimp only
  split
  · exact above_checkpoint (m.modifyLoop k Loop.deliver) k
  · rename_i w l _
    have pushed : Above m (((m.modifyLoop k Loop.deliver).setLoop l).push (.cycling k)) :=
      above_push (m.modifyLoop k Loop.deliver) _
    exact pushed.trans (above_startWork _ w _)

theorem suffix_idle (m : Machine) (k : LoopId) : .idling k :: m.stack <:+ (m.idle k).stack :=
  above_cycle (m.push (.idling k)) k

theorem suffix_finish (m : Machine) (k : LoopId) : .idling k :: .finishing k :: m.stack <:+ (m.finish k).stack :=
  suffix_idle (m.push (.finishing k)) k

/-- A run until idle goes on, is broken off by a fault, or returns when nothing waits. -/
theorem idling_step (hm : Reachable m) (h : .idling k :: base <:+ m.stack) (hl : m.loop? k = some l) :
    .idling k :: base <:+ m.step.stack ∨
      m.step.stack = base ∧ ((∃ f, m.step.control = .signal (.fault f)) ∨
        m.step.control = .signal .done ∧ ∃ x, m.step.loop? k = some x ∧ x.isIdle = true) := by
  rcases beneath_or_top h with below | ⟨hs, s, hc⟩
  · exact .inl (below.trans hm.above)
  · rcases step_removes_or m hm.placed (keepsLoop_of_stack hs rfl) with ⟨stack, -, -⟩ | settled
    · exact .inl (stack ▸ h)
    · have stepped := step_of_signal settled hc hs
      dsimp only [resume] at stepped
      unfold resumeIdling at stepped
      split at stepped
      · exact .inr ⟨congrArg stack stepped, .inl ⟨_, congrArg control stepped⟩⟩
      · rw [stepped]
        obtain ⟨released, dropped⟩ :=
          loop?_drop_of (m := { m with stack := base, control := .signal .done }) s.held hl
        dsimp only
        split
        · rename_i idle
          rw [dropped] at idle
          exact .inr ⟨stack_drop .., .inr ⟨control_drop .., _, dropped, idle⟩⟩
        · have on := suffix_idle (drop s.held { m with stack := base, control := .signal .done }) k
          rw [stack_drop] at on
          exact .inl on

/-- How far a run until done has come: it is in one of its runs until idle, which then meets with a fault or
leaves the loop idle. -/
inductive Winds (k : LoopId) (base : List Frame) (m : Machine) : Prop
  | idling (h : .idling k :: .finishing k :: base <:+ m.stack)
  | failing {f : Fault} (hs : m.stack = .finishing k :: base) (hc : m.control = .signal (.fault f))
  | rests {l : Loop} (hs : m.stack = .finishing k :: base) (hc : m.control = .signal .done)
    (hl : m.loop? k = some l) (idle : l.isIdle = true)

/-- A run until done goes on, is broken off by a fault, or returns when nothing waits and no worker is left. -/
theorem Winds.step (h : Winds k base m) (hm : Reachable m) (hl : m.loop? k = some l) :
    Winds k base m.step ∨
      m.step.stack = base ∧ ((∃ f, m.step.control = .signal (.fault f)) ∨
        ∃ x, m.step.loop? k = some x ∧ x.isIdle = true ∧ x.workers = []) := by
  cases h with
  | idling h =>
    rcases idling_step hm h hl with on | ⟨popped, ⟨f, broken⟩ | ⟨done, x, hx, idle⟩⟩
    · exact .inl (.idling on)
    · exact .inl (.failing popped broken)
    · exact .inl (.rests popped done hx idle)
  | failing hs hc =>
    rcases step_removes_or m hm.placed (keepsLoop_of_stack hs rfl) with ⟨stack, control, -⟩ | settled
    · exact .inl (.failing (stack.trans hs) (control.trans hc))
    · have stepped := step_of_signal settled hc hs
      exact .inr ⟨congrArg Machine.stack stepped, .inl ⟨_, congrArg Machine.control stepped⟩⟩
  | @rests l hs hc hl idle =>
    rcases step_removes_or m hm.placed (keepsLoop_of_stack hs rfl) with ⟨stack, control, aside⟩ | settled
    · obtain ⟨x, hx, outside⟩ := aside.stays l hl
      exact .inl (.rests (stack.trans hs) (control.trans hc) hx ((Loop.isIdle_of_outside outside).trans idle))
    · have stepped := step_of_signal settled hc hs
      have found : ({ m with stack := base, control := .signal .done } : Machine).loop? k = some l := hl
      dsimp only [resume, resumeFinishing] at stepped
      rw [show Signal.done.held = [] from rfl, drop_nil, found] at stepped
      rw [stepped]
      dsimp only
      split
      · rename_i workers
        exact .inr ⟨rfl, .inr ⟨l, hl, idle, List.isEmpty_iff.mp workers⟩⟩
      · split
        · rename_i y _
          exact .inl (.idling (suffix_finish
            (({ m with stack := base, control := .signal .done } : Machine).setLoop y) k))
        · exact .inl (.rests rfl rfl hl idle)

/-- An activity with the given frame goes on for some steps, and with one more it returns without a fault. -/
structure Returns (m : Machine) (f : Frame) (base : List Frame) (n : Nat) : Prop where
  inside : ∀ i ≤ n, f :: base <:+ (run i m).stack
  left : (run (n + 1) m).stack = base
  ok : (run (n + 1) m).control = .signal .done

theorem Returns.not_inside {f : Frame} {n : Nat} (h : m.Returns f base n) :
    ¬ f :: base <:+ (run n m).step.stack := fun inside => by
  have longer := inside.length_le
  rw [← run_succ', h.left] at longer
  simp at longer

/-- A run until idle that returns leaves nothing in the queues. -/
theorem Returns.idle (h : m.Returns (.idling k) base n) (hm : Reachable m) (hl : m.loop? k = some l) :
    ∃ x, (run (n + 1) m).loop? k = some x ∧ x.isIdle = true := by
  obtain ⟨y, hy⟩ := stays_run hm rfl (fun i hi => h.inside i (Nat.le_of_lt hi)) hl
  have ok := h.ok
  rw [run_succ'] at ok ⊢
  rcases idling_step (hm.run n) (h.inside n (Nat.le_refl n)) hy with on | ⟨-, ⟨f, broken⟩ | ⟨-, done⟩⟩
  · exact absurd on h.not_inside
  · cases broken.symm.trans ok
  · exact done

theorem Winds.inside (h : Winds k base m) : .finishing k :: base <:+ m.stack := by
  cases h with
  | idling h => exact (List.suffix_cons _ _).trans h
  | failing hs _ => exact hs ▸ List.suffix_rfl
  | rests hs _ _ _ => exact hs ▸ List.suffix_rfl

theorem Winds.run (h : Winds k base m) (hm : Reachable m) (hl : m.loop? k = some l)
    (inside : ∀ i ≤ n, .finishing k :: base <:+ (run i m).stack) : Winds k base (run n m) := by
  have keep {m : Machine} (hm : Reachable m) (h : Winds k base m ∧ ∃ l, m.loop? k = some l)
      (inside : .finishing k :: base <:+ m.step.stack) : Winds k base m.step ∧ ∃ l, m.step.loop? k = some l := by
    obtain ⟨winds, l, hl⟩ := h
    refine ⟨?_, stays_of_kept hm.placed (keepsLoop_of_suffix rfl winds.inside) hl⟩
    rcases winds.step hm hl with on | ⟨popped, -⟩
    · exact on
    · have longer := inside.length_le
      rw [popped] at longer
      simp at longer
  exact (run_keeps hm ⟨h, l, hl⟩ keep inside).1

/-- A run until done that returns leaves nothing in the queues, and no worker. -/
theorem Returns.finish (h : m.Returns (.finishing k) base n) (begun : Winds k base m) (hm : Reachable m)
    (hl : m.loop? k = some l) :
    ∃ x, (Machine.run (n + 1) m).loop? k = some x ∧ x.isIdle = true ∧ x.workers = [] := by
  obtain ⟨y, hy⟩ := stays_run hm rfl (fun i hi => h.inside i (Nat.le_of_lt hi)) hl
  have ok := h.ok
  rw [run_succ'] at ok ⊢
  rcases (begun.run hm hl h.inside).step (hm.run n) hy with on | ⟨-, ⟨f, broken⟩ | done⟩
  · exact absurd on.inside h.not_inside
  · cases broken.symm.trans ok
  · exact done

-- ---------------------------------------------------------------------------
-- What has been applied
-- ---------------------------------------------------------------------------

/-- What has been applied, and what is in flight, when nothing waits after some steps of a machine that has
delivered the reports of a loop. -/
theorem caughtUp_of_idle {d : Loop} (hm : Reachable m) (hd : m.loop? k = some d) (spares : l.SparesWork d)
    (channel : d.channel = []) (hx : (run n m).loop? k = some x) (idle : x.isIdle = true) :
    l.CaughtUp x ∧
    (x.inFlight.map Promise.id).Perm ((run n m).completersOf k ++ (x.waiting ++ x.channel).map Report.promise) ∧
    ∀ i ≤ n, ∀ y, (run i m).loop? k = some y → y.channel = [] → y.CaughtUp x := by
  refine ⟨spares.caughtUp (caughtUp hm hd channel (runs_run n m) hx idle), ?_, fun i hi y hy empty => ?_⟩
  · have balance := ((hm.run n).staffed.2 k x hx).balance
    simp only [Loop.underway, (Loop.isIdle_iff.mp idle).2] at balance
    exact balance
  · obtain ⟨j, rfl⟩ := Nat.exists_eq_add_of_le hi
    rw [run_add] at hx
    exact caughtUp (hm.run i) hy empty (runs_run j _) hx idle

/-- Every run until idle, and every run until done, that returns without a fault:

* leaves nothing in the queues of its loop, and a run until done leaves no worker;
* has applied all reports that had been posted before it began, and all that had been posted when the channel
  was last empty, as it is at the beginning of each cycle and checkpoint;
* leaves those promises in flight whose completers are out or wait with workers, or whose reports have been
  posted since and stand in the channel. -/
theorem returning_applies_posted (hp : p.Placed) (hl : p.loop? k = some l) :
    (∀ n, Reachable (p.idle k) → (p.idle k).Returns (.idling k) p.stack n →
      ∃ x, (run (n + 1) (p.idle k)).loop? k = some x ∧ l.CaughtUp x ∧
        (x.inFlight.map Promise.id).Perm
          ((run (n + 1) (p.idle k)).completersOf k ++ (x.waiting ++ x.channel).map Report.promise) ∧
        ∀ i ≤ n + 1, ∀ y, (run i (p.idle k)).loop? k = some y → y.channel = [] → y.CaughtUp x) ∧
    (∀ n, Reachable (p.finish k) → (p.finish k).Returns (.finishing k) p.stack n →
      ∃ x, (run (n + 1) (p.finish k)).loop? k = some x ∧ x.workers = [] ∧ l.CaughtUp x ∧
        (x.inFlight.map Promise.id).Perm
          ((run (n + 1) (p.finish k)).completersOf k ++ (x.waiting ++ x.channel).map Report.promise) ∧
        ∀ i ≤ n + 1, ∀ y, (run i (p.finish k)).loop? k = some y → y.channel = [] → y.CaughtUp x) ∧
    ∀ q : Machine, q.loop? k = some l →
      (∃ d, (q.cycle k).loop? k = some d ∧ d.channel = [] ∧ posted d.history = posted l.history) ∧
      (∃ d, (q.checkpoint k).loop? k = some d ∧ d.channel = [] ∧ posted d.history = posted l.history) := by
  have id : l.id = k := hp k l hl
  refine ⟨fun n hm returns => ?_, fun n hm returns => ?_, fun q hq => ⟨?_, ?_⟩⟩
  · obtain ⟨d, hd, spares, channel⟩ := delivers_cycle (m := p.push (.idling k)) hl id
    obtain ⟨x, hx, idle⟩ := returns.idle hm hd
    exact ⟨x, hx, caughtUp_of_idle hm hd spares channel hx idle⟩
  · obtain ⟨d, hd, spares, channel⟩ := delivers_cycle (m := (p.push (.finishing k)).push (.idling k)) hl id
    obtain ⟨x, hx, idle, workers⟩ := returns.finish (.idling (suffix_finish p k)) hm hd
    exact ⟨x, hx, workers, caughtUp_of_idle hm hd spares channel hx idle⟩
  · obtain ⟨d, hd, spares, channel⟩ := delivers_cycle hq id
    exact ⟨d, hd, channel, spares.posted⟩
  · obtain ⟨d, hd, spares, channel⟩ := delivers_checkpoint hq id
    exact ⟨d, hd, channel, spares.posted⟩

/-- A machine that waits to run its loop until idle.  A microtask is going to use a completer. -/
def useQueued : Machine :=
  let act (s : Step) (store : Option String) : Command := .step s store false
  (boot {} .console .native).obey
    [act (.completer "main" "c") (some "p"),
      act (.microtask "main" "then" [act (.complete "c" (.success (.constant (.small 7)))) none] true) none]

/-- The frame of the command to run the loop until idle. -/
def idleFrame : Frame :=
  .command { word := "idle", store := none, catches := false, isControl := false, loop := some ⟨0⟩ } []

/-- The machine with that command on its stack. -/
def idleAsked : Machine := { useQueued with trace := [] }.push idleFrame

theorem placed_idleAsked : idleAsked.Placed := fun k l hl =>
  (Reachable.obey (.boot _ _ _) _ : Reachable useQueued).placed k l hl

theorem reachable_idleAsked : Reachable (idleAsked.idle ⟨0⟩) := by
  have reachable : Reachable useQueued := .obey (.boot _ _ _) _
  have asked : idleAsked.idle ⟨0⟩ = useQueued.start (.step (.idle "main") none false) := by
    have found : ({ useQueued with trace := [] } : Machine).named? "main" = some ⟨0⟩ := by cbv
    unfold Machine.start Machine.beginStep
    simp only [withLoop, found]
    rfl
  exact asked ▸ reachable.start (by cbv) _

theorem returns_idleAsked : (idleAsked.idle ⟨0⟩).Returns (.idling ⟨0⟩) idleAsked.stack 8 := by
  have stack : idleAsked.stack = [idleFrame] := by cbv
  rw [stack]
  exact ⟨suffix_of_stacks (by cbv), by cbv, by cbv⟩

theorem returning_applies_posted_idleAsked : ∃ l x, idleAsked.loop? ⟨0⟩ = some l ∧
    (run 9 (idleAsked.idle ⟨0⟩)).loop? ⟨0⟩ = some x ∧ l.CaughtUp x ∧ x.channel.length = 1 ∧
    x.inFlight.length = 1 := by
  obtain ⟨l, hl⟩ := Option.isSome_iff_exists.mp (by cbv : (idleAsked.loop? ⟨0⟩).isSome = true)
  obtain ⟨idle, -⟩ := returning_applies_posted placed_idleAsked hl
  obtain ⟨x, hx, caught, -⟩ := idle 8 reachable_idleAsked returns_idleAsked
  have left : ((run 9 (idleAsked.idle ⟨0⟩)).loop? ⟨0⟩).map
      (fun x => (x.channel.length, x.inFlight.length)) = some (1, 1) := by cbv
  rw [hx] at left
  obtain ⟨channel, flying⟩ := Prod.mk.inj (Option.some.inj left)
  exact ⟨l, x, hl, hx, caught, channel, flying⟩

/-- A run until idle, outside of drains, may return while a report that was posted in it has not been
applied. -/
theorem idle_leaves_report : ¬ ∀ (p : Machine) (k : LoopId) (l x : Loop) (n : Nat), p.Placed →
    p.loop? k = some l → Reachable (p.idle k) → .draining k ∉ p.stack →
    (p.idle k).Returns (.idling k) p.stack n → (run (n + 1) (p.idle k)).loop? k = some x →
    posted x.history = reports (started x.history) := by
  intro claim
  obtain ⟨l, hl⟩ := Option.isSome_iff_exists.mp (by cbv : (idleAsked.loop? ⟨0⟩).isSome = true)
  have counts : ((run 9 (idleAsked.idle ⟨0⟩)).loop? ⟨0⟩).map
      (fun x => ((posted x.history).length, (reports (started x.history)).length)) = some (1, 0) := by cbv
  obtain ⟨x, hx, differ⟩ := Option.map_eq_some_iff.mp counts
  have outside : idleAsked.stack.countP (Frame.drains ⟨0⟩) = 0 := by cbv
  rw [claim _ _ l x 8 placed_idleAsked hl reachable_idleAsked
    (fun mem => absurd (Frame.countP_drains_pos.mpr mem) (by omega)) returns_idleAsked hx] at differ
  obtain ⟨one, zero⟩ := Prod.mk.inj differ
  exact absurd (one.symm.trans zero) (by decide)

end Machine
end PromiseLoop

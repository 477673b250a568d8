import PromiseLoop.Proofs.Activities
import PromiseLoop.Proofs.Queues

/-!
# Drains

A microtask is started when the frame of a drain is resumed, and in no other step.  While a microtask
runs that frame lies beneath whatever happens, and so no other one is started, whatever is asked for in
the meantime.  A drain that returns without a fault has left nothing in the queue.  Between two tasks of
a run until idle there is such a drain, the one of the checkpoint that follows the first task.

## Results

* `Next.started`: what one step starts.
* `exhausted_of_drain`: what is left when a drain returns.
* `microtasks_run_in_order`: the order of microtasks in every run.
-/

namespace PromiseLoop

open Relation

-- ---------------------------------------------------------------------------
-- What is started in a move
-- ---------------------------------------------------------------------------

theorem Loop.Appends.started {l l' : Loop} (h : l.Appends l') :
    started l'.history = started l.history := by
  obtain ⟨newer, history, -, plain, -⟩ := h
  rw [history, started_append, started_of_not_isOfDrain plain, List.append_nil]

namespace View

variable {v v' : View}

theorem Light.started (h : v.Light v') : started v'.loop.history = started v.loop.history := by
  cases h with
  | outside h => exact h.appends.started
  | called h => exact h.appends.started
  | drainBegun _ => rfl

theorem Quiet.started (h : v.Quiet v') : started v'.loop.history = started v.loop.history := by
  induction h with
  | refl => rfl
  | tail _ h ih => exact h.started.trans ih

theorem Goes.started (h : v.Goes v') : started v'.loop.history = started v.loop.history := by
  obtain ⟨a, b, ha, hab, hb⟩ := h
  refine hb.quiet.started.trans (.trans ?_ ha.started)
  rcases hab with rfl | hab
  · rfl
  · exact hab.appends.started

theorem Resumes.started (h : v.Resumes v') : started v'.loop.history = started v.loop.history := by
  obtain ⟨a, b, ha, hab, hb⟩ := h
  exact hb.quiet.started.trans (hab.appends.started.trans ha.quiet.started)

theorem Sweeps.started (h : v.Sweeps v') : started v'.loop.history = started v.loop.history := by
  obtain ⟨a, ha, hb⟩ := h
  exact hb.quiet.started.trans ha.appends.started

/-- A drain that goes on starts one microtask, or none. -/
theorem Drains.started (h : v.Drains v') : started v'.loop.history = started v.loop.history ∨
    ∃ j, started v'.loop.history = started v.loop.history ++ [j] := by
  obtain ⟨a, b, ha, hab, hb⟩ := h
  rw [hb.started, ← ha.quiet.started]
  cases hab with
  | light h => exact .inl h.started
  | taken h =>
    obtain ⟨⟨j, q⟩, -, heq⟩ := Option.map_eq_some_iff.mp h
    obtain ⟨rfl, rfl⟩ := Prod.mk.inj heq
    exact .inr ⟨j, started_cons ..⟩
  | drainEnded _ => exact .inl ((started_cons ..).trans (List.append_nil _))
  | drainBroken => exact .inl rfl

end View

/-- Whether a frame is that of a drain of a loop. -/
def Frame.drains (loop : LoopId) : Frame → Bool
  | .draining l => l = loop
  | _ => false

theorem Frame.countP_drains_pos {loop : LoopId} {fs : List Frame} :
    0 < fs.countP (drains loop) ↔ .draining loop ∈ fs := by
  rw [List.countP_pos_iff]
  constructor
  · rintro ⟨f, hf, h⟩
    cases f <;> simp_all [drains]
  · exact fun h => ⟨_, h, by simp [drains]⟩

namespace Machine

variable {m m' : Machine} {k : LoopId} {l l' : Loop} {base : List Frame}

-- ---------------------------------------------------------------------------
-- Microtasks that run
-- ---------------------------------------------------------------------------

/-- Whether a microtask of a loop is running: the drain that started it waits for its end. -/
def InMicrotask (m : Machine) (k : LoopId) : Prop := .draining k ∈ m.beneath

/-- A step starts a microtask when it resumes the frame of a drain, and then one at most. -/
theorem Next.started (hm : Reachable m) (hn : Next m m') (hl : m.loop? k = some l)
    (hl' : m'.loop? k = some l') : started l'.history = started l.history ∨
      (∃ rest s, m.stack = .draining k :: rest ∧ m.control = .signal s) ∧
        ∃ j, started l'.history = started l.history ++ [j] := by
  have follows : Follows k m m' := hn.follows hm.placed
  rcases follows.stays hm.placed _ (sees_of_loop? hl) with absent | ⟨v', hv', shift⟩
  · rw [absent.gone] at hl'
    cases hl'
  · obtain rfl : v'.loop = l' := Option.some.inj ((sees_eq_some.mp hv').1.symm.trans hl')
    cases shift with
    | aside h => exact .inl h.quiet.started
    | goes h _ => exact .inl h.started
    | resumes h _ => exact .inl h.started
    | sweeps h _ => exact .inl h.started
    | drains top h _ => exact h.started.imp_right fun h => ⟨top, h⟩

/-- A loop is being drained by at most one begun activity. -/
theorem Reachable.countP_drains (hm : Reachable m) (hl : m.loop? k = some l) :
    m.stack.countP (Frame.drains k) = if l.draining then 1 else 0 := by
  rw [← (hm.queueKept hl).draining, turnsOf, List.countP_filter]
  congr 1
  funext f
  cases f <;> simp [Frame.drains, Frame.isDraining, Frame.isTurnOf]

theorem Reachable.draining_iff (hm : Reachable m) (hl : m.loop? k = some l) :
    l.draining = true ↔ .draining k ∈ m.stack := by
  have count := hm.countP_drains hl
  rw [← Frame.countP_drains_pos, count]
  cases l.draining <;> simp

/-- Beneath the frame of a drain there is no other drain of the loop. -/
theorem Reachable.not_mem_of_draining (hm : Reachable m) (hl : m.loop? k = some l)
    (h : .draining k :: base <:+ m.stack) : .draining k ∉ base := fun mem => by
  obtain ⟨above, heq⟩ := h
  have count := hm.countP_drains hl
  have pos := Frame.countP_drains_pos.mpr mem
  rw [← heq, List.countP_append, List.countP_cons_of_pos (by simp [Frame.drains])] at count
  split at count <;> omega

/-- A loop that is being drained is alive. -/
theorem Reachable.alive_of_draining (hm : Reachable m) (h : .draining k ∈ m.stack) :
    ∃ l, m.loop? k = some l := by
  rcases hm.view k with absent | ⟨_, _, _, v, hv, -⟩
  · have mem : .draining k ∈ m.turnsOf k := List.mem_filter.mpr ⟨h, by simp [Frame.isTurnOf]⟩
    rw [absent.turns] at mem
    cases mem
  · exact ⟨_, (sees_eq_some.mp hv).1⟩

theorem mem_stack_of_mem_beneath {f : Frame} (h : f ∈ m.beneath) : f ∈ m.stack := by
  unfold beneath at h
  split at h
  · exact List.mem_of_mem_tail h
  · exact h

/-- While a microtask runs, nothing that happens starts another one. -/
theorem InMicrotask.started (h : m.InMicrotask k) (hm : Reachable m) (hn : Next m m')
    (hl : m.loop? k = some l) (hl' : m'.loop? k = some l') :
    PromiseLoop.started l'.history = PromiseLoop.started l.history := by
  rcases hn.started hm hl hl' with same | ⟨⟨rest, s, hs, hc⟩, -⟩
  · exact same
  · have below : .draining k ∈ rest := by simpa [InMicrotask, beneath, hc, hs] using h
    exact absurd below (hm.not_mem_of_draining hl (hs ▸ List.suffix_rfl))

/-- A drain that is asked for while the loop is being drained does nothing. -/
theorem drain_of_draining (hl : m.loop? k = some l) (h : l.draining = true) :
    m.drain k = m.signal .done := by
  simp [drain, hl, h]

-- ---------------------------------------------------------------------------
-- Drains that return
-- ---------------------------------------------------------------------------

/-- Whether every microtask of a loop has run: none waits, and none is running. -/
structure Exhausted (m : Machine) (k : LoopId) (l : Loop) : Prop where
  found : m.loop? k = some l
  empty : l.microtasks.entries = []
  started : started l.history = enqueued l.history
  ended : .draining k ∉ m.stack

/-- When a drain returns without a fault, every microtask has run. -/
theorem exhausted_of_step {s : Signal} (hm : Reachable m) (hc : m.control = .signal s)
    (hs : m.stack = .draining k :: base) (popped : m.step.stack = base)
    (done : m.step.control = .signal .done) : ∃ l, m.step.Exhausted k l := by
  obtain ⟨l, hl⟩ := hm.alive_of_draining (hs ▸ List.mem_cons_self ..)
  obtain ⟨l', hl', history, ended⟩ := drained_of_step hl hc hs popped done
  have kept := hm.step.queueKept hl'
  have all : enqueued l'.history = started l'.history := by
    have drained := kept.drained
    rw [show (View.mk l' _ _).loop.history = .drained :: l.history from history] at drained
    rw [history, enqueued_cons, started_cons, (everyEvent_cons.mp drained).1 rfl]
    rfl
  have fifo := kept.fifo
  rw [all] at fifo
  refine ⟨l', hl', by simpa using fifo, all.symm, fun mem => ?_⟩
  rw [(hm.step.draining_iff hl').mpr mem] at ended
  cases ended

/-- A drain returns without a fault only when every microtask has run. -/
theorem exhausted_of_drain (hm : Reachable m) {n : Nat}
    (begun : .draining k :: base <:+ m.stack)
    (lasts : ∀ i < n, .draining k :: base <:+ (run i m).stack) (returned : (run n m).stack = base)
    (done : (run n m).control = .signal .done) : ∃ l, (run n m).Exhausted k l := by
  have shorter : ∀ i, (run i m).stack = base → ¬ .draining k :: base <:+ (run i m).stack := by
    intro i h suffix
    have := suffix.length_le
    rw [h, List.length_cons] at this
    omega
  cases n with
  | zero => exact absurd begun (shorter 0 returned)
  | succ n =>
    have reachable := hm.run n
    rcases beneath_or_top (lasts n (Nat.lt_succ_self n)) with below | ⟨hs, s, hc⟩
    · exact absurd (run_succ' n m ▸ below.trans reachable.above) (shorter (n + 1) returned)
    · rw [run_succ'] at returned done ⊢
      exact exhausted_of_step reachable hc hs returned done

-- ---------------------------------------------------------------------------
-- From one task to the next
-- ---------------------------------------------------------------------------

theorem loop?_deliver (hl : m.loop? k = some l) :
    (m.modifyLoop k Loop.deliver).loop? k = some l.deliver :=
  (loop?_modifyLoop_self ..).trans (by rw [hl]; rfl)

theorem stack_drain (hl : m.loop? k = some l) (h : l.draining = false) :
    (m.drain k).stack = .draining k :: m.stack := by
  simp [drain, hl, h]

theorem stack_checkpoint (hl : m.loop? k = some l) (h : l.draining = false) :
    (m.checkpoint k).stack = .draining k :: .checkpoint k :: m.stack := by
  have delivered : ((m.modifyLoop k Loop.deliver).push (.checkpoint k)).loop? k = some l.deliver :=
    loop?_deliver hl
  exact stack_drain delivered (l.draining_deliver.trans h)

/-- When its drain has ended without a fault, a checkpoint selects its reports. -/
theorem resumeCheckpoint_done (hl : m.loop? k = some l) : m.resumeCheckpoint k .done =
    (m.setLoop l.takeReports.2).push (.reporting k l.takeReports.1) := by
  unfold resumeCheckpoint
  dsimp only
  rw [show drop (Signal.held .done) m = m from drop_nil _, hl]
  rfl

/-- A drain goes on above its frame, or returns. -/
theorem nextMicrotask_cases (m : Machine) (k : LoopId) :
    .draining k :: m.stack <:+ (m.nextMicrotask k).stack ∨
      (m.nextMicrotask k).stack = m.stack ∧ (m.nextMicrotask k).control = .signal .done := by
  unfold nextMicrotask
  split
  · exact .inr ⟨rfl, rfl⟩
  · exact .inl (above_startJob ((m.setLoop _).push (.draining k)) k _)

/-- A drain goes on, is broken off by a fault, or returns when every microtask has run. -/
theorem draining_step (hm : Reachable m) (h : .draining k :: base <:+ m.stack) :
    .draining k :: base <:+ m.step.stack ∨
      m.step.stack = base ∧ ((∃ f, m.step.control = .signal (.fault f)) ∨
        m.step.control = .signal .done ∧ ∃ l, m.step.Exhausted k l) := by
  rcases beneath_or_top h with below | ⟨hs, s, hc⟩
  · exact .inl (below.trans hm.above)
  · rcases step_removes_or m hm.placed (keepsLoop_of_stack hs rfl) with ⟨stack, -, -⟩ | settled
    · exact .inl (stack ▸ h)
    · have stepped := step_of_signal settled hc hs
      dsimp only [resume] at stepped
      unfold resumeDraining at stepped
      split at stepped
      · exact .inr ⟨congrArg stack stepped, .inl ⟨_, congrArg control stepped⟩⟩
      · rcases nextMicrotask_cases (drop s.held { m with stack := base, control := .signal .done }) k with
          on | ⟨popped, done⟩
        · rw [stack_drop, ← stepped] at on
          exact .inl on
        · rw [← stepped] at popped done
          rw [stack_drop] at popped
          exact .inr ⟨popped, .inr ⟨done, exhausted_of_step hm hc hs popped done⟩⟩

/-- How far a run until idle has come when a task of it has ended, unless every microtask has run in the
meantime: its checkpoint is about to begin, is in its drain, or has met with a fault. -/
inductive Awaits (k : LoopId) (base : List Frame) (m : Machine) : Prop
  | ended {s : Signal} (hs : m.stack = .cycling k :: .idling k :: base) (hc : m.control = .signal s)
    (ok : ∀ f, s ≠ .fault f) (alive : ∃ l, m.loop? k = some l)
  | draining (h : .draining k :: .checkpoint k :: .idling k :: base <:+ m.stack)
  | failing {f : Fault} (hs : m.stack = .checkpoint k :: .idling k :: base)
    (hc : m.control = .signal (.fault f))
  | failed {f : Fault} (hs : m.stack = .idling k :: base) (hc : m.control = .signal (.fault f))

theorem Awaits.step (h : Awaits k base m) (hm : Reachable m) (outside : .draining k ∉ base)
    (inside : .idling k :: base <:+ m.step.stack) :
    Awaits k base m.step ∨ ∃ l, m.step.Exhausted k l := by
  cases h with
  | @ended s hs hc ok alive =>
    obtain ⟨l, hl⟩ := alive
    rcases step_removes_or m hm.placed (keepsLoop_of_stack hs rfl) with
      ⟨stack, control, aside⟩ | settled
    · obtain ⟨l', hl', -⟩ := aside.stays l hl
      exact .inl (.ended (stack.trans hs) (control.trans hc) ok ⟨l', hl'⟩)
    · have idle : l.draining = false := Bool.eq_false_iff.mpr fun hd => by
        have mem := (hm.draining_iff hl).mp hd
        simp [hs, outside] at mem
      obtain ⟨released, dropped⟩ := loop?_drop_of (m := { m with
        stack := .idling k :: base, control := .signal .done }) s.held hl
      have begun := stack_checkpoint dropped idle
      refine .inl (.draining ?_)
      rw [step_of_signal settled hc hs]
      dsimp only [resume]
      unfold resumeCycling
      split
      · exact absurd rfl (ok _)
      · rw [stack_drop] at begun
        exact begun ▸ List.suffix_rfl
  | draining h =>
    rcases draining_step hm h with on | ⟨popped, ⟨f, broken⟩ | ⟨-, done⟩⟩
    · exact .inl (.draining on)
    · exact .inl (.failing popped broken)
    · exact .inr done
  | failing hs hc =>
    rcases step_removes_or m hm.placed (keepsLoop_of_stack hs rfl) with ⟨stack, control, -⟩ | settled
    · exact .inl (.failing (stack.trans hs) (control.trans hc))
    · have stepped := step_of_signal settled hc hs
      exact .inl (.failed (congrArg stack stepped) (congrArg control stepped))
  | failed hs hc =>
    rcases step_removes_or m hm.placed (keepsLoop_of_stack hs rfl) with ⟨stack, control, -⟩ | settled
    · exact .inl (.failed (stack.trans hs) (control.trans hc))
    · have := inside.length_le
      rw [step_of_signal settled hc hs] at this
      exact absurd this (by simp [resume, resumeIdling, signal])

theorem Awaits.run (h : Awaits k base m) (hm : Reachable m) (outside : .draining k ∉ base) {n : Nat}
    (inside : ∀ i ≤ n, .idling k :: base <:+ (run i m).stack) :
    Awaits k base (run n m) ∨ ∃ j ≤ n, ∃ l, (run j m).Exhausted k l := by
  induction n with
  | zero => exact .inl h
  | succ n ih =>
    rcases ih fun i hi => inside i (Nat.le_succ_of_le hi) with h | ⟨j, hj, done⟩
    · have inside := inside (n + 1) (Nat.le_refl _)
      rw [run_succ'] at inside
      rcases h.step (hm.run n) outside inside with h | done
      · exact .inl (run_succ' n m ▸ h)
      · exact .inr ⟨n + 1, Nat.le_refl _, run_succ' n m ▸ done⟩
    · exact .inr ⟨j, Nat.le_succ_of_le hj, done⟩

/-- When a run until idle goes on with a further task, it has not met with a fault. -/
theorem Awaits.not_further (h : Awaits k base m) (hm : Reachable m) (hs : m.stack = .idling k :: base) :
    ¬ .cycling k :: .idling k :: base <:+ m.step.stack := fun further => by
  have longer := further.length_le
  cases h with
  | ended hs' _ _ _ => simp [hs] at hs'
  | draining h =>
    have := h.length_le
    simp only [hs, List.length_cons] at this
    omega
  | failing hs' _ => simp [hs] at hs'
  | failed _ hc =>
    rcases step_removes_or m hm.placed (keepsLoop_of_stack hs rfl) with ⟨stack, -, -⟩ | settled
    · simp [stack, hs] at longer
    · rw [step_of_signal settled hc hs] at longer
      simp only [resume, resumeIdling, signal, List.length_cons] at longer
      omega

/-- The microtasks of a loop in every run:

* they start in the order in which they are enqueued, each of them once;
* a step starts one of them at most, and none while another one is running; a drain that is asked for in
  the meantime does nothing, while one that is asked for outside of drains begins;
* a drain that returns without a fault leaves none in the queue and none that has not run;
* when a task of a run until idle has ended without a fault, the next task of it does not begin before
  every microtask has run that had been enqueued by then. -/
theorem microtasks_run_in_order (hm : Reachable m) (hl : m.loop? k = some l) :
    enqueued l.history = PromiseLoop.started l.history ++ l.microtasks.entries ∧
    (∀ m' l', Next m m' → m'.loop? k = some l' →
      ∃ js, PromiseLoop.started l'.history = PromiseLoop.started l.history ++ js ∧ js.length ≤ 1 ∧
        (m.InMicrotask k → js = [])) ∧
    (∀ n : Machine, n.loop? k = some l →
      (m.InMicrotask k → n.drain k = n.signal .done) ∧
      (.draining k ∉ m.stack → (n.drain k).stack = .draining k :: n.stack)) ∧
    (∀ base n, .draining k :: base <:+ m.stack →
      (∀ i < n, .draining k :: base <:+ (run i m).stack) → (run n m).stack = base →
      (run n m).control = .signal .done → ∃ x, (run n m).Exhausted k x) ∧
    (∀ base s n, m.stack = .cycling k :: .idling k :: base → m.control = .signal s →
      (∀ f, s ≠ .fault f) → .draining k ∉ base →
      (∀ i ≤ n, .idling k :: base <:+ (run i m).stack) → (run n m).stack = .idling k :: base →
      .cycling k :: .idling k :: base <:+ (run (n + 1) m).stack →
      ∃ j ≤ n, ∃ x, (run j m).Exhausted k x) := by
  refine ⟨(hm.queueKept hl).fifo, fun m' l' hn hl' => ?_, fun n hn => ⟨fun running => ?_, fun outside => ?_⟩,
    fun base n begun lasts returned done => exhausted_of_drain hm begun lasts returned done,
    fun base s n hs hc ok outside inside back further => ?_⟩
  · rcases hn.started hm hl hl' with same | ⟨-, j, one⟩
    · exact ⟨[], by rw [same, List.append_nil], Nat.zero_le _, fun _ => rfl⟩
    · refine ⟨[j], one, Nat.le_refl _, fun running => ?_⟩
      rw [running.started hm hn hl hl'] at one
      exact absurd one (by simp)
  · exact drain_of_draining hn ((hm.draining_iff hl).mpr (mem_stack_of_mem_beneath running))
  · exact stack_drain hn (Bool.eq_false_iff.mpr fun hd => outside ((hm.draining_iff hl).mp hd))
  · have awaits : Awaits k base m := .ended hs hc ok ⟨l, hl⟩
    rcases awaits.run hm outside inside with awaits | done
    · exact absurd (run_succ' n m ▸ further) (awaits.not_further (hm.run n) back)
    · exact done

/-- A machine that runs a loop until idle, when the first of two tasks has ended.  The task has enqueued a
microtask. -/
def betweenTasks : Machine :=
  let act (s : Step) : Command := .step s none false
  run 3 (((boot {} .console .native).obey
    [act (.task "main" "first" [act (.microtask "main" "then" [] true)] true),
      act (.task "main" "second" [] true)]).start (act (.idle "main")))

theorem reachable_betweenTasks : Reachable betweenTasks :=
  .run (.start (.obey (.boot _ _ _) _) (by cbv) _) 3

theorem microtasks_run_in_order_betweenTasks :
    (betweenTasks.loop? ⟨0⟩).map (fun l => l.microtasks.entries.length) = some 1 ∧
      ∃ j ≤ 8, ∃ x, (run j betweenTasks).Exhausted ⟨0⟩ x := by
  obtain ⟨l, hl⟩ := Option.isSome_iff_exists.mp (by cbv : (betweenTasks.loop? ⟨0⟩).isSome = true)
  refine ⟨by cbv, ?_⟩
  obtain ⟨-, -, -, -, next⟩ := microtasks_run_in_order reachable_betweenTasks hl
  -- the frames beneath those of the run until idle
  obtain ⟨base, hbase⟩ : ∃ base, base = betweenTasks.stack.drop 2 := ⟨_, rfl⟩
  have outside : base.countP (Frame.drains ⟨0⟩) = 0 := by rw [hbase]; cbv
  have top : betweenTasks.stack = .cycling ⟨0⟩ :: .idling ⟨0⟩ :: base := by rw [hbase]; cbv
  have back : (run 8 betweenTasks).stack = .idling ⟨0⟩ :: base := by rw [hbase]; cbv
  have further : (run 9 betweenTasks).stack.drop 2 = .cycling ⟨0⟩ :: .idling ⟨0⟩ :: base := by
    rw [hbase]; cbv
  have inside : ∀ i ≤ 8, .idling ⟨0⟩ :: base <:+ (run i betweenTasks).stack :=
    suffix_of_stacks (by rw [hbase]; cbv)
  refine next base .done 8 top (by cbv) (by simp) (fun mem => ?_) inside back ?_
  · have := Frame.countP_drains_pos.mpr mem
    omega
  · rw [← further]
    exact List.drop_suffix _ _

end Machine
end PromiseLoop

import PromiseLoop.Proofs.Drains

/-!
# What waits when a task starts

A cycle delivers the reports of background work and starts its task, and only the checkpoint after the task
drains the queue.  So microtasks may wait when a task starts: those that were enqueued since the last drain,
be it by the host, by the tracker or because reports were delivered, and those that an earlier fault has left
in the queue.

## Results

* `cycle_of_waits`: what a cycle that starts a task makes of its loop.
* `Reachable.waiting_since_drain`: whatever waits has been enqueued since the last drain.
* `tasks_start_after_drains`: what waits when a task starts, in every run.
* `task_starts_before_microtask`: a run in which a microtask waits when a task starts.
-/

namespace PromiseLoop

/-- The loop in which a cycle has started a task: the reports have been delivered, and the task is off its
queue. -/
def Loop.starting (l : Loop) (w : Work) (ws : List Work) : Loop :=
  { l.deliver with tasks := ⟨ws⟩ }.note (.taskStarted w)

/-- Before a task starts, every report becomes a microtask, and nothing else does. -/
theorem Loop.entries_starting (l : Loop) (w : Work) (ws : List Work) :
    (l.starting w ws).microtasks.entries = l.microtasks.entries ++ l.channel.map .settlement := by
  rw [starting, deliver_eq]
  rfl

namespace Machine

variable {m m' : Machine} {k : LoopId} {l x : Loop}

-- ---------------------------------------------------------------------------
-- Starting a task
-- ---------------------------------------------------------------------------

/-- A cycle starts the oldest task. -/
theorem cycle_of_waits (hl : m.loop? k = some l) (id : l.id = k) {w : Work} {ws : List Work}
    (waits : l.tasks.entries = w :: ws) : (m.cycle k).loop? k = some (l.starting w ws) ∧
      (m.cycle k).stack = .block w.body :: .work w.quiet :: .cycling k :: m.stack := by
  subst id
  have delivered := loop?_deliver hl
  have next : l.deliver.dequeueTask? = some (w, l.starting w ws) := by
    rw [Loop.dequeueTask?, (Queue.dequeue?_eq_some_iff _ ⟨ws⟩ w).mpr (by rw [Loop.tasks_deliver]; exact waits)]
    rfl
  have set : ((m.modifyLoop l.id Loop.deliver).setLoop (l.starting w ws)).loop? l.deliver.id =
      some (l.starting w ws) := loop?_setLoop_self (by rw [Loop.id_deliver]; exact delivered) rfl
  rw [Loop.id_deliver] at set
  unfold cycle
  simp only [delivered, Option.bind_some, next]
  refine ⟨?_, by simp [startWork]⟩
  rw [← set, loop?, loop?]
  simp [startWork]

-- ---------------------------------------------------------------------------
-- What waits
-- ---------------------------------------------------------------------------

/-- What waits in the queue has been enqueued since the last drain that came to its end. -/
theorem Reachable.waiting_since_drain (hm : Reachable m) (hl : m.loop? k = some l) {newer older : List Event}
    (history : l.history = newer ++ .drained :: older) :
    enqueued newer = started newer ++ l.microtasks.entries := by
  have kept := hm.queueKept hl
  have empty : enqueued older = started older := kept.drained newer .drained older history rfl
  have fifo := kept.fifo
  simp only [history, enqueued_append, started_append, enqueued_cons, started_cons, empty] at fifo
  simpa [Event.queued?, Event.started?] using fifo

/-- When every microtask has run, whatever waits later has been enqueued since. -/
theorem Exhausted.waiting_since (h : m.Exhausted k l) (hm : Reachable m) (hr : Run m m')
    (hx : m'.loop? k = some x) : ∃ since, x.history = since ++ l.history ∧
      enqueued since = PromiseLoop.started since ++ x.microtasks.entries := by
  obtain ⟨since, history⟩ := (Run.acts hm hr h.found hx).history
  have fifo := ((hm.runs hr).queueKept hx).fifo
  simp only [history, enqueued_append, started_append, h.started] at fifo
  exact ⟨since, history, by simpa using fifo⟩

/-- The tasks of a loop in every run:

* a cycle starts the oldest task that waits; the microtasks that wait then are those that waited before, and
  one for every report that stood in the channel;
* whatever waits, when a task starts or at any other time, has been enqueued since the last drain that came to
  its end;
* when a task of a run until idle has ended without a fault, every microtask has run at some time before the
  next task starts, and what waits when it starts has been enqueued since. -/
theorem tasks_start_after_drains (hm : Reachable m) (hl : m.loop? k = some l) :
    (∀ (n : Machine) w ws, n.loop? k = some l → l.tasks.entries = w :: ws →
      (n.cycle k).stack = .block w.body :: .work w.quiet :: .cycling k :: n.stack ∧
      ∃ x, (n.cycle k).loop? k = some x ∧ x.tasks.entries = ws ∧
        x.history = .taskStarted w :: l.deliver.history ∧
        x.microtasks.entries = l.microtasks.entries ++ l.channel.map .settlement) ∧
    (∀ newer older, l.history = newer ++ .drained :: older →
      enqueued newer = started newer ++ l.microtasks.entries) ∧
    (∀ base s n, m.stack = .cycling k :: .idling k :: base → m.control = .signal s →
      (∀ f, s ≠ .fault f) → .draining k ∉ base →
      (∀ i ≤ n, .idling k :: base <:+ (run i m).stack) → (run n m).stack = .idling k :: base →
      .cycling k :: .idling k :: base <:+ (run (n + 1) m).stack →
      ∃ x, (run (n + 1) m).loop? k = some x ∧ ∃ j ≤ n, ∃ y, (run j m).Exhausted k y ∧
        ∃ since, x.history = since ++ y.history ∧ enqueued since = started since ++ x.microtasks.entries) := by
  refine ⟨fun n w ws hn waits => ?_, fun newer older => hm.waiting_since_drain hl,
    fun base s n hs hc ok outside inside back further => ?_⟩
  · obtain ⟨found, stack⟩ := cycle_of_waits hn (hm.placed k l hl) waits
    exact ⟨stack, _, found, rfl, rfl, l.entries_starting w ws⟩
  · obtain ⟨x, hx⟩ := stays_run (n := n + 1) hm rfl (fun i hi => inside i (Nat.le_of_lt_succ hi)) hl
    have awaits : Awaits k base m := .ended hs hc ok ⟨l, hl⟩
    rcases awaits.run hm outside inside with awaits | ⟨j, hj, y, exhausted⟩
    · exact absurd (run_succ' n m ▸ further) (awaits.not_further (hm.run n) back)
    · obtain ⟨d, hd⟩ := Nat.exists_eq_add_of_le (show j ≤ n + 1 from Nat.le_succ_of_le hj)
      have later : Run (run j m) (run (n + 1) m) := by
        rw [hd, run_add]
        exact runs_run d _
      exact ⟨x, hx, j, hj, y, exhausted, exhausted.waiting_since (hm.run j) later hx⟩

/-- A machine that runs a loop until idle, when the first of two tasks has ended.  A microtask that the task
has enqueued is going to use a completer. -/
def reportAwaited : Machine :=
  let act (s : Step) (store : Option String) : Command := .step s store false
  run 3 (((boot {} .console .native).obey
    [act (.completer "main" "c") (some "p"),
      act (.task "main" "first" [act (.microtask "main" "then"
        [act (.complete "c" (.success (.constant (.small 7)))) none] true) none] true) none,
      act (.task "main" "second" [] true) none]).start (act (.idle "main") none))

theorem reachable_reportAwaited : Reachable reportAwaited :=
  .run (.start (.obey (.boot _ _ _) _) (by cbv) _) 3

theorem tasks_start_after_drains_reportAwaited :
    ∃ x, (run 10 reportAwaited).loop? ⟨0⟩ = some x ∧ x.microtasks.entries.length = 1 ∧
      ∃ j ≤ 9, ∃ y, (run j reportAwaited).Exhausted ⟨0⟩ y ∧ ∃ since, x.history = since ++ y.history ∧
        enqueued since = started since ++ x.microtasks.entries := by
  obtain ⟨l, hl⟩ := Option.isSome_iff_exists.mp (by cbv : (reportAwaited.loop? ⟨0⟩).isSome = true)
  obtain ⟨-, -, next⟩ := tasks_start_after_drains reachable_reportAwaited hl
  -- the frames beneath those of the run until idle
  obtain ⟨base, hbase⟩ : ∃ base, base = reportAwaited.stack.drop 2 := ⟨_, rfl⟩
  have outside : base.countP (Frame.drains ⟨0⟩) = 0 := by rw [hbase]; cbv
  have top : reportAwaited.stack = .cycling ⟨0⟩ :: .idling ⟨0⟩ :: base := by rw [hbase]; cbv
  have back : (run 9 reportAwaited).stack = .idling ⟨0⟩ :: base := by rw [hbase]; cbv
  have further : (run 10 reportAwaited).stack.drop 2 = .cycling ⟨0⟩ :: .idling ⟨0⟩ :: base := by
    rw [hbase]; cbv
  have inside : ∀ i ≤ 9, .idling ⟨0⟩ :: base <:+ (run i reportAwaited).stack :=
    suffix_of_stacks (by rw [hbase]; cbv)
  have waits : ((run 10 reportAwaited).loop? ⟨0⟩).map (fun x => x.microtasks.entries.length) = some 1 := by cbv
  obtain ⟨x, hx, since⟩ := next base .done 9 top (by cbv) (by simp)
    (fun mem => absurd (Frame.countP_drains_pos.mpr mem) (by omega)) inside back (further ▸ List.drop_suffix _ _)
  rw [hx] at waits
  exact ⟨x, hx, Option.some.inj waits, since⟩

/-- A machine that has run a loop until idle, and in which a task has met with a fault after it had enqueued a
microtask. -/
def taskFailed : Machine :=
  let act (s : Step) : Command := .step s none false
  (boot {} .console .native).obey
    [act (.task "main" "first" [act (.microtask "main" "then" [] true), .fail "broken"] true),
      act (.task "main" "second" [] true), act (.idle "main")]

/-- The machine when it runs the loop until idle again. -/
def taskAfterFault : Machine := taskFailed.start (.step (.idle "main") none false)

theorem reachable_taskAfterFault : Reachable taskAfterFault := .start (.obey (.boot _ _ _) _) (by cbv) _

/-- A task may start while a microtask waits. -/
theorem task_starts_before_microtask : ¬ ∀ (m : Machine) (k : LoopId) (l : Loop) (w : Work) (older : List Event),
    Reachable m → m.loop? k = some l → l.history = .taskStarted w :: older → l.microtasks.entries = [] := by
  intro claim
  have starts : ((taskAfterFault.loop? ⟨0⟩).bind fun l => l.history.head?.bind fun e =>
      match e with
      | .taskStarted w => some w.label
      | _ => none) = some "second" := by cbv
  have waits : (taskAfterFault.loop? ⟨0⟩).map (fun l => l.microtasks.entries.length) = some 1 := by cbv
  obtain ⟨l, hl, started⟩ := Option.bind_eq_some_iff.mp starts
  obtain ⟨e, first, label⟩ := Option.bind_eq_some_iff.mp started
  obtain ⟨older, history⟩ := List.head?_eq_some_iff.mp first
  cases e with
  | taskStarted w =>
    rw [hl, Option.map_some, claim _ _ l w older reachable_taskAfterFault hl history] at waits
    cases waits
  | _ => cases label

end Machine
end PromiseLoop

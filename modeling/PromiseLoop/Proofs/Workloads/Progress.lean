import PromiseLoop.Proofs.Checkpoints
import PromiseLoop.Proofs.Trees.Checkpoints
import PromiseLoop.Proofs.Workloads.Steps

/-!
# Runs until done come to an end

Suppose that a run until done never came back to the frames that wait for it, although every body that it begins
returns and finitely many tasks and jobs are enqueued.  A fault would bring it back, so there is none.  A drain
ends or begins another job, and the checkpoint ends that the drain belongs to.  After the checkpoint either
another task or job begins, or the loop is idle, and then the run comes back unless workers are left.  So the run
would begin tasks and jobs without end.

## Results

* `Endless.not_falls`, `Endless.not_rests`: neither a fault nor an idle loop is met with.
* `Endless.grows`: some task or job is going to begin.
* `Endless.impossible`: there is no such run.
-/

namespace PromiseLoop

open Relation

/-- How many tasks and jobs have begun. -/
def begunBy (history : List Event) : Nat := (tasksStarted history).length + (started history).length

theorem begunBy_append (newer older : List Event) : begunBy (newer ++ older) = begunBy older + begunBy newer := by
  simp only [begunBy, tasksStarted_append, started_append, List.length_append]
  omega

theorem length_entries_le (history : List Event) : (entries history).length ≤ begunBy history := by
  induction history with
  | nil => exact Nat.le_refl _
  | cons e older ih =>
    simp only [begunBy, entries_cons, tasksStarted_cons, started_cons, List.length_append] at ih ⊢
    have one : e.entered?.toList.length ≤ e.taskStarted?.toList.length + e.started?.toList.length := by
      cases e with
      | started j => cases j <;> simp [Event.entered?, Event.taskStarted?, Event.started?]
      | _ => simp [Event.entered?, Event.taskStarted?, Event.started?]
    omega

theorem Signal.exists_fault (s : Signal) (h : s.isFault = true) : ∃ e, s = .fault e := by
  cases s with
  | fault e => exact ⟨e, rfl⟩
  | _ => cases h

theorem Loop.Bides.started {l l' : Loop} (h : l.Bides l') :
    PromiseLoop.started l'.history = PromiseLoop.started l.history := by
  obtain ⟨newer, history, -, quiet⟩ := h
  have none : PromiseLoop.started newer = [] := by
    refine List.reverse_eq_nil_iff.mpr (List.filterMap_eq_nil_iff.mpr fun e he => ?_)
    have := quiet e he
    cases e <;> first | rfl | cases this
  rw [history, started_append, none, List.append_nil]

namespace Machine

variable {m m' : Machine} {k : LoopId} {base fs next rest : List Frame} {f : Frame} {l l' : Loop} {s : Signal}
  {bound n : Nat}

/-- Whether a task of the loop, or a drain of it, waits for something. -/
def IsHosting (m : Machine) (k : LoopId) : Prop := ∃ f ∈ m.beneath, f.hosts k = true

/-- Whether a task of a run until done, or a drain of it, has been begun. -/
def HasBegun (k : LoopId) (base : List Frame) (m : Machine) : Prop :=
  .cycling k :: idlingOn k base <:+ m.stack ∨ drainingOn k base <:+ m.stack

theorem HasBegun.not_isBackAt (h : HasBegun k base m) : ¬ IsBackAt base m := fun ⟨hs, _⟩ => by
  rcases h with h | h <;>
    · have := h.length_le
      simp [hs] at this
      omega

theorem hasBegun_finish (hl : m.loop? k = some l) (id : l.id = k) (idle : l.draining = false) :
    HasBegun k m.stack (m.finish k) := by
  let pushed := (m.push (.finishing k)).push (.idling k)
  have found : pushed.loop? k = some l := hl
  cases tasks : l.tasks.entries with
  | cons w ws =>
    have stack : (m.finish k).stack = _ := (cycle_of_waits found id tasks).2
    exact .inl ⟨[.block w.body, .work w.quiet], stack.symm⟩
  | nil =>
    have begun : m.finish k = (pushed.modifyLoop k Loop.deliver).checkpoint k := cycle_of_empty found tasks
    refine .inr ?_
    rw [begun, stack_checkpoint (loop?_deliver found) (l.draining_deliver.trans idle)]
    exact List.suffix_rfl

/-- What has begun has been enqueued. -/
theorem Reachable.begunBy_le (hm : Reachable m) (hl : m.loop? k = some l) :
    begunBy l.history ≤ (tasksQueued l.history).length + (enqueued l.history).length := by
  have fifo : enqueued l.history = started l.history ++ l.microtasks.entries := (hm.queueKept hl).fifo
  have tasks : tasksQueued l.history = tasksStarted l.history ++ l.tasks.entries := hm.tasksKept hl
  rw [tasks, fifo, List.length_append, List.length_append, begunBy]
  omega

/-- A run until done that never comes back to the frames that wait for it: the tracker leaves the loop alone, and
returns; tasks and jobs return as well; no worker is left; and finitely many tasks and jobs begin. -/
structure Endless (k : LoopId) (base : List Frame) (bound : Nat) (m : Machine) : Prop where
  reachable : Reachable m
  outside : .draining k ∉ base
  busy : ∀ n, ¬ IsBackAt base (run n m)
  room : ∀ n, (run n m).Roomy
  yields : m.AlwaysYields k
  returns : ∀ n, ∃ i, ¬ (run (n + i) m).IsHosting k
  alive : ∀ n, ∃ l, (run n m).loop? k = some l ∧ l.workers = [] ∧ begunBy l.history ≤ bound

/-- Some task or job of the loop is going to begin. -/
def Grows (k : LoopId) (base : List Frame) (m : Machine) : Prop :=
  ∃ n l x, m.loop? k = some l ∧ (run n m).loop? k = some x ∧ begunBy l.history < begunBy x.history ∧
    HasBegun k base (run n m)

namespace Endless

variable (h : Endless k base bound m)

include h

theorem run (n : Nat) : Endless k base bound (run n m) where
  reachable := h.reachable.run n
  outside := h.outside
  busy i := run_add n i m ▸ h.busy (n + i)
  room i := run_add n i m ▸ h.room (n + i)
  yields := ⟨fun i telling => by
      rw [← run_add] at telling ⊢
      rw [← run_add, ← Nat.add_assoc]
      exact h.yields.calm (n + i) telling, fun i => by
      obtain ⟨j, quiet⟩ := h.yields.returns (n + i)
      exact ⟨j, by rwa [← run_add, ← Nat.add_assoc]⟩⟩
  returns i := by
    obtain ⟨j, quiet⟩ := h.returns (n + i)
    exact ⟨j, by rwa [← run_add, ← Nat.add_assoc]⟩
  alive i := run_add n i m ▸ h.alive (n + i)

theorem step : Endless k base bound m.step := run_one m ▸ h.run 1

/-- The number of tasks and jobs that have begun never goes down. -/
theorem begunBy_le (n : Nat) (hl : m.loop? k = some l) (hx : (Machine.run n m).loop? k = some l') :
    begunBy l.history ≤ begunBy l'.history := by
  obtain ⟨newer, history⟩ := (Run.acts h.reachable (runs_run n m) hl hx).history
  rw [history, begunBy_append]
  exact Nat.le_add_right ..

theorem grows_of_run (n : Nat) (later : Grows k base (Machine.run n m)) : Grows k base m := by
  obtain ⟨i, l', x, hl', hx, more, begun⟩ := later
  obtain ⟨l, hl, -⟩ := h.alive 0
  rw [← run_add] at hx begun
  exact ⟨n + i, l, x, hl, hx, Nat.lt_of_le_of_lt (h.begunBy_le n hl hl') more, begun⟩

theorem grows_of_step (later : Grows k base m.step) : Grows k base m :=
  h.grows_of_run 1 (run_one m ▸ later)

/-- What is going to happen next happens when there is no loop left to remove. -/
theorem exists_settled (kept : m.keepsLoop k = true) : ∃ n, Settles k m (Machine.run n m) := by
  obtain ⟨n, settles, -⟩ := exists_run_settled h.reachable.placed kept
  exact ⟨n, settles⟩

theorem draining_eq_false (hl : m.loop? k = some l) (other : .draining k ∉ m.stack) : l.draining = false :=
  Bool.eq_false_iff.mpr fun hd => other ((h.reachable.draining_iff hl).mp hd)

-- ---------------------------------------------------------------------------
-- Coming back
-- ---------------------------------------------------------------------------

/-- A fault would come to the frames that wait. -/
theorem not_falls {e : Fault} (falls : Falls k base fs next) (hs : m.stack = fs)
    (hc : m.control = .signal (.fault e)) : False := by
  induction fs generalizing m next with
  | nil =>
    obtain ⟨f, frames, -⟩ := falls.resume e
    cases frames
  | cons f fs ih =>
    obtain ⟨g, frames, -, own, resumed⟩ := falls.resume e
    obtain ⟨rfl, rfl⟩ := List.cons.inj frames
    obtain ⟨n, settles⟩ := h.exists_settled (keepsLoop_of_stack hs own)
    have stepped := step_of_signal settles.orphan (settles.control.trans hc) (settles.stack.trans hs)
    obtain ⟨stack, control, -⟩ := resumed { Machine.run n m with stack := fs, control := .signal .done }
    rw [← stepped, ← run_succ'] at stack control
    rcases falls.next_cases with rfl | ⟨next', falls'⟩
    · exact h.busy (n + 1) ⟨stack, _, control⟩
    · exact ih (h.run (n + 1)) falls' stack control

/-- A run until idle that ended would end the run until done. -/
theorem not_rests (hs : m.stack = .finishing k :: base) (hc : m.control = .signal .done) : False := by
  obtain ⟨n, settles⟩ := h.exists_settled (keepsLoop_of_stack hs rfl)
  obtain ⟨l, hl, workers, -⟩ := h.alive n
  have stepped := step_of_signal settles.orphan (settles.control.trans hc) (settles.stack.trans hs)
  have found : ({ Machine.run n m with stack := base, control := .signal .done } : Machine).loop? k = some l := hl
  simp only [resume, resumeFinishing, Signal.held, drop_nil, found, workers, List.isEmpty_nil, if_true] at stepped
  rw [← run_succ'] at stepped
  exact h.busy (n + 1) (stepped ▸ ⟨rfl, .done, rfl⟩)

-- ---------------------------------------------------------------------------
-- Going on
-- ---------------------------------------------------------------------------

/-- A job that a drain begins. -/
theorem grows_of_picks {j : Job} (picks : Picks k (.checkpoint k :: idlingOn k base) j m) : Grows k base m := by
  obtain ⟨x, taken, l, hl, stepped, stack, placed, hx, -, -, -, history⟩ := picks.step h.reachable
  have inside : drainingOn k base <:+ m.step.stack := by
    rw [stepped, show drainingOn k base = x.stack from stack.symm]
    exact above_startJob x k j
  have later : ∃ l' newer, m.step.loop? k = some l' ∧ l'.history = newer ++ taken.history := by
    cases j with
    | host w =>
      refine ⟨taken, [], ?_, rfl⟩
      rw [stepped, ← hx, loop?, loop?]
      simp [startJob, startWork]
    | _ =>
      have laid : Lays k x m.step := stepped ▸ lays_startJob x k fun w => by simp
      obtain ⟨l', hl', newer, history, -⟩ := laid.bides placed taken hx
      exact ⟨l', newer, hl', history⟩
  obtain ⟨l', newer, hl', history'⟩ := later
  refine ⟨1, l, l', hl, run_one m ▸ hl', ?_, .inr (run_one m ▸ inside)⟩
  have counted : begunBy taken.history = begunBy l.history + 1 := by
    rw [history, show Event.started j :: l.history = [.started j] ++ l.history from rfl, begunBy_append]
    simp [begunBy, tasksStarted, started, Event.taskStarted?, Event.started?]
  rw [history', begunBy_append, counted]
  omega

/-- A drain of a queue that is not empty begins a job. -/
theorem grows_of_waits {j : Job} {js : List Job} (hs : m.stack = drainingOn k base) (hc : m.control = .signal s)
    (ok : s.isFault = false) (hl : m.loop? k = some l) (waits : l.microtasks.entries = j :: js) :
    Grows k base m := by
  obtain ⟨n, settles⟩ := h.exists_settled (keepsLoop_of_stack hs rfl)
  obtain ⟨x, hx, outside⟩ := settles.aside.stays l hl
  have queue : x.microtasks.entries = j :: js := by rw [(Loop.jobs_of_outside outside).1, waits]
  exact h.grows_of_run n ((h.run n).grows_of_picks ⟨settles.orphan, settles.stack.trans hs,
    ⟨s, settles.control.trans hc, ok⟩, x, js, hx, queue⟩)

/-- After a checkpoint, something is left to begin. -/
theorem grows_of_checked (hs : m.stack = idlingOn k base) (hc : m.control = .signal .done) : Grows k base m := by
  obtain ⟨n, settles⟩ := h.exists_settled (keepsLoop_of_stack hs rfl)
  refine h.grows_of_run n ?_
  have hm := h.run n
  obtain ⟨l, hl, -⟩ := h.alive n
  have stack := settles.stack.trans hs
  let popped : Machine := { Machine.run n m with stack := .finishing k :: base, control := .signal .done }
  have found : popped.loop? k = some l := hl
  have stepped : (Machine.run n m).step = if l.isIdle then popped else popped.idle k :=
    step_of_checked settles.orphan stack (settles.control.trans hc) hl
  cases idle : l.isIdle with
  | true =>
    rw [idle, if_pos rfl] at stepped
    exact (hm.step.not_rests (by rw [stepped]) (by rw [stepped])).elim
  | false =>
    rw [idle, if_neg Bool.false_ne_true] at stepped
    have id : l.id = k := hm.reachable.placed k l hl
    have pushed : (popped.push (.idling k)).loop? k = some l := found
    cases tasks : l.tasks.entries with
    | cons w ws =>
      obtain ⟨begun, inside⟩ := cycle_of_waits pushed id tasks
      have stepped : Machine.run 1 (Machine.run n m) = (popped.push (.idling k)).cycle k :=
        (run_one _).trans stepped
      refine ⟨1, l, l.starting w ws, hl, stepped ▸ begun, ?_, .inl ?_⟩
      · obtain ⟨newer, history, -⟩ := l.bides_deliver
        have counted : begunBy (l.starting w ws).history = begunBy l.deliver.history + 1 := by
          show begunBy ([.taskStarted w] ++ l.deliver.history) = _
          rw [begunBy_append]
          simp [begunBy, tasksStarted, started, Event.taskStarted?, Event.started?]
        rw [counted, history, begunBy_append]
        omega
      · rw [stepped, inside]
        exact ⟨[.block w.body, .work w.quiet], rfl⟩
    | nil =>
      have begun := cycle_of_empty pushed tasks
      have delivered := loop?_deliver pushed
      obtain ⟨x, hx, bides⟩ := bides_checkpoint delivered (l.id_deliver.trans id)
      rw [← begun, ← show _ = (popped.push (.idling k)).cycle k from stepped] at hx
      have calm : l.draining = false := hm.draining_eq_false hl (by simp [stack, h.outside])
      -- the checkpoint drains what has waited
      have waits : ∃ j js, x.microtasks.entries = j :: js := by
        have before := (hm.reachable.queueKept hl).fifo
        have bides := l.bides_deliver.trans bides
        have after : enqueued x.history = started l.history ++ x.microtasks.entries :=
          bides.started ▸ (hm.step.reachable.queueKept hx).fifo
        obtain ⟨newer, history, -⟩ := bides
        rw [history, enqueued_append, before, List.append_assoc] at after
        cases queue : l.microtasks.entries with
        | nil => rw [Loop.isIdle_iff.mpr ⟨tasks, queue⟩] at idle; cases idle
        | cons j js => exact ⟨j, _, by simpa [queue] using (List.append_cancel_left after).symm⟩
      obtain ⟨j, js, waits⟩ := waits
      have bottom : (Machine.run n m).step.stack = drainingOn k base := by
        rw [stepped, show popped.idle k = _ from begun]
        exact stack_checkpoint delivered (l.draining_deliver.trans calm)
      refine hm.grows_of_step (hm.step.grows_of_waits (s := .done) bottom ?_ rfl hx waits)
      rw [stepped, show popped.idle k = _ from begun]
      exact control_checkpoint _ k

/-- The collection of a checkpoint comes to an end. -/
theorem grows_of_sweeping {sweep : Sweep} (hs : m.stack = idlingOn k base) (hc : m.control = .collect k sweep)
    (closes : sweep.closes = true) : Grows k base m := by
  obtain ⟨l, hl, -⟩ := h.alive 0
  obtain ⟨n, c, collects⟩ := collection_ends h.reachable hc hl (h.room 0 k l hl) (h.yields.yields 0)
  refine h.grows_of_run n ((h.run n).grows_of_checked (collects.stack.trans hs) ?_)
  rw [collects.control, if_pos closes]

/-- A checkpoint makes its reports one after the other. -/
theorem grows_of_reporting {reports : List (PromiseId × Value)}
    (hs : m.stack = .reporting k reports :: idlingOn k base) (hc : m.control = .signal s) : Grows k base m := by
  induction reports generalizing m s with
  | nil =>
    obtain ⟨n, settles⟩ := h.exists_settled (keepsLoop_of_stack hs rfl)
    obtain ⟨l, hl, -⟩ := h.alive n
    have hm := (h.run n).step
    have stepped := step_of_signal settles.orphan (settles.control.trans hc) (settles.stack.trans hs)
    let popped : Machine := { Machine.run n m with stack := idlingOn k base, control := .signal .done }
    obtain ⟨released, hd⟩ := loop?_drop_of (m := popped) s.held hl
    have stepped : (Machine.run n m).step = (drop s.held popped).finishCheckpoint k := stepped
    unfold finishCheckpoint at stepped
    rw [hd] at stepped
    have stack : (drop s.held popped).stack = idlingOn k base := stack_drop ..
    refine h.grows_of_run n ((h.run n).grows_of_step ?_)
    dsimp only at stepped
    split at stepped
    · exact hm.grows_of_sweeping (stepped ▸ stack) (by rw [stepped]; rfl) rfl
    · exact hm.grows_of_checked (stepped ▸ stack) (by rw [stepped]; rfl)
  | cons e reports ih =>
    obtain ⟨id, v⟩ := e
    obtain ⟨n, settles⟩ := h.exists_settled (keepsLoop_of_stack hs rfl)
    have stepped := step_of_signal settles.orphan (settles.control.trans hc) (settles.stack.trans hs)
    rw [← run_succ'] at stepped
    -- the tracker is told, above the frame of the reports that are left
    have above : .reporting k reports :: idlingOn k base <:+ (Machine.run (n + 1) m).stack := by
      rw [stepped]
      refine List.IsSuffix.trans ?_ (above_tellUnhandled _ _ _ _)
      show _ <:+ (drop _ _).stack
      rw [stack_drop]
      exact List.suffix_cons _ _
    obtain ⟨i, s', stack, control, -⟩ := h.yields.told h.reachable (by simp [Frame.tells]) above
    exact h.grows_of_run _ (ih (h.run _) stack control)

/-- When its drain has ended, a checkpoint selects its reports. -/
theorem grows_of_drained (hs : m.stack = .checkpoint k :: idlingOn k base) (hc : m.control = .signal .done) :
    Grows k base m := by
  obtain ⟨n, settles⟩ := h.exists_settled (keepsLoop_of_stack hs rfl)
  obtain ⟨l, hl, -⟩ := h.alive n
  have stepped := step_of_signal settles.orphan (settles.control.trans hc) (settles.stack.trans hs)
  let popped : Machine := { Machine.run n m with stack := idlingOn k base, control := .signal .done }
  have stepped : (Machine.run n m).step = (popped.setLoop l.takeReports.2).push (.reporting k l.takeReports.1) :=
    stepped.trans (resumeCheckpoint_done (m := popped) hl)
  refine h.grows_of_run n ((h.run n).grows_of_step ?_)
  exact (h.run n).step.grows_of_reporting (s := .done) (by rw [stepped]; rfl) (by rw [stepped]; rfl)

/-- A drain begins another job, or ends. -/
theorem grows_of_drain (hs : m.stack = drainingOn k base) (hc : m.control = .signal s) (ok : s.isFault = false) :
    Grows k base m := by
  obtain ⟨n, settles⟩ := h.exists_settled (keepsLoop_of_stack hs rfl)
  obtain ⟨l, hl, -⟩ := h.alive n
  refine h.grows_of_run n ?_
  have stack := settles.stack.trans hs
  have control := settles.control.trans hc
  cases queue : l.microtasks.entries with
  | cons j js => exact (h.run n).grows_of_picks ⟨settles.orphan, stack, ⟨s, control, ok⟩, l, js, hl, queue⟩
  | nil =>
    let popped : Machine :=
      { Machine.run n m with stack := .checkpoint k :: idlingOn k base, control := .signal .done }
    have stepped : (Machine.run n m).step = (drop s.held popped).endDrain k :=
      step_of_drained settles.orphan stack control ok hl queue
    refine (h.run n).grows_of_step ((h.run n).step.grows_of_drained ?_ (by rw [stepped]; rfl))
    rw [stepped]
    exact stack_drop s.held popped

/-- When a task has ended, its checkpoint begins. -/
theorem grows_of_rested (hs : m.stack = .cycling k :: idlingOn k base) (hc : m.control = .signal s)
    (ok : s.isFault = false) : Grows k base m := by
  obtain ⟨n, settles⟩ := h.exists_settled (keepsLoop_of_stack hs rfl)
  obtain ⟨l, hl, -⟩ := h.alive n
  have stack := settles.stack.trans hs
  have calm : l.draining = false := (h.run n).draining_eq_false hl (by simp [stack, h.outside])
  let popped : Machine := { Machine.run n m with stack := idlingOn k base, control := .signal .done }
  obtain ⟨released, hd⟩ := loop?_drop_of (m := popped) s.held hl
  have stepped : (Machine.run n m).step = (drop s.held popped).checkpoint k := by
    refine (step_of_signal settles.orphan (settles.control.trans hc) stack).trans ?_
    cases s <;> first | rfl | cases ok
  refine h.grows_of_run n ((h.run n).grows_of_step ((h.run n).step.grows_of_drain (s := .done) ?_ ?_ rfl))
  · rw [stepped, stack_checkpoint hd calm, stack_drop]
  · rw [stepped, control_checkpoint]

-- ---------------------------------------------------------------------------
-- Tasks and jobs without end
-- ---------------------------------------------------------------------------

/-- What a task or a job has begun comes to an end. -/
theorem hands_back (hf : f.hosts k = true) (above : f :: rest <:+ m.stack) :
    ∃ n, IsBackAt (f :: rest) (Machine.run n m) := by
  by_contra never
  obtain ⟨n, quiet⟩ := h.returns 0
  rw [Nat.zero_add] at quiet
  have waits := suffix_of_busy h.reachable above (n := n) fun i _ top => never ⟨i, top⟩
  have beneath := (beneath_or_top waits).resolve_right fun top => never ⟨n, top⟩
  exact quiet ⟨f, beneath.subset (List.mem_cons_self ..), hf⟩

/-- Some task or job is going to begin. -/
theorem grows (begun : HasBegun k base m) : Grows k base m := by
  rcases begun with task | drain
  · obtain ⟨n, stack, s, control⟩ := h.hands_back (f := .cycling k) (by simp [Frame.hosts]) task
    refine h.grows_of_run n ?_
    cases ok : s.isFault with
    | false => exact (h.run n).grows_of_rested stack control ok
    | true =>
      obtain ⟨e, rfl⟩ := s.exists_fault ok
      exact ((h.run n).not_falls .cycling stack control).elim
  · obtain ⟨n, stack, s, control⟩ := h.hands_back (f := .draining k) (by simp [Frame.hosts]) drain
    refine h.grows_of_run n ?_
    cases ok : s.isFault with
    | false => exact (h.run n).grows_of_drain stack control ok
    | true =>
      obtain ⟨e, rfl⟩ := s.exists_fault ok
      exact ((h.run n).not_falls .draining stack control).elim

/-- Finitely many tasks and jobs cannot keep a run from coming back. -/
theorem impossible (begun : HasBegun k base m) : False := by
  obtain ⟨l, hl, -, bounded⟩ := h.alive 0
  induction hd : bound - begunBy l.history using Nat.strongRecOn generalizing m l with
  | ind d ih =>
    obtain ⟨n, l', x, hl', hx, more, begun'⟩ := h.grows begun
    obtain rfl := Option.some.inj (hl.symm.trans hl')
    obtain ⟨x', hx', -, bounded'⟩ := h.alive n
    obtain rfl := Option.some.inj (hx.symm.trans hx')
    exact ih (bound - begunBy x.history) (by omega) (h.run n) begun' x hx bounded' rfl

end Endless
end Machine
end PromiseLoop

import PromiseLoop.Proofs.Drains
import PromiseLoop.Proofs.Reentrance

/-!
# When a checkpoint selects its reports

A checkpoint drains the microtasks of its loop and then selects the rejections that nobody has handled.
Outside of drains that means that every microtask has run by then.  A checkpoint that a microtask asks for
finds its loop draining already: it does not wait for the drain, and selects what nobody has handled so far.

## Results

* `Judges.run`: how far a checkpoint has come that began outside of drains.
* `checkpoints_select_after_drains`: what every checkpoint that began outside of drains selects.
* `checkpoint_selects_in_drain`: a run in which a microtask asks for a checkpoint.
-/

namespace PromiseLoop

open Relation

/-- What touches a loop from outside enqueues nothing and starts nothing. -/
theorem Loop.Outside.jobs {l l' : Loop} (h : l.Outside l') : l'.microtasks = l.microtasks ∧
    started l'.history = started l.history ∧ enqueued l'.history = enqueued l.history := by
  have posts (l : Loop) (r : Report) : (l.post r).microtasks = l.microtasks ∧
      started (l.post r).history = started l.history ∧ enqueued (l.post r).history = enqueued l.history :=
    ⟨rfl, (started_cons ..).trans (List.append_nil _), (enqueued_cons ..).trans (List.append_nil _)⟩
  cases h with
  | released id => exact ⟨rfl, rfl, rfl⟩
  | posted r => exact posts l r
  | workerReleased =>
    unfold releaseWorker
    split
    · exact ⟨rfl, rfl, rfl⟩
    · exact posts _ _

theorem Loop.jobs_of_outside {l l' : Loop} (h : ReflTransGen Outside l l') :
    l'.microtasks = l.microtasks ∧ started l'.history = started l.history ∧
      enqueued l'.history = enqueued l.history := by
  induction h with
  | refl => exact ⟨rfl, rfl, rfl⟩
  | tail _ h ih => exact ⟨h.jobs.1.trans ih.1, h.jobs.2.1.trans ih.2.1, h.jobs.2.2.trans ih.2.2⟩

namespace Machine

variable {m m' : Machine} {k : LoopId} {l : Loop} {base : List Frame}

/-- Microtasks that have all run are not touched from outside. -/
theorem Exhausted.of_aside (h : m.Exhausted k l) (aside : Aside k m m') (stack : m'.stack = m.stack) :
    ∃ l', m'.Exhausted k l' := by
  obtain ⟨l', hl', outside⟩ := aside.stays l h.found
  obtain ⟨microtasks, started, enqueued⟩ := Loop.jobs_of_outside outside
  exact ⟨l', hl', microtasks ▸ h.empty, by rw [started, enqueued, h.started], stack ▸ h.ended⟩

-- ---------------------------------------------------------------------------
-- From the drain to the selection
-- ---------------------------------------------------------------------------

/-- How far a checkpoint has come that began outside of drains, before it selects its reports: it is in its
drain, the drain has met with a fault, or every microtask has run. -/
inductive Judges (k : LoopId) (base : List Frame) (m : Machine) : Prop
  | draining (h : .draining k :: .checkpoint k :: base <:+ m.stack)
  | failing {f : Fault} (hs : m.stack = .checkpoint k :: base) (hc : m.control = .signal (.fault f))
  | exhausted {l : Loop} (hs : m.stack = .checkpoint k :: base) (hc : m.control = .signal .done)
    (h : m.Exhausted k l)

/-- What a checkpoint does when its drain has ended without a fault. -/
theorem step_of_checkpoint (ho : m.orphan? = none) (hs : m.stack = .checkpoint k :: base)
    (hc : m.control = .signal .done) (hl : m.loop? k = some l) :
    m.step.stack = .reporting k l.takeReports.1 :: base := by
  rw [step_of_signal ho hc hs]
  exact congrArg stack (resumeCheckpoint_done (m := { m with stack := base, control := .signal .done }) hl)

theorem Judges.step (h : Judges k base m) (hm : Reachable m)
    (inside : .checkpoint k :: base <:+ m.step.stack) : Judges k base m.step := by
  cases h with
  | draining h =>
    rcases draining_step hm h with on | ⟨popped, ⟨f, broken⟩ | ⟨done, l, ended⟩⟩
    · exact .draining on
    · exact .failing popped broken
    · exact .exhausted popped done ended
  | failing hs hc =>
    rcases step_removes_or m hm.placed (keepsLoop_of_stack hs rfl) with ⟨stack, control, -⟩ | settled
    · exact .failing (stack.trans hs) (control.trans hc)
    · have longer := inside.length_le
      rw [step_of_signal settled hc hs] at longer
      simp [resume, resumeCheckpoint, signal] at longer
  | exhausted hs hc h =>
    rcases step_removes_or m hm.placed (keepsLoop_of_stack hs rfl) with ⟨stack, control, aside⟩ | settled
    · obtain ⟨l', h'⟩ := h.of_aside aside stack
      exact .exhausted (stack.trans hs) (control.trans hc) h'
    · -- the checkpoint has selected its reports
      rw [step_of_checkpoint settled hs hc h.found] at inside
      cases (List.cons.inj (inside.eq_of_length rfl)).1

theorem Judges.run (h : Judges k base m) (hm : Reachable m) {n : Nat}
    (inside : ∀ i ≤ n, .checkpoint k :: base <:+ (run i m).stack) : Judges k base (run n m) :=
  run_keeps hm h (fun hm h inside => h.step hm inside) inside

/-- A checkpoint that goes on to its reports selects them when every microtask has run. -/
theorem Judges.selects {reports : List (PromiseId × Value)} (h : Judges k base m) (hm : Reachable m)
    (selected : m.step.stack = .reporting k reports :: base) :
    ∃ l, m.Exhausted k l ∧ reports = l.takeReports.1 := by
  cases h with
  | draining h =>
    rcases draining_step hm h with on | ⟨popped, -⟩
    · have longer := on.length_le
      rw [selected] at longer
      simp at longer
    · cases (List.cons.inj (selected.symm.trans popped)).1
  | failing hs hc =>
    rcases step_removes_or m hm.placed (keepsLoop_of_stack hs rfl) with ⟨stack, -, -⟩ | settled
    · cases (List.cons.inj (selected.symm.trans (stack.trans hs))).1
    · rw [step_of_signal settled hc hs] at selected
      exact absurd selected.symm (List.cons_ne_self _ _)
  | @exhausted l hs hc h =>
    rcases step_removes_or m hm.placed (keepsLoop_of_stack hs rfl) with ⟨stack, -, -⟩ | settled
    · cases (List.cons.inj (selected.symm.trans (stack.trans hs))).1
    · rw [step_of_checkpoint settled hs hc h.found] at selected
      obtain ⟨-, rfl⟩ := Frame.reporting.inj (List.cons.inj selected).1
      exact ⟨l, h, rfl⟩

-- ---------------------------------------------------------------------------
-- Checkpoints of a run
-- ---------------------------------------------------------------------------

/-- A checkpoint that is asked for while its loop is being drained goes on to its reports at once. -/
theorem checkpoint_of_draining (hl : m.loop? k = some l) (h : l.draining = true) :
    (m.checkpoint k).stack = .checkpoint k :: m.stack ∧ (m.checkpoint k).control = .signal .done ∧
      (m.checkpoint k).loop? k = some l.deliver := by
  have delivered : ((m.modifyLoop k Loop.deliver).push (.checkpoint k)).loop? k = some l.deliver :=
    loop?_deliver hl
  rw [Machine.checkpoint, drain_of_draining delivered (l.draining_deliver.trans h)]
  exact ⟨rfl, rfl, delivered⟩

/-- The checkpoints of a loop in every run:

* one that is asked for outside of drains begins with a drain, and one that is asked for in a drain goes on to
  its reports with the microtasks that are queued;
* one that has begun with a drain selects its reports when no microtask is queued or running; it selects what
  has to be reported then, and nobody has registered a handler on any of these promises by then. -/
theorem checkpoints_select_after_drains (hm : Reachable m) (hl : m.loop? k = some l) :
    (∀ n : Machine, n.loop? k = some l →
      (.draining k ∉ m.stack → (n.checkpoint k).stack = .draining k :: .checkpoint k :: n.stack) ∧
      (.draining k ∈ m.stack → (n.checkpoint k).stack = .checkpoint k :: n.stack ∧
        (n.checkpoint k).control = .signal .done ∧ (n.checkpoint k).loop? k = some l.deliver)) ∧
    (∀ base n reports, .draining k :: .checkpoint k :: base <:+ m.stack →
      (∀ i ≤ n, .checkpoint k :: base <:+ (run i m).stack) →
      (run (n + 1) m).stack = .reporting k reports :: base →
      ∃ x, (run n m).Exhausted k x ∧ reports = x.takeReports.1 ∧ ∀ e ∈ reports, ¬ Handled e.1 x.history) := by
  have draining := hm.draining_iff hl
  refine ⟨fun n hn => ⟨fun outside => stack_checkpoint hn (Bool.eq_false_iff.mpr fun hd => outside (draining.mp hd)),
    fun inside => checkpoint_of_draining hn (draining.mpr inside)⟩, fun base n reports begun lasts selected => ?_⟩
  rw [run_succ'] at selected
  obtain ⟨x, exhausted, rfl⟩ := ((Judges.draining begun).run hm lasts).selects (hm.run n) selected
  refine ⟨x, exhausted, rfl, fun e he handled => ?_⟩
  obtain ⟨_, -, selects, -⟩ := x.takeReports_spec
  obtain ⟨r, hr, awaits, -⟩ := selects.awaited e he
  have marked := (((hm.run n).told exhausted.found).handled e.1).mpr handled
  rw [hr] at marked
  exact absurd marked (by simp [((Loop.awaitsReport_iff r).mp awaits).2.1])

/-- A machine whose script has rejected a promise and enqueued some microtasks, the last of which is going to
register a handler on the promise. -/
def handlerQueued (first : List Command) : Machine :=
  let act (s : Step) (store : Option String) : Command := .step s store false
  (boot {} .log .native).obey
    [act (.promiseReject "main" (.constant (.text "x"))) (some "p"), act (.routine "mend" [] true) (some "f"),
      act (.microtask "main" "first" first true) none,
      act (.microtask "main" "second"
        [act (.attach .catch_ "main" (.variable "p") none (some (.variable "f"))) none] true) none]

theorem reachable_handlerQueued (first : List Command) : Reachable (handlerQueued first) :=
  .obey (.boot _ _ _) _

/-- The machine at the beginning of a checkpoint. -/
def checkpointBegun : Machine := (handlerQueued []).start (.step (.checkpoint "main") none false)

theorem reachable_checkpointBegun : Reachable checkpointBegun := .start (reachable_handlerQueued _) (by cbv) _

/-- The machine in a drain in which the first microtask has asked for a checkpoint. -/
def checkpointInDrain : Machine :=
  run 2 ((handlerQueued [.step (.checkpoint "main") none false]).start (.step (.drain "main") none false))

theorem reachable_checkpointInDrain : Reachable checkpointInDrain :=
  .run (.start (reachable_handlerQueued _) (by cbv) _) 2

/-- A checkpoint that is asked for in a drain may select its reports while a microtask is running and another
one is queued. -/
theorem checkpoint_selects_in_drain : ¬ ∀ (m : Machine) (k : LoopId) (l : Loop) (base : List Frame)
    (reports : List (PromiseId × Value)), Reachable m → m.loop? k = some l → m.stack = .checkpoint k :: base →
      m.step.stack = .reporting k reports :: base → l.microtasks.entries = [] ∧ ¬ m.InMicrotask k := by
  intro claim
  obtain ⟨l, hl⟩ := Option.isSome_iff_exists.mp (by cbv : (checkpointInDrain.loop? ⟨0⟩).isSome = true)
  have queued : (checkpointInDrain.loop? ⟨0⟩).map (fun l => l.microtasks.entries.length) = some 1 := by cbv
  obtain ⟨base, hbase⟩ : ∃ base, base = checkpointInDrain.stack.tail := ⟨_, rfl⟩
  have top : checkpointInDrain.stack = .checkpoint ⟨0⟩ :: base := by rw [hbase]; cbv
  have selected : checkpointInDrain.step.stack = .reporting ⟨0⟩ [(⟨0, 0⟩, .text "x")] :: base := by
    rw [hbase]; cbv
  obtain ⟨empty, -⟩ := claim _ _ l base _ reachable_checkpointInDrain hl top selected
  rw [hl, Option.map_some, empty] at queued
  cases queued

theorem checkpoints_select_after_drains_checkpointBegun : ∃ x reports,
    (run 17 checkpointBegun).stack.head? = some (.reporting ⟨0⟩ reports) ∧ reports = [] ∧
      (run 16 checkpointBegun).Exhausted ⟨0⟩ x ∧ reports = x.takeReports.1 := by
  obtain ⟨l, hl⟩ := Option.isSome_iff_exists.mp (by cbv : (checkpointBegun.loop? ⟨0⟩).isSome = true)
  obtain ⟨-, selects⟩ := checkpoints_select_after_drains reachable_checkpointBegun hl
  obtain ⟨base, hbase⟩ : ∃ base, base = checkpointBegun.stack.drop 2 := ⟨_, rfl⟩
  have begun : checkpointBegun.stack = .draining ⟨0⟩ :: .checkpoint ⟨0⟩ :: base := by rw [hbase]; cbv
  have selected : (run 17 checkpointBegun).stack = .reporting ⟨0⟩ [] :: base := by rw [hbase]; cbv
  have lasts : ∀ i ≤ 16, .checkpoint ⟨0⟩ :: base <:+ (run i checkpointBegun).stack :=
    suffix_of_stacks (by rw [hbase]; cbv)
  obtain ⟨x, exhausted, reports, -⟩ := selects base 16 [] (begun ▸ List.suffix_rfl) lasts selected
  exact ⟨x, [], by rw [selected]; rfl, rfl, exhausted, reports⟩

end Machine
end PromiseLoop

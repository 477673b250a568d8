import PromiseLoop.Proofs.Twins.Calls

/-!
# Turns of twin machines

Jobs, drains, checkpoints and cycles keep twins what they are.  Only where a checkpoint selects the reports
it has to make, the record that is an exception in the list of rejections has to await none.

## Results

* `Twins.startJob`, `Twins.nextMicrotask`: jobs, after which a value may have answered.
* `Twins.collectNext`, `Twins.resumeCheckpoint`: collections and reports.
* `Twins.cycle`, `Twins.conclude`: turns that are made of others.
-/

namespace PromiseLoop.Machine

variable {gap : Gap} {past : List Pair} {m m' : Machine}

/-- The record that is an exception in a list of rejections awaits no report. -/
def NothingDue (gap : Gap) (m : Machine) : Prop := ∀ k l, m.loop? k = some l → l.NothingDue gap

theorem NothingDue.drop (h : m.NothingDue gap) (vs : List Value) : (Machine.drop vs m).NothingDue gap := by
  intro k l hl
  obtain ⟨released, look⟩ := exists_loop?_drop vs m k
  rw [look] at hl
  obtain ⟨x, hx, rfl⟩ := Option.map_eq_some_iff.mp hl
  exact h k x hx

namespace Twins

-- ---------------------------------------------------------------------------
-- Jobs
-- ---------------------------------------------------------------------------

theorem startWork (h : Twins gap past m m') (w : Work) (entry : Entry) :
    Twins gap past (m.startWork w entry) (m'.startWork w entry) := by
  unfold Machine.startWork
  exact (((h.push (by trivial)).traceEntry entry).push (by trivial)).signal _

theorem startReaction (h : Twins gap past m m') (k : LoopId) (r : Reaction) (argument : Value) :
    Ends gap past (m.startReaction k r argument) (m'.startReaction k r argument) := by
  unfold Machine.startReaction
  split
  · exact ((h.push (by trivial)).invoke _ _ _ _).ends
  · have pushed := h.push (f := .hold [.promise r.derived]) trivial
    dsimp only
    split
    · exact pushed.resolve _ _ _
    · exact pushed.reject _ _ _

theorem startAdoption (h : Twins gap past m m') (k : LoopId) (p : Promise) (thenable thenFunction : Value) :
    Twins gap past (m.startAdoption k p thenable thenFunction)
      (m'.startAdoption k p thenable thenFunction) := by
  have paired : Twins gap past (m.newPair p).2 { m' with pairs := m.pairs ++ [{ promise := p }] } :=
    h.withPairs (h.pairs.trans (List.prefix_append _ _))
  unfold Machine.startAdoption Machine.newPair
  rw [h.samePairs]
  exact (paired.push (by exact ⟨_, rfl⟩)).invoke _ _ _ _

theorem reportOutcome (h : Twins gap past m m') {l l' : Loop} (alike : l.Alike gap l') (r : WorkResult) :
    m'.reportOutcome l' r = m.reportOutcome l r := by
  cases r with
  | success x => exact congrArg _ (h.evaluateIn _ x)
  | failure x => exact congrArg _ (h.evaluateIn _ x)
  | threadName =>
    unfold Machine.reportOutcome
    rw [alike.config]
  | abandoned => rfl

theorem startSettlement (h : Twins gap past m m') (k : LoopId) (r : Report) :
    Ends gap past (m.startSettlement k r) (m'.startSettlement k r) := by
  unfold Machine.startSettlement
  rcases h.found k with ⟨hl, hl'⟩ | ⟨l, l', hl, hl', alike⟩
  · rw [hl, hl']
    exact (h.signal _).ends
  · rw [hl, hl']
    obtain ⟨landed, rest⟩ := alike.land r.promise
    have struck := h.setLoop hl rest (l.id_land r.promise)
    dsimp only
    rw [h.reportOutcome alike, landed]
    split
    · rename_i p _
      have pushed := struck.push (f := .hold [.promise p]) trivial
      split
      · exact pushed.resolve _ _ _
      · exact pushed.reject _ _ _
    · exact (struck.drop_signal _ _).ends

theorem startJob (h : Twins gap past m m') (k : LoopId) (j : Job) :
    Ends gap past (m.startJob k j) (m'.startJob k j) := by
  cases j with
  | reaction r argument => exact h.startReaction k r argument
  | adoption p thenable thenFunction => exact (h.startAdoption k p thenable thenFunction).ends
  | settlement r => exact h.startSettlement k r
  | host w => exact (h.startWork w _).ends

-- ---------------------------------------------------------------------------
-- Draining
-- ---------------------------------------------------------------------------

theorem endDrain (h : Twins gap past m m') (k : LoopId) :
    Twins gap past (m.endDrain k) (m'.endDrain k) :=
  (h.modifyLoop k (fun _ _ alike => alike.stopDraining.note fun _ _ _ => by simp) fun _ => rfl).signal _

theorem breakDrain (h : Twins gap past m m') (k : LoopId) (f : Fault) :
    Twins gap past (m.breakDrain k f) (m'.breakDrain k f) :=
  (h.modifyLoop k (fun _ _ alike => alike.stopDraining) fun _ => rfl).signal _

theorem nextMicrotask (h : Twins gap past m m') (k : LoopId) :
    Ends gap past (m.nextMicrotask k) (m'.nextMicrotask k) := by
  unfold Machine.nextMicrotask
  rcases h.found k with ⟨hl, hl'⟩ | ⟨l, l', hl, hl', alike⟩
  · rw [hl, hl']
    exact (h.endDrain k).ends
  · rw [hl, hl', Option.bind_some, Option.bind_some]
    rcases alike.dequeue? with ⟨hd, hd'⟩ | ⟨j, x, x', hd, hd', taken⟩
    · rw [hd, hd']
      exact (h.endDrain k).ends
    · rw [hd, hd']
      exact ((h.setLoop hl taken (Loop.id_dequeue? hd)).push (by trivial)).startJob _ _

theorem drain (h : Twins gap past m m') (k : LoopId) : Twins gap past (m.drain k) (m'.drain k) := by
  unfold Machine.drain
  rcases h.found k with ⟨hl, hl'⟩ | ⟨l, l', hl, hl', alike⟩
  · rw [hl, hl']
    exact h.signal _
  · rw [hl, hl']
    dsimp only
    rw [alike.draining]
    split
    · exact h.signal _
    · exact ((h.setLoop hl alike.startDraining rfl).push (by trivial)).signal _

theorem resumeDraining (h : Twins gap past m m') (k : LoopId) (s : Signal) :
    Ends gap past (m.resumeDraining k s) (m'.resumeDraining k s) := by
  unfold Machine.resumeDraining
  split
  · exact (h.breakDrain _ _).ends
  · exact (h.drop _).nextMicrotask _

-- ---------------------------------------------------------------------------
-- Reports and collection
-- ---------------------------------------------------------------------------

theorem collect (h : Twins gap past m m') (k : LoopId) : Twins gap past (m.collect k) (m'.collect k) := by
  unfold Machine.collect
  rcases h.found k with ⟨hl, hl'⟩ | ⟨l, l', hl, hl', -⟩
  · rw [hl, hl']
    exact h.signal _
  · rw [hl, hl']
    exact h.sweep _ _

theorem endCheckpoint (h : Twins gap past m m') (k : LoopId) :
    Twins gap past (m.endCheckpoint k) (m'.endCheckpoint k) :=
  (h.note k fun _ _ _ => by simp).signal _

theorem endCollection (h : Twins gap past m m') (k : LoopId) (s : Sweep) :
    Twins gap past (m.endCollection k s) (m'.endCollection k s) := by
  unfold Machine.endCollection
  split
  · exact h.endCheckpoint k
  · exact h.signal _

theorem collectNext (h : Twins gap past m m') (k : LoopId) (s : Sweep) :
    Twins gap past (m.collectNext k s) (m'.collectNext k s) := by
  unfold Machine.collectNext
  rcases h.found k with ⟨hl, hl'⟩ | ⟨l, l', hl, hl', alike⟩
  · rw [hl, hl']
    split
    · exact h.endCollection k s
    · exact h.sweep _ _
  · rw [hl, hl']
    simp only [Option.map_some, Option.bind_some]
    split
    · obtain ⟨released, taken⟩ := alike.takeReleases
      cases hr : l.takeReleases with
      | mk ids x =>
        cases hr' : l'.takeReleases with
        | mk ids' x' =>
          rw [hr, hr'] at released taken
          obtain rfl : ids' = ids := released
          cases ids' with
          | nil => exact h.endCollection k s
          | cons id rest => exact (h.setLoop hl taken (congrArg (fun y => (Prod.snd y).id) hr).symm).sweep _ _
    · rename_i id rest _
      rcases alike.free? id with ⟨hf, hf'⟩ | ⟨r, x, x', hf, hf', freed, reports⟩
      · rw [hf, hf']
        exact h.sweep _ _
      · rw [hf, hf']
        have vacated := h.setLoop hl freed (Loop.id_free? hf)
        dsimp only
        rw [reports]
        split
        · exact (((vacated.push (by trivial)).push (by trivial)).signal _).tellUnhandled _ _ _
        · exact (vacated.sweep _ _).drop _

theorem resumeCollecting (h : Twins gap past m m') (k : LoopId) (sweep : Sweep) (r : Record) (s : Signal) :
    Twins gap past (m.resumeCollecting k sweep r s) (m'.resumeCollecting k sweep r s) :=
  (h.sweep k sweep).drop _

theorem finishCheckpoint (h : Twins gap past m m') (k : LoopId) :
    Twins gap past (m.finishCheckpoint k) (m'.finishCheckpoint k) := by
  unfold Machine.finishCheckpoint
  rcases h.found k with ⟨hl, hl'⟩ | ⟨l, l', hl, hl', alike⟩
  · rw [hl, hl']
    exact h.signal _
  · rw [hl, hl']
    dsimp only
    rw [alike.config]
    split
    · exact h.sweep _ _
    · exact h.endCheckpoint k

theorem resumeReporting (h : Twins gap past m m') (k : LoopId) (reports : List (PromiseId × Value))
    (s : Signal) : Twins gap past (m.resumeReporting k reports s) (m'.resumeReporting k reports s) := by
  unfold Machine.resumeReporting
  split
  · exact (h.drop _).finishCheckpoint k
  · rename_i id reason rest
    have dropped := ((h.push (f := .reporting k rest) trivial).push (f := .hold [reason]) trivial).drop s.held
    exact (dropped.modifyLoop k (fun _ _ alike => alike.report _ _) fun _ => Loop.id_report _ _ _).tellUnhandled
      _ _ _

theorem deliver (h : Twins gap past m m') (k : LoopId) :
    Twins gap past (m.modifyLoop k Loop.deliver) (m'.modifyLoop k Loop.deliver) :=
  h.modifyLoop k (fun _ _ alike => alike.deliver) Loop.id_deliver

theorem checkpoint (h : Twins gap past m m') (k : LoopId) :
    Twins gap past (m.checkpoint k) (m'.checkpoint k) := ((h.deliver k).push (by trivial)).drain k

theorem resumeCheckpoint (h : Twins gap past m m') (due : m.NothingDue gap) (k : LoopId) (s : Signal) :
    Twins gap past (m.resumeCheckpoint k s) (m'.resumeCheckpoint k s) := by
  unfold Machine.resumeCheckpoint
  split
  · exact h.signal _
  · have dropped := h.drop s.held
    dsimp only
    rcases dropped.found k with ⟨hl, hl'⟩ | ⟨l, l', hl, hl', alike⟩
    · rw [hl, hl']
      exact dropped
    · rw [hl, hl']
      obtain ⟨reports, taken⟩ := alike.takeReports (due.drop s.held k l hl)
      simp only [Option.map_some]
      rw [reports]
      exact (dropped.setLoop hl taken l.id_takeReports).push (by trivial)

-- ---------------------------------------------------------------------------
-- Cycles
-- ---------------------------------------------------------------------------

theorem cycle (h : Twins gap past m m') (k : LoopId) : Twins gap past (m.cycle k) (m'.cycle k) := by
  have delivered := h.deliver k
  unfold Machine.cycle
  dsimp only
  rcases delivered.found k with ⟨hl, hl'⟩ | ⟨l, l', hl, hl', alike⟩
  · rw [hl, hl']
    exact delivered.checkpoint k
  · rw [hl, hl', Option.bind_some, Option.bind_some]
    rcases alike.dequeueTask? with ⟨hd, hd'⟩ | ⟨w, x, x', hd, hd', taken⟩
    · rw [hd, hd']
      exact delivered.checkpoint k
    · rw [hd, hd']
      exact ((delivered.setLoop hl taken (Loop.id_dequeueTask? hd)).push (by trivial)).startWork _ _

theorem resumeCycling (h : Twins gap past m m') (k : LoopId) (s : Signal) :
    Twins gap past (m.resumeCycling k s) (m'.resumeCycling k s) := by
  unfold Machine.resumeCycling
  split
  · exact h.signal _
  · exact (h.drop _).checkpoint k

theorem runIdle (h : Twins gap past m m') (k : LoopId) : Twins gap past (m.idle k) (m'.idle k) :=
  (h.push (by trivial)).cycle k

theorem resumeIdling (h : Twins gap past m m') (k : LoopId) (s : Signal) :
    Twins gap past (m.resumeIdling k s) (m'.resumeIdling k s) := by
  unfold Machine.resumeIdling
  split
  · exact h.signal _
  · have dropped := h.drop s.held
    have idle : ((Machine.drop s.held m').loop? k).map Loop.isIdle =
        ((Machine.drop s.held m).loop? k).map Loop.isIdle := by
      rcases dropped.found k with ⟨hl, hl'⟩ | ⟨l, l', hl, hl', alike⟩
      · rw [hl, hl']
      · rw [hl, hl', Option.map_some, Option.map_some, alike.isIdle]
    dsimp only
    rw [idle]
    split
    · exact dropped
    · exact dropped.runIdle k

theorem finish (h : Twins gap past m m') (k : LoopId) : Twins gap past (m.finish k) (m'.finish k) :=
  (h.push (by trivial)).runIdle k

theorem resumeFinishing (h : Twins gap past m m') (k : LoopId) (s : Signal) :
    Twins gap past (m.resumeFinishing k s) (m'.resumeFinishing k s) := by
  unfold Machine.resumeFinishing
  split
  · exact h.signal _
  · have dropped := h.drop s.held
    dsimp only
    rcases dropped.found k with ⟨hl, hl'⟩ | ⟨l, l', hl, hl', alike⟩
    · rw [hl, hl']
      exact dropped
    · rw [hl, hl']
      dsimp only
      rw [alike.workers]
      split
      · exact dropped
      · have received := alike.receive?
        cases hr : l.receive? with
        | none =>
          rw [hr] at received
          cases hr' : l'.receive? with
          | none => exact dropped.push (by trivial)
          | some x' => rw [hr'] at received; cases received
        | some x =>
          rw [hr] at received
          cases hr' : l'.receive? with
          | none => rw [hr'] at received; cases received
          | some x' =>
            rw [hr'] at received
            cases received with
            | some queued => exact (dropped.setLoop hl queued (Loop.id_receive? hr)).finish k

theorem conclude (h : Twins gap past m m') (k : LoopId) : Twins gap past (m.conclude k) (m'.conclude k) := by
  have waiting : ((m'.loop? k).map fun l => l.waiting.isEmpty) = (m.loop? k).map fun l => l.waiting.isEmpty := by
    rcases h.found k with ⟨hl, hl'⟩ | ⟨l, l', hl, hl', alike⟩
    · rw [hl, hl']
    · rw [hl, hl', Option.map_some, Option.map_some, alike.waiting]
  unfold Machine.conclude
  rw [waiting]
  split
  · exact h.finish k
  · exact (h.push (by trivial)).runIdle k

theorem resumeConcluding (h : Twins gap past m m') (k : LoopId) (s : Signal) :
    Twins gap past (m.resumeConcluding k s) (m'.resumeConcluding k s) := by
  unfold Machine.resumeConcluding
  split
  · exact h.signal _
  · exact ((h.drop _).modifyLoop k (fun _ _ alike => alike.releaseWorker.2)
      fun l => l.id_releaseWorker).conclude k

end Twins
end PromiseLoop.Machine

import PromiseLoop.Proofs.Twins.Commands
import PromiseLoop.Proofs.Views.Runs

/-!
# Runs of twin machines

Twin machines that are given the same commands and take the same steps remain twins.  A machine is its own
twin, so in every run no promise is ever fulfilled with another promise of its loop, and the pairs of
one-shot functions are used up by calls of these functions alone.

## Results

* `Ends.step`, `Ends.start`: twins take steps and commands side by side.
* `Reachable.ends`: every machine that occurs in a run is its own twin.
* `Reachable.flat`: no promise was ever fulfilled with another one of its loop.
* `Reachable.rejects`: what a `then` that throws is told to.
* `Reachable.pairs_step`, `Reachable.pairs_start`: what becomes of the one-shot pairs.
-/

namespace PromiseLoop.Machine

variable {gap : Gap} {past : List Pair} {m m' : Machine}

-- ---------------------------------------------------------------------------
-- Removing loops
-- ---------------------------------------------------------------------------

/-- The same loop is kept by nothing. -/
theorem Paired.orphan? (h : Paired gap past m m') : m.orphan? = none ∧ m'.orphan? = none ∨
    ∃ l l', m.orphan? = some l ∧ m'.orphan? = some l' ∧ l.Alike gap l' := by
  have keeps : m'.keepsLoop = m.keepsLoop := funext h.keepsLoop
  unfold Machine.orphan?
  rw [keeps]
  generalize m.keepsLoop = keep
  have rel := h.loops
  revert rel
  generalize m.loops = xs
  generalize m'.loops = ys
  intro rel
  induction rel with
  | nil => exact .inl ⟨rfl, rfl⟩
  | cons hl _ ih =>
    cases hl with
    | none => exact ih
    | @some l l' alike =>
      simp only [List.filterMap_cons, List.find?_cons, alike.id]
      cases keep l.id with
      | false => exact .inr ⟨l, l', rfl, rfl, alike⟩
      | true => exact ih

theorem Paired.removeLoop (h : Paired gap past m m') {l l' : Loop} (alike : l.Alike gap l') :
    Paired gap past (m.removeLoop l) (m'.removeLoop l') := by
  have cut : Paired gap past { m with loops := m.loops.modify l.id.number fun _ => none }
      { m' with loops := m'.loops.modify l.id.number fun _ => none } := by
    refine ⟨by rw [h.same], forall₂_modify (fun _ _ _ => .none) h.loops _, fun k x hx => ?_, h.pairs⟩
    rw [loop?_modify_none] at hx
    split at hx
    · cases hx
    · exact h.placed k x hx
  unfold Machine.removeLoop
  rw [alike.held, alike.id]
  exact cut.drop _

theorem loop?_removeLoop_of_none (l : Loop) {k : LoopId} (hk : m.loop? k = none) :
    (m.removeLoop l).loop? k = none := by
  obtain ⟨released, look⟩ := exists_loop?_drop l.held
    { m with loops := m.loops.modify l.id.number fun _ => none } k
  rw [Machine.removeLoop, look, loop?_modify_none, hk, ite_self]
  rfl

theorem Ends.removeLoop (h : Ends gap past m m') {l l' : Loop} (alike : l.Alike gap l') :
    Ends gap past (m.removeLoop l) (m'.removeLoop l') where
  toPaired := h.toPaired.removeLoop alike
  asks := by
    rw [Machine.removeLoop, stack_drop]
    exact h.asks
  answers f rest hs := by
    rw [Machine.removeLoop, stack_drop] at hs
    refine (h.answers f rest hs).imp_right fun answered => ?_
    obtain ⟨p, v, s, hf, hc, found⟩ := answered
    refine ⟨p, v, s, hf, ?_, ?_⟩
    · rw [Machine.removeLoop, control_drop]
      exact hc
    · exact found.imp_right fun gone => loop?_removeLoop_of_none l gone

-- ---------------------------------------------------------------------------
-- Resuming
-- ---------------------------------------------------------------------------

namespace Twins

theorem resumeCall (h : Twins gap past m m') (this : Value) (arguments : List Value) (s : Signal) :
    Twins gap past (m.resumeCall this arguments s) (m'.resumeCall this arguments s) := h.drop_signal _ _

theorem resumeWork (h : Twins gap past m m') (s : Signal) :
    Twins gap past (m.resumeWork s) (m'.resumeWork s) := by
  unfold Machine.resumeWork
  split
  · exact h.signal _
  · exact h.drop_signal _ _
  · exact h.drop_signal _ _

theorem resumeFunctionOnly (h : Twins gap past m m') (s : Signal) :
    Twins gap past (m.resumeFunctionOnly s) (m'.resumeFunctionOnly s) := by
  unfold Machine.resumeFunctionOnly
  split
  · exact h.signal _
  · exact h.drop_signal _ _
  · exact h.signal _

theorem resumeSubstitute (h : Twins gap past m m') (this : Value) (arguments : List Value) (s : Signal) :
    Twins gap past (m.resumeSubstitute this arguments s) (m'.resumeSubstitute this arguments s) := by
  unfold Machine.resumeSubstitute
  split
  · exact (h.push (by trivial)).callValue _ _ _
  · exact h.drop_signal _ _

/-- A promise is fulfilled only with a value that has been asked, and has no answer. -/
theorem resumeResolving (h : Twins gap past m m') (p : Promise) (v : Value) (s : Signal)
    (answers : (Frame.resolving p v).Asks ∨ (∃ t, s = .value t) ∨ m.loop? p.home = none) :
    Twins gap past (m.resumeResolving p v s) (m'.resumeResolving p v s) := by
  unfold Machine.resumeResolving
  split
  · exact (h.modifyLoop _ (fun _ _ alike => alike.enqueue _) fun _ => rfl).drop_signal _ _
  · exact h.reject_settle _ _ _
  · rename_i unanswered _
    exact h.settle _ _ fun _ => answers.imp_right fun found =>
      found.resolve_left fun ⟨t, ht⟩ => unanswered t ht

theorem resumeReacting (h : Twins gap past m m') (handler : Value) (derived : Promise) (s : Signal) :
    Ends gap past (m.resumeReacting handler derived s) (m'.resumeReacting handler derived s) := by
  have pushed := h.push (f := .hold [handler, .promise derived]) trivial
  unfold Machine.resumeReacting
  dsimp only
  split
  · exact pushed.resolve _ _ _
  · exact pushed.reject _ _ _
  · exact (pushed.signal _).ends

theorem resumeAttaching (h : Twins gap past m m') (derived : Promise) (job : Option Job) (s : Signal) :
    Twins gap past (m.resumeAttaching derived job s) (m'.resumeAttaching derived job s) :=
  (h.modifyLoop _ (fun _ _ alike => alike.endAttach _ _) fun _ => Loop.id_endAttach _ _ _).drop_signal _ _

end Twins

/-- The guard that the next step looks at, if no loop is removed first: that of the function that is
called, or that of an adoption whose `then` has thrown. -/
def guard? (m : Machine) : Option Guard :=
  match m.control, m.stack with
  | .call f _ _, _ => f.guard?
  | .signal (.thrown _), .adopting _ (.function f) _ :: _ => f.guard?
  | _, _ => none

theorem Twins.resumeAdopting (h : Twins gap past m m') (p : Promise) (resolver thenFunction : Value)
    (s : Signal) :
    Spends gap past (m.under (.adopting p resolver thenFunction) s).guard?
      (m.resumeAdopting p resolver thenFunction s) (m'.resumeAdopting p resolver thenFunction s) := by
  have pushed := h.push (f := .discard [resolver, thenFunction, .promise p]) trivial
  unfold Machine.resumeAdopting
  dsimp only
  split
  · exact pushed.enterResolver _ _ _
  · exact (pushed.signal _).ends.spends _

/-- Going on with a frame.  A resolution goes on only with a value that may have been asked. -/
theorem Twins.resume (h : Twins gap past m m') (due : m.NothingDue gap) (f : Frame) (s : Signal)
    (answers : f.Asks ∨ ∃ p v, f = .resolving p v ∧ ((∃ t, s = .value t) ∨ m.loop? p.home = none)) :
    Spends gap past (m.under f s).guard? (m.resume f s) (m'.resume f s) := by
  cases f with
  | block rest => exact (h.resumeBlock rest s).spends _
  | rounds body round remaining quiet => exact (h.resumeRounds _ _ _ _ s).ends.spends _
  | command info operands => exact (h.endCommand info operands (.signal s)).ends.spends _
  | call this arguments quiet => exact (h.resumeCall _ _ s).ends.spends _
  | work quiet => exact (h.resumeWork s).ends.spends _
  | hold values => exact (h.drop_signal _ _).ends.spends _
  | discard values => exact (h.drop_signal _ _).ends.spends _
  | give v values =>
    refine Ends.spends ?_ _
    unfold Machine.resume
    dsimp only
    split
    · exact (h.drop_signal _ _).ends
    · exact (h.drop_signal _ _).ends
  | surface values =>
    refine Ends.spends ?_ _
    unfold Machine.resume
    dsimp only
    split
    · exact (h.drop_signal _ _).ends
    · exact (h.drop_signal _ _).ends
  | functionOnly => exact (h.resumeFunctionOnly s).ends.spends _
  | substitute this arguments => exact (h.resumeSubstitute _ _ s).ends.spends _
  | resolving p v =>
    exact (h.resumeResolving p v s (answers.imp_right fun ⟨q, w, hf, found⟩ => by
      cases hf
      exact found)).ends.spends _
  | reacting handler derived => exact (h.resumeReacting _ _ s).spends _
  | adopting p resolver thenFunction => exact h.resumeAdopting p resolver thenFunction s
  | constructing p => exact (h.resumeConstructing p s).spends _
  | attaching derived job => exact (h.resumeAttaching _ _ s).ends.spends _
  | draining k => exact (h.resumeDraining k s).spends _
  | checkpoint k => exact (h.resumeCheckpoint due k s).ends.spends _
  | reporting k reports => exact (h.resumeReporting k _ s).ends.spends _
  | collecting k sweep record => exact (h.resumeCollecting k _ _ s).ends.spends _
  | cycling k => exact (h.resumeCycling k s).ends.spends _
  | idling k => exact (h.resumeIdling k s).ends.spends _
  | finishing k => exact (h.resumeFinishing k s).ends.spends _
  | concluding k => exact (h.resumeConcluding k s).ends.spends _

-- ---------------------------------------------------------------------------
-- Steps and commands
-- ---------------------------------------------------------------------------

/-- Where nothing has been signalled, nothing has just been answered. -/
theorem Ends.twins (h : Ends gap past m m') (hc : ∀ s, m.control ≠ .signal s) : Twins gap past m m' where
  toPaired := h.toPaired
  asks f hf := by
    cases hs : m.stack with
    | nil => rw [hs] at hf; cases hf
    | cons g rest =>
      rw [hs] at hf
      rcases List.mem_cons.mp hf with rfl | hf
      · exact (h.answers f rest hs).resolve_right fun ⟨_, _, s, _, signalled, _⟩ => hc s signalled
      · exact h.asks f (by rw [hs]; exact hf)

/-- Twins take a step side by side. -/
theorem Ends.step (h : Ends gap past m m') (due : m.NothingDue gap) :
    Spends gap past m.guard? m.step m'.step := by
  have control : m'.control = m.control := h.control
  have stack : m'.stack = m.stack := h.stack
  unfold Machine.step
  rcases h.toPaired.orphan? with ⟨ho, ho'⟩ | ⟨l, l', ho, ho', alike⟩
  · rw [ho, ho', control]
    dsimp only
    cases hc : m.control with
    | idle a => exact h.spends _
    | call f this arguments =>
      have called := ((h.twins fun s => by simp [hc]).signal .done).enter f this arguments
      have guard : m.guard? = f.guard? := by simp [guard?, hc]
      rw [guard]
      exact called
    | collect k s =>
      exact (((h.twins fun s => by simp [hc]).signal .done).collectNext k s).ends.spends _
    | signal s =>
      dsimp only
      rw [stack]
      cases hs : m.stack with
      | nil =>
        have none : Twins gap past m m' := ⟨h.toPaired, by simp [hs]⟩
        have ended : Twins gap past { m with stack := [], control := .idle .done }
            { m' with stack := [], control := .idle .done } :=
          none.of_eq (by rw [h.same]) rfl rfl rfl hs.symm
        exact ended.ends.spends _
      | cons f rest =>
        have popped : Twins gap past { m with stack := rest, control := .signal .done }
            { m' with stack := rest, control := .signal .done } := by
          refine ⟨h.toPaired.of_eq (by rw [h.same]) rfl rfl rfl, fun g hg => h.asks g ?_⟩
          rw [hs]
          exact hg
        have guard : m.guard? =
            (({ m with stack := rest, control := .signal .done } : Machine).under f s).guard? :=
          congrArg guard? (eq_under hs hc)
        rw [guard]
        refine popped.resume due f s ((h.answers f rest hs).imp_right fun ⟨p, v, t, hf, ht, found⟩ => ?_)
        obtain rfl : s = t := Control.signal.inj (hc.symm.trans ht)
        exact ⟨p, v, hf, found⟩
  · rw [ho, ho']
    exact (h.removeLoop alike).spends _

/-- Twins begin with a command side by side. -/
theorem Ends.start (h : Ends gap past m m') (hc : ∀ s, m.control ≠ .signal s) (c : Command) :
    Ends gap past (m.start c) (m'.start c) := by
  have twins := h.twins hc
  have cleared : Twins gap past { m with trace := [] } { m' with trace := [] } :=
    twins.of_eq (by rw [h.same]) rfl rfl rfl rfl
  unfold Machine.start
  dsimp only
  split
  · exact cleared.beginStep _ _
  · exact (cleared.push (f := .command .control []) trivial).beginCommand _

theorem control_ne_signal_of_isIdle (idle : m.isIdle = true) (s : Signal) : m.control ≠ .signal s := by
  intro hc
  simp [isIdle, hc] at idle

theorem Ends.isIdle (h : Ends gap past m m') : m'.isIdle = m.isIdle := by
  have orphan : m'.orphan?.isNone = m.orphan?.isNone := by
    rcases h.toPaired.orphan? with ⟨ho, ho'⟩ | ⟨l, l', ho, ho', -⟩
    · rw [ho, ho']
    · rw [ho, ho']
      rfl
  unfold Machine.isIdle
  rw [h.control, orphan]

-- ---------------------------------------------------------------------------
-- Machines as their own twins
-- ---------------------------------------------------------------------------

theorem nothingDue_none (m : Machine) : m.NothingDue none := fun _ _ _ _ h => by cases h

/-- From a machine that is its own twin, other pairs may be looked back at. -/
theorem Ends.since (h : Ends gap past m m') : Ends gap m.pairs m m' :=
  ⟨⟨h.same, h.loops, h.placed, List.prefix_rfl⟩, h.asks, h.answers⟩

/-- Every machine that occurs in a run is its own twin. -/
theorem Reachable.ends (h : Reachable m) : Ends none m.pairs m m := by
  induction h with
  | boot config tracker bridge =>
    have empty : Twins none [] {} {} :=
      ⟨⟨rfl, .nil, placed_empty, List.prefix_rfl⟩, fun f hf => by cases hf⟩
    exact (empty.openLoop "main" config tracker bridge).ends.since
  | start _ idle c ih => exact (ih.start (control_ne_signal_of_isIdle idle) c).since
  | step _ ih =>
    obtain ⟨past', -, ends⟩ := ih.step (nothingDue_none _)
    exact ends.since

/-- No promise was ever fulfilled with another one of its loop. -/
theorem Reachable.flat (h : Reachable m) {k : LoopId} {l : Loop} (hl : m.loop? k = some l) : l.Flat := by
  obtain ⟨_, -, alike⟩ := h.ends.exists_alike hl
  exact alike.flat

/-- Whoever waits for a `then` can reject the promise by a function of a one-shot pair. -/
theorem Reachable.rejects (h : Reachable m) {p : Promise} {resolver thenFunction : Value}
    (hf : .adopting p resolver thenFunction ∈ m.stack) :
    ∃ n, resolver = .function (.resolver ⟨p, .flag n, .reject⟩) := by
  cases hs : m.stack with
  | nil =>
    rw [hs] at hf
    cases hf
  | cons f rest =>
    rw [hs] at hf
    rcases List.mem_cons.mp hf with rfl | hf
    · rcases h.ends.answers _ rest hs with asks | ⟨q, v, s, heq, -⟩
      · exact asks
      · cases heq
    · exact h.ends.asks _ (by rw [hs]; exact hf)

/-- A step leaves the pairs as they are, apart from the one whose function it calls, and may add to them. -/
theorem Reachable.pairs_step (h : Reachable m) :
    m.pairs <+: m.step.pairs ∨ ∃ g, m.guard? = some g ∧ g.spend m.pairs <+: m.step.pairs := by
  obtain ⟨past', rfl | ⟨g, hg, rfl⟩, ends⟩ := h.ends.step (nothingDue_none m)
  · exact .inl ends.pairs
  · exact .inr ⟨g, hg, ends.pairs⟩

/-- A command leaves the pairs as they are, and may add to them. -/
theorem Reachable.pairs_start (h : Reachable m) (idle : m.isIdle = true) (c : Command) :
    m.pairs <+: (m.start c).pairs :=
  (h.ends.start (control_ne_signal_of_isIdle idle) c).pairs

end PromiseLoop.Machine

import PromiseLoop.Proofs.Handles.Commands

/-!
# Runs keep the books

When a frame is resumed, what it held is under way, together with what the signal brings.  Every frame
puts all of that somewhere.  So a step of a balanced machine leads to a balanced machine, and so does a
command; and a machine that has just been booted is balanced, because there are no promises yet.

## Results

* `Balanced.step`: one step.
* `Reachable.balanced`: the books of every loop are balanced in every reachable machine.
-/

namespace PromiseLoop.Machine

variable {m m' : Machine} {k : LoopId} {extra : List Value}

-- ---------------------------------------------------------------------------
-- Resuming
-- ---------------------------------------------------------------------------

theorem passes_resumeCall {this : Value} {arguments : List Value} {s : Signal}
    (h : m.Books k (this :: arguments ++ s.held) []) : m.Passes k (m.resumeCall this arguments s) := by
  refine passes_drop_signal (h.regroup fun p => ?_)
  cases s <;> simp [Signal.held, Fault.thrown]

theorem passes_resumeWork {s : Signal} (h : m.Books k s.held []) : m.Passes k (m.resumeWork s) := by
  unfold resumeWork
  split
  · exact passes_signal h
  · exact passes_drop_signal (s := .fault _) (h.regroup (by simp [Signal.held]))
  · exact passes_drop_done h

theorem passes_resumeFunctionOnly {s : Signal} (h : m.Books k s.held []) :
    m.Passes k (m.resumeFunctionOnly s) := by
  unfold resumeFunctionOnly
  split
  · exact passes_signal h
  · exact passes_drop_done h
  · exact passes_signal h

theorem passes_resumeSubstitute {this : Value} {arguments : List Value} {s : Signal}
    (h : m.Books k (arguments ++ [this] ++ s.held) []) :
    m.Passes k (m.resumeSubstitute this arguments s) := by
  unfold resumeSubstitute
  split
  · rename_i f
    have pushed : (m.push (.hold [f])).Books k (this :: arguments) [] :=
      Books.push (h.regroup (by simp [Frame.held, Signal.held]; grind)) rfl rfl
    refine (passes_callValue pushed fun a ha => ?_).of_push
    exact mem_heldByStack_push (by simp [Frame.held, ha])
  · exact passes_drop_signal h

/-- A loop that is alive takes values. -/
theorem Books.modifyLoop_taking {taken : List Value} {due : List PromiseId}
    (h : m.Books k (taken ++ extra) due) {j : LoopId} (alive : ∃ l, m.loop? j = some l)
    {f : Loop → Loop} (ht : ∀ {l : Loop}, l.Sound → l.Trades (f l) taken []) :
    (m.modifyLoop j f).Books k extra due := by
  obtain ⟨l, hl⟩ := alive
  obtain rfl := h.tidy.placed j l hl
  have trade := ht (h.sound hl)
  rw [modifyLoop_of_found _ hl trade.id]
  exact h.setLoop hl trade

/-- The loop that a resolution belongs to is alive, and takes the value and its `then`. -/
theorem passes_resumeResolving {p : Promise} {v : Value} {s : Signal}
    (h : m.Books k ([v, .promise p] ++ s.held) []) (alive : ∃ l, m.loop? p.home = some l) :
    m.Passes k (m.resumeResolving p v s) := by
  unfold resumeResolving
  split
  · rename_i t
    have grouped : m.Books k ((Job.adoption p v t).held ++ [.promise p]) [] :=
      h.regroup (by simp [Job.held, Signal.held]; grind)
    exact (passes_drop_done (grouped.modifyLoop_taking alive fun sound =>
      Loop.trades_enqueue sound _)).of_stack rfl
  · exact passes_settle (h.regroup (by simp [Signal.held]; grind)) p .rejected
  · rename_i values thrown
    refine passes_settle (h.regroup ?_) p .fulfilled
    cases s with
    | value v => exact absurd rfl (values v)
    | thrown v => exact absurd rfl (thrown v)
    | _ => simp [Signal.held]

theorem passes_resumeReacting {handler : Value} {derived : Promise} {s : Signal}
    (h : m.Books k ([handler, .promise derived] ++ s.held) []) :
    m.Passes k (m.resumeReacting handler derived s) := by
  have pushed : (m.push (.hold [handler, .promise derived])).Books k s.held [] :=
    Books.push h rfl rfl
  unfold resumeReacting
  dsimp only
  split
  · exact (passes_resolve pushed _ (mem_heldByStack_push (by simp [Frame.held]))).of_push
  · exact (passes_reject pushed _ derived).of_push
  · exact (passes_signal pushed).of_push

theorem passes_resumeAdopting {p : Promise} {resolver thenFunction : Value} {s : Signal}
    (h : m.Books k ([resolver, thenFunction, .promise p] ++ s.held) []) :
    m.Passes k (m.resumeAdopting p resolver thenFunction s) := by
  have pushed : (m.push (.discard [resolver, thenFunction, .promise p])).Books k s.held [] :=
    Books.push h rfl rfl
  unfold resumeAdopting
  dsimp only
  split
  · refine (passes_enterResolver (pushed.regroup (by simp [Signal.held])) ?_).of_push
    exact mem_heldByStack_push (by simp [Frame.held])
  · exact (passes_signal pushed).of_push

/-- The loop that a registration belongs to is alive, and takes the job. -/
theorem passes_resumeAttaching {derived : Promise} {job : Option Job} {s : Signal}
    (h : m.Books k (.promise derived :: (job.map Job.held).getD [] ++ s.held) [])
    (alive : ∃ l, m.loop? derived.home = some l) :
    m.Passes k (m.resumeAttaching derived job s) := by
  have grouped : m.Books k ((job.map Job.held).getD [] ++ (s.held ++ [.promise derived])) [] :=
    h.regroup (by simp; grind)
  exact (passes_drop_signal (s := .value (.promise derived)) (grouped.modifyLoop_taking alive
    fun sound => Loop.trades_endAttach sound derived job)).of_stack rfl

/-- Every frame puts what it held, and what the signal brings, somewhere. -/
theorem passes_resume {f : Frame} {s : Signal} (h : m.Books k (f.held ++ s.held) (f.pendingOf k))
    (spent : m.control = .signal .done) (alive : ∀ j, f.anchor? = some j → ∃ l, m.loop? j = some l) :
    m.Passes k (m.resume f s) := by
  cases f with
  | block rest => exact passes_resumeBlock h (by rw [spent]; rfl) rest
  | rounds body round remaining quiet => exact passes_resumeRounds h body round remaining quiet
  | command info operands => exact (begins_endSignal h info).passes
  | call this arguments quiet => exact passes_resumeCall h
  | work quiet => exact passes_resumeWork h
  | hold values => exact passes_drop_signal h
  | discard values => exact passes_drop_done (h.regroup (by simp [Frame.held, or_comm]))
  | give v values =>
    unfold resume
    dsimp only
    split
    · exact passes_drop_signal (h.regroup (by simp [Frame.held, Signal.held, or_comm]))
    · exact passes_drop_signal (h.regroup (by simp [Frame.held]; grind))
  | surface values =>
    unfold resume
    dsimp only
    split
    · exact passes_drop_signal (h.regroup (by simp [Frame.held, Signal.held, Fault.thrown]))
    · exact passes_drop_signal h
  | functionOnly => exact passes_resumeFunctionOnly h
  | substitute this arguments => exact passes_resumeSubstitute h
  | resolving p v => exact passes_resumeResolving h (alive _ rfl)
  | reacting handler derived => exact passes_resumeReacting h
  | adopting p resolver thenFunction => exact passes_resumeAdopting h
  | constructing p => exact passes_resumeConstructing h
  | attaching derived job => exact passes_resumeAttaching h (alive _ rfl)
  | draining loop => exact passes_resumeDraining h spent loop
  | checkpoint loop => exact passes_resumeCheckpoint h spent loop
  | reporting loop reports => exact passes_resumeReporting h spent loop
  | collecting loop sweep record =>
    exact passes_resumeCollecting (h.regroup (by simp [Frame.held, or_comm]))
  | cycling loop => exact passes_resumeCycling h spent loop
  | idling loop => exact passes_resumeIdling h spent loop
  | finishing loop => exact passes_resumeFinishing h spent loop
  | concluding loop => exact passes_resumeConcluding h spent loop

-- ---------------------------------------------------------------------------
-- Steps
-- ---------------------------------------------------------------------------

/-- The activity at the bottom is a step that was given to the machine, and without one the machine is
idle. -/
structure Rooted (m : Machine) : Prop where
  idle : m.stack = [] → ∃ a, m.control = .idle a
  base : ∀ f, m.stack.getLast? = some f → ∃ info operands, f = .command info operands

theorem getLast?_of_suffix {α : Type} {xs ys : List α} (h : xs <:+ ys) (hne : xs ≠ []) :
    ys.getLast? = xs.getLast? := by
  obtain ⟨zs, rfl⟩ := h
  exact List.getLast?_append_of_ne_nil zs hne

/-- What is built on a stack that is not empty has the same bottom. -/
theorem Rooted.of_suffix {xs : List Frame} (hne : xs ≠ [])
    (base : ∀ f, xs.getLast? = some f → ∃ info operands, f = .command info operands)
    (above : xs <:+ m.stack) : m.Rooted where
  idle empty := absurd (List.suffix_nil.mp (empty ▸ above)) hne
  base f hf := base f (getLast?_of_suffix above hne ▸ hf)

theorem Begins.rooted_of (h : m.Begins k m')
    (base : ∀ f, m.stack.getLast? = some f → ∃ info operands, f = .command info operands) :
    m'.Rooted := by
  rcases h.rooted with ⟨same, idle⟩ | ⟨info, operands, above⟩
  · exact ⟨fun empty => idle (same ▸ empty), fun f hf => base f (same ▸ hf)⟩
  · refine .of_suffix (List.cons_ne_nil _ _) (fun f hf => ?_) above
    cases hs : m.stack with
    | nil =>
      rw [hs] at hf
      exact ⟨info, operands, (Option.some.inj hf).symm⟩
    | cons g rest =>
      rw [hs, List.getLast?_cons_cons] at hf
      exact base f (hs ▸ hf)

/-- Activities hand values only to loops that they keep alive. -/
theorem loop?_of_anchor? {f : Frame} {j : LoopId} (h : f.anchor? = some j) : f.loop? = some j := by
  cases f <;> first | exact h | cases h

theorem Balanced.removeLoop (h : m.Balanced k) {l : Loop} (ho : m.orphan? = some l) :
    m.Passes k (m.removeLoop l) := by
  obtain ⟨hl, hk⟩ := orphan?_eq_some h.books.tidy.placed ho
  simp only [keepsLoop, Bool.or_eq_false_iff] at hk
  have orphan : ∀ f ∈ m.stack, f.anchor? ≠ some l.id := fun f hf ha => by
    have free := List.any_eq_false.mp hk.2 f hf
    simp [loop?_of_anchor? ha] at free
  have removed := h.books.removeLoop hl orphan
  have control : (m.removeLoop l).control = m.control := control_drop ..
  have stack : (m.removeLoop l).stack = m.stack := stack_drop ..
  rw [control] at removed
  refine ⟨⟨by rwa [control], fun f this arguments hc a ha => ?_⟩, stack ▸ List.suffix_rfl⟩
  rw [heldByStack, stack]
  exact h.callee f this arguments (control ▸ hc) a ha

/-- What is known of a machine after a step: its books are balanced, it is rooted, and the frames that
were beneath what happened are still there. -/
structure Steps (k : LoopId) (m m' : Machine) : Prop where
  balanced : m'.Balanced k
  rooted : m'.Rooted
  above : m.beneath <:+ m'.stack

theorem Passes.steps (h : m.Passes k m') (root : m.Rooted) (hne : m.stack ≠ [])
    (fewer : m.beneath <:+ m.stack) : m.Steps k m' :=
  ⟨h.balanced, .of_suffix hne root.base h.above, fewer.trans h.above⟩

theorem Balanced.step (h : m.Balanced k) (root : m.Rooted) : m.Steps k m.step := by
  have books := h.books
  have fewer : m.beneath <:+ m.stack := by
    unfold beneath
    split
    · exact List.tail_suffix _
    · exact List.suffix_rfl
  have busy (hc : ∀ a, m.control ≠ .idle a) : m.stack ≠ [] := fun empty => by
    obtain ⟨a, ha⟩ := root.idle empty
    exact hc a ha
  unfold Machine.step
  split
  · rename_i l ho
    have removed := h.removeLoop ho
    have control : (m.removeLoop l).control = m.control := control_drop ..
    have stack : (m.removeLoop l).stack = m.stack := stack_drop ..
    exact ⟨removed.balanced, ⟨by rw [stack, control]; exact root.idle, by rw [stack]; exact root.base⟩,
      fewer.trans removed.above⟩
  · split
    · exact ⟨h, root, fewer⟩
    · rename_i f this arguments hc
      rw [hc] at books
      -- the call's own handle on the function is one too many
      have called : (m.signal .done).Books k (this :: arguments) [] := by
        refine (books.unlend fun a ha => ?_).signal .done
        exact mem_kept_of_stack (h.callee f this arguments hc a ha)
      have entered : m.Passes k ((m.signal .done).enter f this arguments) :=
        (passes_enter called (h.callee f this arguments hc)).of_stack rfl
      exact entered.steps root (busy fun a ha => by rw [hc] at ha; cases ha) fewer
    · rename_i loop s hc
      rw [hc] at books
      have collected : m.Passes k ((m.signal .done).collectNext loop s) :=
        (passes_collectNext (books.signal .done)).of_stack rfl
      exact collected.steps root (busy fun a ha => by rw [hc] at ha; cases ha) fewer
    · rename_i s hc
      rw [hc] at books
      split
      · rename_i hs
        exact absurd hs (busy fun a ha => by rw [hc] at ha; cases ha)
      · rename_i f rest hs
        have popped := (books.pop_due hs).control (.signal .done)
        have alive := fun j => books.tidy.anchored f (hs ▸ List.mem_cons_self ..) j
        have resumed := passes_resume popped rfl alive
        have above : m.beneath = rest := by rw [beneath, hc, hs]; rfl
        refine ⟨resumed.balanced, ?_, above ▸ resumed.above⟩
        cases rest with
        | nil =>
          obtain ⟨info, operands, rfl⟩ := root.base f (by rw [hs]; rfl)
          exact (begins_endSignal popped info).rooted_of fun g hg => by cases hg
        | cons g rest =>
          refine .of_suffix (List.cons_ne_nil _ _) (fun x hx => ?_) resumed.above
          exact root.base x (by rwa [hs, List.getLast?_cons_cons])

/-- Giving an idle machine a command. -/
theorem Balanced.start (h : m.Balanced k) (root : m.Rooted) (idle : m.isIdle = true) (c : Command) :
    (m.start c).Balanced k ∧ (m.start c).Rooted := by
  obtain ⟨a, hc⟩ : ∃ a, m.control = .idle a := by
    unfold isIdle at idle
    split at idle
    · exact ⟨_, ‹_›⟩
    · cases idle
  have books := h.books
  rw [hc] at books
  let ready : Machine := { m with trace := [] }
  have cleared : ready.Books k [] [] := books.trace []
  have spent : ready.control.held = [] := by
    rw [show ready.control = .idle a from hc]
    rfl
  have begun : ready.Begins k (m.start c) := by
    unfold Machine.start
    dsimp only
    split
    · exact begins_beginStep cleared spent _ _
    · exact (passes_beginCommand (m := ready.push (.command .control []))
        (Books.push cleared rfl rfl) spent c).begins
  exact ⟨begun.balanced, begun.rooted_of root.base⟩

/-- The books of every loop are balanced in every reachable machine. -/
theorem Reachable.balanced (h : Reachable m) (k : LoopId) : m.Balanced k ∧ m.Rooted := by
  induction h with
  | boot config tracker bridge =>
    have none (a : Handle) : ¬ ({} : Machine).Has [] a := by
      simp [Has, mem_kept, heldByStack, heldByLoops, heldByObjects, Variables.held, Variables.empty]
    have empty : ({} : Machine).Books k [] [] := by
      refine ⟨⟨placed_empty, ?_, by simp, by simp, by simp [Variables.empty], by simp⟩,
        fun p hp => absurd hp (none _), fun o => iff_of_false (none _) (by simp), fun _ => rfl, ?_⟩
      · intro j l hl
        simp [loop?] at hl
      · intro l hl
        simp [loop?] at hl
    have booted := empty.openLoop "main" config tracker bridge
    refine ⟨⟨booted, fun f this arguments hc => by cases hc⟩, ⟨fun _ => ⟨.done, rfl⟩, ?_⟩⟩
    exact fun f hf => by cases hf
  | start _ idle c ih => exact ih.1.start ih.2 idle c
  | step _ ih =>
    have next := ih.1.step ih.2
    exact ⟨next.balanced, next.rooted⟩

end PromiseLoop.Machine

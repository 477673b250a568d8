import PromiseLoop.Proofs.Handles.Calls

/-!
# Turns keep the books

Jobs take their values over from the queue, reports of background work free a promise from the flight,
and a collection takes over the queue of releases and frees the records one by one.  What a collection
has still to look at counts as queued, so the books stay balanced while it runs, even if the tracker
runs script in the middle of it.

## Results

* `passes_startJob`: the beginning of any job.
* `passes_collectNext`: one step of a collection.
-/

namespace PromiseLoop.Machine

variable {m m' : Machine} {k : LoopId} {extra : List Value}

/-- What a loop holds, the machine holds. -/
theorem mem_kept_of_loop {j : LoopId} {l : Loop} (hl : m.loop? j = some l) {a : Handle}
    (ha : a ∈ handles l.held) : a ∈ handles m.kept := by
  obtain ⟨others, split⟩ := exists_others hl
  exact (split a).1.mpr (.inr ha)

/-- What the frame on top holds, the stack holds. -/
theorem mem_heldByStack_push {f : Frame} {a : Handle} (ha : a ∈ handles f.held) :
    a ∈ handles (m.push f).heldByStack := by
  rw [heldByStack, stack_push, List.flatMap_cons, handles_append]
  exact List.mem_append_left _ ha

theorem mem_heldByStack_push_of_mem {f : Frame} {a : Handle} (ha : a ∈ handles m.heldByStack) :
    a ∈ handles (m.push f).heldByStack := by
  rw [heldByStack, stack_push, List.flatMap_cons, handles_append]
  exact List.mem_append_right _ ha

-- ---------------------------------------------------------------------------
-- Jobs
-- ---------------------------------------------------------------------------

theorem passes_startWork (h : m.Books k [] []) (w : Work) (entry : Entry) :
    m.Passes k (m.startWork w entry) := by
  have pushed : (m.push (.work w.quiet)).Books k [] [] := Books.push h rfl rfl
  have begun : (((m.push (.work w.quiet)).traceEntry entry).push (.block w.body)).Books k [] [] :=
    Books.push (pushed.traceEntry entry) rfl rfl
  refine (passes_signal (s := .done) begun).of_above ?_
  rw [stack_push, stack_traceEntry, stack_push]
  exact (List.suffix_cons ..).trans (List.suffix_cons ..)

theorem passes_startReaction {r : Reaction} {argument : Value}
    (h : m.Books k (r.held ++ [argument]) []) (loop : LoopId) :
    m.Passes k (m.startReaction loop r argument) := by
  unfold startReaction
  split
  · rename_i f hf
    have pushed : (m.push (.reacting f r.derived)).Books k [argument] [] :=
      Books.push (h.regroup (by simp [Frame.held, Reaction.held, hf])) rfl rfl
    refine (passes_invoke (pushed.regroup (by simp)) loop fun a ha => ?_).of_push
    exact mem_heldByStack_push (by simp [Frame.held, ha])
  · rename_i hf
    have pushed : (m.push (.hold [.promise r.derived])).Books k [argument] [] :=
      Books.push (h.regroup (by simp [Frame.held, Reaction.held, hf])) rfl rfl
    dsimp only
    split
    · exact (passes_resolve pushed loop (mem_heldByStack_push (by simp [Frame.held]))).of_push
    · exact (passes_reject pushed loop r.derived).of_push

theorem passes_startAdoption {p : Promise} {thenable thenFunction : Value}
    (h : m.Books k [.promise p, thenable, thenFunction] []) (loop : LoopId) :
    m.Passes k (m.startAdoption loop p thenable thenFunction) := by
  have paired : (m.newPair p).2.Books k [.promise p, thenable, thenFunction] [] :=
    h.of_eq rfl rfl rfl rfl rfl
  let resolver (side : Side) : Value :=
    .function (.resolver { promise := p, guard := (m.newPair p).1, side })
  have pushed : ((m.newPair p).2.push (.adopting p (resolver .reject) thenFunction)).Books k
      (thenable :: [resolver .fulfill, resolver .reject]) [] := by
    refine Books.push (paired.regroup fun q => ?_) rfl rfl
    simp [Frame.held, resolver]
    grind
  refine ((passes_invoke pushed loop fun a ha => ?_).of_push.of_stack rfl : m.Passes k _)
  exact mem_heldByStack_push (by simp [Frame.held, ha])

/-- What a report settles its promise with is held by a variable, if it has a handle at all. -/
theorem mem_kept_of_reportOutcome {l : Loop} {r : WorkResult} {a : Handle}
    (ha : (m.reportOutcome l r).content.handle? = some a) : a ∈ handles m.kept := by
  cases r with
  | success x => exact mem_kept_of_evaluateIn (by simp) ha
  | failure x => exact mem_kept_of_evaluateIn (by simp) ha
  | threadName => cases ha
  | abandoned => cases ha

theorem passes_startSettlement (h : m.Books k [] []) (loop : LoopId) (r : Report) :
    m.Passes k (m.startSettlement loop r) := by
  unfold startSettlement
  cases hl : m.loop? loop with
  | none => exact passes_signal h
  | some l =>
    have lent : m.Books k [(m.reportOutcome l r.result).content] [] :=
      h.lend fun a ha => mem_kept_of_reportOutcome ha
    have landed := (show m.Books k ([] ++ _) [] from lent).setLoop (h.loop?_id hl)
      (Loop.trades_land (h.sound hl) r.promise)
    dsimp only
    split
    · rename_i p hp
      rw [hp] at landed
      have pushed := Books.push (f := .hold [.promise p]) landed rfl rfl
      cases ho : m.reportOutcome l r.result with
      | success v =>
        rw [ho] at pushed
        exact (passes_resolve pushed loop
          (mem_heldByStack_push (by simp [Frame.held]))).of_push.of_stack rfl
      | failure v =>
        rw [ho] at pushed
        exact (passes_reject pushed loop p).of_push.of_stack rfl
    · rename_i hp
      rw [hp] at landed
      exact (passes_drop_done landed).of_stack rfl

theorem passes_startJob {j : Job} (h : m.Books k j.held []) (loop : LoopId) :
    m.Passes k (m.startJob loop j) := by
  cases j with
  | reaction r argument => exact passes_startReaction h loop
  | adoption p thenable thenFunction => exact passes_startAdoption h loop
  | settlement r => exact passes_startSettlement h loop r
  | host w => exact passes_startWork h w _

-- ---------------------------------------------------------------------------
-- Draining
-- ---------------------------------------------------------------------------

theorem passes_endDrain (h : m.Books k [] []) (loop : LoopId) : m.Passes k (m.endDrain loop) :=
  (passes_signal (s := .done) (h.modifyLoop loop Loop.trades_drained)).of_stack rfl

theorem passes_breakDrain (h : m.Books k [] []) (loop : LoopId) (f : Fault) :
    m.Passes k (m.breakDrain loop f) :=
  (passes_signal (s := .fault f) (h.modifyLoop loop Loop.trades_stopDraining)).of_stack rfl

theorem passes_nextMicrotask (h : m.Books k [] []) (loop : LoopId) :
    m.Passes k (m.nextMicrotask loop) := by
  unfold nextMicrotask
  split
  · exact passes_endDrain h loop
  · rename_i j l' hd
    obtain ⟨l, hl, hd⟩ := Option.bind_eq_some_iff.mp hd
    have taken := (show m.Books k ([] ++ []) [] from h).setLoop (h.loop?_id hl)
      (Loop.trades_dequeue? (h.sound hl) hd)
    rw [List.append_nil] at taken
    exact (passes_startJob (Books.push taken rfl rfl) loop).of_push.of_stack rfl

theorem passes_drain (h : m.Books k [] []) (loop : LoopId) : m.Passes k (m.drain loop) := by
  unfold drain
  split
  · exact passes_signal h
  · rename_i l hl
    split
    · exact passes_signal h
    · have begun := Books.push (f := .draining loop)
        (h.update (h.loop?_id hl) (Loop.trades_startDraining (h.sound hl))) rfl rfl
      exact (passes_signal (s := .done) begun).of_push.of_stack rfl

/-- The activity above has ended with nothing or with a value that goes. -/
theorem passes_resumeDraining {s : Signal} (h : m.Books k s.held []) (spent : m.control = .signal .done)
    (loop : LoopId) : m.Passes k (m.resumeDraining loop s) := by
  unfold resumeDraining
  split
  · exact passes_breakDrain h loop _
  · exact (passes_nextMicrotask (h.drop_of_spent spent) loop).of_stack (by simp)

-- ---------------------------------------------------------------------------
-- Collection
-- ---------------------------------------------------------------------------

/-- What a collection has still to look at stays accounted for in its control. -/
theorem passes_drop_sweep {vs : List Value} {loop : LoopId} {s : Sweep}
    (h : m.Books k vs ((Control.collect loop s).pendingOf k)) :
    m.Passes k (drop vs (m.sweep loop s)) := by
  have swept : (m.sweep loop s).Books k (vs ++ (m.sweep loop s).control.held)
      ((Control.collect loop s).pendingOf k) := by
    rw [show (m.sweep loop s).control.held = [] from rfl, List.append_nil]
    exact h.control _
  have dropped := swept.drop
  refine ⟨⟨?_, fun f this arguments hc => ?_⟩, ?_⟩
  · have control : (drop vs (m.sweep loop s)).control = .collect loop s := by simp
    rw [control] at dropped ⊢
    exact dropped
  · rw [control_drop] at hc
    cases hc
  · rw [stack_drop]
    exact List.suffix_rfl

theorem passes_sweep {loop : LoopId} {s : Sweep}
    (h : m.Books k [] ((Control.collect loop s).pendingOf k)) : m.Passes k (m.sweep loop s) := by
  have := passes_drop_sweep h
  rwa [drop_nil] at this

/-- A collection that has nothing left to look at. -/
theorem pendingOf_collect_of_nil {loop : LoopId} {s : Sweep} (hs : s.pending = []) :
    (Control.collect loop s).pendingOf k = [] := by
  simp [Control.pendingOf, hs]

theorem passes_collect (h : m.Books k [] []) (loop : LoopId) : m.Passes k (m.collect loop) := by
  unfold collect
  split
  · exact passes_sweep (by rwa [pendingOf_collect_of_nil rfl])
  · exact passes_signal h

theorem passes_endCheckpoint (h : m.Books k [] []) (loop : LoopId) :
    m.Passes k (m.endCheckpoint loop) := by
  have noted : (m.modifyLoop loop fun l => l.note .checked).Books k [] [] :=
    h.modifyLoop loop fun sound => Loop.trades_note sound _
  exact (passes_signal (s := .done) noted).of_stack rfl

theorem passes_endCollection (h : m.Books k [] []) (loop : LoopId) (s : Sweep) :
    m.Passes k (m.endCollection loop s) := by
  unfold endCollection
  split
  · exact passes_endCheckpoint h loop
  · exact passes_signal h

/-- An id that a collection has still to look at has a record, unless there are too many slots to tell
the ids apart. -/
theorem Books.skipped {loop : LoopId} {s : Sweep} {id : PromiseId} {rest : List PromiseId}
    (h : m.Books k extra ((Control.collect loop s).pendingOf k)) (hs : s.pending = id :: rest)
    (stale : (m.loop? loop).bind (fun l => l.free? id) = none) :
    m.Books k extra ((Control.collect loop { s with pending := rest }).pendingOf k) := by
  by_cases hk : loop = k
  · subst hk
    simp only [Control.pendingOf, if_true, hs] at h ⊢
    refine ⟨h.tidy, h.homed, h.owned, fun new => absurd (h.begun new) (by simp), fun l hl room => ?_⟩
    obtain ⟨⟨r, hr⟩, -⟩ := (h.ledger l hl room).loose id (List.mem_cons_self ..)
    rw [hl, Option.bind_some] at stale
    have found := Loop.free?_eq_some.mpr ⟨hr, rfl⟩
    rw [stale] at found
    cases found
  · simp only [Control.pendingOf, if_neg hk] at h ⊢
    exact h

theorem passes_collectNext {loop : LoopId} {s : Sweep}
    (h : m.Books k [] ((Control.collect loop s).pendingOf k)) :
    m.Passes k (m.collectNext loop s) := by
  unfold collectNext
  split
  · rename_i hs
    rw [pendingOf_collect_of_nil hs] at h
    split
    · exact passes_endCollection h loop s
    · exact passes_endCollection h loop s
    · rename_i released l' _ ht
      obtain ⟨l, hl, ht⟩ := Option.map_eq_some_iff.mp ht
      obtain ⟨rfl, rfl⟩ := Prod.mk.inj ht
      have taken := h.takeReleases (h.loop?_id hl) fun _ => rfl
      rw [h.tidy.placed loop l hl] at taken
      exact (passes_sweep taken).of_stack rfl
  · rename_i id rest hs
    split
    · rename_i stale
      exact passes_sweep (h.skipped hs stale)
    · rename_i r l' hf
      obtain ⟨l, hl, hf⟩ := Option.bind_eq_some_iff.mp hf
      have own := h.tidy.placed loop l hl
      have before : m.Books k [] (if l.id = k then id :: rest else []) := by
        simpa only [Control.pendingOf, hs, own] using h
      have freed := before.freed (h.loop?_id hl) hf
      rw [own] at freed
      dsimp only
      split
      · have collecting : ((m.setLoop l').push
            (.collecting loop { s with pending := rest, count := s.count + 1 } r)).Books k [] [] :=
          Books.push_due freed rfl
        have reason : ∀ a, r.reason.handle? = some a → a ∈ handles ((m.setLoop l').push
            (.collecting loop { s with pending := rest, count := s.count + 1 } r)).heldByStack :=
          fun a ha => mem_heldByStack_push (Record.mem_handles_of_reason ha)
        have pushed := Books.push (f := .hold [r.reason])
          (collecting.lend fun a ha => mem_kept_of_stack (reason a ha)) rfl rfl
        refine (passes_tellUnhandled (pushed.signal .done) rfl loop _ fun a ha => ?_).of_above
          ((List.suffix_cons ..).trans (List.suffix_cons ..))
        exact mem_heldByStack_push (by simp [Frame.held, ha])
      · rw [List.append_nil] at freed
        exact (passes_drop_sweep freed).of_stack rfl

theorem passes_resumeCollecting {loop : LoopId} {sweep : Sweep} {r : Record} {s : Signal}
    (h : m.Books k (s.held ++ r.held) ((Control.collect loop sweep).pendingOf k)) :
    m.Passes k (m.resumeCollecting loop sweep r s) := passes_drop_sweep h

-- ---------------------------------------------------------------------------
-- Reports
-- ---------------------------------------------------------------------------

theorem passes_finishCheckpoint (h : m.Books k [] []) (loop : LoopId) :
    m.Passes k (m.finishCheckpoint loop) := by
  unfold finishCheckpoint
  split
  · exact passes_signal h
  · split
    · exact passes_sweep (by rwa [pendingOf_collect_of_nil rfl])
    · exact passes_endCheckpoint h loop

theorem passes_resumeReporting {reports : List (PromiseId × Value)} {s : Signal}
    (h : m.Books k (reports.map Prod.snd ++ s.held) []) (spent : m.control = .signal .done)
    (loop : LoopId) : m.Passes k (m.resumeReporting loop reports s) := by
  unfold resumeReporting
  split
  · exact (passes_finishCheckpoint (h.drop_of_spent spent) loop).of_stack (by simp)
  · rename_i id reason rest
    have pushed : ((m.push (.reporting loop rest)).push (.hold [reason])).Books k s.held [] :=
      Books.push (Books.push (h.regroup (by simp [Frame.held]; grind)) rfl rfl) rfl rfl
    have dropped := pushed.drop_of_spent spent
    have control : (drop s.held ((m.push (.reporting loop rest)).push (.hold [reason]))).control =
        .signal .done := by simpa using spent
    have stack : (drop s.held ((m.push (.reporting loop rest)).push (.hold [reason]))).stack =
        .hold [reason] :: .reporting loop rest :: m.stack := by simp
    generalize drop s.held ((m.push (.reporting loop rest)).push (.hold [reason])) = ready
      at dropped control stack ⊢
    -- the loop is lent the reason, which stays with the frame
    have held : ∀ a, reason.handle? = some a → a ∈ handles ready.heldByStack :=
      fun a ha => by simp [heldByStack, stack, Frame.held, ha]
    have lent := dropped.lend fun a ha => mem_kept_of_stack (held a ha)
    have reported := (show ready.Books k ([reason] ++ []) [] from lent).modifyLoop_lending loop
      (f := fun l => l.report id reason) fun sound => Loop.trades_report sound id
    have returned : (ready.modifyLoop loop fun l => l.report id reason).Books k [] [] :=
      Books.unlend reported fun a ha => mem_kept_of_stack (held a ha)
    refine (passes_tellUnhandled returned control loop id held).of_above ?_
    rw [stack_modifyLoop, stack]
    exact (List.suffix_cons ..).trans (List.suffix_cons ..)

theorem passes_checkpoint (h : m.Books k [] []) (loop : LoopId) : m.Passes k (m.checkpoint loop) := by
  have delivered := Books.push (f := .checkpoint loop) (h.modifyLoop loop Loop.trades_deliver) rfl rfl
  exact (passes_drain delivered loop).of_push.of_stack rfl

theorem passes_resumeCheckpoint {s : Signal} (h : m.Books k s.held []) (spent : m.control = .signal .done)
    (loop : LoopId) : m.Passes k (m.resumeCheckpoint loop s) := by
  unfold resumeCheckpoint
  split
  · exact passes_signal h
  · have dropped := h.drop_of_spent spent
    dsimp only
    split
    · exact (passes_of_spent dropped (by simpa using spent)).of_stack (by simp)
    · rename_i reports l' ht
      obtain ⟨l, hl, ht⟩ := Option.map_eq_some_iff.mp ht
      obtain ⟨rfl, rfl⟩ := Prod.mk.inj ht
      have trade := Loop.trades_takeReports (dropped.sound hl)
      have selected := dropped.update (dropped.loop?_id hl) trade
      have found := loop?_setLoop_self (dropped.loop?_id hl) trade.id
      -- the records keep their reasons
      have reasons : ((drop s.held m).setLoop l.takeReports.2).Books k
          (l.takeReports.1.map Prod.snd ++ []) [] := selected.borrow fun a ha => by
        obtain ⟨v, hv, ha⟩ := mem_handles.mp ha
        obtain ⟨e, he, rfl⟩ := List.mem_map.mp hv
        have kept := (trade.held a).mpr (.inl (Loop.mem_handles_of_takeReports he ha))
        exact mem_kept_of_loop found (by simpa using kept)
      have begun := Books.push (f := .reporting loop l.takeReports.1) reasons rfl rfl
      exact (passes_of_spent begun (by simpa using spent)).of_push.of_stack (by simp)

-- ---------------------------------------------------------------------------
-- Cycles
-- ---------------------------------------------------------------------------

theorem passes_cycle (h : m.Books k [] []) (loop : LoopId) : m.Passes k (m.cycle loop) := by
  have delivered := h.modifyLoop loop Loop.trades_deliver
  unfold cycle
  dsimp only
  split
  · exact (passes_checkpoint delivered loop).of_stack rfl
  · rename_i w l' hd
    obtain ⟨l, hl, hd⟩ := Option.bind_eq_some_iff.mp hd
    have taken := Books.push (f := .cycling loop) (delivered.update (delivered.loop?_id hl)
      (Loop.trades_dequeueTask? (delivered.sound hl) hd)) rfl rfl
    exact (passes_startWork taken w _).of_push.of_stack rfl

theorem passes_resumeCycling {s : Signal} (h : m.Books k s.held []) (spent : m.control = .signal .done)
    (loop : LoopId) : m.Passes k (m.resumeCycling loop s) := by
  unfold resumeCycling
  split
  · exact passes_signal h
  · exact (passes_checkpoint (h.drop_of_spent spent) loop).of_stack (by simp)

theorem passes_idle (h : m.Books k [] []) (loop : LoopId) : m.Passes k (m.idle loop) :=
  (passes_cycle (Books.push h rfl rfl) loop).of_push

theorem passes_resumeIdling {s : Signal} (h : m.Books k s.held []) (spent : m.control = .signal .done)
    (loop : LoopId) : m.Passes k (m.resumeIdling loop s) := by
  unfold resumeIdling
  split
  · exact passes_signal h
  · have dropped := h.drop_of_spent spent
    dsimp only
    split
    · exact (passes_of_spent dropped (by simpa using spent)).of_stack (by simp)
    · exact (passes_idle dropped loop).of_stack (by simp)

theorem passes_finish (h : m.Books k [] []) (loop : LoopId) : m.Passes k (m.finish loop) :=
  (passes_idle (Books.push h rfl rfl) loop).of_push

theorem passes_resumeFinishing {s : Signal} (h : m.Books k s.held []) (spent : m.control = .signal .done)
    (loop : LoopId) : m.Passes k (m.resumeFinishing loop s) := by
  unfold resumeFinishing
  split
  · exact passes_signal h
  · have dropped := h.drop_of_spent spent
    have still : (drop s.held m).control = .signal .done := by simpa using spent
    dsimp only
    split
    · exact (passes_of_spent dropped still).of_stack (by simp)
    · rename_i l hl
      split
      · exact (passes_of_spent dropped still).of_stack (by simp)
      · split
        · rename_i l' hr
          exact (passes_finish (dropped.update (dropped.loop?_id hl)
            (Loop.trades_receive? (dropped.sound hl) hr)) loop).of_stack (by simp)
        · exact (passes_of_spent (Books.push dropped rfl rfl) still).of_push.of_stack (by simp)

theorem passes_conclude (h : m.Books k [] []) (loop : LoopId) : m.Passes k (m.conclude loop) := by
  unfold conclude
  split
  · exact passes_finish h loop
  · exact (passes_idle (Books.push h rfl rfl) loop).of_push

theorem passes_resumeConcluding {s : Signal} (h : m.Books k s.held []) (spent : m.control = .signal .done)
    (loop : LoopId) : m.Passes k (m.resumeConcluding loop s) := by
  unfold resumeConcluding
  split
  · exact passes_signal h
  · exact (passes_conclude ((h.drop_of_spent spent).modifyLoop loop Loop.trades_releaseWorker)
      loop).of_stack (by simp)

end PromiseLoop.Machine

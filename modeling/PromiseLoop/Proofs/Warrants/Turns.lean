import PromiseLoop.Proofs.Handles.Turns
import PromiseLoop.Proofs.Warrants.Calls

/-!
# Turns and warrants

An adoption that leaves the queue brings its warrant along, and puts it into the pair of functions that
it hands to the thenable.  No other turn of a loop deals with warrants.  A collection frees records, but
only those of promises that nobody holds.

## Results

* `orderly_startJob`: the beginning of any job.
* `orderly_collectNext`: one step of a collection.
-/

namespace PromiseLoop.Machine

variable {m m' : Machine} {k : LoopId} {ks : List Mark} {p : Promise} {v : Value}

-- ---------------------------------------------------------------------------
-- Jobs
-- ---------------------------------------------------------------------------

theorem orderly_startWork (h : m.Warranted k ks none) (w : Work) (entry : Entry) :
    Orderly k (m.startWork w entry) := by
  have pushed := (h.push (f := .work w.quiet) known_nil rfl).traceEntry entry
  exact orderly_signal (pushed.push (f := .block w.body) known_nil rfl) known_nil

theorem orderly_startReaction (h : m.Warranted k ks none) (loop : LoopId) {r : Reaction}
    {argument : Value} (held : Known ks (r.held ++ [argument])) :
    Orderly k (m.startReaction loop r argument) := by
  unfold startReaction
  simp only [Reaction.held, known_append, known_cons, known_nil, Value.known_promise, and_true] at held
  obtain ⟨⟨handler, derived⟩, argument⟩ := held
  split
  · rename_i f hf
    have known : f.Known ks := handler.of_mem_toList hf
    have pushed := h.push (f := .reacting f r.derived) (by simp [Frame.held, known, derived]) rfl
    exact orderly_invoke pushed loop (by simp [known, argument])
  · have pushed := h.push (f := .hold [.promise r.derived]) (by simp [Frame.held, derived]) rfl
    dsimp only
    split
    · exact orderly_resolve pushed loop ⟨_, derived⟩ argument
    · exact orderly_reject pushed loop ⟨_, derived⟩ argument

/-- An adoption puts its warrant into a fresh pair of functions. -/
theorem orderly_startAdoption (h : m.Warranted k ks (some p)) (loop : LoopId) {thenable thenFunction : Value}
    (held : Known ks [.promise p, thenable, thenFunction]) :
    Orderly k (m.startAdoption loop p thenable thenFunction) := by
  have known := held.mono (List.subset_cons_self ⟨p, some m.pairs.length⟩ ks)
  simp only [known_cons, known_nil, and_true] at known
  let resolver (side : Side) : Value :=
    .function (.resolver { promise := p, guard := (m.newPair p).1, side })
  have function (side : Side) : (resolver side).Known (⟨p, some m.pairs.length⟩ :: ks) :=
    Value.known_resolver.mpr (List.mem_cons_self ..)
  have pushed := h.newPair.push (f := .adopting p (resolver .reject) thenFunction)
    (known_cons.mpr ⟨function _, known_cons.mpr ⟨known.2.2, known_cons.mpr ⟨known.1, known_nil⟩⟩⟩) rfl
  exact orderly_invoke pushed loop (known_cons.mpr ⟨known.2.2, known_cons.mpr ⟨known.2.1,
    known_cons.mpr ⟨function _, known_cons.mpr ⟨function _, known_nil⟩⟩⟩⟩)

theorem Warranted.reportOutcome {right : Option Promise} (h : m.Warranted k ks right) (l : Loop)
    (r : WorkResult) : (m.reportOutcome l r).content.Known ks := by
  cases r with
  | success x => exact h.evaluateIn (by simp) x
  | failure x => exact h.evaluateIn (by simp) x
  | threadName => exact Value.known_text _
  | abandoned => exact Value.known_error _

/-- A promise that lands was held by the flight. -/
theorem Warranted.land (h : m.Warranted k ks none) {loop : LoopId} {l : Loop}
    (hl : m.loop? loop = some l) (id : PromiseId) :
    (m.setLoop (l.land id).2).Warranted k ks none ∧ Known ks ((l.land id).1.toList.map .promise) := by
  have held := h.loops loop l hl
  rw [Loop.known_held] at held
  have fewer {q : Promise} (hq : q ∈ l.inFlight) : (Value.promise q).Known ks :=
    held.2.2.1 _ (List.mem_map_of_mem hq)
  refine ⟨h.setLoop (h.loop?_id hl) (Loop.mild_of_heap rfl rfl rfl rfl) ?_, fun v hv => ?_⟩
  · rw [Loop.known_held]
    refine ⟨held.1, held.2.1, fun v hv => ?_, held.2.2.2⟩
    obtain ⟨q, hq, rfl⟩ := List.mem_map.mp hv
    exact fewer (List.mem_of_mem_eraseP hq)
  · obtain ⟨q, hq, rfl⟩ := List.mem_map.mp hv
    exact fewer (List.mem_of_find?_eq_some (Option.mem_toList.mp hq))

theorem orderly_startSettlement (h : m.Warranted k ks none) (loop : LoopId) (r : Report) :
    Orderly k (m.startSettlement loop r) := by
  unfold startSettlement
  cases hl : m.loop? loop with
  | none => exact orderly_signal h known_nil
  | some l =>
    have outcome := h.reportOutcome l r.result
    obtain ⟨landed, flown⟩ := h.land hl r.promise
    dsimp only
    split
    · rename_i p hp
      rw [hp] at flown
      have pushed := landed.push (f := .hold [.promise p]) (by simpa [Frame.held] using flown) rfl
      have known : ⟨p, none⟩ ∈ ks := by simpa using flown
      cases ho : m.reportOutcome l r.result with
      | success v =>
        rw [ho] at outcome
        exact orderly_resolve pushed loop ⟨_, known⟩ outcome
      | failure v =>
        rw [ho] at outcome
        exact orderly_reject pushed loop ⟨_, known⟩ outcome
    · exact orderly_drop_signal landed _ known_nil

theorem orderly_startJob {j : Job} (h : m.Warranted k ks j.warrant?) (loop : LoopId)
    (held : Known ks j.held) : Orderly k (m.startJob loop j) := by
  cases j with
  | reaction r argument => exact orderly_startReaction h loop held
  | adoption p thenable thenFunction => exact orderly_startAdoption h loop held
  | settlement r => exact orderly_startSettlement h loop r
  | host w => exact orderly_startWork h w _

-- ---------------------------------------------------------------------------
-- Draining
-- ---------------------------------------------------------------------------

theorem Warranted.modify_state {right : Option Promise} (h : m.Warranted k ks right) (id : LoopId)
    {f : Loop → Loop} (mild : ∀ l : Loop, l.Mild (f l)) (held : ∀ l : Loop, (f l).held = l.held) :
    (m.modifyLoop id f).Warranted k ks right :=
  h.modifyLoop id mild fun l known => by rwa [held]

theorem orderly_endDrain (h : m.Warranted k ks none) (loop : LoopId) : Orderly k (m.endDrain loop) :=
  orderly_signal (h.modify_state loop (f := fun l => l.stopDraining.note .drained)
    (fun _ => Loop.mild_of_heap rfl rfl rfl rfl) fun _ => rfl) known_nil

theorem orderly_nextMicrotask (h : m.Warranted k ks none) (loop : LoopId) :
    Orderly k (m.nextMicrotask loop) := by
  unfold nextMicrotask
  split
  · exact orderly_endDrain h loop
  · rename_i j l' hd
    obtain ⟨l, hl, hd⟩ := Option.bind_eq_some_iff.mp hd
    obtain ⟨taken, held, -⟩ := h.dequeue (h.loop?_id hl) hd
    exact orderly_startJob (taken.push (f := .draining loop) known_nil rfl) loop held

theorem orderly_drain (h : m.Warranted k ks none) (loop : LoopId) : Orderly k (m.drain loop) := by
  unfold drain
  split
  · exact orderly_signal h known_nil
  · rename_i l hl
    split
    · exact orderly_signal h known_nil
    · have begun := h.setLoop (h.loop?_id hl)
        (show l.Mild l.startDraining from Loop.mild_of_heap rfl rfl rfl rfl) (h.loops loop l hl)
      exact orderly_signal (begun.push (f := .draining loop) known_nil rfl) known_nil

theorem orderly_resumeDraining (h : m.Warranted k ks none) (loop : LoopId) (s : Signal) :
    Orderly k (m.resumeDraining loop s) := by
  unfold resumeDraining
  split
  · exact orderly_signal (h.modify_state loop (f := Loop.stopDraining)
      (fun _ => Loop.mild_of_heap rfl rfl rfl rfl) fun _ => rfl) known_nil
  · exact orderly_nextMicrotask (h.drop _) loop

-- ---------------------------------------------------------------------------
-- Collection
-- ---------------------------------------------------------------------------

theorem orderly_sweep (h : m.Warranted k ks none) (loop : LoopId) (s : Sweep) :
    Orderly k (m.sweep loop s) := ⟨ks, h.control _, known_nil⟩

theorem orderly_drop_sweep (h : m.Warranted k ks none) (vs : List Value) (loop : LoopId) (s : Sweep) :
    Orderly k (drop vs (m.sweep loop s)) :=
  ⟨ks, Warranted.drop (h.control _) vs, by rw [control_drop]; exact known_nil⟩

theorem orderly_collect (h : m.Warranted k ks none) (loop : LoopId) : Orderly k (m.collect loop) := by
  unfold collect
  split
  · exact orderly_sweep h loop _
  · exact orderly_signal h known_nil

theorem orderly_endCheckpoint (h : m.Warranted k ks none) (loop : LoopId) :
    Orderly k (m.endCheckpoint loop) := orderly_signal (h.note loop (e := fun _ => .checked)) known_nil

theorem orderly_endCollection (h : m.Warranted k ks none) (loop : LoopId) (s : Sweep) :
    Orderly k (m.endCollection loop s) := by
  unfold endCollection
  split
  · exact orderly_endCheckpoint h loop
  · exact orderly_signal h known_nil

/-- A collection frees a record only if nobody holds its promise. -/
theorem orderly_collectNext (h : m.Warranted k ks none) {loop : LoopId} {s : Sweep}
    (loose : ∀ l, loop = k → m.loop? k = some l → l.heap.slots.length < 2 ^ 32 →
      ∀ id ∈ s.pending, ∀ p, Knows ks k p → p.id ≠ id) : Orderly k (m.collectNext loop s) := by
  unfold collectNext
  split
  · split
    · exact orderly_endCollection h loop s
    · exact orderly_endCollection h loop s
    · rename_i released l' _ ht
      obtain ⟨l, hl, ht⟩ := Option.map_eq_some_iff.mp ht
      obtain ⟨rfl, rfl⟩ := Prod.mk.inj ht
      exact orderly_sweep (h.setLoop (h.loop?_id hl)
        (show l.Mild l.takeReleases.2 from Loop.mild_of_heap rfl rfl rfl rfl) (h.loops loop l hl)) loop _
  · rename_i id rest hs
    split
    · exact orderly_sweep h loop _
    · rename_i r l' hf
      obtain ⟨l, hl, hf⟩ := Option.bind_eq_some_iff.mp hf
      have own := h.placed loop l hl
      have freed : (m.setLoop l').Warranted k ks none := by
        refine h.freed (h.loop?_id hl) hf fun hk room p hp => ?_
        have same : loop = k := own.symm.trans hk
        exact loose l same (same ▸ hl) room id (by rw [hs]; exact List.mem_cons_self ..) p hp
      have record : Known ks r.held := (Loop.known_free? (h.loops loop l hl) hf).2
      have reason := Record.known_reason record
      dsimp only
      split
      · have begun := (freed.push (f := .collecting loop { s with pending := rest, count := s.count + 1 } r)
          record rfl).push (f := .hold [r.reason]) (by simpa [Frame.held] using reason) rfl
        exact orderly_tellUnhandled (begun.signal .done) rfl loop _ reason
      · exact orderly_drop_sweep freed _ loop _

theorem orderly_resumeCollecting (h : m.Warranted k ks none) (loop : LoopId) (sweep : Sweep) (r : Record)
    (s : Signal) : Orderly k (m.resumeCollecting loop sweep r s) := orderly_drop_sweep h _ loop sweep

-- ---------------------------------------------------------------------------
-- Reports
-- ---------------------------------------------------------------------------

theorem orderly_finishCheckpoint (h : m.Warranted k ks none) (loop : LoopId) :
    Orderly k (m.finishCheckpoint loop) := by
  unfold finishCheckpoint
  split
  · exact orderly_signal h known_nil
  · split
    · exact orderly_sweep h loop _
    · exact orderly_endCheckpoint h loop

theorem orderly_resumeReporting (h : m.Warranted k ks none) (spent : m.control = .signal .done)
    (loop : LoopId) {reports : List (PromiseId × Value)} (held : Known ks (reports.map Prod.snd))
    (s : Signal) : Orderly k (m.resumeReporting loop reports s) := by
  unfold resumeReporting
  split
  · exact orderly_finishCheckpoint (h.drop _) loop
  · rename_i id reason rest
    obtain ⟨known, others⟩ : reason.Known ks ∧ Known ks (rest.map Prod.snd) := by simpa using held
    have pushed := (h.push (f := .reporting loop rest) others rfl).push (f := .hold [reason])
      (by simpa [Frame.held] using known) rfl
    have reported := (pushed.drop s.held).modifyLoop loop (f := fun l => l.report id reason)
      (fun l => l.mild_report id reason) fun _ h => Loop.known_report h id known
    exact orderly_tellUnhandled reported (by simpa using spent) loop id known

theorem orderly_checkpoint (h : m.Warranted k ks none) (loop : LoopId) :
    Orderly k (m.checkpoint loop) := by
  have delivered := h.modifyLoop loop (fun l => l.mild_deliver) fun l held => l.known_deliver held
  exact orderly_drain (delivered.push (f := .checkpoint loop) known_nil rfl) loop

theorem orderly_resumeCheckpoint (h : m.Warranted k ks none) (spent : m.control = .signal .done)
    (loop : LoopId) (s : Signal) : Orderly k (m.resumeCheckpoint loop s) := by
  unfold resumeCheckpoint
  split
  · exact orderly_signal h known_nil
  · have dropped := h.drop s.held
    dsimp only
    split
    · exact orderly_of_spent dropped (by simpa using spent)
    · rename_i reports l' ht
      obtain ⟨l, hl, ht⟩ := Option.map_eq_some_iff.mp ht
      obtain ⟨rfl, rfl⟩ := Prod.mk.inj ht
      have known := Loop.known_takeReports (dropped.loops loop l hl)
      have selected := dropped.setLoop (dropped.loop?_id hl) l.mild_takeReports known.1
      exact orderly_of_spent (selected.push (f := .reporting loop l.takeReports.1) known.2 rfl)
        (by simpa using spent)

-- ---------------------------------------------------------------------------
-- Cycles
-- ---------------------------------------------------------------------------

theorem orderly_cycle (h : m.Warranted k ks none) (loop : LoopId) : Orderly k (m.cycle loop) := by
  have delivered := h.modifyLoop loop (fun l => l.mild_deliver) fun l held => l.known_deliver held
  unfold cycle
  dsimp only
  split
  · exact orderly_checkpoint delivered loop
  · rename_i w l' hd
    obtain ⟨l, hl, hd⟩ := Option.bind_eq_some_iff.mp hd
    have held : Known ks l'.held := by
      obtain ⟨⟨w', q⟩, -, heq⟩ := Option.map_eq_some_iff.mp hd
      rw [← (Prod.mk.inj heq).2]
      exact delivered.loops loop l hl
    have taken := delivered.setLoop (delivered.loop?_id hl) (Loop.mild_dequeueTask? hd) held
    exact orderly_startWork (taken.push (f := .cycling loop) known_nil rfl) w _

theorem orderly_resumeCycling (h : m.Warranted k ks none) (loop : LoopId) (s : Signal) :
    Orderly k (m.resumeCycling loop s) := by
  unfold resumeCycling
  split
  · exact orderly_signal h known_nil
  · exact orderly_checkpoint (h.drop _) loop

theorem orderly_idle (h : m.Warranted k ks none) (loop : LoopId) : Orderly k (m.idle loop) :=
  orderly_cycle (h.push (f := .idling loop) known_nil rfl) loop

theorem orderly_resumeIdling (h : m.Warranted k ks none) (spent : m.control = .signal .done)
    (loop : LoopId) (s : Signal) : Orderly k (m.resumeIdling loop s) := by
  unfold resumeIdling
  split
  · exact orderly_signal h known_nil
  · dsimp only
    split
    · exact orderly_of_spent (h.drop _) (by simpa using spent)
    · exact orderly_idle (h.drop _) loop

theorem orderly_finish (h : m.Warranted k ks none) (loop : LoopId) : Orderly k (m.finish loop) :=
  orderly_idle (h.push (f := .finishing loop) known_nil rfl) loop

theorem orderly_resumeFinishing (h : m.Warranted k ks none) (spent : m.control = .signal .done)
    (loop : LoopId) (s : Signal) : Orderly k (m.resumeFinishing loop s) := by
  unfold resumeFinishing
  split
  · exact orderly_signal h known_nil
  · have dropped := h.drop s.held
    have still : (drop s.held m).control = .signal .done := by simpa using spent
    dsimp only
    split
    · exact orderly_of_spent dropped still
    · rename_i l hl
      split
      · exact orderly_of_spent dropped still
      · split
        · rename_i l' hr
          exact orderly_finish (dropped.setLoop (dropped.loop?_id hl) (Loop.mild_receive? hr)
            (Loop.known_receive? (dropped.loops loop l hl) hr)) loop
        · exact orderly_of_spent (dropped.push (f := .finishing loop) known_nil rfl) still

theorem orderly_conclude (h : m.Warranted k ks none) (loop : LoopId) : Orderly k (m.conclude loop) := by
  unfold conclude
  split
  · exact orderly_finish h loop
  · exact orderly_idle (h.push (f := .concluding loop) known_nil rfl) loop

theorem orderly_resumeConcluding (h : m.Warranted k ks none) (loop : LoopId) (s : Signal) :
    Orderly k (m.resumeConcluding loop s) := by
  unfold resumeConcluding
  split
  · exact orderly_signal h known_nil
  · exact orderly_conclude ((h.drop _).modify_state loop (fun l => l.mild_releaseWorker)
      fun l => l.held_releaseWorker) loop

end PromiseLoop.Machine

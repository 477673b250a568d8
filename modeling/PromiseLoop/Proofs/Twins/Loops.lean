import PromiseLoop.Proofs.Records

/-!
# Loops that look alike

Two loops that differ in little more than the times at which something has happened to them cannot be
told apart by any script: nobody reads from a history when handlers were registered, or which attempts to
resolve a promise there were.  Neither does it matter whether the list of rejections that await a report
has the id of a record that does not await one.  Loops are *alike* if they differ in nothing else, and if
no promise in them was ever fulfilled with a promise of the same loop.  Every operation of a loop makes
alike loops of alike loops.

## Results

* `Loop.Alike.change`: how an operation is shown to keep loops alike.
* `Loop.Alike.settle`, `Loop.Alike.attach`, `Loop.Alike.takeReports`: the operations that are not evident.
-/

namespace PromiseLoop

-- ---------------------------------------------------------------------------
-- What can be found out about a history
-- ---------------------------------------------------------------------------

/-- Whether an event only says when something was asked of a loop. -/
def Event.isTiming : Event → Bool
  | .attempted _ _ => true
  | .attached _ _ _ _ => true
  | .returned _ => true
  | _ => false

/-- A history without the events that only say when something was asked of the loop. -/
def untimed (history : List Event) : List Event := history.filter fun e => !e.isTiming

@[simp] theorem untimed_append (newer history : List Event) :
    untimed (newer ++ history) = untimed newer ++ untimed history := List.filter_append ..

@[simp] theorem untimed_cons (e : Event) (history : List Event) :
    untimed (e :: history) = if e.isTiming then untimed history else e :: untimed history := by
  cases h : e.isTiming <;> simp [untimed, h]

/-- The record of an id in a loop that may be on the list of rejections that await a report without
awaiting one. -/
abbrev Gap := Option (LoopId × PromiseId)

namespace Loop

variable {gap : Gap} {l l' x x' : Loop}

/-- Whether an id is no exception in the list of rejections that await a report. -/
def IsCounted (gap : Gap) (k : LoopId) (id : PromiseId) : Bool := gap ≠ some (k, id)

/-- No promise of the loop was ever fulfilled with another one. -/
def Flat (l : Loop) : Prop := ∀ id v, Event.settled id .fulfilled v ∈ l.history → l.ownPromise? v = none

/-- No script can tell two loops apart. -/
structure Alike (gap : Gap) (l l' : Loop) : Prop where
  same : l' = { l with awaiting := l'.awaiting, history := l'.history }
  awaiting : l'.awaiting.filter (IsCounted gap l.id) = l.awaiting.filter (IsCounted gap l.id)
  history : untimed l'.history = untimed l.history
  flat : l.Flat

/-- A loop without a past is alike itself. -/
theorem Alike.refl (gap : Gap) (flat : l.Flat) : l.Alike gap l := ⟨rfl, rfl, rfl, flat⟩

-- ---------------------------------------------------------------------------
-- What is the same
-- ---------------------------------------------------------------------------

namespace Alike

theorem id (h : l.Alike gap l') : l'.id = l.id := by rw [h.same]

theorem config (h : l.Alike gap l') : l'.config = l.config := by rw [h.same]

theorem bridge (h : l.Alike gap l') : l'.bridge = l.bridge := by rw [h.same]

theorem tracker (h : l.Alike gap l') : l'.tracker = l.tracker := by rw [h.same]

theorem heap (h : l.Alike gap l') : l'.heap = l.heap := by rw [h.same]

theorem draining (h : l.Alike gap l') : l'.draining = l.draining := by rw [h.same]

theorem workers (h : l.Alike gap l') : l'.workers = l.workers := by rw [h.same]

theorem waiting (h : l.Alike gap l') : l'.waiting = l.waiting := by rw [h.same]

theorem held (h : l.Alike gap l') : l'.held = l.held := by rw [h.same]; rfl

theorem isIdle (h : l.Alike gap l') : l'.isIdle = l.isIdle := by rw [h.same]; rfl

theorem record (h : l.Alike gap l') (p : Promise) : l'.record p = l.record p := by rw [h.same]; rfl

theorem ownPromise? (h : l.Alike gap l') (v : Value) : l'.ownPromise? v = l.ownPromise? v := by
  rw [h.same]
  rfl

theorem loopHolds (h : l.Alike gap l') (a : Handle) : Machine.loopHolds a l' = Machine.loopHolds a l := by
  rw [h.same]
  rfl

/-- Questions to a bridge are no secret. -/
theorem bridgeCounts (h : l.Alike gap l') : l'.bridgeCounts = l.bridgeCounts := by
  have counted (P : Event → Bool) (openly : ∀ e, P e = true → e.isTiming = false) :
      l'.history.countP P = l.history.countP P := by
    have kept (history : List Event) : history.countP P = (untimed history).countP P := by
      rw [untimed, List.countP_filter]
      refine List.countP_congr fun e _ => ?_
      cases hP : P e with
      | false => simp
      | true => simp [openly e hP]
    rw [kept l'.history, kept l.history, h.history]
  unfold Loop.bridgeCounts
  rw [h.bridge]
  congr 2
  · exact counted _ fun e he => by cases e <;> first | rfl | cases he
  · exact counted _ fun e he => by cases e <;> first | rfl | cases he

-- ---------------------------------------------------------------------------
-- What operations do
-- ---------------------------------------------------------------------------

/-- An operation keeps loops alike if it does the same to both and adds the same to their lists. -/
theorem change (h : l.Alike gap l') (same : x' = { x with awaiting := x'.awaiting, history := x'.history })
    (id : x.id = l.id) (more : List PromiseId) (awaiting : x.awaiting = l.awaiting ++ more)
    (awaiting' : x'.awaiting = l'.awaiting ++ more) (newer newer' : List Event)
    (history : x.history = newer ++ l.history) (history' : x'.history = newer' ++ l'.history)
    (agree : untimed newer' = untimed newer)
    (flat : ∀ i v, Event.settled i .fulfilled v ∈ newer → l.ownPromise? v = none) : x.Alike gap x' where
  same := same
  awaiting := by rw [id, awaiting, awaiting', List.filter_append, List.filter_append, h.awaiting]
  history := by rw [history, history', untimed_append, untimed_append, agree, h.history]
  flat i v hv := by
    have own : x.ownPromise? v = l.ownPromise? v := by
      unfold Loop.ownPromise? owns
      rw [id]
    rw [own]
    rw [history, List.mem_append] at hv
    exact hv.elim (flat i v) (h.flat i v)

/-- An operation that leaves the list of rejections alone and settles nothing. -/
theorem of_events (h : l.Alike gap l') (same : x' = { x with awaiting := x'.awaiting, history := x'.history })
    (id : x.id = l.id) (awaiting : x.awaiting = l.awaiting) (awaiting' : x'.awaiting = l'.awaiting)
    (newer : List Event) (history : x.history = newer ++ l.history)
    (history' : x'.history = newer ++ l'.history)
    (unsettled : ∀ i s v, Event.settled i s v ∉ newer) : x.Alike gap x' :=
  h.change same id [] (by simpa using awaiting) (by simpa using awaiting') newer newer history history' rfl
    fun i v hv => absurd hv (unsettled i _ v)

/-- An operation that adds nothing to the history. -/
theorem of_eq (h : l.Alike gap l') (same : x' = { x with awaiting := x'.awaiting, history := x'.history })
    (id : x.id = l.id) (awaiting : x.awaiting = l.awaiting) (awaiting' : x'.awaiting = l'.awaiting)
    (history : x.history = l.history) (history' : x'.history = l'.history) : x.Alike gap x' :=
  h.of_events same id awaiting awaiting' [] history history' fun _ _ _ => by simp

theorem note (h : l.Alike gap l') {e : Event} (unsettled : ∀ i s v, e ≠ .settled i s v) :
    (l.note e).Alike gap (l'.note e) :=
  h.of_events (by rw [h.same]; rfl) rfl rfl rfl [e] rfl rfl fun i s v hv =>
    unsettled i s v (List.mem_singleton.mp hv).symm

theorem enqueue (h : l.Alike gap l') (j : Job) : (l.enqueue j).Alike gap (l'.enqueue j) :=
  h.of_events (by rw [h.same]; rfl) rfl rfl rfl [.queued j] rfl rfl fun _ _ _ => by simp

theorem enqueueTask (h : l.Alike gap l') (w : Work) : (l.enqueueTask w).Alike gap (l'.enqueueTask w) :=
  h.of_events (by rw [h.same]; rfl) rfl rfl rfl [.taskQueued w] rfl rfl fun _ _ _ => by simp

theorem startDraining (h : l.Alike gap l') : l.startDraining.Alike gap l'.startDraining :=
  h.of_eq (by rw [h.same]; rfl) rfl rfl rfl rfl rfl

theorem stopDraining (h : l.Alike gap l') : l.stopDraining.Alike gap l'.stopDraining :=
  h.of_eq (by rw [h.same]; rfl) rfl rfl rfl rfl rfl

theorem release (h : l.Alike gap l') (id : PromiseId) : (l.release id).Alike gap (l'.release id) :=
  h.of_eq (by rw [h.same]; rfl) rfl rfl rfl rfl rfl

theorem takeReleases (h : l.Alike gap l') : l'.takeReleases.1 = l.takeReleases.1 ∧
    l.takeReleases.2.Alike gap l'.takeReleases.2 :=
  ⟨by rw [h.same]; rfl, h.of_eq (by rw [h.same]; rfl) rfl rfl rfl rfl rfl⟩

theorem post (h : l.Alike gap l') (r : Report) : (l.post r).Alike gap (l'.post r) :=
  h.of_events (by rw [h.same]; rfl) rfl rfl rfl [.posted r] rfl rfl fun _ _ _ => by simp

theorem addWorker (h : l.Alike gap l') (p : Promise) : (l.addWorker p).Alike gap (l'.addWorker p) :=
  h.of_events (by rw [h.same]; rfl) rfl rfl rfl [.spawned p] rfl rfl fun _ _ _ => by simp

theorem addWaiting (h : l.Alike gap l') (r : Report) : (l.addWaiting r).Alike gap (l'.addWaiting r) :=
  h.of_eq (by rw [h.same]; rfl) rfl rfl rfl rfl rfl

theorem land (h : l.Alike gap l') (id : PromiseId) : (l'.land id).1 = (l.land id).1 ∧
    (l.land id).2.Alike gap (l'.land id).2 :=
  ⟨by rw [h.same]; rfl, h.of_eq (by rw [h.same]; rfl) rfl rfl rfl rfl rfl⟩

theorem newPromise (h : l.Alike gap l') : l'.newPromise.1 = l.newPromise.1 ∧
    l.newPromise.2.Alike gap l'.newPromise.2 :=
  ⟨by rw [h.same]; rfl, h.of_eq (by rw [h.same]; rfl) rfl rfl rfl rfl rfl⟩

theorem openFlight (h : l.Alike gap l') : l'.openFlight.1 = l.openFlight.1 ∧
    l.openFlight.2.Alike gap l'.openFlight.2 :=
  ⟨by rw [h.same]; rfl, h.of_eq (by rw [h.same]; rfl) rfl rfl rfl rfl rfl⟩

theorem deliver (h : l.Alike gap l') : l.deliver.Alike gap l'.deliver := by
  rw [deliver_eq, deliver_eq]
  exact h.of_events (by rw [h.same]) rfl rfl rfl _ rfl (by rw [h.same]) fun _ _ _ => by simp

theorem releaseWorker (h : l.Alike gap l') : l'.releaseWorker.1 = l.releaseWorker.1 ∧
    l.releaseWorker.2.Alike gap l'.releaseWorker.2 := by
  unfold Loop.releaseWorker
  rw [h.waiting]
  split
  · exact ⟨rfl, h⟩
  · rename_i r rest _
    have shortened : Loop.Alike gap { l with waiting := rest } { l' with waiting := rest } :=
      h.of_eq (by rw [h.same]) rfl rfl rfl rfl rfl
    exact ⟨rfl, shortened.post r⟩

theorem receive? (h : l.Alike gap l') : Option.Rel (Alike gap) l.receive? l'.receive? := by
  have channel : l'.channel = l.channel := by rw [h.same]
  unfold Loop.receive?
  rw [channel]
  split
  · exact .none
  · rename_i r rest _
    have shortened : Loop.Alike gap { l with channel := rest } { l' with channel := rest } :=
      h.of_eq (by rw [h.same]) rfl rfl rfl rfl rfl
    exact .some (shortened.enqueue _)

/-- The microtasks are the same. -/
theorem dequeue? (h : l.Alike gap l') : l.dequeue? = none ∧ l'.dequeue? = none ∨
    ∃ j x x', l.dequeue? = some (j, x) ∧ l'.dequeue? = some (j, x') ∧ x.Alike gap x' := by
  have microtasks : l'.microtasks = l.microtasks := by rw [h.same]
  unfold Loop.dequeue?
  rw [microtasks]
  cases hd : l.microtasks.dequeue? with
  | none => exact .inl ⟨rfl, rfl⟩
  | some taken =>
    refine .inr ⟨taken.1, _, _, rfl, rfl, ?_⟩
    exact h.of_events (by rw [h.same]; rfl) rfl rfl rfl [.started taken.1] rfl rfl fun _ _ _ => by simp

/-- The tasks are the same. -/
theorem dequeueTask? (h : l.Alike gap l') : l.dequeueTask? = none ∧ l'.dequeueTask? = none ∨
    ∃ w x x', l.dequeueTask? = some (w, x) ∧ l'.dequeueTask? = some (w, x') ∧ x.Alike gap x' := by
  have tasks : l'.tasks = l.tasks := by rw [h.same]
  unfold Loop.dequeueTask?
  rw [tasks]
  cases hd : l.tasks.dequeue? with
  | none => exact .inl ⟨rfl, rfl⟩
  | some taken =>
    refine .inr ⟨taken.1, _, _, rfl, rfl, ?_⟩
    exact h.of_events (by rw [h.same]; rfl) rfl rfl rfl [.taskStarted taken.1] rfl rfl fun _ _ _ => by simp

/-- The lock is found in the same state. -/
theorem lock (h : l.Alike gap l') (p : Promise) : (∃ f, l.lock p = .error f ∧ l'.lock p = .error f) ∨
    ∃ accepted x x', l.lock p = .ok (accepted, x) ∧ l'.lock p = .ok (accepted, x') ∧ x.Alike gap x' := by
  unfold Loop.lock
  rw [h.record]
  cases l.record p with
  | error f => exact .inl ⟨f, rfl, rfl⟩
  | ok r =>
    refine .inr ⟨!r.alreadyResolved, _, _, rfl, rfl, ?_⟩
    exact h.of_events (by rw [h.same]; rfl) rfl rfl rfl [.attempted p.id (!r.alreadyResolved)] rfl rfl
      fun _ _ _ => by simp

/-- Settling fires and discards the same. -/
theorem settle (h : l.Alike gap l') (id : PromiseId) {s : State} {v : Value}
    (flat : s = .fulfilled → l.ownPromise? v = none) : (l'.settle id s v).2 = (l.settle id s v).2 ∧
      (l.settle id s v).1.Alike gap (l'.settle id s v).1 := by
  have settled : (∃ r r' y, l.heap.get? id = some r ∧ r.settle s v = some (r', y)) ∨
      ∀ r, l.heap.get? id = some r → r.settle s v = none := by
    cases hr : l.heap.get? id with
    | none => exact .inr fun r h => by cases h
    | some r =>
      cases hs : r.settle s v with
      | none => exact .inr fun r' hr' => by rw [← Option.some.inj hr', hs]
      | some y => exact .inl ⟨r, y.1, y.2, rfl, hs⟩
  rcases settled with ⟨r, r', y, hr, hs⟩ | unsettled
  · rw [settle_of_settle hr hs, settle_of_settle (h.heap.symm ▸ hr) hs]
    have awaits : l'.awaitsAfter r s = l.awaitsAfter r s := by
      simp only [awaitsAfter, h.config]
    refine ⟨rfl, h.change ?_ rfl (if l.awaitsAfter r s then [id] else []) ?_ ?_ _ _
      (List.append_cons ..) (List.append_cons ..) rfl fun i w hw => ?_⟩
    · rw [h.same]
    · dsimp only
      split <;> simp
    · dsimp only
      rw [awaits]
      split <;> simp
    · simp only [List.mem_append, List.mem_reverse, List.mem_map, List.mem_singleton, Event.settled.injEq,
        reduceCtorEq, and_false, exists_false, false_or] at hw
      obtain ⟨-, rfl, rfl⟩ := hw
      exact flat rfl
  · rw [settle_of_settle_eq_none unsettled, settle_of_settle_eq_none (h.heap.symm ▸ unsettled)]
    exact ⟨rfl, h⟩

/-- Registrations give the same. -/
theorem attach (h : l.Alike gap l') (p : Promise) (f g : Option Value) :
    (∃ e, l.attach p f g = .error e ∧ l'.attach p f g = .error e) ∨
      ∃ a a', l.attach p f g = .ok a ∧ l'.attach p f g = .ok a' ∧ a.loop.Alike gap a'.loop ∧
        a.loop.id = l.id ∧ a'.derived = a.derived ∧ a'.job = a.job ∧ a'.late = a.late ∧
        a'.dropped = a.dropped := by
  unfold Loop.attach
  rw [h.record]
  cases l.record p with
  | error e => exact .inl ⟨e, rfl, rfl⟩
  | ok r =>
    obtain ⟨derived, created⟩ := h.newPromise
    have marked : (l.newPromise.2.markHandled p.id l.newPromise.1 f g (handledLate r)).Alike gap
        (l'.newPromise.2.markHandled p.id l.newPromise.1 f g (handledLate r)) := by
      unfold markHandled
      have noted : ((l.newPromise.2.modifyRecord p.id fun r => { r with isHandled := true }).note
          (.attached p.id l.newPromise.1 f g)).Alike gap
          ((l'.newPromise.2.modifyRecord p.id fun r => { r with isHandled := true }).note
            (.attached p.id l.newPromise.1 f g)) :=
        created.of_events (by rw [created.same]; rfl) rfl rfl rfl [.attached p.id l.newPromise.1 f g] rfl rfl
          fun _ _ _ => by simp
      dsimp only
      split
      · rw [reportHandled_eq, reportHandled_eq]
        exact noted.of_events (by rw [noted.same]) rfl rfl rfl [.handledLate p.id] rfl rfl
          fun _ _ _ => by simp
      · exact noted
    refine .inr ⟨_, _, rfl, rfl, ?_⟩
    dsimp only
    rw [derived]
    cases r.state with
    | pending =>
      refine ⟨?_, by simp, rfl, rfl, rfl, rfl⟩
      exact marked.of_eq (by rw [marked.same]; rfl) rfl rfl rfl rfl rfl
    | fulfilled => exact ⟨marked, by simp, rfl, rfl, rfl, rfl⟩
    | rejected => exact ⟨marked, by simp, rfl, rfl, rfl, rfl⟩

theorem endAttach (h : l.Alike gap l') (derived : Promise) (job : Option Job) :
    (l.endAttach derived job).Alike gap (l'.endAttach derived job) := by
  unfold Loop.endAttach
  cases job with
  | none => exact h.note fun _ _ _ => by simp
  | some j => exact (h.enqueue j).note fun _ _ _ => by simp

theorem report (h : l.Alike gap l') (id : PromiseId) (reason : Value) :
    (l.report id reason).Alike gap (l'.report id reason) := by
  rw [report_eq, report_eq]
  exact h.of_events (by rw [h.same]) rfl rfl rfl [.reported id reason] rfl rfl fun _ _ _ => by simp

/-- The same records can be freed. -/
theorem free? (h : l.Alike gap l') (id : PromiseId) : l.free? id = none ∧ l'.free? id = none ∨
    ∃ r x x', l.free? id = some (r, x) ∧ l'.free? id = some (r, x') ∧ x.Alike gap x' ∧
      x'.reportsOnFree r = x.reportsOnFree r := by
  unfold Loop.free?
  rw [h.heap]
  cases l.heap.remove? id with
  | none => exact .inl ⟨rfl, rfl⟩
  | some removed =>
    have vacated : Loop.Alike gap { l with heap := removed.2 } { l' with heap := removed.2 } :=
      h.of_eq (by rw [h.same]) rfl rfl rfl rfl rfl
    have reports : ({ l' with heap := removed.2 } : Loop).reportsOnFree removed.1 =
        ({ l with heap := removed.2 } : Loop).reportsOnFree removed.1 := by
      simp only [reportsOnFree, h.config]
    refine .inr ⟨removed.1, _, _, rfl, rfl, ?_⟩
    rw [reports]
    split
    · have freed := (vacated.report id removed.1.reason).note (e := .freed id removed.1) fun _ _ _ => by simp
      exact ⟨freed, by simp only [reportsOnFree, freed.config]⟩
    · have freed := vacated.note (e := .freed id removed.1) fun _ _ _ => by simp
      exact ⟨freed, by simp only [reportsOnFree, freed.config]⟩

end Alike

-- ---------------------------------------------------------------------------
-- Selecting reports
-- ---------------------------------------------------------------------------

/-- The record that is an exception in the list of rejections awaits no report. -/
def NothingDue (gap : Gap) (l : Loop) : Prop :=
  ∀ id, gap = some (l.id, id) → ∀ r, l.heap.get? id = some r → r.awaitsReport = false

/-- Selecting a report leaves the record that is an exception as it is. -/
theorem NothingDue.selectReport {acc : List (PromiseId × Value) × Loop} (h : acc.2.NothingDue gap)
    (id : PromiseId) : (Loop.selectReport acc id).2.NothingDue gap := by
  unfold Loop.selectReport
  split
  · exact h
  · rename_i r hr
    split
    · intro i hi x hx
      have look := Heap.get?_modify_ite acc.2.heap id i fun r => { r with rejectionReported := true }
      replace hx := look.symm.trans hx
      split at hx
      · obtain ⟨y, -, rfl⟩ := Option.map_eq_some_iff.mp hx
        simp [Record.awaitsReport]
      · exact h i hi x hx
    · exact h

/-- An id that is an exception does not count where reports are selected. -/
theorem foldl_selectReport_filter (ids : List PromiseId) (acc : List (PromiseId × Value) × Loop)
    (h : acc.2.NothingDue gap) :
    ids.foldl selectReport acc = (ids.filter (IsCounted gap acc.2.id)).foldl selectReport acc := by
  induction ids generalizing acc with
  | nil => rfl
  | cons id ids ih =>
    have next := ih (selectReport acc id) (h.selectReport id)
    rw [id_selectReport] at next
    rw [List.foldl_cons, next]
    cases hc : IsCounted gap acc.2.id id with
    | true => rw [List.filter_cons_of_pos hc, List.foldl_cons]
    | false =>
      have exception : gap = some (acc.2.id, id) := by simpa [IsCounted] using hc
      have passed : selectReport acc id = acc := by
        unfold selectReport
        split
        · rfl
        · rename_i r hr
          rw [if_neg (by simp [h id exception r hr])]
      rw [passed, List.filter_cons_of_neg (by simp [hc])]

/-- From alike loops the same reports are selected. -/
theorem Alike.foldl_selectReport (ids : List PromiseId) {rs : List (PromiseId × Value)}
    (h : l.Alike gap l') : (ids.foldl Loop.selectReport (rs, l')).1 = (ids.foldl Loop.selectReport (rs, l)).1 ∧
      (ids.foldl Loop.selectReport (rs, l)).2.Alike gap (ids.foldl Loop.selectReport (rs, l')).2 := by
  induction ids generalizing rs l l' with
  | nil => exact ⟨rfl, h⟩
  | cons id ids ih =>
    rw [List.foldl_cons, List.foldl_cons]
    unfold Loop.selectReport
    dsimp only
    rw [h.heap]
    cases l.heap.get? id with
    | none => exact ih h
    | some r =>
      dsimp only
      split
      · exact ih (h.of_eq (by rw [h.same]; rfl) rfl rfl rfl rfl rfl)
      · exact ih h

/-- The reports of a checkpoint are the same. -/
theorem Alike.takeReports (h : l.Alike gap l') (due : l.NothingDue gap) :
    l'.takeReports.1 = l.takeReports.1 ∧ l.takeReports.2.Alike gap l'.takeReports.2 := by
  have cleared : Loop.Alike gap { l with awaiting := [] } { l' with awaiting := [] } :=
    ⟨by rw [h.same], rfl, h.history, h.flat⟩
  have due' : Loop.NothingDue gap { l' with awaiting := [] } := by
    intro i hi r hr
    rw [h.heap] at hr
    exact due i (h.id ▸ hi) r hr
  have hc' : l'.config.trackUnhandledRejections = l.config.trackUnhandledRejections := by rw [h.config]
  unfold Loop.takeReports
  cases hc : l.config.trackUnhandledRejections with
  | false =>
    rw [if_neg (by simp [hc, hc']), if_neg (by simp)]
    exact ⟨rfl, cleared⟩
  | true =>
    rw [if_pos (hc'.trans hc), if_pos rfl]
    rw [foldl_selectReport_filter _ ([], { l' with awaiting := [] }) due',
      foldl_selectReport_filter _ ([], { l with awaiting := [] }) due]
    have ids : l'.awaiting.filter (IsCounted gap l'.id) = l.awaiting.filter (IsCounted gap l.id) := by
      rw [h.id, h.awaiting]
    dsimp only
    rw [ids]
    exact cleared.foldl_selectReport _

end Loop
end PromiseLoop

import PromiseLoop.Loop.Background
import PromiseLoop.Loop.Settlement
import PromiseLoop.Proofs.Heaps

/-!
# What the operations of a loop do

One lemma for every operation that touches records, and for the delivery of reports: what becomes of the
loop, written out in full.  What is proved about them later starts from these, so that the operations
themselves are opened here and nowhere else.

## Results

* `lock_eq_ok`, `settle_of_settle`, `attach_eq_ok`, `free?_eq_some`: the operations on one record.
* `takeReports_spec`: which rejections a checkpoint selects, and what it marks.
* `deliver_eq`: what delivering reports does.
-/

namespace PromiseLoop

-- ---------------------------------------------------------------------------
-- Records
-- ---------------------------------------------------------------------------

namespace Heap

theorem modify_modify (h : Heap) (id : PromiseId) (f g : Record → Record) :
    (h.modify id f).modify id g = h.modify id (g ∘ f) := by
  simp only [modify, Heap.mk.injEq, and_true]
  apply List.ext_getElem?
  intro n
  simp only [List.getElem?_modify]
  cases h.slots[n]? with
  | none => simp
  | some s =>
    by_cases hn : id.index.toNat = n
    · by_cases hg : s.generation = id.generation <;> simp [hn, hg, Function.comp_def]
    · simp [hn]

/-- Changing a record shows under its id alone. -/
theorem get?_modify_ite (h : Heap) (id k : PromiseId) (f : Record → Record) :
    (h.modify id f).get? k = if k = id then (h.get? k).map f else h.get? k := by
  by_cases hk : k = id
  · rw [if_pos hk, hk, get?_modify]
  · rw [if_neg hk, get?_modify_of_ne h (Ne.symm hk)]

/-- Replacing a record by itself changes nothing. -/
theorem modify_const_self {h : Heap} {id : PromiseId} {r : Record} (hr : h.get? id = some r) :
    (h.modify id fun _ => r) = h := by
  rw [get?_eq_some] at hr
  obtain ⟨slots, vacant, live⟩ := h
  simp only [modify, Heap.mk.injEq, and_true]
  apply List.ext_getElem?
  intro n
  simp only [List.getElem?_modify]
  by_cases hn : id.index.toNat = n
  · subst hn
    simp_all
  · simp [hn]

end Heap

namespace Record

/-- The record after handlers were registered on it. -/
def registered (r : Record) (onFulfilled onRejected : Option Value) (derived : Promise) : Record :=
  let r := { r with isHandled := true }
  if r.isPending then
    (r.addReaction ⟨.fulfill, onFulfilled, derived⟩).addReaction ⟨.reject, onRejected, derived⟩
  else r

/-- The job that registering handlers on a settled record gives. -/
def reactionJob (r : Record) (onFulfilled onRejected : Option Value) (derived : Promise) :
    Option Job :=
  match r.state with
  | .pending => none
  | .fulfilled => some (.reaction ⟨.fulfill, onFulfilled, derived⟩ r.reason)
  | .rejected => some (.reaction ⟨.reject, onRejected, derived⟩ r.reason)

/-- What registering handlers on a settled record lets go. -/
def unusedReaction (r : Record) (onFulfilled onRejected : Option Value) (derived : Promise) :
    List Value :=
  match r.state with
  | .pending => []
  | .fulfilled => (⟨.reject, onRejected, derived⟩ : Reaction).held
  | .rejected => (⟨.fulfill, onFulfilled, derived⟩ : Reaction).held

theorem settle_eq_some {r r' : Record} {s : State} {v : Value} {x : Settlement} :
    r.settle s v = some (r', x) ↔
      r.state = .pending ∧ s ≠ .pending ∧ r' = r.settled s v ∧ x = r.released s := by
  unfold settle isPending
  cases hr : r.state <;> cases hs : s <;> simp [eq_comm]

@[simp] theorem state_registered (r : Record) (f g : Option Value) (derived : Promise) :
    (r.registered f g derived).state = r.state := by
  unfold registered
  dsimp only
  split <;> rfl

@[simp] theorem value_registered (r : Record) (f g : Option Value) (derived : Promise) :
    (r.registered f g derived).value = r.value := by
  unfold registered
  dsimp only
  split <;> rfl

@[simp] theorem isHandled_registered (r : Record) (f g : Option Value) (derived : Promise) :
    (r.registered f g derived).isHandled = true := by
  unfold registered
  dsimp only
  split <;> rfl

@[simp] theorem alreadyResolved_registered (r : Record) (f g : Option Value) (derived : Promise) :
    (r.registered f g derived).alreadyResolved = r.alreadyResolved := by
  unfold registered
  dsimp only
  split <;> rfl

@[simp] theorem rejectionReported_registered (r : Record) (f g : Option Value)
    (derived : Promise) : (r.registered f g derived).rejectionReported = r.rejectionReported := by
  unfold registered
  dsimp only
  split <;> rfl

end Record

-- ---------------------------------------------------------------------------
-- Operations on one record
-- ---------------------------------------------------------------------------

namespace Loop

variable {l l' : Loop} {p : Promise} {id : PromiseId} {r : Record}

theorem record_eq_ok : l.record p = .ok r ↔ p.home = l.id ∧ l.heap.get? p.id = some r := by
  unfold record owns
  cases l.heap.get? p.id <;> by_cases hp : p.home = l.id <;> simp [hp]

theorem lock_eq_ok {accepted : Bool} :
    l.lock p = .ok (accepted, l') ↔ ∃ r, l.record p = .ok r ∧ accepted = !r.alreadyResolved ∧
      l' = (l.modifyRecord p.id fun r => { r with alreadyResolved := true }).note
        (.attempted p.id accepted) := by
  unfold lock
  cases l.record p with
  | error f => simp [Except.map]
  | ok r =>
    simp only [Except.map, Except.ok.injEq, Prod.mk.injEq, exists_eq_left']
    constructor
    · rintro ⟨rfl, rfl⟩
      exact ⟨rfl, rfl⟩
    · rintro ⟨rfl, rfl⟩
      exact ⟨rfl, rfl⟩

theorem dequeue?_releases {j : Job} (next : l.dequeue? = some (j, l')) (releases : List PromiseId) :
    Loop.dequeue? { l with releases } = some (j, { l' with releases }) := by
  obtain ⟨⟨i, q⟩, hq, heq⟩ := Option.map_eq_some_iff.mp next
  obtain ⟨rfl, rfl⟩ := Prod.mk.inj heq
  simp [Loop.dequeue?, hq, Loop.note]

/-- Enqueueing reactions adds their jobs, in their order. -/
theorem foldl_enqueueReaction (v : Value) (rs : List Reaction) (l : Loop) :
    rs.foldl (enqueueReaction v) l =
      { l with
        microtasks := ⟨l.microtasks.entries ++ rs.map (Job.reaction · v)⟩
        history := (rs.map fun x => Event.queued (.reaction x v)).reverse ++ l.history } := by
  induction rs generalizing l with
  | nil => simp
  | cons x rs ih =>
    rw [List.foldl_cons, ih]
    simp [enqueueReaction, enqueue, note, Queue.enqueue]

/-- Whether settling a record to a state leaves a rejection that has to be reported. -/
def awaitsAfter (l : Loop) (r : Record) (s : State) : Bool :=
  (s = .rejected) && !r.isHandled && l.config.trackUnhandledRejections

theorem awaitReport_eq (l : Loop) (id : PromiseId) :
    l.awaitReport id =
      { l with
        awaiting := if l.config.trackUnhandledRejections then l.awaiting ++ [id] else l.awaiting } := by
  unfold awaitReport
  split <;> rfl

theorem settle_of_settle {s : State} {v : Value} {r' : Record} {x : Settlement}
    (hr : l.heap.get? id = some r) (hs : r.settle s v = some (r', x)) :
    l.settle id s v =
      ({ l with
          heap := l.heap.modify id fun _ => r'
          microtasks := ⟨l.microtasks.entries ++ x.fire.map (Job.reaction · v)⟩
          awaiting := if l.awaitsAfter r s then l.awaiting ++ [id] else l.awaiting
          history := (x.fire.map fun y => Event.queued (.reaction y v)).reverse
            ++ .settled id s v :: l.history },
        heldByReactions x.discarded) := by
  obtain ⟨-, -, rfl, -⟩ := Record.settle_eq_some.mp hs
  have handled : (r.settled s v).isHandled = r.isHandled := rfl
  simp only [settle, hr, hs, Option.bind_some, foldl_enqueueReaction, handled, awaitReport_eq]
  cases hu : (decide (s = .rejected) && !r.isHandled) with
  | false => simp only [hu, awaitsAfter, Bool.false_and, Bool.false_eq_true, if_false]; rfl
  | true => simp only [hu, awaitsAfter, Bool.true_and, if_true]; rfl

theorem settle_of_settle_eq_none {s : State} {v : Value}
    (h : ∀ r, l.heap.get? id = some r → r.settle s v = none) : l.settle id s v = (l, [v]) := by
  unfold settle
  cases hr : l.heap.get? id with
  | none => rfl
  | some r => simp [h r hr]

theorem logEvent_eq (l : Loop) (e : RejectionEvent) :
    l.logEvent e = { l with log := if l.tracker = .log then l.log ++ [e] else l.log } := by
  unfold logEvent
  split
  · rename_i h
    rw [if_pos h]
  · rename_i h
    rw [if_neg h]

theorem report_eq (l : Loop) (id : PromiseId) (reason : Value) :
    l.report id reason =
      { l with
        log := if l.tracker = .log then l.log ++ [.unhandled id reason] else l.log
        history := .reported id reason :: l.history } :=
  logEvent_eq ..

theorem reportHandled_eq (l : Loop) (id : PromiseId) :
    l.reportHandled id =
      { l with
        log := if l.tracker = .log then l.log ++ [.handled id] else l.log
        history := .handledLate id :: l.history } :=
  logEvent_eq ..

/-- The loop after handlers were registered on a promise whose record was `r`. -/
def registered (l : Loop) (p : Promise) (onFulfilled onRejected : Option Value) (r : Record) :
    Loop :=
  let derived := l.newPromise.1
  { l with
    heap := (l.heap.allocate .pending).2.modify p.id
      fun _ => r.registered onFulfilled onRejected derived
    nextSerial := l.nextSerial + 1
    log := if handledLate r && l.tracker = .log then l.log ++ [.handled p.id] else l.log
    history := (if handledLate r then [.handledLate p.id] else [])
      ++ .attached p.id derived onFulfilled onRejected :: l.history }

/-- A change of a record that is there is a replacement. -/
theorem modify_eq_modify_const {h : Heap} (f : Record → Record) (hr : h.get? id = some r) :
    h.modify id f = h.modify id fun _ => f r := by
  rw [Heap.get?_eq_some] at hr
  simp only [Heap.modify, Heap.mk.injEq, and_true]
  apply List.ext_getElem?
  intro n
  simp only [List.getElem?_modify]
  by_cases hn : id.index.toNat = n
  · subst hn
    simp [hr]
  · simp [hn]

theorem attach_eq_ok (wf : l.heap.Wf) {f g : Option Value} {a : Attached} :
    l.attach p f g = .ok a ↔ ∃ r, l.record p = .ok r ∧
      a = { loop := l.registered p f g r
            derived := l.newPromise.1
            job := r.reactionJob f g l.newPromise.1
            late := handledLate r
            dropped := r.unusedReaction f g l.newPromise.1 } := by
  unfold attach
  cases hr : l.record p with
  | error e => simp [Except.map]
  | ok r =>
    -- the record is where it was when the derived promise has been created
    have kept : (l.heap.allocate .pending).2.get? p.id = some r :=
      Heap.get?_allocate_of_some wf .pending (record_eq_ok.mp hr).2
    have marked : (l.newPromise.2.markHandled p.id l.newPromise.1 f g (handledLate r)) =
        { l.registered p f g r with
          heap := (l.heap.allocate .pending).2.modify p.id fun _ => { r with isHandled := true } } := by
      unfold markHandled registered
      cases hl : handledLate r with
      | false =>
        simp [modifyRecord, note, newPromise, modify_eq_modify_const _ kept]
      | true =>
        simp [reportHandled_eq, modifyRecord, note, newPromise, modify_eq_modify_const _ kept]
    simp only [Except.map, Except.ok.injEq, marked, exists_eq_left']
    rw [eq_comm]
    cases hs : r.state with
    | pending =>
      simp [Record.reactionJob, Record.unusedReaction, Record.registered, Record.isPending,
        registered, modifyRecord, hs, Heap.modify_modify, Function.comp_def]
    | fulfilled =>
      simp [Record.reactionJob, Record.unusedReaction, Record.registered, Record.isPending,
        registered, hs]
    | rejected =>
      simp [Record.reactionJob, Record.unusedReaction, Record.registered, Record.isPending,
        registered, hs]

/-- Registering handlers adds to the history, whatever the heap looks like. -/
theorem history_attach {f g : Option Value} {a : Attached} (h : l.attach p f g = .ok a) :
    ∃ newer, a.loop.history = newer ++ .attached p.id a.derived f g :: l.history := by
  unfold attach at h
  cases hr : l.record p with
  | error e => rw [hr] at h; cases h
  | ok r =>
    rw [hr] at h
    have marked : ∃ newer, (l.newPromise.2.markHandled p.id l.newPromise.1 f g
        (handledLate r)).history = newer ++ .attached p.id l.newPromise.1 f g :: l.history := by
      unfold markHandled
      split
      · exact ⟨[.handledLate p.id], by rw [reportHandled_eq]; rfl⟩
      · exact ⟨[], rfl⟩
    cases hs : r.state <;> simp only [Except.map, hs] at h <;> cases h <;> exact marked

theorem free?_eq_some :
    l.free? id = some (r, l') ↔ l.heap.get? id = some r ∧
      l' = (if l.reportsOnFree r then { l with heap := l.heap.vacated id }.report id r.reason
        else { l with heap := l.heap.vacated id }).note (.freed id r) := by
  unfold free?
  rw [Option.map_eq_some_iff]
  constructor
  · rintro ⟨⟨r', heap⟩, hr, heq⟩
    obtain ⟨hget, rfl⟩ := (Heap.remove?_eq_some_iff _ _ _ _).mp hr
    obtain ⟨rfl, rfl⟩ := Prod.mk.inj heq
    exact ⟨hget, rfl⟩
  · rintro ⟨hget, rfl⟩
    exact ⟨(r, l.heap.vacated id), (Heap.remove?_eq_some_iff _ _ _ _).mpr ⟨hget, rfl⟩, rfl⟩

-- ---------------------------------------------------------------------------
-- Selecting reports
-- ---------------------------------------------------------------------------

/-- What selecting rejections for reports makes of a heap, once some ids have been looked at. -/
structure Selects (before : Heap) (looked : List PromiseId) (reports : List (PromiseId × Value))
    (after : Heap) : Prop where
  find : ∀ k, after.get? k = (before.get? k).map fun r =>
    if k ∈ reports.map Prod.fst then { r with rejectionReported := true } else r
  awaited : ∀ e ∈ reports, ∃ r, before.get? e.1 = some r ∧ r.awaitsReport = true ∧ e.2 = r.reason
  nodup : (reports.map Prod.fst).Nodup
  complete : ∀ k ∈ looked, ∀ r, before.get? k = some r → r.awaitsReport = true →
    k ∈ reports.map Prod.fst
  wf : before.Wf → after.Wf

theorem awaitsReport_of_reported (r : Record) :
    ({ r with rejectionReported := true } : Record).awaitsReport = false := by
  simp [Record.awaitsReport]

theorem Selects.selectReport {before : Heap} {looked : List PromiseId}
    {acc : List (PromiseId × Value) × Loop} (h : Selects before looked acc.1 acc.2.heap)
    (id : PromiseId) :
    Selects before (looked ++ [id]) (selectReport acc id).1 (selectReport acc id).2.heap := by
  have found := h.find id
  unfold Loop.selectReport
  cases hb : before.get? id with
  | none =>
    rw [hb] at found
    simp only [found, Option.map_none]
    refine ⟨h.find, h.awaited, h.nodup, fun k hk r hr ha => ?_, h.wf⟩
    rcases List.mem_append.mp hk with hk | hk
    · exact h.complete k hk r hr ha
    · rw [List.mem_singleton.mp hk, hb] at hr
      cases hr
  | some r =>
    rw [hb] at found
    simp only [found, Option.map_some]
    by_cases hmem : id ∈ acc.1.map Prod.fst
    · -- the id has been selected before, and is marked
      simp only [hmem, if_true, awaitsReport_of_reported]
      refine ⟨h.find, h.awaited, h.nodup, fun k hk r hr ha => ?_, h.wf⟩
      rcases List.mem_append.mp hk with hk | hk
      · exact h.complete k hk r hr ha
      · rw [List.mem_singleton.mp hk]
        exact hmem
    · simp only [hmem, if_false]
      cases haw : r.awaitsReport with
      | false =>
        refine ⟨h.find, h.awaited, h.nodup, fun k hk x hx ha => ?_, h.wf⟩
        rcases List.mem_append.mp hk with hk | hk
        · exact h.complete k hk x hx ha
        · rw [List.mem_singleton.mp hk, hb] at hx
          rw [← Option.some.inj hx, haw] at ha
          cases ha
      | true =>
        refine ⟨fun k => ?_, ?_, ?_, fun k hk x hx ha => ?_, fun wf => (h.wf wf).modify id _⟩
        · simp only [if_true, modifyRecord]
          rw [Heap.get?_modify_ite, h.find]
          by_cases hk : k = id
          · subst hk
            simp [hb, hmem]
          · have same : k ∈ (acc.1 ++ [(id, r.reason)]).map Prod.fst ↔ k ∈ acc.1.map Prod.fst := by
              simp [hk]
            simp only [hk, if_false, same]
        · intro e he
          rcases List.mem_append.mp he with he | he
          · exact h.awaited e he
          · rw [List.mem_singleton.mp he]
            exact ⟨r, hb, haw, rfl⟩
        · simp only [if_true, List.map_append, List.map_cons, List.map_nil]
          exact List.nodup_append.mpr ⟨h.nodup, by simp, by
            intro a ha b hb e
            rw [List.mem_singleton.mp hb] at e
            exact hmem (e ▸ ha)⟩
        · simp only [if_true, List.map_append, List.map_cons, List.map_nil, List.mem_append]
          rcases List.mem_append.mp hk with hk | hk
          · exact .inl (h.complete k hk x hx ha)
          · exact .inr hk

/-- A checkpoint selects the rejections that wait for a report, each of them once, and marks them. -/
theorem takeReports_spec (l : Loop) :
    ∃ heap, l.takeReports.2 = { l with awaiting := [], heap } ∧
      Selects l.heap (if l.config.trackUnhandledRejections then l.awaiting else [])
        l.takeReports.1 heap ∧
      (l.config.trackUnhandledRejections = false → l.takeReports.1 = []) := by
  have fold : ∀ (ids looked : List PromiseId) (acc : List (PromiseId × Value) × Loop),
      (∃ heap, acc.2 = { l with awaiting := [], heap }) →
      Selects l.heap looked acc.1 acc.2.heap →
      (∃ heap, (ids.foldl selectReport acc).2 = { l with awaiting := [], heap }) ∧
        Selects l.heap (looked ++ ids) (ids.foldl selectReport acc).1
          (ids.foldl selectReport acc).2.heap := by
    intro ids
    induction ids with
    | nil => exact fun looked acc hl hs => ⟨hl, by simpa using hs⟩
    | cons id ids ih =>
      intro looked acc hl hs
      have := ih (looked ++ [id]) (selectReport acc id) ?_ (hs.selectReport id)
      · simpa using this
      · obtain ⟨heap, heq⟩ := hl
        unfold selectReport
        split
        · exact ⟨heap, heq⟩
        · split
          · exact ⟨_, by rw [heq]; rfl⟩
          · exact ⟨heap, heq⟩
  have start : Selects l.heap [] [] l.heap := ⟨by simp, by simp, by simp, by simp, fun wf => wf⟩
  unfold takeReports
  cases ht : l.config.trackUnhandledRejections with
  | false => exact ⟨l.heap, by simp, by simpa using start, by simp⟩
  | true =>
    obtain ⟨⟨heap, heq⟩, hs⟩ := fold l.awaiting [] ([], { l with awaiting := [] }) ⟨l.heap, rfl⟩ start
    refine ⟨heap, by simpa using heq, ?_, by simp⟩
    rw [heq] at hs
    simpa using hs

-- ---------------------------------------------------------------------------
-- Background work
-- ---------------------------------------------------------------------------

/-- Every posted report becomes a job at the end of the queue. -/
theorem deliver_eq (l : Loop) : l.deliver = { l with
    channel := []
    microtasks := ⟨l.microtasks.entries ++ l.channel.map .settlement⟩
    history := (l.channel.map fun r => Event.queued (.settlement r)).reverse ++ l.history } := by
  have enqueued (rs : List Report) (l : Loop) :
      rs.foldl (fun l r => l.enqueue (.settlement r)) l = { l with
        microtasks := ⟨l.microtasks.entries ++ rs.map .settlement⟩
        history := (rs.map fun r => Event.queued (.settlement r)).reverse ++ l.history } := by
    induction rs generalizing l with
    | nil => simp
    | cons r rs ih =>
      rw [List.foldl_cons, ih]
      simp [enqueue, note, Queue.enqueue]
  rw [deliver, enqueued]

@[simp] theorem draining_deliver (l : Loop) : l.deliver.draining = l.draining := by rw [deliver_eq]

@[simp] theorem channel_deliver (l : Loop) : l.deliver.channel = [] := by rw [deliver_eq]

@[simp] theorem tasks_deliver (l : Loop) : l.deliver.tasks = l.tasks := by rw [deliver_eq]

end Loop
end PromiseLoop

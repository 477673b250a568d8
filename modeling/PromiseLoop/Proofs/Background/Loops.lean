import PromiseLoop.Proofs.Changes.Basic
import PromiseLoop.Proofs.Handles.Loops
import PromiseLoop.Proofs.Queues

/-!
# Where the reports are

The report of a promise in flight is to come from a completer or from a waiting worker, or is in the
channel, or is in the job of a microtask.  What operations do to a loop apart from background work moves
reports on at most, in their order: they spare background work.

## Results

* `Loop.Does.spares`: what spares background work.
* `Workload.Move.kept`: every move of a report keeps the accounts.
-/

namespace PromiseLoop

-- ---------------------------------------------------------------------------
-- What a history says about background work
-- ---------------------------------------------------------------------------

namespace Event

/-- The report that an event has posted. -/
def posted? : Event → Option Report
  | .posted r => some r
  | _ => none

/-- The promise for which an event has started a worker. -/
def spawned? : Event → Option Promise
  | .spawned p => some p
  | _ => none

/-- Whether an event deals with background work. -/
def isOfWork : Event → Bool
  | .posted _ | .spawned _ | .started (.settlement _) => true
  | _ => false

end Event

/-- The reports that have been posted, oldest first. -/
def posted (history : List Event) : List Report := (history.filterMap Event.posted?).reverse

/-- The promises for which workers have been started. -/
def spawned (history : List Event) : List Promise := history.filterMap Event.spawned?

/-- The reports in jobs. -/
def reports (jobs : List Job) : List Report := jobs.filterMap Job.report?

theorem reports_append (xs ys : List Job) : reports (xs ++ ys) = reports xs ++ reports ys :=
  List.filterMap_append

theorem posted_cons (e : Event) (older : List Event) :
    posted (e :: older) = posted older ++ e.posted?.toList := by
  cases h : e.posted? <;> simp [posted, h]

theorem spawned_cons (e : Event) (older : List Event) :
    spawned (e :: older) = e.spawned?.toList ++ spawned older := by
  cases h : e.spawned? <;> simp [spawned, h]

theorem Event.of_not_isOfWork {e : Event} (h : e.isOfWork = false) :
    e.posted? = none ∧ e.spawned? = none ∧ reports e.started?.toList = [] := by
  cases e with
  | posted r => cases h
  | spawned p => cases h
  | started j =>
    cases j with
    | settlement r => cases h
    | _ => exact ⟨rfl, rfl, rfl⟩
  | _ => exact ⟨rfl, rfl, rfl⟩

theorem of_not_isOfWork {newer : List Event} (h : ∀ e ∈ newer, e.isOfWork = false) (older : List Event) :
    posted (newer ++ older) = posted older ∧ spawned (newer ++ older) = spawned older ∧
      reports (started (newer ++ older)) = reports (started older) := by
  induction newer with
  | nil => exact ⟨rfl, rfl, rfl⟩
  | cons e newer ih =>
    obtain ⟨hp, hs, hr⟩ := ih fun e he => h e (List.mem_cons_of_mem _ he)
    obtain ⟨ep, es, er⟩ := Event.of_not_isOfWork (h e List.mem_cons_self)
    rw [List.cons_append, posted_cons, spawned_cons, started_cons, reports_append, hp, hs, hr, ep, es, er]
    simp

-- ---------------------------------------------------------------------------
-- What spares background work
-- ---------------------------------------------------------------------------

namespace Loop

variable {l l' l'' : Loop}

/-- The reports that have been posted and not been applied, oldest first. -/
def underway (l : Loop) : List Report := reports l.microtasks.entries ++ l.channel

/-- A later loop in which no promise has gone in flight or has landed, no worker has been let go, and no
report has been posted or applied. -/
structure SparesWork (l l' : Loop) : Prop where
  id : l'.id = l.id
  inFlight : l'.inFlight = l.inFlight
  workers : l'.workers = l.workers
  waiting : l'.waiting = l.waiting
  underway : l'.underway = l.underway
  serial : l.nextSerial ≤ l'.nextSerial
  slots : l.heap.slots.length ≤ l'.heap.slots.length
  history : ∃ newer, l'.history = newer ++ l.history ∧ ∀ e ∈ newer, e.isOfWork = false

theorem SparesWork.refl (l : Loop) : l.SparesWork l :=
  ⟨rfl, rfl, rfl, rfl, rfl, Nat.le_refl _, Nat.le_refl _, [], rfl, by simp⟩

theorem SparesWork.trans (h : l.SparesWork l') (h' : l'.SparesWork l'') : l.SparesWork l'' := by
  obtain ⟨newer, history, quiet⟩ := h.history
  obtain ⟨newer', history', quiet'⟩ := h'.history
  refine ⟨h'.id.trans h.id, h'.inFlight.trans h.inFlight, h'.workers.trans h.workers, h'.waiting.trans h.waiting,
    h'.underway.trans h.underway, Nat.le_trans h.serial h'.serial, Nat.le_trans h.slots h'.slots,
    newer' ++ newer, by rw [history', history, List.append_assoc], fun e he => ?_⟩
  rcases List.mem_append.mp he with he | he
  · exact quiet' e he
  · exact quiet e he

theorem sparesWork_note (l : Loop) {e : Event} (h : e.isOfWork = false) : l.SparesWork (l.note e) :=
  ⟨rfl, rfl, rfl, rfl, rfl, Nat.le_refl _, Nat.le_refl _, [e], rfl, by simpa using h⟩

theorem sparesWork_modifyRecord (l : Loop) (id : PromiseId) (f : Record → Record) :
    l.SparesWork (l.modifyRecord id f) :=
  ⟨rfl, rfl, rfl, rfl, rfl, Nat.le_refl _, Nat.le_of_eq (Heap.slots_modify ..).symm, [], rfl, by simp⟩

theorem sparesWork_newPromise (l : Loop) : l.SparesWork l.newPromise.2 :=
  ⟨rfl, rfl, rfl, rfl, rfl, Nat.le_succ _, Heap.slots_allocate .., [], rfl, by simp⟩

theorem sparesWork_enqueue (l : Loop) {j : Job} (h : j.report? = none) : l.SparesWork (l.enqueue j) := by
  refine ⟨rfl, rfl, rfl, rfl, ?_, Nat.le_refl _, Nat.le_refl _, [.queued j], rfl, by simp [Event.isOfWork]⟩
  simp [Loop.underway, enqueue, note, reports, h]

theorem sparesWork_foldl_enqueueReaction (v : Value) (rs : List Reaction) (l : Loop) :
    l.SparesWork (rs.foldl (enqueueReaction v) l) := by
  induction rs generalizing l with
  | nil => exact .refl l
  | cons r rs ih => exact (sparesWork_enqueue l rfl).trans (ih _)

theorem sparesWork_logEvent (l : Loop) (e : RejectionEvent) : l.SparesWork (l.logEvent e) := by
  rw [logEvent_eq]
  exact ⟨rfl, rfl, rfl, rfl, rfl, Nat.le_refl _, Nat.le_refl _, [], rfl, by simp⟩

theorem sparesWork_report (l : Loop) (id : PromiseId) (reason : Value) :
    l.SparesWork (l.report id reason) :=
  (sparesWork_note l rfl).trans (sparesWork_logEvent _ _)

theorem sparesWork_settle (l : Loop) (id : PromiseId) (s : State) (v : Value) :
    l.SparesWork (l.settle id s v).1 := by
  unfold settle
  split
  · exact .refl l
  · rename_i r released _
    have settled := ((sparesWork_modifyRecord l id fun _ => r).trans
      (sparesWork_note _ (e := .settled id s v) rfl)).trans
      (sparesWork_foldl_enqueueReaction v released.fire _)
    dsimp only
    split
    · rw [awaitReport_eq]
      exact settled.trans ⟨rfl, rfl, rfl, rfl, rfl, Nat.le_refl _, Nat.le_refl _, [], rfl, by simp⟩
    · exact settled

theorem sparesWork_markHandled (l : Loop) (id : PromiseId) (derived : Promise) (f g : Option Value)
    (late : Bool) : l.SparesWork (l.markHandled id derived f g late) := by
  have marked := (sparesWork_modifyRecord l id fun r => { r with isHandled := true }).trans
    (sparesWork_note _ (e := .attached id derived f g) rfl)
  unfold markHandled
  dsimp only
  split
  · exact marked.trans ((sparesWork_note _ rfl).trans (sparesWork_logEvent _ _))
  · exact marked

theorem sparesWork_attach {p : Promise} {f g : Option Value} {a : Attached}
    (h : l.attach p f g = .ok a) : l.SparesWork a.loop := by
  unfold attach at h
  cases hr : l.record p with
  | error e => rw [hr] at h; cases h
  | ok r =>
    rw [hr] at h
    have marked := l.sparesWork_newPromise.trans
      (sparesWork_markHandled _ p.id l.newPromise.1 f g (handledLate r))
    cases hs : r.state <;> simp only [Except.map, hs] at h <;> cases h
    · exact marked.trans (sparesWork_modifyRecord _ _ _)
    · exact marked
    · exact marked

theorem sparesWork_endAttach (l : Loop) (derived : Promise) {job : Option Job}
    (h : job.all Job.isReaction = true) : l.SparesWork (l.endAttach derived job) := by
  cases job with
  | none => exact sparesWork_note l rfl
  | some j =>
    have other : j.report? = none := by cases j <;> first | rfl | cases h
    exact (sparesWork_enqueue l other).trans (sparesWork_note _ rfl)

theorem sparesWork_takeReports (l : Loop) : l.SparesWork l.takeReports.2 := by
  have cleared : l.SparesWork { l with awaiting := [] } :=
    ⟨rfl, rfl, rfl, rfl, rfl, Nat.le_refl _, Nat.le_refl _, [], rfl, by simp⟩
  have selected (ids : List PromiseId) (acc : List (PromiseId × Value) × Loop) :
      acc.2.SparesWork (ids.foldl selectReport acc).2 := by
    induction ids generalizing acc with
    | nil => exact .refl _
    | cons id ids ih =>
      refine SparesWork.trans ?_ (ih _)
      unfold selectReport
      split
      · exact .refl _
      · split
        · exact sparesWork_modifyRecord _ _ _
        · exact .refl _
  unfold takeReports
  dsimp only
  split
  · exact cleared.trans (selected l.awaiting ([], { l with awaiting := [] }))
  · exact cleared

theorem sparesWork_free? {id : PromiseId} {r : Record} (h : l.free? id = some (r, l')) :
    l.SparesWork l' := by
  obtain ⟨-, rfl⟩ := free?_eq_some.mp h
  have vacated : l.SparesWork { l with heap := l.heap.vacated id } :=
    ⟨rfl, rfl, rfl, rfl, rfl, Nat.le_refl _, Nat.le_of_eq (List.length_modify ..).symm, [], rfl, by simp⟩
  split
  · exact vacated.trans ((sparesWork_report _ _ _).trans (sparesWork_note _ rfl))
  · exact vacated.trans (sparesWork_note _ rfl)

/-- Delivered reports are still under way, in their order. -/
theorem sparesWork_deliver (l : Loop) : l.SparesWork l.deliver := by
  rw [deliver_eq]
  refine ⟨rfl, rfl, rfl, rfl, ?_, Nat.le_refl _, Nat.le_refl _, _, rfl, ?_⟩
  · simp [Loop.underway, reports, List.filterMap_append, List.filterMap_map, Function.comp_def,
      Job.report?]
  · simp [Event.isOfWork]

theorem sparesWork_receive? (h : l.receive? = some l') : l.SparesWork l' := by
  unfold receive? at h
  split at h
  · cases h
  · rename_i r rest hc
    rw [← Option.some.inj h]
    refine ⟨rfl, rfl, rfl, rfl, ?_, Nat.le_refl _, Nat.le_refl _, [.queued (.settlement r)], rfl,
      by simp [Event.isOfWork]⟩
    simp [Loop.underway, enqueue, note, reports, Job.report?, hc]

/-- The job of a reaction, of an adoption or of the host is taken. -/
theorem sparesWork_dequeue? {j : Job} (h : l.dequeue? = some (j, l')) (other : j.report? = none) :
    l.SparesWork l' := by
  obtain ⟨⟨i, q⟩, hq, heq⟩ := Option.map_eq_some_iff.mp h
  obtain ⟨rfl, rfl⟩ := Prod.mk.inj heq
  have entries := (Queue.dequeue?_eq_some_iff _ _ _).mp hq
  refine ⟨rfl, rfl, rfl, rfl, ?_, Nat.le_refl _, Nat.le_refl _, [.started i], rfl, ?_⟩
  · simp [Loop.underway, note, reports, entries, other]
  · cases i with
    | settlement r => cases other
    | _ => simp [Event.isOfWork]

theorem sparesWork_calling (l : Loop) (j : Job) : l.SparesWork (l.calling j) := by
  unfold calling
  split
  · exact sparesWork_note l rfl
  · exact .refl l

/-- What operations do to a loop, apart from those listed, spares background work. -/
theorem Does.spares (h : l.Does l') : l.SparesWork l' := by
  cases h with
  | released id => exact ⟨rfl, rfl, rfl, rfl, rfl, Nat.le_refl _, Nat.le_refl _, [], rfl, by simp⟩
  | probed v => exact sparesWork_note l rfl
  | created => exact l.sparesWork_newPromise
  | attempted h =>
    obtain ⟨r, -, -, rfl⟩ := lock_eq_ok.mp h
    exact (sparesWork_modifyRecord l _ _).trans (sparesWork_note _ rfl)
  | settled id s v => exact sparesWork_settle l id s v
  | attached h => exact sparesWork_attach h
  | chained h => exact (sparesWork_attach h).trans (sparesWork_endAttach _ _ (isReaction_of_attach h))
  | attachEnded derived h => exact sparesWork_endAttach l derived h
  | delivered => exact l.sparesWork_deliver
  | received h => exact sparesWork_receive? h
  | taskQueued w =>
    exact ⟨rfl, rfl, rfl, rfl, rfl, Nat.le_refl _, Nat.le_refl _, [.taskQueued w], rfl, by simp [Event.isOfWork]⟩
  | taskTaken h =>
    obtain ⟨⟨w, q⟩, -, heq⟩ := Option.map_eq_some_iff.mp h
    rw [← (Prod.mk.inj heq).2]
    exact ⟨rfl, rfl, rfl, rfl, rfl, Nat.le_refl _, Nat.le_refl _, [.taskStarted w], rfl, by simp [Event.isOfWork]⟩
  | drainBegun => exact ⟨rfl, rfl, rfl, rfl, rfl, Nat.le_refl _, Nat.le_refl _, [], rfl, by simp⟩
  | drainEnded => exact ⟨rfl, rfl, rfl, rfl, rfl, Nat.le_refl _, Nat.le_refl _, [.drained], rfl, by simp [Event.isOfWork]⟩
  | drainBroken => exact ⟨rfl, rfl, rfl, rfl, rfl, Nat.le_refl _, Nat.le_refl _, [], rfl, by simp⟩
  | selected => exact l.sparesWork_takeReports
  | reported id reason => exact sparesWork_report l id reason
  | checked => exact sparesWork_note l rfl
  | releasesTaken => exact ⟨rfl, rfl, rfl, rfl, rfl, Nat.le_refl _, Nat.le_refl _, [], rfl, by simp⟩
  | freed h => exact sparesWork_free? h

theorem spares_of_does (h : Relation.ReflTransGen Does l l') : l.SparesWork l' := by
  induction h with
  | refl => exact .refl l
  | tail _ h ih => exact ih.trans h.spares

end Loop

-- ---------------------------------------------------------------------------
-- Moves of reports
-- ---------------------------------------------------------------------------

/-- The background work of a loop: the promises whose completers the script has, and the loop. -/
structure Workload where
  completers : List PromiseId
  loop : Loop

namespace Workload

/-- What can happen to the background work of a loop. -/
inductive Move : Workload → Workload → Prop
  | spared {cs : List PromiseId} {l l' : Loop} (h : l.SparesWork l') : Move ⟨cs, l⟩ ⟨cs, l'⟩
  | handedOut (cs : List PromiseId) (l : Loop) :
      Move ⟨cs, l⟩ ⟨l.openFlight.1.id :: cs, l.openFlight.2⟩
  /-- As `handedOut`, but the completer is for a worker of the loop. -/
  | spawned (cs : List PromiseId) (l : Loop) :
      Move ⟨cs, l⟩ ⟨l.openFlight.1.id :: cs, l.openFlight.2.addWorker l.openFlight.1⟩
  /-- The report of a completer is posted. -/
  | used {cs cs' : List PromiseId} (l : Loop) {id : PromiseId} (h : cs.Perm (id :: cs'))
      (result : WorkResult) : Move ⟨cs, l⟩ ⟨cs', l.post ⟨id, result⟩⟩
  /-- The completer of a worker waits with the worker. -/
  | waits {cs cs' : List PromiseId} (l : Loop) {id : PromiseId} (h : cs.Perm (id :: cs'))
      (result : WorkResult) : Move ⟨cs, l⟩ ⟨cs', l.addWaiting ⟨id, result⟩⟩
  | letGo (cs : List PromiseId) (l : Loop) : Move ⟨cs, l⟩ ⟨cs, l.releaseWorker.2⟩
  | applied (cs : List PromiseId) {l l' : Loop} {r : Report}
      (next : l.dequeue? = some (.settlement r, l'))
      (distinct : l.heap.slots.length < 2 ^ 32 → (l.inFlight.map Promise.id).Nodup) :
      Move ⟨cs, l⟩ ⟨cs, (l'.land r.promise).2⟩

/-- The accounts of background work. -/
structure Kept (w : Workload) : Prop where
  /-- Every promise in flight has its report in one place. -/
  balance : (w.loop.inFlight.map Promise.id).Perm
    (w.completers ++ (w.loop.waiting ++ w.loop.underway).map Report.promise)
  /-- Reports are applied in the order in which they were posted. -/
  order : posted w.loop.history = reports (started w.loop.history) ++ w.loop.underway
  own : ∀ p ∈ w.loop.inFlight, p.home = w.loop.id
  sorted : w.loop.inFlight.Pairwise fun p q => p.serial < q.serial
  old : ∀ p ∈ w.loop.inFlight, p.serial < w.loop.nextSerial
  spawnedOld : ∀ p ∈ spawned w.loop.history, p.serial < w.loop.nextSerial
  workers : w.loop.heap.slots.length < 2 ^ 32 → w.loop.workers =
    (w.loop.inFlight.filter fun p => p ∈ spawned w.loop.history).map Promise.id

variable {w w' : Workload}

theorem Kept.spared {cs : List PromiseId} {l l' : Loop} (h : Kept ⟨cs, l⟩) (hs : l.SparesWork l') :
    Kept ⟨cs, l'⟩ := by
  obtain ⟨newer, history, quiet⟩ := hs.history
  obtain ⟨posted, spawned, applied⟩ := of_not_isOfWork quiet l.history
  rw [← history] at posted spawned applied
  constructor
  · simpa only [hs.inFlight, hs.waiting, hs.underway] using h.balance
  · simpa only [posted, applied, hs.underway] using h.order
  · simpa only [hs.inFlight, hs.id] using h.own
  · simpa only [hs.inFlight] using h.sorted
  · intro p hp
    rw [hs.inFlight] at hp
    exact Nat.lt_of_lt_of_le (h.old p hp) hs.serial
  · intro p hp
    rw [spawned] at hp
    exact Nat.lt_of_lt_of_le (h.spawnedOld p hp) hs.serial
  · intro room
    simpa only [hs.inFlight, hs.workers, spawned] using h.workers (Nat.lt_of_le_of_lt hs.slots room)

/-- A promise goes in flight, and its completer is handed out. -/
theorem Kept.handedOut {cs : List PromiseId} {l : Loop} (h : Kept ⟨cs, l⟩) :
    Kept ⟨l.openFlight.1.id :: cs, l.openFlight.2⟩ := by
  have new : l.openFlight.1 ∉ PromiseLoop.spawned l.history :=
    fun hp => Nat.lt_irrefl _ (h.spawnedOld _ hp)
  constructor
  · refine (List.Perm.of_eq (List.map_append ..)).trans ?_
    refine (List.perm_append_comm).trans ?_
    exact (h.balance.cons _)
  · exact h.order
  · exact List.forall_mem_append.mpr ⟨h.own, by simp [Loop.openFlight, Loop.newPromise]⟩
  · refine List.pairwise_append.mpr ⟨h.sorted, List.pairwise_singleton .., fun p hp q hq => ?_⟩
    rw [List.mem_singleton.mp hq]
    exact h.old p hp
  · refine List.forall_mem_append.mpr ⟨fun p hp => Nat.lt_succ_of_lt (h.old p hp), ?_⟩
    simp [Loop.openFlight, Loop.newPromise]
  · exact fun p hp => Nat.lt_succ_of_lt (h.spawnedOld p hp)
  · intro room
    refine (h.workers (Nat.lt_of_le_of_lt (Heap.slots_allocate ..) room)).trans ?_
    show _ = List.map _ (List.filter _ (l.inFlight ++ [l.openFlight.1]))
    have none : [l.openFlight.1].filter (fun p => p ∈ PromiseLoop.spawned l.history) = [] :=
      List.filter_eq_nil_iff.mpr (by simpa using new)
    rw [List.filter_append]
    exact congrArg _ ((List.append_nil _).symm.trans (congrArg _ none.symm))

/-- A worker is started for the promise that went in flight last. -/
theorem Kept.employed {cs : List PromiseId} {l : Loop} (h : Kept ⟨cs, l⟩) {p : Promise}
    {older : List Promise} (last : l.inFlight = older ++ [p])
    (new : p ∉ PromiseLoop.spawned l.history) : Kept ⟨cs, l.addWorker p⟩ := by
  have spawned : PromiseLoop.spawned (l.addWorker p).history = p :: PromiseLoop.spawned l.history := rfl
  have mem : p ∈ l.inFlight := last ▸ List.mem_append_right _ (List.mem_singleton_self p)
  refine ⟨h.balance, ?_, h.own, h.sorted, h.old, ?_, fun room => ?_⟩
  · show posted (.spawned p :: l.history) = reports (started (.spawned p :: l.history)) ++ l.underway
    rw [posted_cons, started_cons]
    simpa [Event.posted?, Event.started?] using h.order
  · rw [spawned]
    exact List.forall_mem_cons.mpr ⟨h.old p mem, h.spawnedOld⟩
  · have other : ∀ q ∈ older, q ≠ p := by
      have sorted := h.sorted
      simp only [last] at sorted
      intro q hq e
      exact Nat.lt_irrefl _ (e ▸ (List.pairwise_append.mp sorted).2.2 q hq p (List.mem_singleton_self p))
    have before : older.filter (fun q => q ∈ p :: PromiseLoop.spawned l.history) =
        older.filter fun q => q ∈ PromiseLoop.spawned l.history :=
      List.filter_congr fun q hq => by simp [other q hq]
    show l.workers ++ [p.id] = (l.inFlight.filter fun q =>
      q ∈ p :: PromiseLoop.spawned l.history).map Promise.id
    rw [h.workers room, last, List.filter_append, List.filter_append, before]
    simp [new]

theorem Kept.spawned {cs : List PromiseId} {l : Loop} (h : Kept ⟨cs, l⟩) :
    Kept ⟨l.openFlight.1.id :: cs, l.openFlight.2.addWorker l.openFlight.1⟩ := by
  have last : l.openFlight.2.inFlight = l.inFlight ++ [l.openFlight.1] := rfl
  exact h.handedOut.employed last fun hp => Nat.lt_irrefl _ (h.spawnedOld _ hp)

theorem Kept.used {cs cs' : List PromiseId} {l : Loop} (h : Kept ⟨cs, l⟩) {id : PromiseId}
    (hc : cs.Perm (id :: cs')) (result : WorkResult) : Kept ⟨cs', l.post ⟨id, result⟩⟩ := by
  have underway : (l.post ⟨id, result⟩).underway = l.underway ++ [⟨id, result⟩] :=
    (List.append_assoc ..).symm
  refine ⟨?_, ?_, h.own, h.sorted, h.old, h.spawnedOld, h.workers⟩
  · refine h.balance.trans ((hc.append_right _).trans ?_)
    show (id :: cs' ++ (l.waiting ++ l.underway).map Report.promise).Perm
      (cs' ++ (l.waiting ++ (l.post ⟨id, result⟩).underway).map Report.promise)
    rw [underway, List.perm_iff_count]
    intro a
    simp only [List.map_append, List.map_cons, List.map_nil, List.count_append, List.count_cons,
      List.count_nil]
    omega
  · show posted (.posted ⟨id, result⟩ :: l.history) =
      reports (started (.posted ⟨id, result⟩ :: l.history)) ++ (l.post ⟨id, result⟩).underway
    rw [posted_cons, started_cons, h.order, underway]
    simp [Event.posted?, Event.started?]

theorem Kept.waits {cs cs' : List PromiseId} {l : Loop} (h : Kept ⟨cs, l⟩) {id : PromiseId}
    (hc : cs.Perm (id :: cs')) (result : WorkResult) : Kept ⟨cs', l.addWaiting ⟨id, result⟩⟩ := by
  refine ⟨?_, h.order, h.own, h.sorted, h.old, h.spawnedOld, h.workers⟩
  refine h.balance.trans ((hc.append_right _).trans ?_)
  show (id :: cs' ++ (l.waiting ++ l.underway).map Report.promise).Perm
    (cs' ++ (l.waiting ++ [(⟨id, result⟩ : Report)] ++ l.underway).map Report.promise)
  rw [List.perm_iff_count]
  intro a
  simp only [List.map_append, List.map_cons, List.map_nil, List.count_append, List.count_cons,
    List.count_nil]
  omega

/-- The oldest waiting worker posts. -/
theorem Kept.letGo {cs : List PromiseId} {l : Loop} (h : Kept ⟨cs, l⟩) : Kept ⟨cs, l.releaseWorker.2⟩ := by
  cases hw : l.waiting with
  | nil =>
    have same : l.releaseWorker.2 = l := by rw [Loop.releaseWorker, hw]
    rw [same]
    exact h
  | cons r rest =>
    have shorter : l.releaseWorker.2 = { l with waiting := rest }.post r := by rw [Loop.releaseWorker, hw]
    -- as if the completer had been taken back from the worker
    have back : Kept ⟨r.promise :: cs, { l with waiting := rest }⟩ := by
      refine ⟨?_, h.order, h.own, h.sorted, h.old, h.spawnedOld, h.workers⟩
      refine h.balance.trans ?_
      simp only [hw, List.cons_append, List.map_cons]
      exact List.perm_middle
    rw [shorter]
    exact back.used (.refl _) r.result

/-- Striking an id off takes away the promise with that id, if it is on the list. -/
theorem erase_id_filter {before after : List Promise} {p : Promise} (on : Promise → Bool)
    (distinct : ((before ++ p :: after).map Promise.id).Nodup) :
    (((before ++ p :: after).filter on).map Promise.id).erase p.id =
      ((before ++ after).filter on).map Promise.id := by
  rw [List.map_append, List.map_cons] at distinct
  have once : p.id ∉ (before ++ after).map Promise.id := by
    rw [List.map_append]
    exact (List.nodup_middle.mp distinct).notMem
  have fewer (xs : List Promise) : (xs.filter on).map Promise.id ⊆ xs.map Promise.id :=
    (List.filter_sublist.map _).subset
  rw [List.map_append, List.mem_append, not_or] at once
  rw [List.filter_append, List.filter_append, List.map_append, List.map_append,
    List.erase_append_right _ fun h => once.1 (fewer before h)]
  cases hp : on p with
  | true => rw [List.filter_cons_of_pos hp, List.map_cons, List.erase_cons_head]
  | false =>
    rw [List.filter_cons_of_neg (by simp [hp]), List.erase_of_not_mem fun h => once.2 (fewer after h)]

/-- The report at the head of the queue finds its promise in flight. -/
theorem Kept.flying {cs : List PromiseId} {l l' : Loop} (h : Kept ⟨cs, l⟩) {r : Report}
    (next : l.dequeue? = some (.settlement r, l')) :
    ∃ p before after, l.inFlight = before ++ p :: after ∧ p.id = r.promise ∧
      (∀ q ∈ before, q.id ≠ r.promise) ∧ (l'.land r.promise).1 = some p ∧
      (l'.land r.promise).2.inFlight = before ++ after := by
  obtain ⟨⟨i, q⟩, hq, heq⟩ := Option.map_eq_some_iff.mp next
  obtain ⟨rfl, rfl⟩ := Prod.mk.inj heq
  have entries := (Queue.dequeue?_eq_some_iff _ _ _).mp hq
  have flying : r.promise ∈ l.inFlight.map Promise.id :=
    h.balance.mem_iff.mpr (by simp [Loop.underway, entries, reports, Job.report?])
  obtain ⟨p', hp', hid'⟩ := List.mem_map.mp flying
  obtain ⟨p, before, after, first, hid, split, rest⟩ :=
    List.exists_of_eraseP (p := fun p : Promise => p.id = r.promise) hp' (by simpa using hid')
  replace hid : p.id = r.promise := by simpa using hid
  replace first : ∀ q ∈ before, q.id ≠ r.promise := by simpa using first
  refine ⟨p, before, after, split, hid, first, ?_, rest⟩
  show (l.inFlight.find? fun q => q.id = r.promise) = some p
  rw [split, List.find?_append, List.find?_eq_none.mpr (by simpa using first)]
  simp [hid]

/-- A report is applied: its promise lands. -/
theorem Kept.applied {cs : List PromiseId} {l l' : Loop} (h : Kept ⟨cs, l⟩) {r : Report}
    (next : l.dequeue? = some (.settlement r, l'))
    (distinct : l.heap.slots.length < 2 ^ 32 → (l.inFlight.map Promise.id).Nodup) :
    Kept ⟨cs, (l'.land r.promise).2⟩ := by
  obtain ⟨⟨i, q⟩, hq, heq⟩ := Option.map_eq_some_iff.mp next
  obtain ⟨rfl, rfl⟩ := Prod.mk.inj heq
  have entries := (Queue.dequeue?_eq_some_iff _ _ _).mp hq
  have underway : l.underway = r :: (reports q.entries ++ l.channel) := by
    rw [Loop.underway, entries]
    rfl
  have balance := h.balance
  simp only [underway] at balance
  obtain ⟨p, before, after, split, hid, -, -, landed⟩ := h.flying next
  have rest : (l.inFlight.eraseP fun q => q.id = r.promise) = before ++ after := landed
  have fewer : (before ++ after).Sublist l.inFlight := rest ▸ List.eraseP_sublist
  refine ⟨?_, ?_, ?_, ?_, ?_, h.spawnedOld, fun room => ?_⟩ <;> dsimp only [Loop.land, Loop.note]
  · rw [rest]
    rw [split] at balance
    rw [List.perm_iff_count] at balance ⊢
    intro a
    have count := balance a
    simp only [List.map_append, List.map_cons, List.count_append, List.count_cons, hid] at count
    simp only [List.map_append, List.count_append]
    show _ = _ + (_ + List.count a (List.map Report.promise (reports q.entries ++ l.channel)))
    simp only [List.map_append, List.count_append]
    omega
  · rw [posted_cons, started_cons, h.order, underway]
    simp [Event.posted?, Event.started?, reports, Job.report?, Loop.underway]
  · rw [rest]
    exact fun x hx => h.own x (fewer.subset hx)
  · rw [rest]
    exact h.sorted.sublist fewer
  · rw [rest]
    exact fun x hx => h.old x (fewer.subset hx)
  · -- the worker is struck off that belongs to the promise, if there is one
    have nodup := distinct room
    have workers := h.workers room
    simp only [split] at nodup workers
    show l.workers.erase r.promise =
      ((l.inFlight.eraseP fun p => p.id = r.promise).filter
        fun p => p ∈ PromiseLoop.spawned l.history).map Promise.id
    rw [rest, workers, ← hid, erase_id_filter _ nodup]

theorem Move.kept (hm : Move w w') (h : w.Kept) : w'.Kept := by
  cases hm with
  | spared hs => exact h.spared hs
  | handedOut cs l => exact h.handedOut
  | spawned cs l => exact h.spawned
  | used l hc result => exact h.used hc result
  | waits l hc result => exact h.waits hc result
  | letGo cs l => exact h.letGo
  | applied cs next distinct => exact h.applied next distinct

theorem kept_of_moves (hm : Relation.ReflTransGen Move w w') (h : w.Kept) : w'.Kept := by
  induction hm with
  | refl => exact h
  | tail _ hm ih => exact hm.kept ih

/-- A new loop has no background work. -/
theorem kept_new (id : LoopId) (config : Config) (tracker : Tracker) (bridge : Bridge) :
    Kept ⟨[], { id, config, tracker, bridge }⟩ where
  balance := .refl _
  order := rfl
  own := by simp
  sorted := List.Pairwise.nil
  old := by simp
  spawnedOld := by simp [PromiseLoop.spawned]
  workers _ := rfl

end Workload

end PromiseLoop

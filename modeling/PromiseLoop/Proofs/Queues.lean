import PromiseLoop.Proofs.Records

/-!
# The order of microtasks

Microtasks run in the order in which they were enqueued, each of them once: what has been started is
always a beginning of what has been enqueued, and what is left waits in the queue.  A drain that ends
without a fault has left nothing, and as drains do not nest, no microtask is in the middle of running
then.

## Results

* `Machine.Reachable.queueKept`: what is known of the queue of a loop in every run.
-/

namespace PromiseLoop

open Relation

-- ---------------------------------------------------------------------------
-- What a history says about the queue
-- ---------------------------------------------------------------------------

namespace Event

/-- The job that an event has enqueued. -/
def queued? : Event → Option Job
  | .queued j => some j
  | _ => none

/-- The job that an event has started. -/
def started? : Event → Option Job
  | .started j => some j
  | _ => none

/-- Whether an event happens in a drain only. -/
def isOfDrain : Event → Bool
  | .started _ | .drained => true
  | _ => false

theorem started?_of_not_isOfDrain {e : Event} (h : e.isOfDrain = false) : e.started? = none := by
  cases e <;> first | rfl | exact absurd h (by simp [isOfDrain])

end Event

/-- The jobs that have been enqueued, oldest first. -/
def enqueued (history : List Event) : List Job := (history.filterMap Event.queued?).reverse

/-- The jobs that have been started, oldest first. -/
def started (history : List Event) : List Job := (history.filterMap Event.started?).reverse

theorem enqueued_cons (e : Event) (older : List Event) :
    enqueued (e :: older) = enqueued older ++ e.queued?.toList := by
  cases h : e.queued? <;> simp [enqueued, h]

theorem started_cons (e : Event) (older : List Event) :
    started (e :: older) = started older ++ e.started?.toList := by
  cases h : e.started? <;> simp [started, h]

theorem enqueued_append (newer older : List Event) :
    enqueued (newer ++ older) = enqueued older ++ enqueued newer := by
  simp [enqueued]

theorem started_append (newer older : List Event) :
    started (newer ++ older) = started older ++ started newer := by
  simp [started]

theorem started_of_not_isOfDrain {newer : List Event} (h : ∀ e ∈ newer, e.isOfDrain = false) :
    started newer = [] := by
  rw [started, List.filterMap_eq_nil_iff.mpr fun e he => Event.started?_of_not_isOfDrain (h e he)]
  rfl

-- ---------------------------------------------------------------------------
-- Operations outside of a drain
-- ---------------------------------------------------------------------------

namespace Loop

variable {l l' l'' : Loop}

/-- A later loop that has enqueued some jobs and noted them, and has started none. -/
def Appends (l l' : Loop) : Prop :=
  ∃ newer, l'.history = newer ++ l.history ∧
    l'.microtasks.entries = l.microtasks.entries ++ enqueued newer ∧
    (∀ e ∈ newer, e.isOfDrain = false) ∧ l'.draining = l.draining

theorem Appends.trans (h : l.Appends l') (h' : l'.Appends l'') : l.Appends l'' := by
  obtain ⟨newer, history, entries, plain, draining⟩ := h
  obtain ⟨newer', history', entries', plain', draining'⟩ := h'
  refine ⟨newer' ++ newer, by rw [history', history, List.append_assoc], ?_, ?_,
    draining'.trans draining⟩
  · rw [entries', entries, enqueued_append, List.append_assoc]
  · intro e he
    rcases List.mem_append.mp he with he | he
    · exact plain' e he
    · exact plain e he

theorem appends_of_eq (history : l'.history = l.history) (microtasks : l'.microtasks = l.microtasks)
    (draining : l'.draining = l.draining) : l.Appends l' :=
  ⟨[], history, by rw [microtasks]; simp [enqueued], by simp, draining⟩

theorem Appends.refl (l : Loop) : l.Appends l := appends_of_eq rfl rfl rfl

theorem appends_note (l : Loop) {e : Event} (hq : e.queued? = none) (hd : e.isOfDrain = false) :
    l.Appends (l.note e) :=
  ⟨[e], rfl, by simp [enqueued, hq, note], by simpa using hd, rfl⟩

theorem appends_enqueue (l : Loop) (j : Job) : l.Appends (l.enqueue j) :=
  ⟨[.queued j], rfl, rfl, by simp [Event.isOfDrain], rfl⟩

theorem appends_foldl_enqueue {α : Type} (job : α → Job) (xs : List α) (l : Loop) :
    l.Appends (xs.foldl (fun l x => l.enqueue (job x)) l) := by
  induction xs generalizing l with
  | nil => exact .refl l
  | cons x xs ih => exact (appends_enqueue l (job x)).trans (ih _)

theorem appends_logEvent (l : Loop) (e : RejectionEvent) : l.Appends (l.logEvent e) := by
  rw [logEvent_eq]
  exact appends_of_eq rfl rfl rfl

theorem appends_report (l : Loop) (id : PromiseId) (reason : Value) :
    l.Appends (l.report id reason) :=
  (appends_note l rfl rfl).trans (appends_logEvent _ _)

theorem appends_reportHandled (l : Loop) (id : PromiseId) : l.Appends (l.reportHandled id) :=
  (appends_note l rfl rfl).trans (appends_logEvent _ _)

theorem appends_settle (l : Loop) (id : PromiseId) (s : State) (v : Value) :
    l.Appends (l.settle id s v).1 := by
  rcases settle_cases l id s v with h | ⟨r, -, -, -, h⟩
  · rw [h]
    exact .refl l
  · rw [h]
    refine ⟨((r.released s).fire.map fun y => Event.queued (.reaction y v)).reverse
      ++ [.settled id s v], by rw [List.append_assoc]; rfl, ?_, ?_, rfl⟩
    · simp [enqueued, Event.queued?, List.filterMap_append, List.filterMap_reverse,
        List.filterMap_map, Function.comp_def]
    · intro e he
      rcases List.mem_append.mp he with he | he
      · obtain ⟨y, -, rfl⟩ := List.mem_map.mp (List.mem_reverse.mp he)
        rfl
      · rw [List.mem_singleton.mp he]
        rfl

theorem appends_markHandled (l : Loop) (id : PromiseId) (derived : Promise) (f g : Option Value)
    (late : Bool) : l.Appends (l.markHandled id derived f g late) := by
  have modified : l.Appends (l.modifyRecord id fun r => { r with isHandled := true }) :=
    appends_of_eq rfl rfl rfl
  have noted := modified.trans (appends_note _ (e := .attached id derived f g) rfl rfl)
  cases late with
  | false => exact noted
  | true => exact noted.trans (appends_reportHandled _ id)

theorem appends_attach {p : Promise} {f g : Option Value} {a : Attached}
    (h : l.attach p f g = .ok a) : l.Appends a.loop := by
  have created : l.Appends l.newPromise.2 := appends_of_eq rfl rfl rfl
  unfold attach at h
  cases hr : l.record p with
  | error e => rw [hr] at h; cases h
  | ok r =>
    rw [hr] at h
    have marked := created.trans
      (appends_markHandled _ p.id l.newPromise.1 f g (handledLate r))
    cases hs : r.state <;> simp only [Except.map, hs] at h <;> cases h
    · exact marked.trans (appends_of_eq rfl rfl rfl)
    · exact marked
    · exact marked

theorem appends_endAttach (l : Loop) (derived : Promise) (job : Option Job) :
    l.Appends (l.endAttach derived job) := by
  cases job with
  | none => exact appends_note l rfl rfl
  | some j => exact (appends_enqueue l j).trans (appends_note _ rfl rfl)

theorem appends_takeReports (l : Loop) : l.Appends l.takeReports.2 := by
  obtain ⟨heap, heq, -, -⟩ := takeReports_spec l
  rw [heq]
  exact appends_of_eq rfl rfl rfl

theorem appends_free? {id : PromiseId} {r : Record} (h : l.free? id = some (r, l')) :
    l.Appends l' := by
  obtain ⟨-, rfl⟩ := free?_eq_some.mp h
  have vacated : l.Appends { l with heap := l.heap.vacated id } := appends_of_eq rfl rfl rfl
  split
  · exact (vacated.trans (appends_report _ _ _)).trans (appends_note _ rfl rfl)
  · exact vacated.trans (appends_note _ rfl rfl)

theorem Outside.appends (h : l.Outside l') : l.Appends l' := by
  have posted (l : Loop) (r : Report) : l.Appends (l.post r) :=
    ⟨[.posted r], rfl, by simp [enqueued, Event.queued?, post, note], by simp [Event.isOfDrain], rfl⟩
  cases h with
  | released id => exact appends_of_eq rfl rfl rfl
  | posted r => exact posted l r
  | workerReleased =>
    unfold releaseWorker
    split
    · exact .refl l
    · rename_i r rest _
      have shortened : l.Appends { l with waiting := rest } := appends_of_eq rfl rfl rfl
      exact shortened.trans (posted _ r)

theorem Called.appends (h : l.Called l') : l.Appends l' := by
  cases h with
  | asked h =>
    rename_i e
    exact appends_note l (by cases e <;> simp_all [Event.isQuestion, Event.queued?])
      (by cases e <;> simp_all [Event.isQuestion, Event.isOfDrain])
  | created => exact appends_of_eq rfl rfl rfl
  | attempted h =>
    obtain ⟨r, -, -, rfl⟩ := lock_eq_ok.mp h
    have modified (id : PromiseId) (f : Record → Record) : l.Appends (l.modifyRecord id f) :=
      appends_of_eq rfl rfl rfl
    exact (modified _ _).trans (appends_note _ rfl rfl)
  | settled id s v => exact appends_settle l id s v
  | attached h _ => exact (appends_attach h).trans (appends_endAttach _ _ _)
  | queued h => exact appends_enqueue l _
  | delivered =>
    have emptied : l.Appends { l with channel := [] } := appends_of_eq rfl rfl rfl
    exact emptied.trans (appends_foldl_enqueue .settlement l.channel _)
  | received h =>
    unfold receive? at h
    split at h
    · cases h
    · rename_i r rest _
      have shortened : l.Appends { l with channel := rest } := appends_of_eq rfl rfl rfl
      rw [← Option.some.inj h]
      exact shortened.trans (appends_enqueue _ _)
  | taskQueued w =>
    exact ⟨[.taskQueued w], rfl, by simp [enqueued, Event.queued?, enqueueTask, note],
      by simp [Event.isOfDrain], rfl⟩
  | taskTaken h =>
    obtain ⟨⟨w, q⟩, -, heq⟩ := Option.map_eq_some_iff.mp h
    rw [← (Prod.mk.inj heq).2]
    exact ⟨[.taskStarted w], rfl, by simp [enqueued, Event.queued?, note],
      by simp [Event.isOfDrain], rfl⟩
  | flown => exact appends_of_eq rfl rfl rfl
  | workerAdded p =>
    exact ⟨[.spawned p], rfl, by simp [enqueued, Event.queued?, addWorker, note],
      by simp [Event.isOfDrain], rfl⟩
  | workerWaits r => exact appends_of_eq rfl rfl rfl
  | landed id => exact appends_of_eq rfl rfl rfl

end Loop

-- ---------------------------------------------------------------------------
-- Drains
-- ---------------------------------------------------------------------------

def Frame.isDraining : Frame → Bool
  | .draining _ => true
  | _ => false

namespace View

/-- What is known of the queue of a loop. -/
structure QueueKept (v : View) : Prop where
  /-- What has been enqueued has been started in that order, or still waits. -/
  fifo : enqueued v.loop.history = started v.loop.history ++ v.loop.microtasks.entries
  /-- A drain has left nothing when it ends. -/
  drained : EveryEvent (fun e older => e = .drained → enqueued older = started older) v.loop.history
  /-- Drains do not nest. -/
  draining : v.turns.countP Frame.isDraining = if v.loop.draining then 1 else 0

theorem queueKept_fresh (id : LoopId) (config : Config) (tracker : Tracker) (bridge : Bridge) :
    (fresh id config tracker bridge).QueueKept :=
  ⟨rfl, everyEvent_nil _, rfl⟩

variable {v v' : View}

/-- Operations outside of a drain that begin or end no drain. -/
theorem QueueKept.of_appends (h : v.QueueKept) (ha : v.loop.Appends v'.loop)
    (turns : v'.turns.countP Frame.isDraining = v.turns.countP Frame.isDraining) :
    v'.QueueKept := by
  obtain ⟨newer, history, entries, plain, draining⟩ := ha
  refine ⟨?_, ?_, ?_⟩
  · rw [history, entries, enqueued_append, started_append, started_of_not_isOfDrain plain, h.fifo]
    simp
  · rw [history]
    refine h.drained.append fun e he older hd => ?_
    have := plain e he
    rw [hd] at this
    cases this
  · rw [turns, draining, h.draining]

theorem Final.appends (h : v.Final v') : v.loop.Appends v'.loop := by
  cases h with
  | attachedLate h _ => exact Loop.appends_attach h
  | selected l turns => exact l.appends_takeReports
  | swept l turns => exact .refl l

theorem Resume.appends (h : v.Resume v') : v.loop.Appends v'.loop := by
  cases h with
  | attachEnded => exact Loop.appends_endAttach _ _ _
  | reported => exact Loop.appends_report _ _ _
  | reportsSwept => exact .refl _
  | reportsChecked => exact Loop.appends_note _ rfl rfl
  | sweptOn => exact .refl _

theorem Sweeping.appends (h : v.Sweeping v') : v.loop.Appends v'.loop := by
  cases h with
  | taken _ _ => exact Loop.appends_of_eq rfl rfl rfl
  | skipped _ _ => exact .refl _
  | freed _ found _ => exact Loop.appends_free? found
  | reported _ found _ => exact Loop.appends_free? found
  | ended _ _ =>
    dsimp only
    split
    · exact Loop.appends_note _ rfl rfl
    · exact .refl _

theorem Move.queueKept (hm : v.Move v') (h : v.QueueKept) : v'.QueueKept := by
  cases hm with
  | plain hm =>
    cases hm with
    | light hm =>
      cases hm with
      | outside ho => exact h.of_appends ho.appends rfl
      | called hc => exact h.of_appends hc.appends rfl
      | drainBegun hd =>
        rename_i l turns
        refine ⟨h.fifo, h.drained, ?_⟩
        have none_yet : turns.countP Frame.isDraining = 0 := by simpa [hd] using h.draining
        show (Frame.draining l.id :: turns).countP Frame.isDraining = 1
        rw [List.countP_cons_of_pos rfl, none_yet]
    | taken hd =>
      rename_i l l' j turns
      obtain ⟨⟨j, q⟩, hq, heq⟩ := Option.map_eq_some_iff.mp hd
      obtain ⟨rfl, rfl⟩ := Prod.mk.inj heq
      have entries := (Queue.dequeue?_eq_some_iff _ _ _).mp hq
      have fifo := h.fifo
      refine ⟨?_, everyEvent_cons.mpr ⟨nofun, h.drained⟩, h.draining⟩
      show enqueued (.started j :: l.history) = started (.started j :: l.history) ++ q.entries
      rw [enqueued_cons, started_cons, fifo, entries]
      simp [Event.queued?, Event.started?]
    | drainEnded hd =>
      rename_i l turns
      have empty : l.microtasks.entries = [] := by
        have := (Queue.dequeue?_eq_none_iff _).mp (Option.map_eq_none_iff.mp hd)
        simpa [Queue.isEmpty] using this
      have fifo := h.fifo
      rw [empty, List.append_nil] at fifo
      refine ⟨?_, everyEvent_cons.mpr ⟨fun _ => fifo, h.drained⟩, ?_⟩
      · show enqueued (.drained :: l.history) = started (.drained :: l.history)
          ++ l.microtasks.entries
        rw [enqueued_cons, started_cons, fifo, empty]
        simp [Event.queued?, Event.started?]
      · have draining := h.draining
        rw [List.countP_cons_of_pos rfl] at draining
        show turns.countP Frame.isDraining = 0
        split at draining <;> omega
    | drainBroken =>
      rename_i l turns
      refine ⟨h.fifo, h.drained, ?_⟩
      have draining := h.draining
      rw [List.countP_cons_of_pos rfl] at draining
      show turns.countP Frame.isDraining = 0
      split at draining <;> omega
  | final hm => exact h.of_appends hm.appends (by cases hm <;> rfl)
  | resume hm => exact h.of_appends hm.appends (by cases hm <;> rfl)
  | sweeping hm => exact h.of_appends hm.appends (by cases hm <;> rfl)

end View

/-- What is true of the view of a new loop, and kept by every move, is true in every run. -/
theorem Machine.Reachable.keepsView {m : Machine} (h : Reachable m) {loop : LoopId} {l : Loop}
    (hl : m.loop? loop = some l) {P : View → Prop}
    (new : ∀ config tracker bridge, P (View.fresh loop config tracker bridge))
    (keep : ∀ {v v' : View}, v.Move v' → P v → P v') : P ⟨l, m.turnsOf loop, m.sweepOf loop⟩ := by
  rcases h.view loop with ha | ⟨config, tracker, bridge, v, hv, hm⟩
  · rw [ha.gone] at hl
    cases hl
  · rw [sees_of_loop? hl] at hv
    rw [Option.some.inj hv]
    clear hv
    induction hm with
    | refl => exact new config tracker bridge
    | tail _ hm ih => exact keep hm ih

/-- What is known of the queue of a loop in every run. -/
theorem Machine.Reachable.queueKept {m : Machine} (h : Reachable m) {loop : LoopId} {l : Loop}
    (hl : m.loop? loop = some l) : View.QueueKept ⟨l, m.turnsOf loop, m.sweepOf loop⟩ :=
  h.keepsView hl (View.queueKept_fresh loop) View.Move.queueKept

-- ---------------------------------------------------------------------------
-- The end of a drain
-- ---------------------------------------------------------------------------

namespace Machine

variable {m m' : Machine}

/-- Nothing that was on the stack of a machine has been taken off. -/
def Above (m m' : Machine) : Prop := m.stack <:+ m'.stack

theorem Above.trans {m'' : Machine} (h : Above m m') (h' : Above m' m'') : Above m m'' :=
  List.IsSuffix.trans h h'

theorem above_of_eq (h : m'.stack = m.stack) : Above m m' :=
  (show m.stack <:+ m'.stack from h ▸ List.suffix_rfl)

theorem above_push (m : Machine) (f : Frame) : Above m (m.push f) := List.suffix_cons ..

theorem above_read (m : Machine) (o : ObjectId) (key : String) : Above m (m.read o key) := by
  unfold read
  split
  · exact above_of_eq rfl
  · exact above_of_eq rfl
  · exact above_push m _

theorem above_callValue (m : Machine) (f this : Value) (arguments : List Value) :
    Above m (m.callValue f this arguments) := by
  unfold callValue
  split
  · exact above_of_eq rfl
  · exact above_of_eq (by simp)

theorem above_invoke (m : Machine) (loop : LoopId) (f this : Value) (arguments : List Value) :
    Above m (m.invoke loop f this arguments) := by
  unfold invoke
  dsimp only
  split
  · exact (above_push (m.modifyLoop _ _) _).trans (above_read _ _ _)
  · exact above_callValue (m.modifyLoop _ _) _ _ _

theorem above_probe (m : Machine) (loop : LoopId) (v : Value) : Above m (m.probe loop v) := by
  unfold probe
  split
  · exact above_of_eq rfl
  · split
    · exact above_of_eq rfl
    · split
      · unfold askThen
        split
        · exact (above_push (m.setLoop _) _).trans (above_read _ _ _)
        · exact above_of_eq rfl
        · exact above_of_eq rfl
      · exact above_of_eq rfl

theorem above_settle (m : Machine) (p : Promise) (s : State) (v : Value) (spent : List Value) :
    Above m (m.settle p s v spent) := by
  unfold settle
  split <;> exact above_of_eq (by simp)

theorem above_withLock (m : Machine) (loop : LoopId) (p : Promise) (v : Value)
    {act : Machine → Machine} (h : ∀ m, Above m (act m)) : Above m (m.withLock loop p v act) := by
  unfold withLock
  split
  · exact above_of_eq (by simp)
  · split
    · exact above_of_eq (by simp)
    · exact above_of_eq (by simp)
    · exact h (m.setLoop _)

theorem above_resolve (m : Machine) (loop : LoopId) (p : Promise) (v : Value) :
    Above m (m.resolve loop p v) := by
  refine above_withLock m loop p v fun m => ?_
  unfold resolveLocked
  split
  · exact above_settle m p _ _ _
  · exact (above_push m _).trans (above_probe _ _ _)

theorem above_reject (m : Machine) (loop : LoopId) (p : Promise) (v : Value) :
    Above m (m.reject loop p v) :=
  above_withLock m loop p v fun m => above_settle m p _ _ _

theorem above_startWork (m : Machine) (w : Work) (e : Entry) : Above m (m.startWork w e) := by
  have traced : Above m ((m.push (.work w.quiet)).traceEntry e) :=
    (above_push m (.work w.quiet)).trans (above_of_eq (by simp))
  exact traced.trans (above_push _ (.block w.body))

/-- A job begins above what is on the stack. -/
theorem above_startJob (m : Machine) (loop : LoopId) (j : Job) : Above m (m.startJob loop j) := by
  cases j with
  | reaction r v =>
    show Above m (m.startReaction loop r v)
    unfold startReaction
    split
    · exact (above_push m _).trans (above_invoke _ _ _ _ _)
    · split
      · exact (above_push m _).trans (above_resolve _ _ _ _)
      · exact (above_push m _).trans (above_reject _ _ _ _)
  | adoption p thenable thenFunction =>
    exact (above_push (m.newPair p).2 _).trans (above_invoke _ _ _ _ _)
  | settlement r =>
    show Above m (m.startSettlement loop r)
    unfold startSettlement
    split
    · exact above_of_eq rfl
    · dsimp only
      split
      · split
        · exact (above_push (m.setLoop _) _).trans (above_resolve _ _ _ _)
        · exact (above_push (m.setLoop _) _).trans (above_reject _ _ _ _)
      · exact above_of_eq (by simp)
  | host w => exact above_startWork m w _

/-- A drain goes on with a job above its frame, unless no job is left. -/
theorem drained_of_nextMicrotask {loop : LoopId} {l : Loop} (hl : m.loop? loop = some l)
    (popped : (m.nextMicrotask loop).stack = m.stack) :
    ∃ l', (m.nextMicrotask loop).loop? loop = some l' ∧ l'.history = .drained :: l.history ∧
      l'.draining = false := by
  unfold nextMicrotask at popped ⊢
  split at popped
  · refine ⟨l.stopDraining.note .drained, ?_, rfl, rfl⟩
    show (m.modifyLoop loop _).loop? loop = _
    rw [loop?_modifyLoop_self, hl]
    rfl
  · rename_i j l' _
    have above := above_startJob ((m.setLoop l').push (.draining loop)) loop j
    rw [Above, popped] at above
    exact absurd above.length_le (by simp)

/-- A drain whose frame is taken off the stack without a fault has come to its end: the loop notes it,
and is not being drained any more. -/
theorem drained_of_step {loop : LoopId} {l : Loop} {s : Signal} {rest : List Frame}
    (hl : m.loop? loop = some l) (hc : m.control = .signal s)
    (hs : m.stack = .draining loop :: rest) (popped : m.step.stack = rest)
    (done : m.step.control = .signal .done) :
    ∃ l', m.step.loop? loop = some l' ∧ l'.history = .drained :: l.history ∧
      l'.draining = false := by
  unfold step at popped done ⊢
  cases ho : m.orphan? with
  | some x =>
    simp only [ho, removeLoop, stack_drop, hs] at popped
    exact absurd popped (List.cons_ne_self _ _)
  | none =>
    simp only [ho, hc, hs, resume] at popped done ⊢
    generalize hn : ({ m with stack := rest, control := .signal .done } : Machine) = n at *
    have goes_on (vs : List Value) (popped : ((drop vs n).nextMicrotask loop).stack = rest) :
        ∃ l', ((drop vs n).nextMicrotask loop).loop? loop = some l' ∧
          l'.history = .drained :: l.history ∧ l'.draining = false := by
      obtain ⟨released, hd⟩ := exists_loop?_drop vs n loop
      have found : n.loop? loop = some l := by rw [← hn]; exact hl
      rw [found] at hd
      obtain ⟨l', hl', history, draining⟩ := drained_of_nextMicrotask hd
        (popped.trans (by rw [stack_drop, ← hn]))
      exact ⟨l', hl', history, draining⟩
    cases s with
    | fault f => simp [resumeDraining, breakDrain] at done
    | _ => exact goes_on _ popped

end Machine
end PromiseLoop

import PromiseLoop.Proofs.Queues

/-!
# Entries

The entries of a loop are the tasks and the microtasks of the host.  Tasks start in the order in which they
were enqueued, each of them once, as microtasks do.  Nearly all operations of a loop begin no entry and no
other job: the loop *bides*.

## Results

* `Loop.Bides`: what operations of a loop do to its tasks and entries.
* `Machine.Reachable.tasksKept`: the order of tasks in every run.
-/

namespace PromiseLoop

-- ---------------------------------------------------------------------------
-- What a history says about entries
-- ---------------------------------------------------------------------------

namespace Event

/-- The task that an event has enqueued. -/
def taskQueued? : Event → Option Work
  | .taskQueued w => some w
  | _ => none

/-- The task that an event has started. -/
def taskStarted? : Event → Option Work
  | .taskStarted w => some w
  | _ => none

/-- The entry that an event has begun. -/
def entered? : Event → Option Work
  | .taskStarted w => some w
  | .started (.host w) => some w
  | _ => none

/-- Whether an event begins a task or a job. -/
def begins : Event → Bool
  | .taskStarted _ | .started _ => true
  | _ => false

theorem of_not_begins {e : Event} (h : e.begins = false) : e.taskStarted? = none ∧ e.entered? = none := by
  cases e <;> first | exact ⟨rfl, rfl⟩ | cases h

end Event

/-- The tasks that have been enqueued, oldest first. -/
def tasksQueued (history : List Event) : List Work := (history.filterMap Event.taskQueued?).reverse

/-- The tasks that have been started, oldest first. -/
def tasksStarted (history : List Event) : List Work := (history.filterMap Event.taskStarted?).reverse

/-- The entries that have been begun, oldest first. -/
def entries (history : List Event) : List Work := (history.filterMap Event.entered?).reverse

theorem tasksQueued_append (newer older : List Event) :
    tasksQueued (newer ++ older) = tasksQueued older ++ tasksQueued newer := by simp [tasksQueued]

theorem tasksStarted_append (newer older : List Event) :
    tasksStarted (newer ++ older) = tasksStarted older ++ tasksStarted newer := by simp [tasksStarted]

theorem entries_append (newer older : List Event) :
    entries (newer ++ older) = entries older ++ entries newer := by simp [entries]

theorem tasksStarted_cons (e : Event) (older : List Event) :
    tasksStarted (e :: older) = tasksStarted older ++ e.taskStarted?.toList := by
  cases h : e.taskStarted? <;> simp [tasksStarted, h]

theorem entries_cons (e : Event) (older : List Event) :
    entries (e :: older) = entries older ++ e.entered?.toList := by
  cases h : e.entered? <;> simp [entries, h]

theorem of_not_begins {newer : List Event} (h : ∀ e ∈ newer, e.begins = false) :
    tasksStarted newer = [] ∧ entries newer = [] := by
  rw [tasksStarted, entries, List.filterMap_eq_nil_iff.mpr fun e he => (Event.of_not_begins (h e he)).1,
    List.filterMap_eq_nil_iff.mpr fun e he => (Event.of_not_begins (h e he)).2]
  exact ⟨rfl, rfl⟩

-- ---------------------------------------------------------------------------
-- Operations that begin nothing
-- ---------------------------------------------------------------------------

namespace Loop

variable {l l' l'' : Loop}

/-- A later loop that has begun no task and no job.  Tasks may have been enqueued. -/
def Bides (l l' : Loop) : Prop :=
  ∃ newer, l'.history = newer ++ l.history ∧ l'.tasks.entries = l.tasks.entries ++ tasksQueued newer ∧
    ∀ e ∈ newer, e.begins = false

theorem Bides.trans (h : l.Bides l') (h' : l'.Bides l'') : l.Bides l'' := by
  obtain ⟨newer, history, tasks, quiet⟩ := h
  obtain ⟨newer', history', tasks', quiet'⟩ := h'
  refine ⟨newer' ++ newer, by rw [history', history, List.append_assoc], ?_, fun e he => ?_⟩
  · rw [tasks', tasks, tasksQueued_append, List.append_assoc]
  · rcases List.mem_append.mp he with he | he
    · exact quiet' e he
    · exact quiet e he

theorem Bides.entries (h : l.Bides l') : entries l'.history = entries l.history := by
  obtain ⟨newer, history, -, quiet⟩ := h
  rw [history, entries_append, (of_not_begins quiet).2, List.append_nil]

theorem bides_of_eq (history : l'.history = l.history) (tasks : l'.tasks = l.tasks) : l.Bides l' :=
  ⟨[], history, by rw [tasks]; simp [tasksQueued], by simp⟩

theorem Bides.refl (l : Loop) : l.Bides l := bides_of_eq rfl rfl

theorem bides_note (l : Loop) {e : Event} (hq : e.taskQueued? = none) (hb : e.begins = false) :
    l.Bides (l.note e) :=
  ⟨[e], rfl, by simp [tasksQueued, hq, note], by simpa using hb⟩

theorem bides_enqueue (l : Loop) (j : Job) : l.Bides (l.enqueue j) := bides_note l rfl rfl

theorem bides_enqueueTask (l : Loop) (w : Work) : l.Bides (l.enqueueTask w) :=
  ⟨[.taskQueued w], rfl, rfl, by simp [Event.begins]⟩

theorem bides_foldl_enqueue {α : Type} (job : α → Job) (xs : List α) (l : Loop) :
    l.Bides (xs.foldl (fun l x => l.enqueue (job x)) l) := by
  induction xs generalizing l with
  | nil => exact .refl l
  | cons x xs ih => exact (bides_enqueue l (job x)).trans (ih _)

theorem bides_deliver (l : Loop) : l.Bides l.deliver :=
  have emptied : l.Bides { l with channel := [] } := bides_of_eq rfl rfl
  emptied.trans (bides_foldl_enqueue .settlement l.channel _)

theorem bides_receive? (h : l.receive? = some l') : l.Bides l' := by
  unfold receive? at h
  split at h
  · cases h
  · rename_i r rest _
    have shortened : l.Bides { l with channel := rest } := bides_of_eq rfl rfl
    rw [← Option.some.inj h]
    exact shortened.trans (bides_enqueue _ _)

theorem bides_post (l : Loop) (r : Report) : l.Bides (l.post r) :=
  have filled : l.Bides { l with channel := l.channel ++ [r] } := bides_of_eq rfl rfl
  filled.trans (bides_note _ rfl rfl)

theorem bides_releaseWorker (l : Loop) : l.Bides l.releaseWorker.2 := by
  unfold releaseWorker
  split
  · exact .refl l
  · rename_i r rest _
    have shortened : l.Bides { l with waiting := rest } := bides_of_eq rfl rfl
    exact shortened.trans (bides_post _ r)

theorem bides_addWorker (l : Loop) (p : Promise) : l.Bides (l.addWorker p) :=
  have listed : l.Bides { l with workers := l.workers ++ [p.id] } := bides_of_eq rfl rfl
  listed.trans (bides_note _ rfl rfl)

theorem bides_logEvent (l : Loop) (e : RejectionEvent) : l.Bides (l.logEvent e) := by
  rw [logEvent_eq]
  exact bides_of_eq rfl rfl

theorem bides_report (l : Loop) (id : PromiseId) (reason : Value) : l.Bides (l.report id reason) :=
  (bides_note l rfl rfl).trans (bides_logEvent _ _)

theorem bides_reportHandled (l : Loop) (id : PromiseId) : l.Bides (l.reportHandled id) :=
  (bides_note l rfl rfl).trans (bides_logEvent _ _)

theorem bides_lock {p : Promise} {accepted : Bool} (h : l.lock p = .ok (accepted, l')) : l.Bides l' := by
  obtain ⟨r, -, -, rfl⟩ := lock_eq_ok.mp h
  have modified (id : PromiseId) (f : Record → Record) : l.Bides (l.modifyRecord id f) := bides_of_eq rfl rfl
  exact (modified _ _).trans (bides_note _ rfl rfl)

theorem bides_settle (l : Loop) (id : PromiseId) (s : State) (v : Value) : l.Bides (l.settle id s v).1 := by
  have modified (f : Record → Record) : l.Bides (l.modifyRecord id f) := bides_of_eq rfl rfl
  unfold settle
  split
  · exact .refl l
  · rename_i r released _
    have enqueued := ((modified fun _ => r).trans (bides_note _ (e := .settled id s v) rfl rfl)).trans
      (bides_foldl_enqueue (fun r => .reaction r v) released.fire _)
    dsimp only
    split
    · unfold awaitReport
      split
      · exact enqueued.trans (bides_of_eq rfl rfl)
      · exact enqueued
    · exact enqueued

theorem bides_attach {p : Promise} {f g : Option Value} {a : Attached} (h : l.attach p f g = .ok a) :
    l.Bides a.loop := by
  have created : l.Bides l.newPromise.2 := bides_of_eq rfl rfl
  have marked (x : Loop) (late : Bool) : x.Bides (x.markHandled p.id l.newPromise.1 f g late) := by
    have modified : x.Bides (x.modifyRecord p.id fun r => { r with isHandled := true }) := bides_of_eq rfl rfl
    have noted := modified.trans (bides_note _ (e := .attached p.id l.newPromise.1 f g) rfl rfl)
    cases late with
    | false => exact noted
    | true => exact noted.trans (bides_reportHandled _ _)
  unfold attach at h
  cases hr : l.record p with
  | error e => rw [hr] at h; cases h
  | ok r =>
    rw [hr] at h
    have marked := created.trans (marked _ (handledLate r))
    cases hs : r.state <;> simp only [Except.map, hs] at h <;> cases h
    · exact marked.trans (bides_of_eq rfl rfl)
    · exact marked
    · exact marked

theorem bides_endAttach (l : Loop) (derived : Promise) (job : Option Job) :
    l.Bides (l.endAttach derived job) := by
  cases job with
  | none => exact bides_note l rfl rfl
  | some j => exact (bides_enqueue l j).trans (bides_note _ rfl rfl)

theorem bides_takeReports (l : Loop) : l.Bides l.takeReports.2 := by
  obtain ⟨heap, heq, -, -⟩ := takeReports_spec l
  rw [heq]
  exact bides_of_eq rfl rfl

theorem bides_free? {id : PromiseId} {r : Record} (h : l.free? id = some (r, l')) : l.Bides l' := by
  obtain ⟨-, rfl⟩ := free?_eq_some.mp h
  have vacated : l.Bides { l with heap := l.heap.vacated id } := bides_of_eq rfl rfl
  split
  · exact (vacated.trans (bides_report _ _ _)).trans (bides_note _ rfl rfl)
  · exact vacated.trans (bides_note _ rfl rfl)

theorem Outside.bides (h : l.Outside l') : l.Bides l' := by
  cases h with
  | released id => exact bides_of_eq rfl rfl
  | posted r => exact bides_post l r
  | workerReleased => exact bides_releaseWorker l

theorem bides_of_outside (h : Relation.ReflTransGen Outside l l') : l.Bides l' := by
  induction h with
  | refl => exact .refl l
  | tail _ h ih => exact ih.trans h.bides

/-- What the operations of a loop do to it begins nothing, unless a task is taken. -/
theorem Called.bides_or (h : l.Called l') : l.Bides l' ∨ ∃ w, l.dequeueTask? = some (w, l') := by
  cases h with
  | asked h =>
    rename_i e
    exact .inl (bides_note l (by cases e <;> simp_all [Event.isQuestion, Event.taskQueued?])
      (by cases e <;> simp_all [Event.isQuestion, Event.begins]))
  | created => exact .inl (bides_of_eq rfl rfl)
  | attempted h => exact .inl (bides_lock h)
  | settled id s v => exact .inl (bides_settle l id s v)
  | attached h _ => exact .inl ((bides_attach h).trans (bides_endAttach _ _ _))
  | queued h => exact .inl (bides_enqueue l _)
  | delivered => exact .inl (bides_deliver l)
  | received h => exact .inl (bides_receive? h)
  | taskQueued w => exact .inl (bides_enqueueTask l w)
  | taskTaken h => exact .inr ⟨_, h⟩
  | flown => exact .inl (bides_of_eq rfl rfl)
  | workerAdded p => exact .inl (bides_addWorker l p)
  | workerWaits r => exact .inl (bides_of_eq rfl rfl)
  | landed id => exact .inl (bides_of_eq rfl rfl)

end Loop

-- ---------------------------------------------------------------------------
-- The order of tasks
-- ---------------------------------------------------------------------------

/-- The tasks of a loop have started in the order in which they were enqueued, or still wait. -/
def Loop.TasksKept (l : Loop) : Prop := tasksQueued l.history = tasksStarted l.history ++ l.tasks.entries

variable {l l' : Loop}

theorem Loop.TasksKept.bides (h : l.TasksKept) (bides : l.Bides l') : l'.TasksKept := by
  obtain ⟨newer, history, tasks, quiet⟩ := bides
  rw [TasksKept, history, tasks, tasksQueued_append, tasksStarted_append, (of_not_begins quiet).1,
    List.append_nil, ← List.append_assoc, h]

theorem Loop.TasksKept.taken {w : Work} (h : l.TasksKept) (next : l.dequeueTask? = some (w, l')) :
    l'.TasksKept := by
  obtain ⟨⟨w', q⟩, hq, heq⟩ := Option.map_eq_some_iff.mp next
  obtain ⟨rfl, rfl⟩ := Prod.mk.inj heq
  have entries := (Queue.dequeue?_eq_some_iff _ _ _).mp hq
  show tasksQueued l.history = tasksStarted (.taskStarted w' :: l.history) ++ q.entries
  rw [tasksStarted_cons, h, entries]
  simp [Event.taskStarted?]

theorem View.Move.tasksKept {v v' : View} (hm : v.Move v') (h : v.loop.TasksKept) : v'.loop.TasksKept := by
  cases hm with
  | plain hm =>
    cases hm with
    | light hm =>
      cases hm with
      | outside ho => exact h.bides ho.bides
      | called hc =>
        rcases hc.bides_or with bides | ⟨w, next⟩
        · exact h.bides bides
        · exact h.taken next
      | drainBegun _ => exact h
    | taken next =>
      obtain ⟨⟨j, q⟩, -, heq⟩ := Option.map_eq_some_iff.mp next
      obtain ⟨rfl, rfl⟩ := Prod.mk.inj heq
      exact h
    | drainEnded _ => exact h
    | drainBroken => exact h
  | final hm =>
    cases hm with
    | attachedLate ha _ => exact h.bides (Loop.bides_attach ha)
    | selected l _ => exact h.bides l.bides_takeReports
    | swept _ _ => exact h
  | resume hm =>
    cases hm with
    | attachEnded => exact h.bides (Loop.bides_endAttach _ _ _)
    | reported => exact h.bides (Loop.bides_report _ _ _)
    | reportsSwept => exact h
    | reportsChecked => exact h.bides (Loop.bides_note _ rfl rfl)
    | sweptOn => exact h
  | sweeping hm =>
    cases hm with
    | taken _ _ => exact h
    | skipped _ _ => exact h
    | freed _ found _ => exact h.bides (Loop.bides_free? found)
    | reported _ found _ => exact h.bides (Loop.bides_free? found)
    | ended _ _ =>
      dsimp only
      split
      · exact h.bides (Loop.bides_note _ rfl rfl)
      · exact h

/-- The order of tasks in every run. -/
theorem Machine.Reachable.tasksKept {m : Machine} {k : LoopId} (h : Reachable m) (hl : m.loop? k = some l) :
    l.TasksKept :=
  h.keepsView hl (P := fun v => v.loop.TasksKept) (fun _ _ _ => rfl) View.Move.tasksKept

end PromiseLoop

import PromiseLoop.Proofs.Background.Runs
import PromiseLoop.Proofs.Drains

/-!
# What occasions leave in a history

A loop calls script through its bridge, comes to jobs, and queues them.  Reactions and reports apart, which
are queued by settling promises and by delivering, each of these is done for an occasion.  The *marks* of a
history are the events that tell of them, and a move of a machine leaves exactly the marks of its occasion.

## Results

* `Loop.Does.marks`: what has no occasion leaves no mark.
* `Advances.marks`, `Trail.marks`: the marks of a move, and of a run.
* `Advances.runs_above`: a job is run above the drain that came to it.
-/

namespace PromiseLoop

open Relation

namespace Event

/-- The value that the bridge was asked to call. -/
def callee? : Event → Option Value
  | .invoked f => some f
  | _ => none

/-- Whether script has been called, a drain has come to a job, or a job has been queued that is neither a
reaction nor a report. -/
def isMark : Event → Bool
  | .invoked _ | .started _ => true
  | .queued j => !j.isReaction && j.report?.isNone
  | _ => false

end Event

/-- The values that the bridge was asked to call, in their order. -/
def called (history : List Event) : List Value := (history.filterMap Event.callee?).reverse

/-- The jobs that are neither reactions nor reports. -/
def othersOf (jobs : List Job) : List Job := jobs.filter fun j => !j.isReaction && j.report?.isNone

namespace Occasion

/-- The marks that an occasion leaves in the history of a loop, newest first. -/
def marks (k : LoopId) : Occasion → List Event
  | construction j f => if j = k then [.invoked f] else []
  | hosting j w => if j = k then [.queued (.host w)] else []
  | adoption p v t => if p.home = k then [.queued (.adoption p v t)] else []
  | running j x => if j = k then (x.callee?.map Event.invoked).toList ++ [.started x] else []

/-- The values that a loop calls on an occasion: the initializer of a promise that is constructed, or what
the job that is run has to call. -/
def calls (k : LoopId) : Occasion → List Value
  | construction j f => if j = k then [f] else []
  | running j x => if j = k then x.callee?.toList else []
  | _ => []

/-- The jobs that a loop comes to on an occasion. -/
def starts (k : LoopId) : Occasion → List Job
  | running j x => if j = k then [x] else []
  | _ => []

/-- The jobs other than reactions and reports that a loop queues on an occasion. -/
def queues (k : LoopId) : Occasion → List Job
  | hosting j w => if j = k then [.host w] else []
  | adoption p v t => if p.home = k then [.adoption p v t] else []
  | _ => []

variable (k : LoopId) (o : Occasion)

theorem called_marks : called (o.marks k) = o.calls k := by
  cases o with
  | construction j f => by_cases h : j = k <;> simp [marks, calls, called, Event.callee?, h]
  | hosting j w => by_cases h : j = k <;> simp [marks, calls, called, Event.callee?, h]
  | adoption p v t => by_cases h : p.home = k <;> simp [marks, calls, called, Event.callee?, h]
  | running j x =>
    by_cases h : j = k
    · cases hx : x.callee? <;> simp only [marks, calls, h, hx, if_true] <;> rfl
    · simp [marks, calls, called, h]

theorem started_marks : started (o.marks k) = o.starts k := by
  cases o with
  | construction j f => by_cases h : j = k <;> simp [marks, starts, started, Event.started?, h]
  | hosting j w => by_cases h : j = k <;> simp [marks, starts, started, Event.started?, h]
  | adoption p v t => by_cases h : p.home = k <;> simp [marks, starts, started, Event.started?, h]
  | running j x =>
    by_cases h : j = k
    · cases hx : x.callee? <;> simp only [marks, starts, h, hx, if_true] <;> rfl
    · simp [marks, starts, started, h]

theorem enqueued_marks : enqueued (o.marks k) = o.queues k := by
  cases o with
  | construction j f => by_cases h : j = k <;> simp [marks, queues, enqueued, Event.queued?, h]
  | hosting j w => by_cases h : j = k <;> simp [marks, queues, enqueued, Event.queued?, h]
  | adoption p v t => by_cases h : p.home = k <;> simp [marks, queues, enqueued, Event.queued?, h]
  | running j x =>
    by_cases h : j = k
    · cases hx : x.callee? <;> simp only [marks, queues, h, hx, if_true] <;> rfl
    · simp [marks, queues, enqueued, h]

end Occasion

-- ---------------------------------------------------------------------------
-- Reading marks
-- ---------------------------------------------------------------------------

theorem called_append (newer older : List Event) : called (newer ++ older) = called older ++ called newer := by
  simp [called]

theorem called_filter (history : List Event) : called (history.filter Event.isMark) = called history := by
  rw [called, called, List.filterMap_filter]
  congr 2
  funext e
  cases e with
  | queued j => simp [Event.callee?]
  | _ => rfl

theorem started_filter (history : List Event) : started (history.filter Event.isMark) = started history := by
  rw [started, started, List.filterMap_filter]
  congr 2
  funext e
  cases e with
  | queued j => simp [Event.started?]
  | _ => rfl

theorem enqueued_filter (history : List Event) :
    enqueued (history.filter Event.isMark) = othersOf (enqueued history) := by
  rw [othersOf, enqueued, enqueued, List.filter_reverse, List.filter_filterMap, List.filterMap_filter]
  congr 2
  funext e
  cases e with
  | queued j => cases h : (!j.isReaction && j.report?.isNone) <;> simp [Event.isMark, Event.queued?, h, Option.filter]
  | _ => rfl

namespace Loop

variable {l l' : Loop}

/-- The events of a loop's history that tell of occasions, newest first. -/
def marks (l : Loop) : List Event := l.history.filter Event.isMark

theorem marks_note (l : Loop) {e : Event} (h : e.isMark = false) : (l.note e).marks = l.marks := by
  simp [marks, note, h]

theorem marks_report (l : Loop) (id : PromiseId) (reason : Value) : (l.report id reason).marks = l.marks := by
  simp [marks, report_eq, Event.isMark]

theorem marks_settle (l : Loop) (id : PromiseId) (s : State) (v : Value) :
    (l.settle id s v).1.marks = l.marks := by
  rcases l.settle_cases id s v with unsettled | ⟨r, -, -, -, settled⟩
  · rw [unsettled]
  · rw [settled]
    simp [marks, List.filter_append, Event.isMark, Job.isReaction]

theorem marks_markHandled (l : Loop) (id : PromiseId) (derived : Promise) (f g : Option Value) (late : Bool) :
    (l.markHandled id derived f g late).marks = l.marks := by
  unfold markHandled
  split
  · rw [reportHandled_eq]
    simp [marks, note, modifyRecord, Event.isMark]
  · simp [marks, note, modifyRecord, Event.isMark]

theorem marks_attach {p : Promise} {f g : Option Value} {a : Attached} (h : l.attach p f g = .ok a) :
    a.loop.marks = l.marks := by
  unfold attach at h
  cases hr : l.record p with
  | error e => rw [hr] at h; cases h
  | ok r =>
    rw [hr] at h
    have marked := l.newPromise.2.marks_markHandled p.id l.newPromise.1 f g (handledLate r)
    cases hs : r.state <;> simp only [Except.map, hs] at h <;> cases h <;> exact marked

/-- A registration that ends queues a reaction at most. -/
theorem marks_endAttach (l : Loop) (derived : Promise) {job : Option Job}
    (h : job.all Job.isReaction = true) : (l.endAttach derived job).marks = l.marks := by
  cases job with
  | none => simp [marks, endAttach, note, Event.isMark]
  | some j =>
    have reaction : j.isReaction = true := h
    simp [marks, endAttach, enqueue, note, Event.isMark, reaction]

theorem marks_free? {id : PromiseId} {r : Record} (h : l.free? id = some (r, l')) : l'.marks = l.marks := by
  obtain ⟨-, rfl⟩ := free?_eq_some.mp h
  rw [marks_note _ rfl]
  split
  · exact marks_report _ id _
  · rfl

/-- What has no occasion leaves no mark. -/
theorem Does.marks (h : l.Does l') : l'.marks = l.marks := by
  cases h with
  | attempted h =>
    obtain ⟨r, -, -, rfl⟩ := lock_eq_ok.mp h
    rfl
  | settled id s v => exact l.marks_settle id s v
  | attached h => exact marks_attach h
  | chained h => exact (marks_endAttach _ _ (isReaction_of_attach h)).trans (marks_attach h)
  | attachEnded derived h => exact l.marks_endAttach derived h
  | delivered => simp [deliver_eq, Loop.marks, List.filter_append, Event.isMark, Job.report?]
  | received h =>
    unfold receive? at h
    split at h
    · cases h
    · cases h
      simp [Loop.marks, enqueue, note, Event.isMark, Job.report?]
  | taskTaken h =>
    obtain ⟨⟨w, q⟩, -, heq⟩ := Option.map_eq_some_iff.mp h
    rw [← (Prod.mk.inj heq).2]
    rfl
  | selected =>
    obtain ⟨heap, selected, -⟩ := l.takeReports_spec
    rw [selected]
    rfl
  | reported id reason => exact l.marks_report id reason
  | freed h => exact marks_free? h
  | _ => rfl

theorem marks_of_does (h : ReflTransGen Does l l') : l'.marks = l.marks := by
  induction h with
  | refl => rfl
  | tail _ h ih => exact h.marks.trans ih

/-- A job that is taken, and what it calls. -/
theorem marks_calling {j : Job} (next : l.dequeue? = some (j, l')) :
    (l'.calling j).marks = (j.callee?.map Event.invoked).toList ++ .started j :: l.marks := by
  obtain ⟨⟨i, q⟩, -, heq⟩ := Option.map_eq_some_iff.mp next
  obtain ⟨rfl, rfl⟩ := Prod.mk.inj heq
  unfold calling
  cases i.callee? <;> rfl

end Loop

namespace Machine

variable {m m' m'' : Machine} {k : LoopId} {l l' : Loop} {o : Option Occasion}

-- ---------------------------------------------------------------------------
-- The marks of a move
-- ---------------------------------------------------------------------------

/-- The marks of what is done to one loop. -/
theorem marks_setLoop {j : LoopId} {x y : Loop} (hp : m.Placed) (found : m.loop? j = some x) (id : y.id = x.id)
    (hl' : (m.setLoop y).loop? k = some l') (ms : List Event)
    (own : j = k → y.marks = ms ++ x.marks) (other : j ≠ k → ms = []) :
    ∃ l, m.loop? k = some l ∧ l'.marks = ms ++ l.marks := by
  obtain rfl : x.id = j := hp j x found
  rw [loop?_setLoop_ite found id] at hl'
  split at hl'
  · rename_i hk
    subst hk
    exact ⟨x, found, Option.some.inj hl' ▸ own rfl⟩
  · rename_i hk
    exact ⟨l', hl', by rw [other (Ne.symm hk)]; rfl⟩

theorem Works.marks (hw : Works o m m') (hp : m.Placed) (hl' : m'.loop? k = some l') :
    ∃ l, m.loop? k = some l ∧ l'.marks = o.toList.flatMap (Occasion.marks k) ++ l.marks := by
  have posted {n : Machine} (name : String) (result : WorkResult) {y : Loop}
      (hy : (n.useCompleter name result).loop? k = some y) : ∃ x, n.loop? k = some x ∧ y.marks = x.marks := by
    rcases useCompleter_cases n name result with ⟨same, -⟩ | ⟨c, -, used⟩
    · exact ⟨y, by rwa [same] at hy, rfl⟩
    · rw [used] at hy
      by_cases hk : c.loop = k
      · subst hk
        rw [loop?_modifyLoop_self] at hy
        obtain ⟨x, hx, rfl⟩ := Option.map_eq_some_iff.mp hy
        exact ⟨x, hx, Loop.marks_note _ rfl⟩
      · rw [loop?_modifyLoop_of_ne _ hk] at hy
        exact ⟨y, hy, rfl⟩
  cases hw with
  | @handedOut _ j x found name =>
    obtain ⟨y, hy, same⟩ := posted name .abandoned (n := m.setLoop x.openFlight.2) (y := l') hl'
    obtain ⟨l, hl, opened⟩ := marks_setLoop hp found x.id_openFlight hy [] (fun _ => rfl) fun _ => rfl
    exact ⟨l, hl, same.trans opened⟩
  | used _ name result => exact posted name result hl'
  | @spawned _ j x found result now =>
    exact marks_setLoop hp found (by cases now <;> rfl) hl' [] (fun _ => by cases now <;> rfl) fun _ => rfl
  | @letGo _ j x found =>
    refine marks_setLoop hp found x.id_releaseWorker hl' [] (fun _ => ?_) fun _ => rfl
    unfold Loop.releaseWorker
    split <;> rfl
  | @called _ j x found f =>
    refine marks_setLoop (y := x.note (.invoked f)) hp found rfl hl' _ (fun h => ?_)
      fun h => by simp [Occasion.marks, h]
    simp only [Option.toList_some, List.flatMap_singleton, Occasion.marks, h, if_true]
    rfl
  | @hosted _ j x found w =>
    refine marks_setLoop (y := x.enqueue (.host w)) hp found rfl hl' _ (fun h => ?_)
      fun h => by simp [Occasion.marks, h]
    simp only [Option.toList_some, List.flatMap_singleton, Occasion.marks, h, if_true]
    rfl
  | @adopted _ p x found v t =>
    refine marks_setLoop (y := x.enqueue (.adoption p v t)) hp found rfl hl' _ (fun h => ?_)
      fun h => by simp [Occasion.marks, h]
    simp only [Option.toList_some, List.flatMap_singleton, Occasion.marks, h, if_true]
    rfl
  | @run _ j x y job found next other =>
    refine marks_setLoop hp found ((y.id_calling job).trans (Loop.id_dequeue? next)) hl' _ (fun h => ?_)
      fun h => by simp [Occasion.marks, h]
    rw [Loop.marks_calling next]
    simp [Occasion.marks, h]
  | @applied _ j x y r found next =>
    have id : (y.land r.promise).2.id = x.id := (Loop.id_dequeue? next : y.id = x.id)
    refine marks_setLoop hp found id hl' _ (fun h => ?_) fun h => by simp [Occasion.marks, h]
    have landed : (y.land r.promise).2.marks = y.marks := rfl
    have none_called : y.calling (.settlement r) = y := rfl
    rw [landed, ← none_called, Loop.marks_calling next]
    simp [Occasion.marks, h]

theorem Changes.marks (hc : Changes m m') (hp : m.Placed) (hk : k.number < m.loops.length)
    (hl' : m'.loop? k = some l') : ∃ l, m.loop? k = some l ∧ l'.marks = l.marks := by
  obtain ⟨-, -, -, loops⟩ := hc.loops hp
  rcases loops k l' hl' with ⟨l, hl, does⟩ | ⟨new, -⟩
  · exact ⟨l, hl, Loop.marks_of_does does⟩
  · exact absurd hk (Nat.not_lt_of_le new)

/-- A move leaves the marks of its occasion. -/
theorem Advances.marks (ha : Advances m o m') (hm : Reachable m) (hl : m.loop? k = some l)
    (hl' : m'.loop? k = some l') : l'.marks = o.toList.flatMap (Occasion.marks k) ++ l.marks := by
  obtain ⟨staffed, accounted⟩ := hm.staffed
  obtain ⟨a, b, before, works, after⟩ := ha.does hm
  have leads := before.leads staffed
  have hk := number_lt_of_loop? hl
  have worked : Leads Moves a b ∧ ∀ y, b.loop? k = some y → ∃ x, a.loop? k = some x ∧
      y.marks = o.toList.flatMap (Occasion.marks k) ++ x.marks := by
    rcases works with ⟨rfl, rfl⟩ | works
    · exact ⟨(Leads.refl leads.staffed).mono fun _ _ => Spared.moves, fun y hy => ⟨y, hy, rfl⟩⟩
    · exact ⟨works.leads leads.staffed (before.distinct_inFlight hm staffed accounted),
        fun y hy => works.marks leads.staffed.placed hy⟩
  obtain ⟨y, hy, same⟩ := after.marks worked.1.staffed.placed
    (Nat.lt_of_lt_of_le hk (Nat.le_trans leads.size worked.1.size)) hl'
  obtain ⟨x, hx, more⟩ := worked.2 y hy
  obtain ⟨z, hz, same'⟩ := before.marks hm.placed hk hx
  obtain rfl : l = z := Option.some.inj (hl.symm.trans hz)
  rw [same, more, same']

/-- What a move adds to the history of a loop has the marks of its occasion. -/
theorem Advances.newer (ha : Advances m o m') (hm : Reachable m) (hl : m.loop? k = some l)
    (hl' : m'.loop? k = some l') : ∃ newer, l'.history = newer ++ l.history ∧
      newer.filter Event.isMark = o.toList.flatMap (Occasion.marks k) := by
  obtain ⟨newer, history⟩ := (Run.acts hm (.single ha.next) hl hl').history
  have marks := ha.marks hm hl hl'
  rw [Loop.marks, history, List.filter_append] at marks
  exact ⟨newer, history, List.append_cancel_right marks⟩

-- ---------------------------------------------------------------------------
-- Where jobs are run
-- ---------------------------------------------------------------------------

/-- No command has an occasion to run a job. -/
theorem beginning_ne_running (m : Machine) (c : Command) (j : Job) : m.beginning c ≠ some (.running k j) := by
  intro h
  cases c with
  | step step store catches =>
    cases step with
    | construct name x =>
      obtain ⟨i, -, h⟩ := Option.bind_eq_some_iff.mp h
      unfold construction? at h
      split at h <;> cases h
    | microtask name label body quiet =>
      obtain ⟨i, -, h⟩ := Option.bind_eq_some_iff.mp h
      obtain ⟨x, -, h⟩ := Option.map_eq_some_iff.mp h
      cases h
    | _ => cases h
  | _ => cases h

/-- A machine runs a job when the frame of a drain goes on. -/
theorem occasion?_eq_running {j : Job} (h : m.occasion? = some (.running k j)) : ∃ s rest, m.orphan? = none ∧
    m.control = .signal s ∧ m.stack = .draining k :: rest ∧ (∀ f, s ≠ .fault f) ∧
    m.nextJob? k = some (.running k j) := by
  unfold occasion? at h
  split at h
  · rename_i s f rest ho hc hs
    cases f with
    | block body =>
      cases body with
      | nil => cases s <;> cases h
      | cons c body =>
        cases s with
        | done => exact absurd h (m.beginning_ne_running c j)
        | _ => cases h
    | resolving p v =>
      cases s with
      | value t =>
        obtain ⟨x, -, h⟩ := Option.map_eq_some_iff.mp h
        cases h
      | _ => cases h
    | draining i =>
      have sound (f : Fault) : s ≠ .fault f := by
        rintro rfl
        cases h
      have next : m.nextJob? i = some (.running k j) := by
        cases s with
        | fault f => exact absurd rfl (sound f)
        | _ => exact h
      obtain ⟨x, hx, heq⟩ := Option.map_eq_some_iff.mp next
      cases heq
      exact ⟨s, rest, ho, hc, hs, sound, next⟩
    | _ => cases s <;> cases h
  · cases h

/-- A job is run above the drain that came to it. -/
theorem Advances.runs_above (ha : Advances m o m') (hm : Reachable m) (hl : m.loop? k = some l) {j : Job}
    (runs : o = some (.running k j)) : l.draining = true ∧ l.microtasks.entries.head? = some j ∧
      ∃ above rest, m.stack = .draining k :: rest ∧ m'.stack = above ++ .draining k :: rest := by
  cases ha with
  | start idle c =>
    exact absurd runs (m.beginning_ne_running c j)
  | step =>
    obtain ⟨s, rest, ho, hc, hs, sound, next⟩ := occasion?_eq_running runs
    obtain ⟨⟨i, x⟩, found, heq⟩ := Option.map_eq_some_iff.mp next
    cases heq
    rw [hl] at found
    obtain ⟨⟨i, q⟩, hq, heq⟩ := Option.map_eq_some_iff.mp found
    obtain ⟨rfl, rfl⟩ := Prod.mk.inj heq
    refine ⟨(hm.draining_iff hl).mpr (hs ▸ List.mem_cons_self), ?_, ?_⟩
    · rw [(Queue.dequeue?_eq_some_iff _ _ _).mp hq]
      rfl
    let popped : Machine := { m with stack := rest, control := .signal .done }
    obtain ⟨released, hn⟩ := loop?_drop_of (m := popped) s.held hl
    have dequeued := Loop.dequeue?_releases found (l.releases ++ released)
    have resumed : popped.resumeDraining k s = (drop s.held popped).nextMicrotask k := by
      unfold resumeDraining
      split
      · exact absurd rfl (sound _)
      · rfl
    rw [step_of_signal ho hc hs]
    show ∃ above rest', m.stack = .draining k :: rest' ∧ (popped.resumeDraining k s).stack = _
    rw [resumed, nextMicrotask, hn, Option.bind_some, dequeued]
    obtain ⟨added, stack⟩ := above_startJob ((Machine.setLoop (drop s.held popped) _).push (.draining k)) k i
    refine ⟨added, rest, hs, ?_⟩
    dsimp only
    rw [← stack]
    simp [popped]

end Machine
end PromiseLoop

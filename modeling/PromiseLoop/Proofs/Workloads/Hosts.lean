import PromiseLoop.Proofs.Workloads.Progress

/-!
# Hosts that run until done

A host runs a loop until done.  If an entry of the loop has failed in the meantime, it gets the fault of the
entry, and runs the loop until done again, until it gets no fault.  By then every entry has run, those that were
left by a failing one included.

## Results

* `Calling.hands_back`: what a single call has done when it hands something back.
* `Calls.entries`, `Calls.finished`: what all the calls together have done.
* `Serves.returns`: a call on a finite workload comes back.
* `failing_entries_lose_nothing`: how a host sees the entries of a finite workload.
-/

namespace PromiseLoop

open Relation

/-- Every rejection that no handler has been registered on has been reported, whether its record is alive or
gone. -/
structure Loop.HasReportedAll (l : Loop) : Prop where
  alive : ∀ id r, l.heap.get? id = some r → r.state = .rejected → r.isHandled = false → Reported id l.history
  gone : ∀ newer id r older, l.history = newer ++ .freed id r :: older → r.state = .rejected →
    ¬ Handled id older → Reported id older

/-- Nothing is left of the tasks and the microtasks of a loop: all of them have been started in the order in
which they were enqueued, each of them once. -/
structure Loop.HasRun (l : Loop) : Prop where
  idle : l.isIdle = true
  tasks : tasksStarted l.history = tasksQueued l.history
  microtasks : started l.history = enqueued l.history

namespace Machine

variable {k : LoopId} {p q x : Machine} {l : Loop} {s : Signal} {n bound : Nat} {fs : List Fault}
  {os : List (Option Fault)}

-- ---------------------------------------------------------------------------
-- Calls
-- ---------------------------------------------------------------------------

/-- A run until done that is called on a machine has not come back after some steps. -/
def RunsOn (p : Machine) (k : LoopId) (n : Nat) : Prop := ∀ i ≤ n, ¬ IsBackAt p.stack (run i (p.finish k))

/-- A run until done is called where no turn of the loop has been begun.  As long as it goes on, nothing asks for
another turn of the loop, and the tracker leaves the loop alone. -/
structure Calling (k : LoopId) (p : Machine) : Prop where
  placed : p.Placed
  calm : CalmlyReachable k (p.finish k)
  outside : p.turnsOf k = []
  undisturbed : ∀ n, p.RunsOn k n → Undisturbed k (run n (p.finish k))

/-- The calls that a host makes until it gets no fault: the faults that it gets, how the entries of the loop have
ended, and the machine that it is left with.  Between its calls, the host leaves the loop alone. -/
inductive Calls (k : LoopId) : Machine → List Fault → List (Option Fault) → Machine → Prop
  | returns {p : Machine} {n : Nat} (call : Calling k p) (back : (p.finish k).HandsBack p.stack n .done) :
      Calls k p [] (outcomes k n (p.finish k)) (run n (p.finish k))
  | fails {p q x : Machine} {n : Nat} {f : Fault} {fs : List Fault} {os : List (Option Fault)}
      (call : Calling k p) (back : (p.finish k).HandsBack p.stack n (.fault f))
      (aside : Aside k (run n (p.finish k)) q) (again : Calls k q fs os x) :
      Calls k p (f :: fs) (outcomes k n (p.finish k) ++ os) x

namespace Calling

theorem not_draining (h : Calling k p) : .draining k ∉ p.stack := fun mem => by
  have turn : .draining k ∈ p.turnsOf k := List.mem_filter.mpr ⟨mem, by simp [Frame.isTurnOf]⟩
  rw [h.outside] at turn
  cases turn

/-- A call is made outside of drains. -/
theorem draining_eq_false (h : Calling k p) (hl : p.loop? k = some l) : l.draining = false :=
  Bool.eq_false_iff.mpr fun hd => by
    have id : l.id = k := h.placed k l hl
    let pushed := (p.push (.finishing k)).push (.idling k)
    have found : pushed.loop? k = some l := hl
    have none {x : Loop} (hx : (p.finish k).loop? k = some x) (draining : x.draining = true)
        (unseen : .draining k ∉ (p.finish k).stack) : False :=
      unseen ((h.calm.reachable.draining_iff hx).mp draining)
    cases tasks : l.tasks.entries with
    | cons w ws =>
      obtain ⟨hx, stack⟩ := cycle_of_waits found id tasks
      have stack : (p.finish k).stack = _ := stack
      refine none hx ?_ (by simp [stack, pushed, h.not_draining])
      exact l.draining_deliver.trans hd
    | nil =>
      have begun : p.finish k = (pushed.modifyLoop k Loop.deliver).checkpoint k := cycle_of_empty found tasks
      have delivered := loop?_deliver found
      obtain ⟨stack, -, hx⟩ := checkpoint_of_draining delivered (l.draining_deliver.trans hd)
      rw [← begun] at stack hx
      refine none hx ((l.deliver.draining_deliver.trans l.draining_deliver).trans hd) ?_
      simp [stack, pushed, modifyLoop, h.not_draining]

theorem lasts (h : Calling k p) (back : (p.finish k).HandsBack p.stack n s) (i : Nat) (hi : i < n) :
    Undisturbed k (Machine.run i (p.finish k)) :=
  h.undisturbed i fun j hj => back.first j (Nat.lt_of_le_of_lt hj hi)

/-- What a call has done when it hands something back. -/
theorem hands_back (h : Calling k p) (hl : p.loop? k = some l) (back : (p.finish k).HandsBack p.stack n s) :
    ∃ x ws, (Machine.run n (p.finish k)).loop? k = some x ∧ entries x.history = entries l.history ++ ws ∧
      ws.length = (outcomes k n (p.finish k)).length ∧
      (outcomes k n (p.finish k)).filterMap id = s.fault?.toList ∧
      (s.fault? = none → s = .done ∧ HasFinished k (Machine.run n (p.finish k))) := by
  obtain ⟨running, l₁, ws₁, stage, hl₁, began₁, count₁⟩ :=
    stage_finish hl (h.placed k l hl) (h.draining_eq_false hl)
  obtain ⟨x, ws, hx, began, count, faults, finished⟩ :=
    stage.hands_back h.calm.reachable (h.lasts back) h.not_draining back hl₁
  refine ⟨x, ws₁ ++ ws, hx, by rw [began, began₁, List.append_assoc], ?_, faults, finished⟩
  rw [List.length_append, count₁, Nat.add_comm, count]

theorem calmlyReachable (h : Calling k p) (back : (p.finish k).HandsBack p.stack n s) :
    CalmlyReachable k (Machine.run n (p.finish k)) := by
  have calm : ∀ i ≤ n, CalmlyReachable k (Machine.run i (p.finish k)) := by
    intro i
    induction i with
    | zero => exact fun _ => h.calm
    | succ i ih =>
      intro hi
      rw [run_succ']
      exact (ih (Nat.le_of_succ_le hi)).next (.step _) (h.lasts back i hi).calm
  exact calm n (Nat.le_refl n)

/-- A call that comes back without a fault has left nothing behind. -/
theorem finished (h : Calling k p) (back : (p.finish k).HandsBack p.stack n s) {y : Loop}
    (hy : (Machine.run n (p.finish k)).loop? k = some y)
    (finished : HasFinished k (Machine.run n (p.finish k))) :
    y.HasRun ∧ (y.config.trackUnhandledRejections = true → y.HasReportedAll) := by
  obtain ⟨y', hy', idle, -, awaiting⟩ := finished
  obtain rfl := Option.some.inj (hy.symm.trans hy')
  have calm := h.calmlyReachable back
  obtain ⟨noTask, noJob⟩ := Loop.isIdle_iff.mp idle
  have fifo := (calm.reachable.queueKept hy).fifo
  have tasks : tasksQueued y.history = tasksStarted y.history ++ y.tasks.entries := calm.reachable.tasksKept hy
  rw [noTask, List.append_nil] at tasks
  rw [noJob, List.append_nil] at fifo
  refine ⟨⟨idle, tasks.symm, fifo.symm⟩, fun tracking => ?_⟩
  have kept : y.Tracked [] := by
    have tracked := (calm.trackKept hy).tracked
    have turns : (Machine.run n (p.finish k)).turnsOf k = [] := by
      rw [turnsOf, back.stack]
      exact h.outside
    rwa [turns] at tracked
  refine ⟨fun id r hr rejected unhandled => ?_, fun newer id r older history => ?_⟩
  · -- a rejection that waited for its report would be on the list
    have marked : r.rejectionReported = true := by
      by_contra unmarked
      have awaits := (Loop.awaitsReport_iff r).mpr ⟨rejected, unhandled, Bool.eq_false_iff.mpr unmarked⟩
      have listed := kept.waits tracking id r hr awaits
      rw [awaiting] at listed
      cases listed
    have reported := (kept.marked id).mp (by rw [hr]; exact marked)
    simpa using reported
  · exact kept.made.gone tracking newer _ older history id r rfl

end Calling

-- ---------------------------------------------------------------------------
-- Many calls
-- ---------------------------------------------------------------------------

/-- What a host sees of the entries of a loop, and what its calls have left of them. -/
theorem Calls.spec (calls : Calls k p fs os x) (hl : p.loop? k = some l) :
    ∃ y ws, x.loop? k = some y ∧ fs = os.filterMap id ∧ entries y.history = entries l.history ++ ws ∧
      ws.length = os.length ∧ y.HasRun ∧ (y.config.trackUnhandledRejections = true → y.HasReportedAll) := by
  induction calls generalizing l with
  | returns call back =>
    obtain ⟨y, ws, hy, began, count, faults, finished⟩ := call.hands_back hl back
    exact ⟨y, ws, hy, faults.symm, began, count, call.finished back hy (finished rfl).2⟩
  | fails call back aside again ih =>
    obtain ⟨y₁, ws₁, hy₁, began₁, count₁, faults₁, -⟩ := call.hands_back hl back
    obtain ⟨l₂, hl₂, outside⟩ := aside.stays y₁ hy₁
    obtain ⟨y, ws, hy, faults, began, count, finished⟩ := ih hl₂
    refine ⟨y, ws₁ ++ ws, hy, ?_, ?_, by simp [count₁, count], finished⟩
    · rw [List.filterMap_append, faults₁, ← faults]
      rfl
    · rw [began, (Loop.bides_of_outside outside).entries, began₁, List.append_assoc]

-- ---------------------------------------------------------------------------
-- Finite workloads
-- ---------------------------------------------------------------------------

/-- A call on a finite workload: as long as it goes on, whatever a task or a job does comes to an end, and so does
the tracker; no worker is left; and the tasks and the jobs that have been enqueued are bounded in number. -/
structure Serves (k : LoopId) (bound : Nat) (p : Machine) : Prop extends Calling k p where
  returns : ∀ n, p.RunsOn k n → ∃ i, ¬ (run (n + i) (p.finish k)).IsHosting k
  hears : ∀ n, p.RunsOn k n → ∃ i, ¬ (run (n + i) (p.finish k)).IsTelling k
  workless : ∀ n l, p.RunsOn k n → (run n (p.finish k)).loop? k = some l → l.workers = []
  bounded : ∀ n l, p.RunsOn k n → (run n (p.finish k)).loop? k = some l →
    (tasksQueued l.history).length + (enqueued l.history).length ≤ bound

/-- The machines on which a host may call a run until done.  When a call hands it a fault, the host leaves the loop
alone until it calls again. -/
structure Host (k : LoopId) (bound : Nat) (S : Machine → Prop) : Prop where
  serves : ∀ p, S p → Serves k bound p
  again : ∀ p n f, S p → (p.finish k).HandsBack p.stack n (.fault f) →
    ∃ q, S q ∧ Aside k (run n (p.finish k)) q

/-- A call on a finite workload comes back. -/
theorem Serves.comes_back (h : Serves k bound p) (hl : p.loop? k = some l) :
    ∃ n s, (p.finish k).HandsBack p.stack n s := by
  by_contra never
  have busy (n : Nat) : ¬ IsBackAt p.stack (run n (p.finish k)) := fun top => by
    obtain ⟨d, s, -, back⟩ := exists_first top
    exact never ⟨d, s, back⟩
  have on (n : Nat) : p.RunsOn k n := fun i _ => busy i
  have id := h.placed k l hl
  have idle := h.draining_eq_false hl
  have reachable := h.calm.reachable
  obtain ⟨running, l₁, ws, stage, hl₁, -⟩ := stage_finish hl id idle
  have endless : Endless k p.stack bound (p.finish k) := by
    refine ⟨reachable, h.not_draining, busy, fun n => (h.undisturbed n (on n)).room,
      ⟨fun n telling => ?_, fun n => h.hears n (on n)⟩, fun n => h.returns n (on n), fun n => ?_⟩
    · rw [run_succ']
      exact (h.undisturbed n (on n)).calm telling
    · obtain ⟨_, _, x, _, -, hx, -⟩ :=
        stage.run reachable (fun i (_ : i < n) => h.undisturbed i (on i)) h.not_draining (fun i _ => busy i) hl₁
      exact ⟨x, hx, h.workless n x (on n) hx,
        Nat.le_trans ((reachable.run n).begunBy_le hx) (h.bounded n x (on n) hx)⟩
  exact endless.impossible (hasBegun_finish hl id idle)

/-- The entries that have begun are bounded in number. -/
theorem Serves.length_entries_le (h : Serves k bound p) (hl : p.loop? k = some l) :
    (entries l.history).length ≤ bound := by
  have id := h.placed k l hl
  have idle := h.draining_eq_false hl
  have on : p.RunsOn k 0 := fun i hi => by
    obtain rfl := Nat.le_zero.mp hi
    exact (hasBegun_finish hl id idle).not_isBackAt
  obtain ⟨running, l₁, ws, -, hl₁, began, -⟩ := stage_finish hl id idle
  have started := h.calm.reachable.begunBy_le hl₁
  have bounded := h.bounded 0 l₁ on hl₁
  have few := PromiseLoop.length_entries_le l₁.history
  rw [began, List.length_append] at few
  omega

/-- A host of a finite workload gets no fault in the end. -/
theorem Host.calls {S : Machine → Prop} (host : Host k bound S) (hS : S p) (hl : p.loop? k = some l) :
    ∃ fs os x, Calls k p fs os x := by
  induction hd : bound - (entries l.history).length using Nat.strongRecOn generalizing p l with
  | ind d ih =>
    have serves := host.serves p hS
    obtain ⟨n, s, back⟩ := serves.comes_back hl
    obtain ⟨y, ws, hy, began, count, faults, finished⟩ := serves.hands_back hl back
    cases hs : s.fault? with
    | none =>
      obtain ⟨rfl, -⟩ := finished hs
      exact ⟨_, _, _, .returns serves.toCalling back⟩
    | some f =>
      obtain rfl : s = .fault f := by
        cases s with
        | fault e => exact congrArg _ (Option.some.inj hs)
        | _ => cases hs
      obtain ⟨q, hq, aside⟩ := host.again p n f hS back
      obtain ⟨l', hl', outside⟩ := aside.stays y hy
      -- an entry has ended with the fault
      have failed : 0 < ws.length := by
        rw [count]
        refine List.length_pos_iff.mpr fun none => ?_
        rw [none] at faults
        cases faults
      have more : (entries l'.history).length = (entries l.history).length + ws.length := by
        rw [(Loop.bides_of_outside outside).entries, began, List.length_append]
      have few := (host.serves q hq).length_entries_le hl'
      obtain ⟨fs, os, x, calls⟩ := ih (bound - (entries l'.history).length) (by omega) hq hl' rfl
      exact ⟨_, _, _, .fails serves.toCalling back aside calls⟩

/-- A failing entry loses no other work.  A host runs a loop until done, and again as long as it gets a fault:

* if it gets none in the end, it has got the faults of the entries that have failed, in the order in which these
  have ended, and no other fault; all the tasks and microtasks that have been enqueued have run, each of them once
  and in that order; and if the loop tracks rejections, every rejection that nobody has handled has been reported;
* on a finite workload, it gets none in the end. -/
theorem failing_entries_lose_nothing (hl : p.loop? k = some l) :
    (∀ fs os x, Calls k p fs os x → ∃ y ws, x.loop? k = some y ∧ fs = os.filterMap id ∧
      entries y.history = entries l.history ++ ws ∧ ws.length = os.length ∧ y.HasRun ∧
        (y.config.trackUnhandledRejections = true → y.HasReportedAll)) ∧
    (∀ bound S, Host k bound S → S p → ∃ fs os x, Calls k p fs os x) :=
  ⟨fun _ _ _ calls => calls.spec hl, fun _ _ host hS => host.calls hS hl⟩

-- ---------------------------------------------------------------------------
-- Calls that can be followed step by step
-- ---------------------------------------------------------------------------

/-- Whether a machine in a call can be served, and the call has not come back. -/
def isServed (k : LoopId) (bound depth : Nat) (m : Machine) : Bool :=
  !asksTurn k m && m.isCalm k && m.loops.all (fun x => x.all fun l => l.heap.slots.length < 2 ^ 32) &&
    ((m.loop? k).all fun l =>
      l.workers.isEmpty && (tasksQueued l.history).length + (enqueued l.history).length ≤ bound) &&
    depth < m.stack.length

/-- Whether this holds for some steps. -/
def isServedFor (k : LoopId) (bound depth : Nat) : Nat → Machine → Bool
  | 0, _ => true
  | n + 1, m => m.isServed k bound depth && isServedFor k bound depth n m.step

theorem isServed_of_isServedFor {m : Machine} {depth : Nat} (h : isServedFor k bound depth n m = true) {i : Nat}
    (hi : i < n) : (run i m).isServed k bound depth = true := by
  induction n generalizing m i with
  | zero => omega
  | succ n ih =>
    rw [isServedFor, Bool.and_eq_true] at h
    cases i with
    | zero => exact h.1
    | succ i =>
      rw [run_succ]
      exact ih h.2 (by omega)

/-- A call that has been followed until it comes back. -/
theorem serves_of_isServedFor (placed : p.Placed) (calm : CalmlyReachable k (p.finish k))
    (outside : p.turnsOf k = []) (served : isServedFor k bound p.stack.length n (p.finish k) = true)
    (stack : (run n (p.finish k)).stack = p.stack) (control : (run n (p.finish k)).control = .signal s)
    (quiet : ∀ f ∈ (run n (p.finish k)).beneath, f.hosts k = false ∧ f.tells k = false) :
    Serves k bound p ∧ (p.finish k).HandsBack p.stack n s := by
  have back : (p.finish k).HandsBack p.stack n s := by
    refine ⟨stack, control, fun i hi ⟨top, _⟩ => ?_⟩
    have deeper := isServed_of_isServedFor served hi
    simp [isServed, top] at deeper
  have before {i : Nat} (on : p.RunsOn k i) : i < n :=
    Nat.lt_of_not_le fun hn => on n hn ⟨stack, s, control⟩
  have still (i : Nat) (on : p.RunsOn k i) : ∃ j, ∀ f ∈ (run (i + j) (p.finish k)).beneath,
      f.hosts k = false ∧ f.tells k = false :=
    ⟨n - i, by rwa [Nat.add_sub_cancel' (Nat.le_of_lt (before on))]⟩
  have checked (i : Nat) (on : p.RunsOn k i) := isServed_of_isServedFor served (before on)
  simp only [isServed, Bool.and_eq_true, decide_eq_true_eq] at checked
  refine ⟨⟨⟨placed, calm, outside, fun i on => ?_⟩, fun i on => ?_, fun i on => ?_, fun i l on hl => ?_,
    fun i l on hl => ?_⟩, back⟩
  · obtain ⟨⟨⟨⟨turnless, calm⟩, room⟩, -⟩, -⟩ := checked i on
    exact ⟨by simpa using turnless, aside_step_of_isCalm calm, roomy_of_all room⟩
  · obtain ⟨j, still⟩ := still i on
    exact ⟨j, fun ⟨f, hf, hosts⟩ => by rw [(still f hf).1] at hosts; cases hosts⟩
  · obtain ⟨j, still⟩ := still i on
    exact ⟨j, fun ⟨f, hf, tells⟩ => by rw [(still f hf).2] at tells; cases tells⟩
  · obtain ⟨⟨-, small⟩, -⟩ := checked i on
    rw [hl] at small
    exact List.isEmpty_iff.mp (Bool.and_eq_true_iff.mp small).1
  · obtain ⟨⟨-, small⟩, -⟩ := checked i on
    rw [hl] at small
    simpa using (Bool.and_eq_true_iff.mp small).2

/-- A machine with the command on its stack to run its loop until done. -/
def askedDone (m : Machine) : Machine :=
  { m with trace := [] }.push
    (.command { word := "done", store := none, catches := false, isControl := false, loop := some ⟨0⟩ } [])

/-- Whether a machine waits for commands, and has a loop of the given name without workers. -/
def isReady (m : Machine) : Bool :=
  m.isIdle && m.stack.isEmpty && m.named? "main" = some ⟨0⟩ &&
    ((m.loop? ⟨0⟩).map fun l => l.waiting.isEmpty).getD true

/-- A call that is made by a command. -/
theorem serves_askedDone {m : Machine} (calm : CalmlyReachable ⟨0⟩ m) (ready : m.isReady = true)
    (served : isServedFor ⟨0⟩ bound 1 n ((askedDone m).finish ⟨0⟩) = true)
    (stack : (run n ((askedDone m).finish ⟨0⟩)).stack = (askedDone m).stack)
    (control : (run n ((askedDone m).finish ⟨0⟩)).control = .signal s) :
    Serves ⟨0⟩ bound (askedDone m) ∧ ((askedDone m).finish ⟨0⟩).HandsBack (askedDone m).stack n s ∧
      CalmlyReachable ⟨0⟩ (run (n + 1) ((askedDone m).finish ⟨0⟩)) := by
  simp only [isReady, Bool.and_eq_true, decide_eq_true_eq] at ready
  obtain ⟨⟨⟨idle, empty⟩, named⟩, alone⟩ := ready
  have empty : m.stack = [] := List.isEmpty_iff.mp empty
  have begun : (askedDone m).finish ⟨0⟩ = m.start (.step (.done "main") none false) := by
    have found : ({ m with trace := [] } : Machine).named? "main" = some ⟨0⟩ := named
    have concludes : (askedDone m).conclude ⟨0⟩ = (askedDone m).finish ⟨0⟩ := if_pos alone
    unfold Machine.start Machine.beginStep
    simp only [withLoop, found]
    exact concludes.symm
  have started : CalmlyReachable ⟨0⟩ ((askedDone m).finish ⟨0⟩) := by
    refine begun ▸ calm.start idle _ ?_
    unfold beneath
    split <;> simp [empty]
  have alone : (askedDone m).stack.length = 1 := by simp [askedDone, empty]
  have none : (run n ((askedDone m).finish ⟨0⟩)).beneath = [] := by
    unfold beneath
    rw [control, stack]
    simp [askedDone, empty]
  obtain ⟨serves, back⟩ := serves_of_isServedFor (p := askedDone m) (fun k l hl => calm.reachable.placed k l hl)
    started (by simp [askedDone, empty, turnsOf, Frame.isTurnOf]) (alone ▸ served) stack control (by simp [none])
  refine ⟨serves, back, ?_⟩
  rw [run_succ']
  refine (serves.calmlyReachable back).next (.step _) ?_
  rintro ⟨f, hf, -⟩
  simp [none] at hf

/-- A machine with a task that rejects a promise, enqueues a microtask that throws, another microtask and another
task, and then fails. -/
def taskOrdered : Machine :=
  let act (s : Step) (store : Option String) : Command := .step s store false
  let body : List Command :=
    [act (.promiseReject "main" (.constant (.text "x"))) (some "p"),
      act (.microtask "main" "b" [.raise (.constant (.text "y"))] true) none,
      act (.microtask "main" "c" [] true) none, act (.task "main" "d" [] true) none, .fail "boom"]
  run 9 ((boot {} .log .native).start (act (.task "main" "a" body true) none))

/-- The calls of a host: two that get a fault, and one that does not. -/
def firstCall : Machine := askedDone taskOrdered
def secondCall : Machine := askedDone (run 13 (firstCall.finish ⟨0⟩))
def thirdCall : Machine := askedDone (run 12 (secondCall.finish ⟨0⟩))

/-- The calls are served, and between them the loop is left as it is. -/
theorem serves_calls :
    (Serves ⟨0⟩ 4 firstCall ∧ (firstCall.finish ⟨0⟩).HandsBack firstCall.stack 12 (.fault (.task "boom")) ∧
      Aside ⟨0⟩ (run 12 (firstCall.finish ⟨0⟩)) secondCall) ∧
    (Serves ⟨0⟩ 4 secondCall ∧ (secondCall.finish ⟨0⟩).HandsBack secondCall.stack 11 (.fault (.task "y")) ∧
      Aside ⟨0⟩ (run 11 (secondCall.finish ⟨0⟩)) thirdCall) ∧
    Serves ⟨0⟩ 4 thirdCall ∧ (thirdCall.finish ⟨0⟩).HandsBack thirdCall.stack 11 .done := by
  have calm : CalmlyReachable ⟨0⟩ taskOrdered := .run (.start (.boot _ _ _) (by cbv) _ (by cbv)) 9 (by cbv)
  obtain ⟨first, back, calm⟩ : Serves ⟨0⟩ 4 firstCall ∧ _ :=
    serves_askedDone (n := 12) (s := .fault (.task "boom")) calm (by cbv) (by cbv) (by cbv) (by cbv)
  obtain ⟨second, back', calm⟩ : Serves ⟨0⟩ 4 secondCall ∧ _ :=
    serves_askedDone (n := 11) (s := .fault (.task "y")) calm (by cbv) (by cbv) (by cbv) (by cbv)
  obtain ⟨third, back'', -⟩ : Serves ⟨0⟩ 4 thirdCall ∧ _ :=
    serves_askedDone (n := 11) (s := .done) calm (by cbv) (by cbv) (by cbv) (by cbv)
  have same : secondCall.loop? ⟨0⟩ = (run 12 (firstCall.finish ⟨0⟩)).loop? ⟨0⟩ := by cbv
  have same' : thirdCall.loop? ⟨0⟩ = (run 11 (secondCall.finish ⟨0⟩)).loop? ⟨0⟩ := by cbv
  exact ⟨⟨first, back, fun _ => second.placed, by cbv, fun l hl => ⟨l, same.trans hl, .refl⟩, same.trans, by cbv,
    by cbv⟩, ⟨second, back', fun _ => third.placed, by cbv, fun l hl => ⟨l, same'.trans hl, .refl⟩, same'.trans,
    by cbv, by cbv⟩, third, back''⟩

theorem host_firstCall : Host ⟨0⟩ 4 fun q => q = firstCall ∨ q = secondCall ∨ q = thirdCall := by
  obtain ⟨⟨first, back₁, aside₁⟩, ⟨second, back₂, aside₂⟩, third, back₃⟩ := serves_calls
  refine ⟨fun q hq => ?_, fun q n f hq back => ?_⟩
  · rcases hq with rfl | rfl | rfl
    · exact first
    · exact second
    · exact third
  · rcases hq with rfl | rfl | rfl
    · obtain rfl := back.unique back₁
      exact ⟨secondCall, .inr (.inl rfl), aside₁⟩
    · obtain rfl := back.unique back₂
      exact ⟨thirdCall, .inr (.inr rfl), aside₂⟩
    · obtain rfl := back.unique back₃
      cases back.control.symm.trans back₃.control

theorem calls_firstCall : Calls ⟨0⟩ firstCall [.task "boom", .task "y"]
    (outcomes ⟨0⟩ 12 (firstCall.finish ⟨0⟩) ++ (outcomes ⟨0⟩ 11 (secondCall.finish ⟨0⟩) ++
      outcomes ⟨0⟩ 11 (thirdCall.finish ⟨0⟩))) (run 11 (thirdCall.finish ⟨0⟩)) := by
  obtain ⟨⟨first, back₁, aside₁⟩, ⟨second, back₂, aside₂⟩, third, back₃⟩ := serves_calls
  exact .fails first.toCalling back₁ aside₁ (.fails second.toCalling back₂ aside₂ (.returns third.toCalling back₃))

theorem failing_entries_lose_nothing_firstCall : (∃ fs os x, Calls ⟨0⟩ firstCall fs os x) ∧
    ∃ y, (run 11 (thirdCall.finish ⟨0⟩)).loop? ⟨0⟩ = some y ∧
      (entries y.history).map Work.label = ["a", "d", "b", "c"] ∧ y.HasRun ∧ y.HasReportedAll := by
  obtain ⟨l, hl⟩ := Option.isSome_iff_exists.mp (by cbv : (firstCall.loop? ⟨0⟩).isSome = true)
  obtain ⟨seen, served⟩ := failing_entries_lose_nothing (k := ⟨0⟩) hl
  refine ⟨served 4 _ host_firstCall (.inl rfl), ?_⟩
  obtain ⟨y, ws, hy, -, -, -, emptied, reported⟩ := seen _ _ _ calls_firstCall
  have found : ((run 11 (thirdCall.finish ⟨0⟩)).loop? ⟨0⟩).map
      (fun y => ((entries y.history).map Work.label, y.config.trackUnhandledRejections)) =
        some (["a", "d", "b", "c"], true) := by cbv
  rw [hy] at found
  obtain ⟨labels, tracking⟩ := Prod.mk.inj (Option.some.inj found)
  exact ⟨y, hy, labels, emptied, reported tracking⟩

end Machine
end PromiseLoop

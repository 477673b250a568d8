import PromiseLoop.Proofs.Activities
import PromiseLoop.Proofs.Queues

/-!
# What no fault leaves

A fault goes down the stack from frame to frame, and each frame either passes it on, may raise one of
its own, or stops it: a call shows it to the script as a thrown error, a resolution takes it for no
answer.  `Frame.leaks` says which of these a frame does.  An activity is *sealed* if no fault can come
out of it, given what is on the stack above its base and what the machine is about to do.

Registering handlers and settling promises are sealed as long as the promise has a record, and so are
calls of functions, whatever their bodies may do.

## Results

* `sealed_enter`: a call is sealed.
* `sealed_resolve`, `sealed_reject`, `sealed_attach`: what is done to a promise that has a record is
  sealed.
* `sealed_resume`: what a frame goes on with is sealed, unless the frame leaks.
-/

namespace PromiseLoop

-- ---------------------------------------------------------------------------
-- Leaks
-- ---------------------------------------------------------------------------

def Signal.isFault : Signal → Bool
  | .fault _ => true
  | _ => false

/-- Whether an activity may end with a fault, where `b` says whether the one above it may. -/
def Frame.leaks : Frame → Bool → Bool
  | .call .., _ | .discard _, _ | .surface _, _ | .resolving .., _ | .adopting .., _
  | .constructing _, _ | .attaching .., _ | .reporting .., _ | .collecting .., _ => false
  | .hold _, b | .give .., b | .functionOnly, b | .substitute .., b | .reacting .., b => b
  | _, _ => true

/-- Whether a fault is what happens next. -/
def Control.leaks : Control → Bool
  | .signal s => s.isFault
  | _ => false

/-- Whether a fault may come out from under some frames, where `b` says whether one may come from above
them. -/
def leaks (b : Bool) (fs : List Frame) : Bool := fs.foldl (fun b f => f.leaks b) b

theorem leaks_append (b : Bool) (fs gs : List Frame) : leaks b (fs ++ gs) = leaks (leaks b fs) gs :=
  List.foldl_append

theorem Frame.leaks_of_leaks_true {f : Frame} (h : f.leaks true = false) (b : Bool) : f.leaks b = false := by
  cases f <;> first | rfl | cases h

/-- The fewer faults come from above, the fewer come out. -/
theorem leaks_of_leaks_true {fs : List Frame} (h : leaks true fs = false) (b : Bool) :
    leaks b fs = false := by
  induction fs generalizing b with
  | nil => cases h
  | cons f fs ih =>
    show leaks (f.leaks b) fs = false
    have h : leaks (f.leaks true) fs = false := h
    cases hf : f.leaks true with
    | true => exact ih (hf ▸ h) _
    | false =>
      rw [hf] at h
      rw [Frame.leaks_of_leaks_true hf, h]

namespace Machine

variable {m m' : Machine} {base : List Frame}

/-- No fault can reach the frames of `base`, whatever is on the stack above them. -/
def Sealed (base : List Frame) (m : Machine) : Prop :=
  ∃ above, m.stack = above ++ base ∧ PromiseLoop.leaks m.control.leaks above = false

theorem sealed_of_spent (stack : m'.stack = m.stack) (control : m'.control.leaks = false) :
    Sealed m.stack m' := ⟨[], stack, control⟩

/-- What is sealed off from a frame that raises no fault of its own is sealed off from what is beneath. -/
theorem Sealed.under {f : Frame} (h : Sealed (f :: base) m) (hf : f.leaks false = false) :
    Sealed base m := by
  obtain ⟨above, stack, shut⟩ := h
  refine ⟨above ++ [f], by simp [stack], ?_⟩
  rw [leaks_append, shut]
  exact hf

/-- Beneath a frame that stops faults everything is sealed. -/
theorem sealed_of_stops {f : Frame} (hf : f.leaks true = false) (h : f :: base <:+ m.stack) :
    Sealed base m := by
  obtain ⟨above, stack⟩ := h
  refine ⟨above ++ [f], by simp [← stack], ?_⟩
  rw [leaks_append]
  exact Frame.leaks_of_leaks_true hf _

theorem Sealed.drop (h : Sealed base m) (vs : List Value) : Sealed base (drop vs m) := by
  obtain ⟨above, stack, shut⟩ := h
  exact ⟨above, by rw [stack_drop, stack], by rw [control_drop, shut]⟩

theorem sealed_signal (m : Machine) {s : Signal} (hs : s.isFault = false) :
    Sealed m.stack (m.signal s) := sealed_of_spent rfl hs

theorem sealed_drop_signal (m : Machine) (vs : List Value) {s : Signal} (hs : s.isFault = false) :
    Sealed m.stack (Machine.drop vs (m.signal s)) := (sealed_signal m hs).drop vs

-- ---------------------------------------------------------------------------
-- Calls
-- ---------------------------------------------------------------------------

theorem sealed_willCall (m : Machine) (f : Callable) (this : Value) (arguments : List Value) :
    Sealed m.stack (m.willCall f this arguments) := sealed_of_spent rfl rfl

theorem sealed_read (m : Machine) (o : ObjectId) (key : String) : Sealed m.stack (m.read o key) := by
  unfold read
  split
  · exact sealed_signal m rfl
  · exact sealed_signal m rfl
  · exact (sealed_willCall (m.push _) _ _ _).under rfl

theorem sealed_callValue (m : Machine) (f this : Value) (arguments : List Value) :
    Sealed m.stack (m.callValue f this arguments) := by
  unfold callValue
  split
  · exact sealed_willCall m _ _ _
  · exact sealed_drop_signal m _ rfl

theorem sealed_invoke (m : Machine) (loop : LoopId) (f this : Value) (arguments : List Value) :
    Sealed m.stack (m.invoke loop f this arguments) := by
  unfold invoke
  dsimp only
  split
  · exact (sealed_read ((m.modifyLoop _ _).push _) _ _).under rfl
  · exact sealed_callValue (m.modifyLoop _ _) _ _ _

theorem sealed_askThen (m : Machine) (v : Value) (plan : ProbePlan) :
    Sealed m.stack (m.askThen v plan) := by
  unfold askThen
  split
  · exact (sealed_read (m.push _) _ _).under rfl
  · exact sealed_signal m rfl
  · exact sealed_signal m rfl

theorem sealed_probe (m : Machine) (loop : LoopId) (v : Value) : Sealed m.stack (m.probe loop v) := by
  unfold probe
  split
  · exact sealed_signal m rfl
  · split
    · exact sealed_signal m rfl
    · split
      · exact sealed_askThen (m.setLoop _) _ _
      · exact sealed_signal m rfl

-- ---------------------------------------------------------------------------
-- Promises
-- ---------------------------------------------------------------------------

/-- Where a loop is alive, a promise has a record in it. -/
def Records (m : Machine) (loop : LoopId) (p : Promise) : Prop :=
  ∀ l, m.loop? loop = some l → ∃ r, l.record p = .ok r

theorem sealed_settle (m : Machine) (p : Promise) (s : State) (v : Value) (spent : List Value) :
    Sealed m.stack (m.settle p s v spent) := by
  unfold settle
  split
  · exact sealed_drop_signal m _ rfl
  · exact sealed_drop_signal (m.setLoop _) _ rfl

theorem sealed_resolveLocked (m : Machine) (p : Promise) (v : Value) :
    Sealed m.stack (m.resolveLocked p v) := by
  unfold resolveLocked
  split
  · exact sealed_settle m p _ _ _
  · exact (sealed_probe (m.push _) _ _).under rfl

theorem sealed_withLock {loop : LoopId} {p : Promise} (own : m.Records loop p) (v : Value)
    {act : Machine → Machine} (h : ∀ m', Sealed m'.stack (act m')) :
    Sealed m.stack (m.withLock loop p v act) := by
  unfold withLock
  split
  · exact sealed_drop_signal m _ rfl
  · rename_i l hl
    obtain ⟨r, hr⟩ := own l hl
    split
    · rename_i f hf
      simp [Loop.lock, hr, Except.map] at hf
    · exact sealed_drop_signal (m.setLoop _) _ rfl
    · exact h (m.setLoop _)

theorem sealed_resolve {loop : LoopId} {p : Promise} (own : m.Records loop p) (v : Value) :
    Sealed m.stack (m.resolve loop p v) :=
  sealed_withLock own v fun m' => sealed_resolveLocked m' p v

theorem sealed_reject {loop : LoopId} {p : Promise} (own : m.Records loop p) (v : Value) :
    Sealed m.stack (m.reject loop p v) :=
  sealed_withLock own v fun m' => sealed_settle m' p _ v _

theorem sealed_callback (m : Machine) (hc : m.control.leaks = false) (name : String)
    (arguments : List Value) : Sealed m.stack (m.callback name arguments) := by
  unfold callback
  split
  · exact (sealed_willCall (m.push _) _ _ _).under rfl
  · exact sealed_of_spent rfl hc

theorem sealed_tellUnhandled (m : Machine) (hc : m.control.leaks = false) (loop : LoopId)
    (id : PromiseId) (reason : Value) : Sealed m.stack (m.tellUnhandled loop id reason) := by
  unfold tellUnhandled
  split
  · exact sealed_of_spent (by simp) (by simpa using hc)
  · exact sealed_callback m hc _ _
  · exact sealed_of_spent rfl hc

theorem sealed_tellHandled (m : Machine) (hc : m.control.leaks = false) (loop : LoopId)
    (id : PromiseId) : Sealed m.stack (m.tellHandled loop id) := by
  unfold tellHandled
  split
  · exact sealed_of_spent (by simp) (by simpa using hc)
  · exact sealed_callback m hc _ _
  · exact sealed_of_spent rfl hc

theorem sealed_attach {loop : LoopId} {p : Promise} (own : m.Records loop p) (f g : Option Value)
    (unused : List Value) : Sealed m.stack (m.attach loop p f g unused) := by
  unfold attach
  split
  · exact sealed_drop_signal m _ rfl
  · rename_i l hl
    obtain ⟨r, hr⟩ := own l hl
    split
    · rename_i e he
      simp [Loop.attach, hr, Except.map] at he
    · rename_i a _
      split
      · -- the tracker is told above the frame that keeps the job
        have told := sealed_tellHandled (Machine.drop (unused ++ a.dropped)
          (((m.setLoop a.loop).push (.attaching a.derived a.job)).signal .done))
          (by rw [control_drop]; rfl) loop p.id
        rw [stack_drop] at told
        exact told.under rfl
      · exact sealed_drop_signal (m.setLoop _) _ rfl

-- ---------------------------------------------------------------------------
-- Entering functions
-- ---------------------------------------------------------------------------

/-- A registration goes on above what is on the stack. -/
theorem above_attach (m : Machine) (loop : LoopId) (p : Promise) (f g : Option Value)
    (unused : List Value) : m.stack <:+ (m.attach loop p f g unused).stack := by
  unfold attach
  split
  · simp
  · split
    · simp
    · rename_i a _
      split
      · have told := sealed_tellHandled (Machine.drop (unused ++ a.dropped)
          (((m.setLoop a.loop).push (.attaching a.derived a.job)).signal .done))
          (by rw [control_drop]; rfl) loop p.id
        obtain ⟨above, stack, -⟩ := told
        rw [stack, stack_drop]
        exact (List.suffix_cons _ _).trans (List.suffix_append _ _)
      · simp

theorem sealed_thenMethod (m : Machine) (home : LoopId) (this : Value) (arguments unused : List Value) :
    Sealed m.stack (m.thenMethod home this arguments unused) := by
  unfold thenMethod
  split
  · exact sealed_drop_signal m _ rfl
  · split
    · exact sealed_drop_signal m _ rfl
    · exact sealed_of_stops rfl (above_attach (m.push (.surface _)) _ _ _ _ _)

theorem sealed_catchMethod (m : Machine) (home : LoopId) (this : Value) (arguments : List Value) :
    Sealed m.stack (m.catchMethod home this arguments) := sealed_thenMethod m home this _ _

theorem sealed_enterResolver (m : Machine) (r : Resolver) (this : Value) (arguments : List Value) :
    Sealed m.stack (m.enterResolver r this arguments) := by
  unfold enterResolver
  split
  · exact sealed_drop_signal m _ rfl
  · split
    · exact sealed_drop_signal m _ rfl
    · rename_i m' hc
      exact stack_claim hc ▸ sealed_drop_signal m' _ rfl
    · rename_i m' hc
      have stack := stack_claim hc
      let ready := Machine.drop (arguments.drop 1)
        ((m'.push (.give .undefined [this])).signal (.value (arguments.headD .undefined)))
      have pushed : (ready.signal .done).stack = .give .undefined [this] :: m.stack :=
        (stack_drop ..).trans (congrArg _ stack)
      dsimp only
      split
      · exact (pushed ▸ sealed_resolveLocked (ready.signal .done) r.promise _).under rfl
      · exact (pushed ▸ sealed_settle (ready.signal .done) r.promise _ _ _).under rfl

theorem sealed_enterRoutine (m : Machine) (number : Nat) (name : String) (this : Value)
    (arguments : List Value) : Sealed m.stack (m.enterRoutine number name this arguments) := by
  unfold enterRoutine
  split
  · exact sealed_drop_signal m _ rfl
  · rename_i r _
    refine sealed_of_stops (f := .call this arguments r.quiet) rfl ?_
    simp [Machine.push, Machine.signal]

/-- A call of a function is sealed, whatever the function does. -/
theorem sealed_enter (m : Machine) (f : Callable) (this : Value) (arguments : List Value) :
    Sealed m.stack (m.enter f this arguments) := by
  unfold enter
  split
  · exact sealed_enterRoutine m _ _ _ _
  · exact sealed_enterResolver m _ _ _
  · exact sealed_thenMethod m _ _ _ _
  · exact sealed_catchMethod m _ _ _

-- ---------------------------------------------------------------------------
-- Jobs
-- ---------------------------------------------------------------------------

theorem sealed_startReaction {loop : LoopId} {r : Reaction} (own : m.Records loop r.derived)
    (argument : Value) : Sealed m.stack (m.startReaction loop r argument) := by
  unfold startReaction
  split
  · exact (sealed_invoke (m.push _) _ _ _ _).under rfl
  · dsimp only
    have own : (m.push (.hold [.promise r.derived])).Records loop r.derived := own
    split
    · exact (sealed_resolve own argument).under rfl
    · exact (sealed_reject own argument).under rfl

theorem sealed_startAdoption (m : Machine) (loop : LoopId) (p : Promise) (thenable thenFunction : Value) :
    Sealed m.stack (m.startAdoption loop p thenable thenFunction) := by
  unfold startAdoption
  exact (sealed_invoke ((m.newPair p).2.push _) _ _ _ _).under rfl

/-- A report is applied without a fault if the promises in flight have records. -/
theorem sealed_startSettlement {loop : LoopId} {r : Report}
    (own : ∀ l, m.loop? loop = some l → ∀ p ∈ l.inFlight, ∃ x, l.record p = .ok x)
    (placed : m.Placed) : Sealed m.stack (m.startSettlement loop r) := by
  unfold startSettlement
  split
  · exact sealed_signal m rfl
  · rename_i l hl
    dsimp only
    split
    · rename_i p hp
      have mem : p ∈ l.inFlight := List.mem_of_find?_eq_some hp
      have found : (m.setLoop (l.land r.promise).2).loop? loop = some (l.land r.promise).2 := by
        have id := placed loop l hl
        subst id
        exact loop?_setLoop_self hl rfl
      have own : ((m.setLoop (l.land r.promise).2).push (.hold [.promise p])).Records loop p := by
        intro l' hl'
        obtain rfl := Option.some.inj (found.symm.trans hl')
        exact own l hl p mem
      split
      · exact (sealed_resolve own _).under rfl
      · exact (sealed_reject own _).under rfl
    · exact sealed_drop_signal (m.setLoop _) _ rfl

-- ---------------------------------------------------------------------------
-- Reports and collection
-- ---------------------------------------------------------------------------

theorem sealed_sweep (m : Machine) (loop : LoopId) (s : Sweep) : Sealed m.stack (m.sweep loop s) :=
  sealed_of_spent rfl rfl

theorem sealed_endCheckpoint (m : Machine) (loop : LoopId) : Sealed m.stack (m.endCheckpoint loop) :=
  sealed_signal (m.modifyLoop _ _) rfl

theorem sealed_endCollection (m : Machine) (loop : LoopId) (s : Sweep) :
    Sealed m.stack (m.endCollection loop s) := by
  unfold endCollection
  split
  · exact sealed_endCheckpoint m loop
  · exact sealed_signal m rfl

theorem sealed_collectNext (m : Machine) (loop : LoopId) (s : Sweep) :
    Sealed m.stack (m.collectNext loop s) := by
  unfold collectNext
  split
  · split
    · exact sealed_endCollection m loop s
    · exact sealed_endCollection m loop s
    · exact sealed_sweep (m.setLoop _) loop _
  · rename_i id rest _
    split
    · exact sealed_sweep m loop _
    · rename_i r l _
      dsimp only
      split
      · -- the record waits beneath what is told
        have told := sealed_tellUnhandled ((((m.setLoop l).push (.collecting loop
          { s with pending := rest, count := s.count + 1 } r)).push (.hold [r.reason])).signal .done)
          rfl loop id r.reason
        exact (told.under rfl).under rfl
      · exact (sealed_sweep (m.setLoop l) loop _).drop _

theorem sealed_finishCheckpoint (m : Machine) (loop : LoopId) :
    Sealed m.stack (m.finishCheckpoint loop) := by
  unfold finishCheckpoint
  split
  · exact sealed_signal m rfl
  · split
    · exact sealed_sweep m loop _
    · exact sealed_endCheckpoint m loop

-- ---------------------------------------------------------------------------
-- Resuming
-- ---------------------------------------------------------------------------

theorem sealed_resumeCall (m : Machine) (this : Value) (arguments : List Value) (s : Signal) :
    Sealed m.stack (m.resumeCall this arguments s) :=
  sealed_drop_signal m _ (by cases s <;> rfl)

theorem sealed_resumeFunctionOnly (m : Machine) {s : Signal} (hs : s.isFault = false) :
    Sealed m.stack (m.resumeFunctionOnly s) := by
  unfold resumeFunctionOnly
  split
  · exact sealed_signal m rfl
  · exact sealed_drop_signal m _ rfl
  · exact sealed_signal m hs

theorem sealed_resumeSubstitute (m : Machine) (this : Value) (arguments : List Value) {s : Signal}
    (hs : s.isFault = false) : Sealed m.stack (m.resumeSubstitute this arguments s) := by
  unfold resumeSubstitute
  split
  · exact (sealed_callValue (m.push _) _ _ _).under rfl
  · exact sealed_drop_signal m _ hs

theorem sealed_resumeResolving (m : Machine) (p : Promise) (v : Value) (s : Signal) :
    Sealed m.stack (m.resumeResolving p v s) := by
  unfold resumeResolving
  split
  · exact sealed_drop_signal (m.modifyLoop _ _) _ rfl
  · exact sealed_settle m p _ _ _
  · exact sealed_settle m p _ _ _

theorem sealed_resumeReacting {derived : Promise} (own : m.Records derived.home derived) (handler : Value)
    {s : Signal} (hs : s.isFault = false) : Sealed m.stack (m.resumeReacting handler derived s) := by
  have own : (m.push (.hold [handler, .promise derived])).Records derived.home derived := own
  unfold resumeReacting
  dsimp only
  split
  · exact (sealed_resolve own _).under rfl
  · exact (sealed_reject own _).under rfl
  · exact (sealed_signal (m.push _) hs).under rfl

theorem sealed_resumeAdopting (m : Machine) (p : Promise) (resolver thenFunction : Value) (s : Signal) :
    Sealed m.stack (m.resumeAdopting p resolver thenFunction s) := by
  unfold resumeAdopting
  dsimp only
  split
  · exact (sealed_enterResolver (m.push _) _ _ _).under rfl
  · exact sealed_of_stops (f := .discard _) rfl List.suffix_rfl

theorem sealed_resumeConstructing (m : Machine) (p : Promise) (s : Signal) :
    Sealed m.stack (m.resumeConstructing p s) := by
  unfold resumeConstructing
  split
  · rename_i v
    have above := above_reject ((m.push (.surface [])).push (.give (.promise p) [])) p.home p v
    exact sealed_of_stops (f := .surface []) rfl ((List.suffix_cons _ _).trans above)
  · exact sealed_drop_signal m _ rfl

theorem sealed_resumeAttaching (m : Machine) (derived : Promise) (job : Option Job) (s : Signal) :
    Sealed m.stack (m.resumeAttaching derived job s) :=
  sealed_drop_signal (m.modifyLoop _ _) _ rfl

theorem sealed_resumeReporting (m : Machine) (hc : m.control.leaks = false) (loop : LoopId)
    (reports : List (PromiseId × Value)) (s : Signal) :
    Sealed m.stack (m.resumeReporting loop reports s) := by
  unfold resumeReporting
  split
  · exact stack_drop s.held m ▸ sealed_finishCheckpoint _ loop
  · rename_i id reason rest
    dsimp only
    let told := (Machine.drop s.held ((m.push (.reporting loop rest)).push (.hold [reason]))).modifyLoop
      loop fun l => l.report id reason
    have spent : told.control.leaks = false := by
      show (Machine.drop _ _).control.leaks = false
      rwa [control_drop]
    have stack : told.stack = .hold [reason] :: .reporting loop rest :: m.stack := stack_drop ..
    have above := sealed_tellUnhandled told spent loop id reason
    rw [stack] at above
    exact (above.under rfl).under rfl

theorem sealed_resumeCollecting (m : Machine) (loop : LoopId) (sweep : Sweep) (r : Record) (s : Signal) :
    Sealed m.stack (m.resumeCollecting loop sweep r s) := (sealed_sweep m loop sweep).drop _

/-- What a frame goes on with is sealed, unless the frame leaks. -/
theorem sealed_resume (hc : m.control.leaks = false) {f : Frame} {s : Signal}
    (shut : f.leaks s.isFault = false)
    (own : ∀ handler derived, f = .reacting handler derived → m.Records derived.home derived) :
    Sealed m.stack (m.resume f s) := by
  cases f with
  | call this arguments quiet => exact sealed_resumeCall m this arguments s
  | hold values => exact sealed_drop_signal m _ shut
  | discard values => exact sealed_drop_signal m _ rfl
  | give v values =>
    unfold resume
    dsimp only
    split
    · exact sealed_drop_signal m _ rfl
    · exact sealed_drop_signal m _ shut
  | surface values =>
    unfold resume
    dsimp only
    split
    · exact sealed_drop_signal m _ rfl
    · rename_i unfaulty
      refine sealed_drop_signal m _ ?_
      cases s with
      | fault f => exact absurd rfl (unfaulty f)
      | _ => rfl
  | functionOnly => exact sealed_resumeFunctionOnly m shut
  | substitute this arguments => exact sealed_resumeSubstitute m this arguments shut
  | resolving p v => exact sealed_resumeResolving m p v s
  | reacting handler derived => exact sealed_resumeReacting (own handler derived rfl) handler shut
  | adopting p resolver thenFunction => exact sealed_resumeAdopting m p resolver thenFunction s
  | constructing p => exact sealed_resumeConstructing m p s
  | attaching derived job => exact sealed_resumeAttaching m derived job s
  | reporting loop reports => exact sealed_resumeReporting m hc loop reports s
  | collecting loop sweep record => exact sealed_resumeCollecting m loop sweep record s
  | _ => cases shut

end Machine
end PromiseLoop

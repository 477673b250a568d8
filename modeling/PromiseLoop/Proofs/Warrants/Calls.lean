import PromiseLoop.Proofs.Handles.Calls
import PromiseLoop.Proofs.Warrants.Updates

/-!
# Calls and warrants

No call ends with a warrant under way.  Taking the lock of a promise issues a warrant, which is used up
at once or left with the frame of the resolution; calling a function of a pair takes the warrant out of
the pair and does the same with it.

## Results

* `orderly_settle`, `orderly_resolve`, `orderly_reject`: settling and resolving a promise.
* `orderly_enterResolver`: the call of a function that settles a promise.
* `orderly_enter`: the beginning of any call.
-/

namespace PromiseLoop.Machine

variable {m m' : Machine} {k : LoopId} {ks : List Mark} {p : Promise} {v : Value}

/-- No warrant is under way, and the control has no mark that is not known. -/
def Orderly (k : LoopId) (m : Machine) : Prop :=
  ∃ ks, m.Warranted k ks none ∧ Known ks m.control.held

-- ---------------------------------------------------------------------------
-- Signals and calls
-- ---------------------------------------------------------------------------

theorem orderly_of_spent (h : m.Warranted k ks none) (spent : m.control = .signal .done) : Orderly k m :=
  ⟨ks, h, by rw [spent]; exact known_nil⟩

theorem orderly_signal (h : m.Warranted k ks none) {s : Signal} (hs : Known ks s.held) :
    Orderly k (m.signal s) := ⟨ks, h.signal s, hs⟩

theorem orderly_drop_signal (h : m.Warranted k ks none) (vs : List Value) {s : Signal}
    (hs : Known ks s.held) : Orderly k (drop vs (m.signal s)) :=
  ⟨ks, (h.signal s).drop vs, by rw [control_drop]; exact hs⟩

theorem orderly_willCall (h : m.Warranted k ks none) {f : Callable} {this : Value}
    {arguments : List Value} (called : Known ks (.function f :: this :: arguments)) :
    Orderly k (m.willCall f this arguments) := ⟨ks, h.control _, called⟩

theorem orderly_read (h : m.Warranted k ks none) (o : ObjectId) (key : String) :
    Orderly k (m.read o key) := by
  unfold read
  split
  · exact orderly_signal h (by simp [Signal.held])
  · rename_i v hv
    have found : v.Known ks := h.property hv
    exact orderly_signal h (by simpa [Signal.held] using found)
  · rename_i g hg
    have getter : (Value.function g).Known ks := h.property hg
    exact orderly_willCall (h.push (f := .hold [.function g]) (by simpa [Frame.held] using getter) rfl)
      (by simpa using getter)

theorem orderly_callValue (h : m.Warranted k ks none) {f this : Value} {arguments : List Value}
    (called : Known ks (f :: this :: arguments)) : Orderly k (m.callValue f this arguments) := by
  unfold callValue
  split
  · exact orderly_willCall h called
  · exact orderly_drop_signal h _ (by simp [Signal.held])

theorem orderly_invoke (h : m.Warranted k ks none) (loop : LoopId) {f this : Value}
    {arguments : List Value} (called : Known ks (f :: this :: arguments)) :
    Orderly k (m.invoke loop f this arguments) := by
  have noted : (m.modifyLoop loop fun l => l.note (.invoked f)).Warranted k ks none := h.note loop
  unfold invoke
  dsimp only
  split
  · refine orderly_read (noted.push ?_ rfl) _ _
    simp only [known_cons] at called
    simpa [Frame.held] using ⟨called.2.2, called.2.1⟩
  · exact orderly_callValue noted called

theorem orderly_askThen (h : m.Warranted k ks none) (hv : v.Known ks) (plan : ProbePlan) :
    Orderly k (m.askThen v plan) := by
  unfold askThen
  split
  · exact orderly_read (h.push known_nil rfl) _ _
  · exact orderly_signal h (by simpa [Signal.held] using hv)
  · exact orderly_signal h known_nil

theorem orderly_probe (h : m.Warranted k ks none) (loop : LoopId) (hv : v.Known ks) :
    Orderly k (m.probe loop v) := by
  unfold probe
  split
  · exact orderly_signal h known_nil
  · rename_i l hl
    split
    · exact orderly_signal h (by simp [Signal.held])
    · split
      · exact orderly_askThen
          (h.setLoop (h.loop?_id hl) (l.mild_note _) (h.loops _ l hl)) hv _
      · exact orderly_signal h known_nil

-- ---------------------------------------------------------------------------
-- Settling and resolving
-- ---------------------------------------------------------------------------

theorem orderly_settle (h : m.Warranted k ks (some p)) {s : State} (hs : s ≠ .pending)
    (hv : v.Known ks) (spent : List Value) : Orderly k (m.settle p s v spent) := by
  unfold settle
  cases hl : m.loop? p.home with
  | none => exact orderly_drop_signal (h.waive hl) _ known_nil
  | some l => exact orderly_drop_signal (h.settle hl hs hv) _ known_nil

/-- A promise that a function settles is known by its function, and so may be handed around itself. -/
theorem Warranted.learn {right : Option Promise} (h : m.Warranted k ks right)
    (hp : ∃ g, ⟨p, g⟩ ∈ ks) : m.Warranted k (⟨p, none⟩ :: ks) right := by
  obtain ⟨g, hg⟩ := hp
  have more : ks ⊆ ⟨p, none⟩ :: ks := List.subset_cons_self ..
  refine ⟨h.placed, h.sound, h.vars.mono more, h.stack.mono more, fun j l hl => (h.loops j l hl).mono more,
    h.objects.mono more, h.native, fun q n hq => ?_, fun q hq => (h.mine q hq).imp fun _ h => more h,
    fun x hx => ?_, h.paired, fun l hl room => ?_⟩
  · rcases List.mem_cons.mp hq with heq | hq
    · cases heq
    · exact h.fit q n hq
  · rcases List.mem_cons.mp hx with rfl | hx
    · exact h.homed ⟨p, g⟩ hg
    · exact h.homed x hx
  · refine (h.guarded l hl room).congr (fun q ⟨home, g', hg'⟩ => ?_) fun _ _ => rfl
    rcases List.mem_cons.mp hg' with heq | hg'
    · cases heq
      exact ⟨home, g, hg⟩
    · exact ⟨home, g', hg'⟩

theorem orderly_resolveLocked (h : m.Warranted k ks (some p)) (hv : v.Known ks) :
    Orderly k (m.resolveLocked p v) := by
  unfold resolveLocked
  split
  · exact orderly_settle h (by simp) (by simp [cycleError]) _
  · have known := hv.mono (List.subset_cons_self ⟨p, none⟩ ks)
    have handed := (h.learn (h.mine p rfl)).hand known (List.mem_cons_self ..)
    exact orderly_probe handed p.home known

/-- Whatever is done under the lock of a promise begins with the warrant. -/
theorem orderly_withLock (h : m.Warranted k ks none) (loop : LoopId) (hp : ∃ g, ⟨p, g⟩ ∈ ks)
    {act : Machine → Machine}
    (acts : ∀ m' : Machine, m'.Warranted k ks (some p) → Orderly k (act m')) :
    Orderly k (m.withLock loop p v act) := by
  unfold withLock
  split
  · exact orderly_drop_signal h _ known_nil
  · rename_i l hl
    split
    · exact orderly_drop_signal h _ known_nil
    · rename_i l' ht
      have refused := h.lock (h.loop?_id hl) hp ht
      exact orderly_drop_signal refused _ known_nil
    · rename_i l' ht
      exact acts _ (h.lock (h.loop?_id hl) hp ht)

theorem orderly_resolve (h : m.Warranted k ks none) (loop : LoopId) (hp : ∃ g, ⟨p, g⟩ ∈ ks)
    (hv : v.Known ks) : Orderly k (m.resolve loop p v) :=
  orderly_withLock h loop hp fun _ h' => orderly_resolveLocked h' hv

theorem orderly_reject (h : m.Warranted k ks none) (loop : LoopId) (hp : ∃ g, ⟨p, g⟩ ∈ ks)
    (hv : v.Known ks) : Orderly k (m.reject loop p v) :=
  orderly_withLock h loop hp fun _ h' => orderly_settle h' (by simp) hv _

-- ---------------------------------------------------------------------------
-- Telling about rejections
-- ---------------------------------------------------------------------------

theorem orderly_callback (h : m.Warranted k ks none) (spent : m.control = .signal .done) (name : String)
    {arguments : List Value} (ha : Known ks arguments) : Orderly k (m.callback name arguments) := by
  unfold callback
  split
  · rename_i f hf
    have found : (Value.function f).Known ks := h.lookup? hf
    exact orderly_willCall (h.push (f := .discard [.function f]) (by simpa [Frame.held] using found) rfl)
      (by simpa using ⟨found, ha⟩)
  · exact orderly_of_spent h spent

theorem orderly_tellUnhandled (h : m.Warranted k ks none) (spent : m.control = .signal .done)
    (loop : LoopId) (id : PromiseId) {reason : Value} (hr : reason.Known ks) :
    Orderly k (m.tellUnhandled loop id reason) := by
  unfold tellUnhandled
  split
  · exact orderly_of_spent (h.traceEntry _) (by simpa using spent)
  · exact orderly_callback h spent _ (by simpa using hr)
  · exact orderly_of_spent h spent

theorem orderly_tellHandled (h : m.Warranted k ks none) (spent : m.control = .signal .done)
    (loop : LoopId) (id : PromiseId) : Orderly k (m.tellHandled loop id) := by
  unfold tellHandled
  split
  · exact orderly_of_spent (h.traceEntry _) (by simpa using spent)
  · exact orderly_callback h spent _ (by simp)
  · exact orderly_of_spent h spent

-- ---------------------------------------------------------------------------
-- Registering handlers
-- ---------------------------------------------------------------------------

/-- A registration creates its derived promise and leaves all warrants where they are. -/
theorem Warranted.attach (h : m.Warranted k ks none) {loop : LoopId} {l : Loop} {q : Promise}
    {f g : Option Value} {a : Loop.Attached} (hl : m.loop? loop = some l)
    (handlers : Known ks (f.toList ++ g.toList)) (ha : l.attach q f g = .ok a) :
    ∃ ks', ks ⊆ ks' ∧ (m.setLoop a.loop).Warranted k ks' none ∧ ⟨a.derived, none⟩ ∈ ks' ∧
      Known ks' ((a.job.map Job.held).getD []) ∧ a.job.bind Job.warrant? = none := by
  have sound := h.sound loop l hl
  obtain ⟨r, hr, rfl⟩ := (Loop.attach_eq_ok sound.wf).mp ha
  have hr := (Loop.record_eq_ok.mp hr).2
  have hl' := h.loop?_id hl
  let ks' : List Mark := ⟨l.newPromise.1, none⟩ :: ks
  have more : ks ⊆ ks' := List.subset_cons_self ..
  have derived : ⟨l.newPromise.1, none⟩ ∈ ks' := List.mem_cons_self ..
  have held := (h.loops loop l hl).mono more
  have created : (m.setLoop l.newPromise.2).Warranted k ks' none := h.newPromise hl'
  have registered := created.setLoop
    (loop?_setLoop (show m.loop? l.newPromise.2.id = some l from hl'))
    (Loop.mild_registered sound.wf hr f g) (Loop.known_registered held hr (handlers.mono more) derived)
  rw [setLoop_setLoop m l.newPromise.2 (l.registered q f g r) rfl] at registered
  have given := (Record.known_registered (Loop.known_record held hr) (handlers.mono more) derived).2
  refine ⟨ks', more, registered, derived, (known_append.mp given).1, ?_⟩
  cases hs : r.state <;> simp [Record.reactionJob, hs, Job.warrant?]

theorem orderly_attach (h : m.Warranted k ks none) (loop : LoopId) (q : Promise) {f g : Option Value}
    (handlers : Known ks (f.toList ++ g.toList)) (unused : List Value) :
    Orderly k (m.attach loop q f g unused) := by
  unfold attach
  cases hl : m.loop? loop with
  | none => exact orderly_drop_signal h _ known_nil
  | some l =>
    cases ha : l.attach q f g with
    | error e =>
      dsimp only
      rw [ha]
      exact orderly_drop_signal h _ known_nil
    | ok a =>
      obtain ⟨ks', -, attached, derived, job, free⟩ := h.attach hl handlers ha
      dsimp only
      rw [ha]
      dsimp only
      split
      · have pushed := attached.push (f := .attaching a.derived a.job)
          (by simpa [Frame.held, derived] using job) rfl
        exact orderly_tellHandled ((pushed.signal .done).drop _) (by simp) loop q.id
      · have found : (m.setLoop a.loop).loop? a.loop.id = some a.loop :=
          loop?_setLoop (Loop.id_attach ha ▸ h.loop?_id hl)
        have ended := attached.setLoop found (a.loop.mild_endAttach a.derived free) (by
          have held := attached.loops _ _ found
          cases hj : a.job with
          | none => exact held
          | some j => exact Loop.known_enqueue held (by simpa [hj] using job))
        rw [setLoop_setLoop m a.loop _ (by simp)] at ended
        exact orderly_drop_signal ended _ (by simpa [Signal.held] using derived)

/-- Of the arguments of a registration some become handlers. -/
theorem known_handlers {isCallable : Value → Bool} {arguments : List Value} (h : Known ks arguments) :
    Known ks (((arguments.take 2)[0]?.filter isCallable).toList ++
      ((arguments.take 2)[1]?.filter isCallable).toList) := by
  have picked (i : Nat) : Known ks ((arguments.take 2)[i]?.filter isCallable).toList := by
    intro v hv
    rw [Option.mem_toList] at hv
    exact h v (List.mem_of_mem_take (List.mem_of_getElem? (Option.mem_filter_iff.mp hv).1))
  exact known_append.mpr ⟨picked 0, picked 1⟩

theorem orderly_thenMethod (h : m.Warranted k ks none) (home : LoopId) {this : Value}
    {arguments : List Value} (called : Known ks (this :: arguments)) (unused : List Value) :
    Orderly k (m.thenMethod home this arguments unused) := by
  unfold thenMethod
  split
  · exact orderly_drop_signal h _ (by simp [Signal.held])
  · split
    · exact orderly_drop_signal h _ (by simp [Signal.held])
    · obtain ⟨hthis, hargs⟩ := known_cons.mp called
      refine orderly_attach (h.push ?_ rfl) home _ (known_handlers hargs) _
      simpa [Frame.held, hthis] using hargs.subset (List.drop_subset 2 arguments)

theorem orderly_catchMethod (h : m.Warranted k ks none) (home : LoopId) {this : Value}
    {arguments : List Value} (called : Known ks (this :: arguments)) :
    Orderly k (m.catchMethod home this arguments) := by
  obtain ⟨hthis, hargs⟩ := known_cons.mp called
  exact orderly_thenMethod h home (by simpa [hthis] using hargs.headD) _

-- ---------------------------------------------------------------------------
-- Entering functions
-- ---------------------------------------------------------------------------

/-- The guard of a function gives a warrant if it was still unused. -/
theorem Warranted.claim (h : m.Warranted k ks none) {r : Resolver} {accepted : Bool}
    (hr : ⟨r.promise, r.guard.pair?⟩ ∈ ks) (hc : m.claim r = .ok (accepted, m')) :
    m'.Warranted k ks (if accepted then some r.promise else none) := by
  unfold Machine.claim at hc
  split at hc
  · rename_i n hg
    rw [hg] at hr
    cases hc
    exact h.fire hr
  · split at hc
    · cases hc
      exact h
    · rename_i l hl
      cases ht : l.lock r.promise with
      | error f => rw [ht] at hc; cases hc
      | ok taken =>
        rw [ht] at hc
        cases hc
        exact h.lock (h.loop?_id hl) ⟨_, hr⟩ ht

theorem orderly_enterResolver (h : m.Warranted k ks none) {r : Resolver} {this : Value}
    {arguments : List Value} (called : Known ks (.function (.resolver r) :: this :: arguments)) :
    Orderly k (m.enterResolver r this arguments) := by
  obtain ⟨hr, hthis, hargs⟩ : _ ∧ _ ∧ _ := by simpa using called
  unfold enterResolver
  split
  · exact orderly_drop_signal h _ (by simp [Signal.held])
  · split
    · exact orderly_drop_signal h _ (by simp [Signal.held, Fault.thrown])
    · rename_i m' hc
      have refused := h.claim hr hc
      exact orderly_drop_signal refused _ (by simp [Signal.held])
    · rename_i m' hc
      have claimed : m'.Warranted k ks (some r.promise) := h.claim hr hc
      have pushed := claimed.push (f := .give .undefined [this]) (by simpa [Frame.held] using hthis) rfl
      have ready := (pushed.signal (.value (arguments.headD .undefined))).drop (arguments.drop 1)
      dsimp only
      split
      · exact orderly_resolveLocked (ready.signal .done) hargs.headD
      · exact orderly_settle ready (by simp) hargs.headD _

theorem orderly_enterRoutine (h : m.Warranted k ks none) (number : Nat) (name : String) {this : Value}
    {arguments : List Value} (called : Known ks (this :: arguments)) :
    Orderly k (m.enterRoutine number name this arguments) := by
  unfold enterRoutine
  split
  · exact orderly_drop_signal h _ (by simp [Signal.held])
  · rename_i r _
    have pushed := h.push (f := .call this arguments r.quiet) called rfl
    exact orderly_signal ((pushed.traceEntry _).push (f := .block r.body) known_nil rfl) known_nil

theorem orderly_enter (h : m.Warranted k ks none) {f : Callable} {this : Value} {arguments : List Value}
    (called : Known ks (.function f :: this :: arguments)) : Orderly k (m.enter f this arguments) := by
  unfold enter
  split
  · exact orderly_enterRoutine h _ _ (known_cons.mp called).2
  · exact orderly_enterResolver h called
  · exact orderly_thenMethod h _ (known_cons.mp called).2 _
  · exact orderly_catchMethod h _ (known_cons.mp called).2

end PromiseLoop.Machine

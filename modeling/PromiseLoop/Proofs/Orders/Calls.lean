import PromiseLoop.Proofs.Background.Waits
import PromiseLoop.Proofs.Faults.Commands
import PromiseLoop.Proofs.Handles.Calls
import PromiseLoop.Proofs.Orders.Drops
import PromiseLoop.Proofs.Orders.Loops

/-!
# Registering and settling in a machine

What a host does with a loop comes back to it after some steps.  A settlement comes back at once, unless the
value has to be asked first, and it either finds the lock taken or leaves the promise with its fate.  A
registration comes back at once, unless the tracker has to hear of it.

## Results

* `settling_of_taken`, `comesBack_settling`: what a settlement comes back with.
* `attach_of_prompt`: what a registration comes back with.
-/

namespace PromiseLoop

-- ---------------------------------------------------------------------------
-- Loops
-- ---------------------------------------------------------------------------

namespace Loop

variable {l : Loop} {p : Promise} {r : Record}

/-- Settling a promise whose lock has just been taken leaves it with its fate. -/
theorem settle_met (hr : l.heap.get? p.id = some r) (pending : r.state = .pending) (side : Side) (v : Value) :
    (match side with
      | .fulfill => (Machine.locked l p).asked v
      | .reject => Machine.locked l p).settle p.id side.state v =
        (l.met p (.settles side v), r.left (.settles side v)) := by
  have taken (x : Loop) (heap : x.heap = (Machine.locked l p).heap) :
      x.heap.get? p.id = some { r with alreadyResolved := true } := by
    rw [heap, get?_locked hr]
  have settles := Record.settle_locked pending side v
  refine Prod.ext rfl ?_
  cases side with
  | fulfill =>
    dsimp only
    rw [settle_of_settle (taken _ (heap_asked ..)) settles]
    rfl
  | reject =>
    dsimp only
    rw [settle_of_settle (taken _ rfl) settles]
    rfl

end Loop

/-- What is not needed of new handlers are the handlers and the new promise. -/
theorem Record.mem_unusedReaction {r : Record} {f g : Option Value} {derived : Promise} {w : Value}
    (hw : w ∈ r.unusedReaction f g derived) : w ∈ f.toList ++ g.toList ∨ w = .promise derived := by
  unfold unusedReaction at hw
  split at hw <;> simp [Reaction.held] at hw ⊢ <;> tauto

namespace Machine

variable {m n x : Machine} {k : LoopId} {l : Loop} {p : Promise} {r : Record} {v : Value} {s : Signal}
  {f g : Option Value}

-- ---------------------------------------------------------------------------
-- Coming back
-- ---------------------------------------------------------------------------

/-- What is begun in a machine hands a signal back to its frames, and this is the machine by then. -/
def ComesBack (act : Machine → Machine) (m : Machine) (s : Signal) (x : Machine) : Prop :=
  ∃ n, (act m).HandsBack m.stack n s ∧ x = run n (act m)

theorem comesBack_at_once {act : Machine → Machine} (eq : act m = x) (stack : x.stack = m.stack)
    (control : x.control = .signal s) : ComesBack act m s x := by
  subst eq
  exact ⟨0, ⟨stack, control, fun i hi => absurd hi (Nat.not_lt_zero i)⟩, rfl⟩

/-- What is back at once comes back as it is. -/
theorem ComesBack.eq_of_isBackAt {act : Machine → Machine} (h : ComesBack act m s x)
    (back : IsBackAt m.stack (act m)) : x = act m := by
  obtain ⟨n, hands, rfl⟩ := h
  cases n with
  | zero => rfl
  | succ n => exact absurd back (hands.first 0 (Nat.succ_pos n))

/-- One frame is pushed, and resumed in the next step. -/
theorem comesBack_of_step {act : Machine → Machine} (top : Frame) (stack : (act m).stack = top :: m.stack)
    (step : (act m).step = x) (stack' : x.stack = m.stack) (control : x.control = .signal s) :
    ComesBack act m s x := by
  subst step
  refine ⟨1, ⟨?_, ?_, fun i hi back => ?_⟩, (run_one _).symm⟩
  · rw [run_one]
    exact stack'
  · rw [run_one]
    exact control
  · obtain rfl : i = 0 := Nat.lt_one_iff.mp hi
    have := congrArg List.length (stack.symm.trans back.1)
    simp at this

-- ---------------------------------------------------------------------------
-- Settling
-- ---------------------------------------------------------------------------

/-- Resolves or rejects a promise. -/
def settling (side : Side) (k : LoopId) (p : Promise) (v : Value) (m : Machine) : Machine :=
  match side with
  | .fulfill => m.resolve k p v
  | .reject => m.reject k p v

/-- A host that is about to do something with a loop.  One of its frames holds the values that it needs. -/
structure Hosts (m : Machine) (k : LoopId) (l : Loop) (values : List Value) : Prop where
  loop : m.loop? k = some l
  placed : m.Placed
  settled : m.orphan? = none
  spent : m.control.loop? = none
  holds : ∃ f ∈ m.stack, ∀ v ∈ values, v ∈ f.held

namespace Hosts

variable {values : List Value}

theorem id (h : m.Hosts k l values) : l.id = k := h.placed k l h.loop

/-- The host may do several things one after another. -/
theorem setLoop (h : m.Hosts k l values) (l' : Loop) (id : l'.id = l.id) (s : Signal) :
    ((m.setLoop l').signal s).Hosts k l' values := by
  obtain rfl : l.id = k := h.id
  refine ⟨loop?_setLoop_self h.loop id, h.placed.setLoop h.loop id, ?_, rfl, h.holds⟩
  refine orphan?_eq_none_of_keeps (orphan?_setLoop h.settled h.loop h.placed id) rfl fun j hj => ?_
  have spent : (m.setLoop l').control.loop? = none := h.spent
  simp only [keepsLoop, spent] at hj ⊢
  exact hj

/-- Nothing is removed while the host waits for one frame more. -/
theorem orphan?_push (h : m.Hosts k l values) (f : Frame) (s : Signal) :
    ((m.push f).signal s).orphan? = none := by
  refine orphan?_eq_none_of_keeps h.settled rfl fun j hj => ?_
  simp only [keepsLoop, h.spent, Bool.or_eq_true, reduceCtorEq, decide_false, Bool.false_eq_true,
    or_false] at hj ⊢
  exact hj.imp .inl fun on => List.any_cons ▸ Bool.or_eq_true_iff.mpr (.inr on)

/-- A frame of the host is resumed in the next step. -/
theorem step_push (h : m.Hosts k l values) (f : Frame) (s : Signal) :
    ((m.push f).signal s).step = (m.signal .done).resume f s :=
  step_of_signal (h.orphan?_push f s) rfl rfl

end Hosts

/-- A settlement that comes too late is noted, and that is all. -/
theorem settling_of_taken {top : Frame} (hl : m.loop? k = some l) (hr : l.record p = .ok r)
    (taken : r.alreadyResolved = true) (mem : top ∈ m.stack) (held : v ∈ top.held) (side : Side) :
    settling side k p v m = (m.setLoop (l.note (.attempted p.id false))).signal .done := by
  have refused (act : Machine → Machine) :
      m.withLock k p v act = (m.setLoop (l.note (.attempted p.id false))).signal .done := by
    unfold withLock
    simp only [hl, lock_of_taken hr taken]
    refine drop_of_frame ?_ (by simpa using held)
    exact mem
  unfold settling
  cases side with
  | fulfill => exact refused _
  | reject => exact refused _

/-- The lock is taken, and what is left to do is done. -/
theorem withLock_of_free {values : List Value} (h : m.Hosts k l values) (hr : l.record p = .ok r)
    (free : r.alreadyResolved = false) (act : Machine → Machine) :
    m.withLock k p v act = act (m.setLoop (locked l p)) := by
  unfold withLock
  simp only [h.loop, lock_of_free hr free]

/-- A promise that is settled at once. -/
theorem settle_of_locked {values : List Value} (h : m.Hosts k l values) (hr : l.record p = .ok r)
    {spent : List Value} (held : ∀ v ∈ spent, v ∈ values) (side : Side) {l' : Loop}
    (id : l'.id = l.id)
    (settles : l'.settle p.id side.state v = (l.met p (.settles side v), r.left (.settles side v))) :
    ((m.setLoop l').signal .done).settle p side.state v spent =
      drop (r.left (.settles side v)) ((m.setLoop (l.met p (.settles side v))).signal .done) := by
  have home : p.home = k := (Loop.record_eq_ok.mp hr).1.trans h.id
  have set := (h.setLoop _ id .done).loop
  have same : (((m.setLoop l').signal .done).setLoop (l.met p (.settles side v))).signal .done =
      (m.setLoop (l.met p (.settles side v))).signal .done :=
    congrArg (·.signal .done) (setLoop_setLoop m l' _ ((l.id_met p _).trans id.symm))
  unfold settle
  rw [home, set]
  dsimp only
  rw [settles]
  dsimp only
  rw [same]
  obtain ⟨top, mem, kept⟩ := h.holds
  refine drop_append_of_frame ?_ (fun w hw => kept w (held w hw)) _
  exact mem

/-- A rejection settles the promise at once. -/
theorem reject_of_free {values : List Value} (h : m.Hosts k l values) (hr : l.record p = .ok r)
    (free : r.alreadyResolved = false) (pending : r.state = .pending) : m.reject k p v =
      drop (r.left (.settles .reject v)) ((m.setLoop (l.met p (.settles .reject v))).signal .done) := by
  rw [reject, withLock_of_free h hr free]
  exact settle_of_locked h hr (List.forall_mem_nil _) .reject rfl
    (Loop.settle_met (Loop.record_eq_ok.mp hr).2 pending .reject v)

/-- A promise that is resolved with itself is rejected at once. -/
theorem resolve_self_of_free {values : List Value} (h : m.Hosts k l values) (hr : l.record p = .ok r)
    (free : r.alreadyResolved = false) (pending : r.state = .pending) (held : .promise p ∈ values) :
    m.resolve k p (.promise p) = drop (r.left (.settles .reject cycleError))
      ((m.setLoop (l.met p (.settles .reject cycleError))).signal .done) := by
  rw [resolve, withLock_of_free h hr free, resolveLocked, if_pos rfl]
  exact settle_of_locked h hr (by simpa using held) .reject rfl
    (Loop.settle_met (Loop.record_eq_ok.mp hr).2 pending .reject cycleError)

/-- A promise that is resolved with another one of the loop adopts it. -/
theorem comesBack_resolve_promise {values : List Value} (h : m.Hosts k l values) (hr : l.record p = .ok r)
    (free : r.alreadyResolved = false) (held : .promise p ∈ values) {q : Promise} (home : q.home = p.home)
    (ne : q ≠ p) : ComesBack (fun m => m.resolve k p (.promise q)) m .done
      ((m.setLoop (l.met p (.adopts q))).signal .done) := by
  have own : p.home = k := (Loop.record_eq_ok.mp hr).1.trans h.id
  subst own
  have locked := h.setLoop (Machine.locked l p) rfl .done
  have found : ((m.setLoop (Machine.locked l p)).push (.resolving p (.promise q))).loop? p.home =
      some (Machine.locked l p) := locked.loop
  have asked : m.resolve p.home p (.promise q) =
      ((m.setLoop (Machine.locked l p)).push (.resolving p (.promise q))).signal
        (.value (.function (.method p.home .then_))) := by
    have owns : (Machine.locked l p).ownPromise? (.promise q) = some q := by
      have : q.home = l.id := home.trans h.id.symm
      simp [Loop.ownPromise?, Value.asPromise?, Loop.owns, Machine.locked, Loop.note, Loop.modifyRecord, this]
    rw [resolve, withLock_of_free h hr free, resolveLocked, if_neg fun e => ne (Value.promise.inj e), probe, found]
    simp only [owns, Option.isSome_some, if_true]
  refine comesBack_of_step (.resolving p (.promise q)) (by rw [asked]; rfl) ?_ rfl rfl
  rw [asked]
  refine (locked.step_push (.resolving p (.promise q)) (.value (.function (.method p.home .then_)))).trans ?_
  let j : Job := .adoption p (.promise q) (.function (.method p.home .then_))
  have queued : ((m.setLoop (Machine.locked l p)).signal .done).modifyLoop p.home (·.enqueue j) =
      (m.setLoop (l.met p (.adopts q))).signal .done := by
    rw [modifyLoop_of_found _ locked.loop h.id]
    refine (congrArg (·.signal .done)
      (setLoop_setLoop m (Machine.locked l p) ((Machine.locked l p).enqueue j) rfl)).trans ?_
    rw [Loop.met, h.id]
  show drop [.promise p] ((((m.setLoop (Machine.locked l p)).signal .done).modifyLoop p.home (·.enqueue j)).signal
    .done) = _
  rw [queued]
  obtain ⟨top, mem, kept⟩ := h.holds
  refine drop_of_frame ?_ (by simpa using kept _ held)
  exact mem

/-- A value that is taken as it is fulfills the promise. -/
theorem comesBack_resolve_flat {values : List Value} (h : m.Hosts k l values) (hr : l.record p = .ok r)
    (free : r.alreadyResolved = false) (pending : r.state = .pending) (native : l.bridge = .native)
    (held : .promise p ∈ values) (flat : v.IsFlat k) : ComesBack (fun m => m.resolve k p v) m .done
      (drop (r.left (.settles .fulfill v)) ((m.setLoop (l.met p (.settles .fulfill v))).signal .done)) := by
  have home : p.home = k := (Loop.record_eq_ok.mp hr).1.trans h.id
  have id : ((Machine.locked l p).asked v).id = l.id := Loop.id_asked ..
  have ne : v ≠ .promise p := fun e => by
    subst e
    exact flat home
  have asked : m.resolve k p v =
      ((m.setLoop ((Machine.locked l p).asked v)).push (.resolving p v)).signal .done := by
    have found : ((m.setLoop (Machine.locked l p)).push (.resolving p v)).loop? p.home =
        some (Machine.locked l p) := home ▸ (h.setLoop (Machine.locked l p) rfl .done).loop
    have own : (Machine.locked l p).ownPromise? v = none := by
      cases v with
      | promise q =>
        have other : ¬ q.home = l.id := h.id ▸ flat
        simp [Loop.ownPromise?, Value.asPromise?, Loop.owns, Machine.locked, Loop.note, Loop.modifyRecord, other]
      | _ => rfl
    rw [resolve, withLock_of_free h hr free, resolveLocked, if_neg ne, probe, found]
    simp only [own, Option.isSome_none, Bool.false_eq_true, if_false]
    unfold Loop.asked
    split
    · have answer : ∀ n : Machine, n.askThen v ((Machine.locked l p).bridge.probePlan v) = n.signal .done := by
        intro n
        rw [show (Machine.locked l p).bridge = .native from native]
        cases v <;> first | rfl | exact flat.elim
      rw [answer]
      exact congrArg (fun x => (x.push (.resolving p v)).signal .done)
        (setLoop_setLoop m (Machine.locked l p) ((Machine.locked l p).note (.probed v)) rfl)
    · rfl
  refine comesBack_of_step (.resolving p v) (by rw [asked]; rfl) ?_ (by rw [stack_drop]; rfl)
    (by rw [control_drop]; rfl)
  rw [asked]
  refine ((h.setLoop _ id .done).step_push (.resolving p v) .done).trans ?_
  show ((m.setLoop ((Machine.locked l p).asked v)).signal .done).settle p .fulfilled v [.promise p] = _
  exact settle_of_locked h hr (by simpa using held) .fulfill id
    (Loop.settle_met (Loop.record_eq_ok.mp hr).2 pending .fulfill v)

/-- A settlement that finds the lock free leaves the promise with its fate. -/
theorem comesBack_settling {values : List Value} (h : m.Hosts k l values) (hr : l.record p = .ok r)
    (free : r.alreadyResolved = false) (pending : r.state = .pending) (native : l.bridge = .native)
    (held : .promise p ∈ values) (side : Side) (plain : side = .fulfill → ∀ o, v ≠ .object o) :
    ComesBack (settling side k p v) m .done (drop (r.left (Destiny.of p side v))
      ((m.setLoop (l.met p (Destiny.of p side v))).signal .done)) := by
  have home : p.home = k := (Loop.record_eq_ok.mp hr).1.trans h.id
  have back {act : Machine → Machine} {fate : Destiny} (eq : act m = drop (r.left fate)
      ((m.setLoop (l.met p fate)).signal .done)) : ComesBack act m .done (drop (r.left fate)
        ((m.setLoop (l.met p fate)).signal .done)) :=
    comesBack_at_once eq (by rw [stack_drop]; rfl) (by rw [control_drop]; rfl)
  cases side with
  | reject => exact back (reject_of_free h hr free pending)
  | fulfill =>
    have flatly (flat : v.IsFlat k) (fate : Destiny.of p .fulfill v = .settles .fulfill v) :
        ComesBack (settling .fulfill k p v) m .done (drop (r.left (Destiny.of p .fulfill v))
          ((m.setLoop (l.met p (Destiny.of p .fulfill v))).signal .done)) := by
      rw [fate]
      exact comesBack_resolve_flat h hr free pending native held flat
    cases v with
    | object o => exact absurd rfl (plain rfl o)
    | promise q =>
      by_cases self : q = p
      · subst self
        rw [show Destiny.of q .fulfill (.promise q) = .settles .reject cycleError by simp [Destiny.of]]
        exact back (resolve_self_of_free h hr free pending held)
      · have ne : Value.promise q ≠ .promise p := fun e => self (Value.promise.inj e)
        by_cases own : q.home = p.home
        · rw [show Destiny.of p .fulfill (.promise q) = .adopts q by simp [Destiny.of, self, own]]
          have adopted := comesBack_resolve_promise h hr free held own self
          rwa [← drop_nil ((m.setLoop (l.met p (.adopts q))).signal .done)] at adopted
        · exact flatly (fun e => own (e.trans home.symm)) (by simp [Destiny.of, self, own])
    | _ => exact flatly trivial (by simp [Destiny.of])

-- ---------------------------------------------------------------------------
-- Registering
-- ---------------------------------------------------------------------------

/-- A registration that the tracker need not hear of comes back at once. -/
theorem attach_of_prompt {top : Frame} (hl : m.loop? k = some l) (wf : l.heap.Wf)
    (hr : l.record p = .ok r) (prompt : Loop.handledLate r = false) (mem : top ∈ m.stack)
    (kept : ∀ v ∈ f.toList ++ g.toList, v ∈ top.held) : m.attach k p f g [] =
      (m.setLoop (l.chained p f g r)).signal (.value (.promise l.newPromise.1)) := by
  have attached := (Loop.attach_eq_ok wf (f := f) (g := g)).mpr ⟨r, hr, rfl⟩
  unfold attach
  simp only [hl, attached, prompt, Bool.false_eq_true, if_false]
  let x := (m.setLoop (l.chained p f g r)).signal (.value (.promise l.newPromise.1))
  refine (drop_append_of_kept (Q := fun y => y.stack = x.stack ∧ y.control = x.control) (fun _ _ same => same)
    (fun _ _ same => same) (fun y same v hv a ha => ?_) [] ⟨rfl, rfl⟩).trans (drop_nil x)
  rcases Record.mem_unusedReaction hv with handler | rfl
  · exact holds_of_stack (same.1 ▸ mem) (kept v handler) ha
  · -- the new promise is what is signalled
    have signalled : (y.control.held.any (·.has a)) = true := by
      rw [same.2]
      exact List.any_eq_true.mpr ⟨_, List.mem_singleton_self _, (Value.has_iff a _).mpr ha⟩
    simp [Machine.holds, signalled]

end Machine
end PromiseLoop

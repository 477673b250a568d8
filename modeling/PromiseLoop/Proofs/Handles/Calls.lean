import PromiseLoop.Proofs.Handles.Updates

/-!
# Calls keep the books

An operation of the machine is given some values and a machine whose control is spent.  It puts every
value somewhere: into a frame, a record, a queue, the control; or it lets the value go.  So if the
books are balanced when the values are under way, they are balanced when the operation is over and
nothing is.  That is `Passes`, which says besides that the operation leaves the frames it found where
they are.

## Results

* `passes_settle`, `passes_resolve`, `passes_reject`: settling and resolving a promise.
* `passes_attach`: registering handlers.
* `passes_enter`: the beginning of any call.
-/

namespace PromiseLoop

-- Values without a handle

@[simp] theorem Value.handle?_undefined : Value.undefined.handle? = none := rfl
@[simp] theorem Value.handle?_text (s : String) : (Value.text s).handle? = none := rfl
@[simp] theorem Value.handle?_error (e : ErrorValue) : (Value.error e).handle? = none := rfl
@[simp] theorem Value.handle?_typeError (s : String) : (Value.typeError s).handle? = none := rfl
@[simp] theorem Value.handle?_routine (n : Nat) (name : String) :
    (Value.function (.routine n name)).handle? = none := rfl
@[simp] theorem Value.handle?_method (home : LoopId) (method : Method) :
    (Value.function (.method home method)).handle? = none := rfl

namespace Machine

variable {m m' m'' : Machine} {k : LoopId} {extra extra' : List Value} {due : List PromiseId}

-- ---------------------------------------------------------------------------
-- Balance
-- ---------------------------------------------------------------------------

/-- The books of a loop are balanced, and nothing is under way but what the control holds. -/
structure Balanced (k : LoopId) (m : Machine) : Prop where
  books : m.Books k m.control.held (m.control.pendingOf k)
  /-- A function that is about to be called is held by the stack as well. -/
  callee : ∀ f this arguments, m.control = .call f this arguments →
    ∀ a, (Value.function f).handle? = some a → a ∈ handles m.heldByStack

/-- An operation leads to a machine whose books are balanced, and keeps the stack. -/
structure Passes (k : LoopId) (m m' : Machine) : Prop where
  balanced : m'.Balanced k
  above : m.stack <:+ m'.stack

theorem Passes.of_above (h : m'.Passes k m'') (above : m.stack <:+ m'.stack) : m.Passes k m'' :=
  ⟨h.balanced, above.trans h.above⟩

theorem Passes.of_stack (h : m'.Passes k m'') (same : m'.stack = m.stack) : m.Passes k m'' :=
  ⟨h.balanced, same ▸ h.above⟩

theorem Passes.of_push {f : Frame} (h : (m.push f).Passes k m') : m.Passes k m' :=
  h.of_above (List.suffix_cons ..)

theorem mem_kept_of_stack {a : Handle} (h : a ∈ handles m.heldByStack) : a ∈ handles m.kept :=
  mem_kept.mpr (.inr (.inl h))

/-- Where the control does not hold anything that is to be called or collected. -/
theorem balanced_of_spent (h : m.Books k [] []) (spent : m.control = .signal .done) : m.Balanced k := by
  refine ⟨?_, fun f this arguments hc => ?_⟩
  · rw [spent]
    exact h
  · rw [spent] at hc
    cases hc

theorem passes_of_spent (h : m.Books k [] []) (spent : m.control = .signal .done) : m.Passes k m :=
  ⟨balanced_of_spent h spent, List.suffix_rfl⟩

theorem Books.drop_of_spent {vs : List Value} (h : m.Books k vs [])
    (spent : m.control = .signal .done) : (Machine.drop vs m).Books k [] [] := by
  have dropped := (show m.Books k (vs ++ m.control.held) [] by
    rw [spent]; simpa [Control.held, Signal.held] using h).drop
  rwa [control_drop, spent] at dropped

/-- Letting values go under a signal. -/
theorem passes_drop_signal {vs : List Value} {s : Signal} (h : m.Books k (vs ++ s.held) []) :
    m.Passes k (drop vs (m.signal s)) := by
  have dropped := (show (m.signal s).Books k (vs ++ (m.signal s).control.held) [] from h.signal s).drop
  refine ⟨⟨?_, fun f this arguments hc => ?_⟩, ?_⟩
  · have control : (drop vs (m.signal s)).control = .signal s := by simp
    rw [control] at dropped ⊢
    exact dropped
  · rw [control_drop] at hc
    cases hc
  · rw [stack_drop]
    exact List.suffix_rfl

theorem passes_drop_done {vs : List Value} (h : m.Books k vs []) :
    m.Passes k (drop vs (m.signal .done)) :=
  passes_drop_signal (s := .done) (by simpa [Signal.held] using h)

theorem passes_signal {s : Signal} (h : m.Books k s.held []) : m.Passes k (m.signal s) := by
  have dropped := passes_drop_signal (show m.Books k ([] ++ s.held) [] from h)
  rwa [drop_nil] at dropped

/-- A function is called that is held by the stack. -/
theorem passes_willCall {f : Callable} {this : Value} {arguments : List Value}
    (h : m.Books k (this :: arguments) [])
    (callee : ∀ a, (Value.function f).handle? = some a → a ∈ handles m.heldByStack) :
    m.Passes k (m.willCall f this arguments) := by
  have called : m.Books k (.function f :: this :: arguments) [] :=
    h.lend fun a ha => mem_kept_of_stack (callee a ha)
  refine ⟨⟨called.control _, fun g _ _ hc => ?_⟩, List.suffix_rfl⟩
  cases hc
  exact callee

-- ---------------------------------------------------------------------------
-- Members and bridges
-- ---------------------------------------------------------------------------

/-- Only what exists has properties. -/
theorem exists_of_property {o : ObjectId} {key : String} {q : Property}
    (hq : (m.properties o).lookup? key = some q) : ∃ e ∈ m.objects, e.1 = o ∧ m.properties o = e.2 := by
  unfold properties at hq ⊢
  cases he : m.objects.find? fun e => e.1 = o with
  | none =>
    rw [he] at hq
    cases hq
  | some e => exact ⟨e, List.mem_of_find?_eq_some he, by simpa using List.find?_some he, rfl⟩

/-- The properties of an object are held. -/
theorem mem_kept_of_property {o : ObjectId} {key : String} {q : Property} {a : Handle}
    (hq : (m.properties o).lookup? key = some q) (ha : q.held.handle? = some a) :
    a ∈ handles m.kept := by
  obtain ⟨e, he, -, heq⟩ := exists_of_property hq
  refine mem_kept.mpr (.inr (.inr (.inr ?_)))
  rw [heldByObjects, handles_flatMap]
  exact List.mem_flatMap.mpr ⟨e, he, heq ▸ Properties.mem_handles_of_lookup? hq ha⟩

theorem passes_read (h : m.Books k [] []) (o : ObjectId) (key : String) :
    m.Passes k (m.read o key) := by
  unfold read
  split
  · exact passes_signal (h.regroup (by simp [Signal.held]))
  · rename_i v hv
    exact passes_signal (h.lend fun a ha => mem_kept_of_property hv ha)
  · rename_i g hg
    have held : m.Books k [.function g] [] :=
      h.lend fun a ha => mem_kept_of_property hg ha
    have pushed : (m.push (.hold [.function g])).Books k [] [] := Books.push held rfl rfl
    -- what has properties exists, and so something holds it
    have owned : .object o ∈ handles (m.push (.hold [.function g])).kept := by
      obtain ⟨e, he, rfl, -⟩ := exists_of_property hg
      have own := (pushed.owned e.1).mpr (List.mem_map_of_mem he)
      exact own.resolve_right (by simp)
    refine Passes.of_push (passes_willCall (pushed.lend fun a ha => ?_) fun a ha => ?_)
    · rwa [← Option.some.inj ha]
    · simp [heldByStack, Frame.held, ha]

/-- A value that is not a function is not called. -/
theorem passes_callValue {f this : Value} {arguments : List Value}
    (h : m.Books k (this :: arguments) [])
    (callee : ∀ a, f.handle? = some a → a ∈ handles m.heldByStack) :
    m.Passes k (m.callValue f this arguments) := by
  unfold callValue
  split
  · exact passes_willCall h callee
  · exact passes_drop_signal (h.regroup (by simp [Signal.held, or_comm]))

theorem passes_invoke {f this : Value} {arguments : List Value}
    (h : m.Books k (this :: arguments) []) (loop : LoopId)
    (callee : ∀ a, f.handle? = some a → a ∈ handles m.heldByStack) :
    m.Passes k (m.invoke loop f this arguments) := by
  have noted : (m.modifyLoop loop fun l => l.note (.invoked f)).Books k (this :: arguments) [] :=
    h.modifyLoop loop fun sound => Loop.trades_note sound _
  unfold invoke
  dsimp only
  split
  · refine (passes_read (Books.push ?_ rfl rfl) _ _).of_push.of_stack rfl
    exact noted.regroup (by simp [Frame.held, or_comm])
  · exact (passes_callValue noted callee).of_stack rfl

theorem passes_askThen (h : m.Books k [] []) {v : Value} (plan : ProbePlan)
    (held : ∀ a, v.handle? = some a → a ∈ handles m.heldByStack) :
    m.Passes k (m.askThen v plan) := by
  unfold askThen
  split
  · exact (passes_read (Books.push h rfl rfl) _ _).of_push
  · exact passes_signal (h.lend fun a ha => mem_kept_of_stack (held a ha))
  · exact passes_signal h

theorem passes_probe (h : m.Books k [] []) (loop : LoopId) {v : Value}
    (held : ∀ a, v.handle? = some a → a ∈ handles m.heldByStack) :
    m.Passes k (m.probe loop v) := by
  unfold probe
  split
  · exact passes_signal h
  · rename_i l hl
    split
    · exact passes_signal (h.regroup (by simp [Signal.held]))
    · split
      · have noted : (m.setLoop (l.note (.probed v))).Books k [] [] :=
          h.update (h.loop?_id hl) (Loop.trades_note (h.sound hl) _)
        exact (passes_askThen noted _ held).of_stack rfl
      · exact passes_signal h

-- ---------------------------------------------------------------------------
-- Settling and resolving
-- ---------------------------------------------------------------------------

theorem passes_settle {v : Value} {spent : List Value} (h : m.Books k (v :: spent) []) (p : Promise)
    (s : State) : m.Passes k (m.settle p s v spent) := by
  unfold settle
  cases hl : m.loop? p.home with
  | none => exact passes_drop_signal (h.regroup (by simp [Signal.held]))
  | some l =>
    have settled : (m.setLoop (l.settle p.id s v).1).Books k ((l.settle p.id s v).2 ++ spent) [] :=
      (show m.Books k ([v] ++ spent) [] from h).setLoop (h.loop?_id hl)
        (Loop.trades_settle (h.sound hl) p.id s v)
    exact (passes_drop_done settled).of_stack rfl

theorem passes_resolveLocked {p : Promise} {v : Value} (h : m.Books k [v] [])
    (held : .promise p ∈ handles m.heldByStack) (alive : ∃ l, m.loop? p.home = some l) :
    m.Passes k (m.resolveLocked p v) := by
  unfold resolveLocked
  split
  · exact passes_settle (h.regroup (by simp [cycleError])) p .rejected
  · have pushed : (m.push (.resolving p v)).Books k [] [] := by
      refine Books.push_anchored ?_ rfl fun j hj => Option.some.inj hj ▸ alive
      have borrowed : m.Books k (.promise p :: [v]) [] :=
        h.lend fun a ha => mem_kept_of_stack (Option.some.inj ha ▸ held)
      exact borrowed.regroup (by simp [Frame.held, or_comm])
    refine (passes_probe pushed p.home fun a ha => ?_).of_push
    simp [heldByStack, Frame.held, ha]

/-- Whatever is done under the lock of a promise, the value is let go where the lock is refused. -/
theorem passes_withLock {v : Value} (h : m.Books k [v] []) (loop : LoopId) (p : Promise)
    {act : Machine → Machine}
    (acts : ∀ m' : Machine, m'.Books k [v] [] → m'.stack = m.stack →
      (∃ l, m'.loop? p.home = some l) → m'.Passes k (act m')) :
    m.Passes k (m.withLock loop p v act) := by
  unfold withLock
  split
  · exact passes_drop_signal h
  · rename_i l hl
    have locked {accepted : Bool} {l' : Loop} (hk : l.lock p = .ok (accepted, l')) :
        (m.setLoop l').Books k [v] [] :=
      h.update (h.loop?_id hl) (Loop.trades_lock (h.sound hl) hk)
    split
    · exact passes_drop_signal h
    · rename_i l' hk
      exact (passes_drop_done (locked hk)).of_stack rfl
    · rename_i l' hk
      obtain ⟨r, hr, -, -⟩ := Loop.lock_eq_ok.mp hk
      have own : p.home = l'.id := (Loop.record_eq_ok.mp hr).1.trans (Loop.id_lock hk).symm
      have found : (m.setLoop l').loop? l'.id = some l' :=
        loop?_setLoop (Loop.id_lock hk ▸ h.loop?_id hl)
      exact (acts _ (locked hk) rfl ⟨l', own ▸ found⟩).of_stack rfl

theorem passes_resolve {p : Promise} {v : Value} (h : m.Books k [v] []) (loop : LoopId)
    (held : .promise p ∈ handles m.heldByStack) : m.Passes k (m.resolve loop p v) :=
  passes_withLock h loop p fun m' h' same alive =>
    passes_resolveLocked h' (by rwa [heldByStack, same]) alive

theorem passes_reject {v : Value} (h : m.Books k [v] []) (loop : LoopId) (p : Promise) :
    m.Passes k (m.reject loop p v) :=
  passes_withLock h loop p fun _ h' _ _ => passes_settle h' p .rejected

-- ---------------------------------------------------------------------------
-- Telling about rejections
-- ---------------------------------------------------------------------------

/-- A function of the script is called with copies of values that the stack holds. -/
theorem passes_callback (h : m.Books k [] []) (spent : m.control = .signal .done) (name : String)
    {arguments : List Value} (held : ∀ a ∈ handles arguments, a ∈ handles m.heldByStack) :
    m.Passes k (m.callback name arguments) := by
  unfold callback
  split
  · rename_i f hf
    have called : (m.push (.discard [.function f])).Books k arguments [] := by
      have borrowed : m.Books k (arguments ++ []) [] :=
        h.borrow fun a ha => mem_kept_of_stack (held a ha)
      have lent : m.Books k (.function f :: arguments) [] :=
        (borrowed.regroup (by simp)).lend fun a ha => mem_kept_of_lookup? hf ha
      exact Books.push lent rfl rfl
    refine (passes_willCall (called.regroup (by simp)) fun a ha => ?_).of_push
    simp [heldByStack, Frame.held, ha]
  · exact passes_of_spent h spent

theorem passes_traceEntry (h : m.Books k [] []) (spent : m.control = .signal .done) (e : Entry) :
    m.Passes k (m.traceEntry e) :=
  (passes_of_spent (h.traceEntry e) (by simpa using spent)).of_stack (by simp)

theorem passes_tellUnhandled (h : m.Books k [] []) (spent : m.control = .signal .done) (loop : LoopId)
    (id : PromiseId) {reason : Value}
    (held : ∀ a, reason.handle? = some a → a ∈ handles m.heldByStack) :
    m.Passes k (m.tellUnhandled loop id reason) := by
  unfold tellUnhandled
  split
  · exact passes_traceEntry h spent _
  · exact passes_callback h spent _ fun a ha => held a (by simpa using ha)
  · exact passes_of_spent h spent

theorem passes_tellHandled (h : m.Books k [] []) (spent : m.control = .signal .done) (loop : LoopId)
    (id : PromiseId) : m.Passes k (m.tellHandled loop id) := by
  unfold tellHandled
  split
  · exact passes_traceEntry h spent _
  · exact passes_callback h spent _ (by simp)
  · exact passes_of_spent h spent

-- ---------------------------------------------------------------------------
-- Registering handlers
-- ---------------------------------------------------------------------------

/-- A loop may be put back more than once. -/
theorem setLoop_setLoop (m : Machine) (l l' : Loop) (id : l'.id = l.id) :
    (m.setLoop l).setLoop l' = m.setLoop l' := by
  simp [setLoop, modifyLoop, id, List.modify_modify_eq, Function.comp_def]

/-- A registration gives the derived promise, the job of the reaction if there is one, and what is not
needed. -/
theorem Books.attach {loop : LoopId} {l : Loop} {q : Promise} {f g : Option Value} {a : Loop.Attached}
    (h : m.Books k (extra ++ (f.toList ++ g.toList)) []) (hl : m.loop? loop = some l)
    (ha : l.attach q f g = .ok a) : (m.setLoop a.loop).Books k
      (.promise a.derived :: ((a.job.map Job.held).getD [] ++ (extra ++ a.dropped))) [] := by
  have sound := h.sound hl
  obtain ⟨r, hr, rfl⟩ := (Loop.attach_eq_ok sound.wf).mp ha
  have hl' := h.loop?_id hl
  let d := l.newPromise.1
  have created := h.newPromise hl'
  have copied : (m.setLoop l.newPromise.2).Books k
      ((.promise d :: (f.toList ++ g.toList)) ++ (.promise d :: extra)) [] :=
    created.regroup (by simp [d]; grind)
  have found : (m.setLoop l.newPromise.2).loop? l.newPromise.2.id = some l.newPromise.2 :=
    loop?_setLoop hl'
  have registered := copied.setLoop found
    (Loop.trades_registered sound (Loop.record_eq_ok.mp hr).2 f g)
  rw [setLoop_setLoop m l.newPromise.2 (l.registered q f g r) rfl] at registered
  exact registered.regroup (by simp [d]; grind)

theorem passes_attach {unused : List Value} {f g : Option Value}
    (h : m.Books k (unused ++ (f.toList ++ g.toList)) []) (loop : LoopId) (q : Promise) :
    m.Passes k (m.attach loop q f g unused) := by
  have refused (s : Signal) (hs : s.held = []) :
      m.Passes k (drop (unused ++ g.toList ++ f.toList) (m.signal s)) :=
    passes_drop_signal (h.regroup (by simp [hs]; grind))
  unfold attach
  cases hl : m.loop? loop with
  | none => exact refused _ rfl
  | some l =>
    cases ha : l.attach q f g with
    | error e =>
      dsimp only
      rw [ha]
      exact refused _ rfl
    | ok a =>
      have attached := h.attach hl ha
      dsimp only
      rw [ha]
      dsimp only
      split
      · -- the frame keeps the derived promise and the job
        have found : (m.setLoop a.loop).loop? a.loop.id = some a.loop :=
          loop?_setLoop (Loop.id_attach ha ▸ h.loop?_id hl)
        have own : a.derived.home = a.loop.id :=
          (home_derived_of_attach ha).trans (Loop.id_attach ha).symm
        have pushed := Books.push_anchored (f := .attaching a.derived a.job) attached rfl
          fun j hj => ⟨a.loop, Option.some.inj hj ▸ own ▸ found⟩
        have dropped := (pushed.signal .done).drop_of_spent rfl
        refine (passes_tellHandled dropped (by simp) loop q.id).of_above ?_
        rw [stack_drop]
        exact List.suffix_cons ..
      · have found : (m.setLoop a.loop).loop? a.loop.id = some a.loop :=
          loop?_setLoop (Loop.id_attach ha ▸ h.loop?_id hl)
        have grouped : (m.setLoop a.loop).Books k ((a.job.map Job.held).getD [] ++
            (unused ++ a.dropped ++ [.promise a.derived])) [] := attached.regroup (by simp; grind)
        have ended := grouped.setLoop found
          (Loop.trades_endAttach (grouped.sound found) a.derived a.job)
        rw [setLoop_setLoop m a.loop _ (by simp)] at ended
        exact (passes_drop_signal (s := .value (.promise a.derived)) ended).of_stack rfl

/-- The arguments of a registration are its handlers, what cannot be called, and what is left over. -/
theorem mem_handles_handlers (isCallable : Value → Bool) (arguments : List Value) (a : Handle) :
    a ∈ handles arguments ↔
      a ∈ handles (arguments.drop 2) ∨
        a ∈ handles ((arguments.take 2).filter fun v => !isCallable v) ∨
        a ∈ handles ((arguments.take 2)[0]?.filter isCallable).toList ∨
        a ∈ handles ((arguments.take 2)[1]?.filter isCallable).toList := by
  match arguments with
  | [] => simp
  | [v] => cases hv : isCallable v <;> simp [hv, Option.filter]
  | v :: w :: rest =>
    cases hv : isCallable v <;> cases hw : isCallable w <;> simp [hv, hw, Option.filter] <;> grind

theorem passes_thenMethod {this : Value} {arguments unused : List Value}
    (h : m.Books k (this :: (arguments ++ unused)) []) (home : LoopId) :
    m.Passes k (m.thenMethod home this arguments unused) := by
  have refused (text : String) : m.Passes k
      (drop (unused ++ arguments ++ [this]) (m.signal (.thrown (.typeError text)))) :=
    passes_drop_signal (h.regroup (by simp [Signal.held]; grind))
  unfold thenMethod
  split
  · exact refused _
  · split
    · exact refused _
    · rename_i l _ _ p hp
      refine (passes_attach (Books.push (h.regroup fun q => ?_) rfl rfl) home p).of_push
      have handlers := mem_handles_handlers (l.bridge.isCallable m.properties) arguments q
      simp only [Frame.held, handles_append, mem_handles_cons, List.mem_append, handlers,
        handles_nil, List.not_mem_nil, or_false]
      grind

theorem passes_catchMethod {this : Value} {arguments : List Value}
    (h : m.Books k (this :: arguments) []) (home : LoopId) :
    m.Passes k (m.catchMethod home this arguments) := by
  refine passes_thenMethod (h.regroup fun p => ?_) home
  cases arguments <;> simp [or_comm]

-- ---------------------------------------------------------------------------
-- Entering functions
-- ---------------------------------------------------------------------------

theorem exists_loop?_modifyLoop {j : LoopId} (alive : ∃ l, m.loop? j = some l) (id : LoopId)
    (f : Loop → Loop) : ∃ l, (m.modifyLoop id f).loop? j = some l := by
  obtain ⟨l, hl⟩ := alive
  by_cases hj : id = j
  · exact ⟨f l, by rw [hj, loop?_modifyLoop_self, hl]; rfl⟩
  · exact ⟨l, by rwa [loop?_modifyLoop_of_ne m hj]⟩

theorem exists_loop?_claim {r : Resolver} {accepted : Bool} (hc : m.claim r = .ok (accepted, m'))
    {j : LoopId} (alive : ∃ l, m.loop? j = some l) : ∃ l, m'.loop? j = some l := by
  unfold claim at hc
  split at hc
  · cases hc
    exact alive
  · split at hc
    · cases hc
      exact alive
    · rename_i l _
      cases hk : l.lock r.promise with
      | error f => rw [hk] at hc; cases hc
      | ok taken =>
        rw [hk] at hc
        cases hc
        exact exists_loop?_modifyLoop alive _ _

theorem stack_claim {r : Resolver} {accepted : Bool} (hc : m.claim r = .ok (accepted, m')) :
    m'.stack = m.stack := by
  unfold claim at hc
  split at hc
  · cases hc
    rfl
  · split at hc
    · cases hc
      rfl
    · rename_i l _
      cases hk : l.lock r.promise with
      | error f => rw [hk] at hc; cases hc
      | ok taken =>
        rw [hk] at hc
        cases hc
        rfl

theorem Books.claim {r : Resolver} {accepted : Bool} (h : m.Books k extra due)
    (hc : m.claim r = .ok (accepted, m')) : m'.Books k extra due := by
  unfold Machine.claim at hc
  split at hc
  · cases hc
    exact h.of_eq rfl rfl rfl rfl rfl
  · split at hc
    · cases hc
      exact h
    · rename_i l hl
      cases hk : l.lock r.promise with
      | error f => rw [hk] at hc; cases hc
      | ok taken =>
        rw [hk] at hc
        cases hc
        exact h.update (h.loop?_id hl) (Loop.trades_lock (h.sound hl) hk)

/-- One of the functions that settle a promise is called.  The function itself is held below. -/
theorem passes_enterResolver {r : Resolver} {this : Value} {arguments : List Value}
    (h : m.Books k (this :: arguments) []) (held : .promise r.promise ∈ handles m.heldByStack) :
    m.Passes k (m.enterResolver r this arguments) := by
  have refused {m : Machine} (h : m.Books k (this :: arguments) []) {s : Signal}
      (hs : handles s.held = []) : m.Passes k (drop (arguments ++ [this]) (m.signal s)) :=
    passes_drop_signal (h.regroup (by simp [hs, or_comm]))
  unfold enterResolver
  split
  · exact refused h rfl
  · rename_i gone
    have alive : ∃ l, m.loop? r.promise.home = some l :=
      Option.ne_none_iff_exists'.mp (by simpa using gone)
    split
    · exact refused h rfl
    · rename_i m' hc
      exact (refused (h.claim hc) (s := .value .undefined) rfl).of_stack (stack_claim hc)
    · rename_i m' hc
      have pushed : (m'.push (.give .undefined [this])).Books k
          (arguments.drop 1 ++ [arguments.headD .undefined]) [] := by
        refine Books.push ((h.claim hc).regroup fun p => ?_) rfl rfl
        cases arguments with
        | nil => simp [Frame.held]
        | cons v rest =>
          simp [Frame.held]
          grind
      let m₁ := drop (arguments.drop 1)
        ((m'.push (.give .undefined [this])).signal (.value (arguments.headD .undefined)))
      have control : m₁.control = .signal (.value (arguments.headD .undefined)) := by simp [m₁]
      have stack : (m₁.signal .done).stack = .give .undefined [this] :: m.stack := by
        simp [m₁, stack_claim hc]
      have kept : (m₁.signal .done).Books k [arguments.headD .undefined] [] := by
        have dropped : m₁.Books k m₁.control.held [] := Books.drop (pushed.signal _)
        rw [control] at dropped
        exact dropped.signal .done
      have above : m.stack <:+ (m₁.signal .done).stack := stack ▸ List.suffix_cons ..
      dsimp only
      split
      · refine (passes_resolveLocked kept ?_ ?_).of_above above
        · rw [heldByStack, stack, List.flatMap_cons, handles_append]
          exact List.mem_append_right _ held
        · obtain ⟨l, hl⟩ := exists_loop?_claim hc alive
          obtain ⟨released, hd⟩ := exists_loop?_drop (arguments.drop 1)
            ((m'.push (.give .undefined [this])).signal (.value (arguments.headD .undefined)))
            r.promise.home
          exact ⟨_, hd.trans (congrArg _ hl)⟩
      · exact (passes_settle kept r.promise .rejected).of_above above

theorem passes_enterRoutine {this : Value} {arguments : List Value}
    (h : m.Books k (this :: arguments) []) (number : Nat) (name : String) :
    m.Passes k (m.enterRoutine number name this arguments) := by
  unfold enterRoutine
  split
  · exact passes_drop_signal (h.regroup (by simp [Signal.held]))
  · rename_i r _
    have pushed : (m.push (.call this arguments r.quiet)).Books k [] [] :=
      Books.push (h.regroup (by simp [Frame.held])) rfl rfl
    have begun := Books.push (f := .block r.body) (pushed.traceEntry
      (.call name ((m.push (.call this arguments r.quiet)).shown this)
        (arguments.map (m.push (.call this arguments r.quiet)).shown))) rfl rfl
    refine (passes_signal (s := .done) begun).of_above ?_
    rw [stack_push, stack_traceEntry, stack_push]
    exact (List.suffix_cons ..).trans (List.suffix_cons ..)

theorem passes_enter {f : Callable} {this : Value} {arguments : List Value}
    (h : m.Books k (this :: arguments) [])
    (callee : ∀ a, (Value.function f).handle? = some a → a ∈ handles m.heldByStack) :
    m.Passes k (m.enter f this arguments) := by
  unfold enter
  split
  · exact passes_enterRoutine h _ _
  · exact passes_enterResolver h (callee _ rfl)
  · exact passes_thenMethod (h.regroup (by simp)) _
  · exact passes_catchMethod h _

end Machine
end PromiseLoop

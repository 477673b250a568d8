import PromiseLoop.Proofs.FirstAttempt
import PromiseLoop.Proofs.Queues
import PromiseLoop.Proofs.Scenes.Basic

/-!
# Settling promises in a scene

What resolving and rejecting promises, and registering handlers on them, makes of a scene.  A value
without a `then` settles its promise within two steps.

## Results

* `Machine.Shows.resolve`, `Machine.Shows.reject`: settling a promise whose lock is free.
* `Machine.Shows.attach`: registering handlers.
-/

namespace PromiseLoop

/-- A value that a loop with the native bridge takes as it is: no object, and no promise of the loop. -/
def Value.IsFlat (k : LoopId) : Value → Prop
  | .object _ => False
  | .promise p => p.home ≠ k
  | _ => True

instance (k : LoopId) (v : Value) : Decidable (v.IsFlat k) := by
  cases v <;> unfold Value.IsFlat <;> infer_instance

/-- The state to which one side of a settlement leads. -/
def Side.state : Side → State
  | .fulfill => .fulfilled
  | .reject => .rejected

@[simp] theorem Side.state_ne_pending (side : Side) : side.state ≠ .pending := by
  cases side <;> simp [state]

-- ---------------------------------------------------------------------------
-- Up to releases
-- ---------------------------------------------------------------------------

namespace Loop

variable (l : Loop) (releases : List PromiseId)

theorem settle_releases (id : PromiseId) (s : State) (v : Value) :
    settle { l with releases } id s v =
      ({ (l.settle id s v).1 with releases }, (l.settle id s v).2) := by
  cases hr : l.heap.get? id with
  | none =>
    rw [settle_of_settle_eq_none (by simp [hr]), settle_of_settle_eq_none (l := l) (by simp [hr])]
  | some r =>
    cases hs : r.settle s v with
    | none =>
      rw [settle_of_settle_eq_none (by simp [hr, hs]), settle_of_settle_eq_none (l := l) (by simp [hr, hs])]
    | some x => rw [settle_of_settle (l := { l with releases }) hr hs, settle_of_settle hr hs]; rfl

theorem attach_releases (p : Promise) (f g : Option Value) :
    attach { l with releases } p f g =
      (l.attach p f g).map fun a => { a with loop := { a.loop with releases } } := by
  have record : Loop.record { l with releases } p = l.record p := rfl
  unfold attach
  rw [record]
  cases l.record p with
  | error e => rfl
  | ok r =>
    have marked : Loop.markHandled (newPromise { l with releases }).2 p.id l.newPromise.1 f g
        (handledLate r) = { l.newPromise.2.markHandled p.id l.newPromise.1 f g (handledLate r) with
          releases } := by
      unfold markHandled
      split
      · rw [reportHandled_eq, reportHandled_eq]
        rfl
      · rfl
    have derived : (newPromise { l with releases }).1 = l.newPromise.1 := rfl
    simp only [Except.map, derived, marked]
    cases r.state <;> rfl

/-- The loop after a value has been asked for its `then` by the native bridge. -/
def asked (v : Value) : Loop := if v.isObjectLike then l.note (.probed v) else l

/-- The loop after a promise has settled, on one side, with a value that is taken as it is. -/
def settledAs (p : Promise) (side : Side) (v : Value) : Loop :=
  (Loop.settle (match side with
    | .fulfill => l.asked v
    | .reject => l) p.id side.state v).1

/-- The loop after a promise has been settled whose lock was free. -/
def resolved (p : Promise) (side : Side) (v : Value) : Loop :=
  (Machine.locked l p).settledAs p side v

/-- The loop after handlers have been registered on a promise whose record was `r`. -/
def chained (p : Promise) (f g : Option Value) (r : Record) : Loop :=
  (l.registered p f g r).endAttach l.newPromise.1 (r.reactionJob f g l.newPromise.1)

@[simp] theorem id_asked (v : Value) : (l.asked v).id = l.id := by
  unfold asked
  split <;> rfl

@[simp] theorem heap_asked (v : Value) : (l.asked v).heap = l.heap := by
  unfold asked
  split <;> rfl

@[simp] theorem microtasks_asked (v : Value) : (l.asked v).microtasks = l.microtasks := by
  unfold asked
  split <;> rfl

@[simp] theorem bridge_asked (v : Value) : (l.asked v).bridge = l.bridge := by
  unfold asked
  split <;> rfl

@[simp] theorem bridge_settle (id : PromiseId) (s : State) (v : Value) :
    (l.settle id s v).1.bridge = l.bridge := by
  rcases l.settle_cases id s v with h | ⟨r, -, -, -, h⟩ <;> rw [h]

@[simp] theorem bridge_settledAs (p : Promise) (side : Side) (v : Value) :
    (l.settledAs p side v).bridge = l.bridge := by
  cases side <;> simp [settledAs]

theorem appends_asked (v : Value) : l.Appends (l.asked v) := by
  unfold asked
  split
  · exact appends_note l rfl rfl
  · exact .refl l

theorem appends_settledAs (p : Promise) (side : Side) (v : Value) :
    l.Appends (l.settledAs p side v) := by
  cases side with
  | fulfill => exact (appends_asked l v).trans (appends_settle _ _ _ _)
  | reject => exact appends_settle _ _ _ _

theorem appends_resolved (p : Promise) (side : Side) (v : Value) : l.Appends (l.resolved p side v) :=
  have locked : l.Appends (l.modifyRecord p.id fun r => { r with alreadyResolved := true }) :=
    appends_of_eq rfl rfl rfl
  (locked.trans (appends_note _ rfl rfl)).trans (appends_settledAs _ _ _ _)

@[simp] theorem bridge_chained (p : Promise) (f g : Option Value) (r : Record) :
    (l.chained p f g r).bridge = l.bridge := by
  unfold chained
  cases r.reactionJob f g l.newPromise.1 <;> rfl

theorem entries_chained (p : Promise) (f g : Option Value) (r : Record) :
    (l.chained p f g r).microtasks.entries =
      l.microtasks.entries ++ (r.reactionJob f g l.newPromise.1).toList := by
  unfold chained
  cases r.reactionJob f g l.newPromise.1 with
  | none => exact (List.append_nil _).symm
  | some j => rfl

theorem heap_chained (p : Promise) (f g : Option Value) (r : Record) :
    (l.chained p f g r).heap = (l.heap.allocate .pending).2.modify p.id
      fun _ => r.registered f g l.newPromise.1 :=
  heap_endAttach _ _ _

theorem appends_chained {p : Promise} {f g : Option Value} {r : Record} (wf : l.heap.Wf)
    (hr : l.record p = .ok r) : l.Appends (l.chained p f g r) :=
  (appends_attach ((attach_eq_ok wf).mpr ⟨r, hr, rfl⟩)).trans (appends_endAttach _ _ _)

section

variable {l} {id : PromiseId} {r : Record}

/-- Settling a pending record shows under its own id alone. -/
theorem get?_settle (hr : l.heap.get? id = some r) (pending : r.state = .pending) (side : Side)
    (v : Value) (other : PromiseId) : (l.settle id side.state v).1.heap.get? other =
      if other = id then some (r.settled side.state v) else l.heap.get? other := by
  rw [settle_of_settle hr (Record.settle_eq_some.mpr ⟨pending, side.state_ne_pending, rfl, rfl⟩)]
  show (l.heap.modify id _).get? other = _
  rw [Heap.get?_modify_ite]
  split
  · rename_i e
    rw [e, hr]
    rfl
  · rfl

/-- Settling a pending record enqueues its reactions of that side. -/
theorem entries_settle (hr : l.heap.get? id = some r) (pending : r.state = .pending) (side : Side)
    (v : Value) : (l.settle id side.state v).1.microtasks.entries =
      l.microtasks.entries ++ (r.released side.state).fire.map (.reaction · v) := by
  rw [settle_of_settle hr (Record.settle_eq_some.mpr ⟨pending, side.state_ne_pending, rfl, rfl⟩)]

theorem get?_settledAs {p : Promise} (hr : l.heap.get? p.id = some r) (pending : r.state = .pending)
    (side : Side) (v : Value) (other : PromiseId) : (l.settledAs p side v).heap.get? other =
      if other = p.id then some (r.settled side.state v) else l.heap.get? other := by
  cases side with
  | fulfill =>
    have same : (l.asked v).heap.get? p.id = some r := by rw [heap_asked, hr]
    rw [← l.heap_asked v]
    exact get?_settle same pending .fulfill v other
  | reject => exact get?_settle hr pending .reject v other

theorem wf_settle (wf : l.heap.Wf) (id : PromiseId) (s : State) (v : Value) :
    (l.settle id s v).1.heap.Wf := by
  rcases l.settle_cases id s v with h | ⟨r, -, -, -, h⟩
  · rw [h]
    exact wf
  · rw [h]
    exact wf.modify _ _

@[simp] theorem slots_settle (id : PromiseId) (s : State) (v : Value) :
    (l.settle id s v).1.heap.slots.length = l.heap.slots.length := by
  rcases l.settle_cases id s v with h | ⟨r, -, -, -, h⟩
  · rw [h]
  · rw [h]
    exact List.length_modify ..

end

@[simp] theorem id_chained (p : Promise) (f g : Option Value) (r : Record) :
    (l.chained p f g r).id = l.id := by
  rw [chained, id_endAttach]
  rfl

end Loop

namespace Machine

variable {m : Machine} {k : LoopId} {s : Scene} {p : Promise} {v : Value} {r : Record}

namespace Shows

-- ---------------------------------------------------------------------------
-- Settling
-- ---------------------------------------------------------------------------

theorem settle (h : m.Shows k s) (home : p.home = k) (t : State) (v : Value) (spent : List Value) :
    (m.settle p t v spent).Shows k
      { s with loop := (s.loop.settle p.id t v).1, control := .signal .done } := by
  obtain ⟨releases, hl⟩ := h.loop
  unfold Machine.settle
  rw [home, hl]
  dsimp only
  rw [Loop.settle_releases]
  have set := h.setLoop (l := (s.loop.settle p.id t v).1) (by rw [Loop.id_settle, h.id_loop]) releases
  exact set.drop_signal _ .done

/-- A value that is taken as it is has no `then`. -/
theorem resolveLocked_flat (h : m.Shows k s) (home : p.home = k) (native : s.loop.bridge = .native)
    (flat : v.IsFlat k) : (m.resolveLocked p v).Shows k
      { s with loop := s.loop.asked v, stack := .resolving p v :: s.stack, control := .signal .done } := by
  obtain ⟨releases, hl⟩ := (h.push (.resolving p v)).loop
  have foreign : v ≠ .promise p := fun e => by
    subst e
    exact flat home
  have own : Loop.ownPromise? { s.loop with releases } v = none := by
    cases v with
    | promise q =>
      have other : ¬ q.home = s.loop.id := h.id_loop ▸ flat
      simp [Loop.ownPromise?, Value.asPromise?, Loop.owns, other]
    | _ => rfl
  unfold Machine.resolveLocked
  rw [if_neg foreign, home]
  unfold Machine.probe
  rw [hl]
  simp only [own, Option.isSome_none, Bool.false_eq_true, if_false]
  cases ho : v.isObjectLike with
  | false =>
    simpa [Loop.asked, ho] using (h.push (.resolving p v)).signal .done
  | true =>
    have noted := (h.push (.resolving p v)).setLoop (l := s.loop.note (.probed v)) h.id_loop releases
    have answer : ∀ n : Machine, n.askThen v (s.loop.bridge.probePlan v) = n.signal .done := by
      intro n
      rw [native]
      cases v <;> first | rfl | exact flat.elim
    have asks : s.loop.asked v = s.loop.note (.probed v) := by rw [Loop.asked, ho, if_pos rfl]
    rw [if_pos rfl, answer, asks]
    exact noted.signal .done

/-- A value that is taken as it is fulfills the promise that has been locked for it. -/
theorem resolveLocked (h : m.Shows k s) (home : p.home = k) (native : s.loop.bridge = .native)
    (flat : v.IsFlat k) : (m.resolveLocked p v).Comes k
      { s with loop := ((s.loop.asked v).settle p.id .fulfilled v).1, control := .signal .done } :=
  (h.resolveLocked_flat home native flat).comes.to
    (Scene.to_of_resume fun _ hn => (hn.settle home .fulfilled v _).comes)

/-- A promise cannot be resolved with itself. -/
theorem resolveLocked_self (h : m.Shows k s) (home : p.home = k) :
    (m.resolveLocked p (.promise p)).Shows k
      { s with loop := (s.loop.settle p.id .rejected cycleError).1, control := .signal .done } := by
  rw [Machine.resolveLocked, if_pos rfl]
  exact h.settle home .rejected cycleError _

/-- A promise that is resolved with another one of the loop adopts it in a job of its own. -/
theorem resolveLocked_promise (h : m.Shows k s) {q : Promise} (home : p.home = k) (home' : q.home = k)
    (ne : q ≠ p) : (m.resolveLocked p (.promise q)).Comes k { s with
      loop := s.loop.enqueue (.adoption p (.promise q) (.function (.method k .then_)))
      control := .signal .done } := by
  subst home
  obtain ⟨releases, hl⟩ := (h.push (.resolving p (.promise q))).loop
  have own : Loop.ownPromise? { s.loop with releases } (.promise q) = some q := by
    have home : q.home = s.loop.id := home'.trans h.id_loop.symm
    simp [Loop.ownPromise?, Value.asPromise?, Loop.owns, home]
  have probed : (m.push (.resolving p (.promise q))).probe p.home (.promise q) =
      (m.push (.resolving p (.promise q))).signal (.value (.function (.method p.home .then_))) := by
    unfold Machine.probe
    rw [hl]
    simp only [own, Option.isSome_some, if_true]
  rw [Machine.resolveLocked, if_neg (fun e => ne (Value.promise.inj e)), probed]
  refine ((h.push (.resolving p (.promise q))).signal _).comes.to (Scene.to_of_resume fun n hn => ?_)
  have queued := hn.modifyLoop
    (f := fun l => l.enqueue (.adoption p (.promise q) (.function (.method p.home .then_))))
    (l := s.loop.enqueue (.adoption p (.promise q) (.function (.method p.home .then_)))) h.id_loop
    fun releases => ⟨releases, rfl⟩
  exact (queued.drop_signal [.promise p] .done).comes

/-- The lock of a promise that is free is taken. -/
theorem withLock (h : m.Shows k s) (hr : s.loop.record p = .ok r) (free : r.alreadyResolved = false)
    (v : Value) (act : Machine → Machine) : ∃ n : Machine, m.withLock k p v act = act n ∧
      n.Shows k { s with loop := locked s.loop p } := by
  obtain ⟨releases, hl⟩ := h.loop
  refine ⟨_, ?_, h.setLoop (l := locked s.loop p) h.id_loop releases⟩
  unfold Machine.withLock
  rw [hl]
  have record : Loop.record { s.loop with releases } p = .ok r := hr
  simp only [lock_of_free record free]
  rfl

theorem resolve (h : m.Shows k s) (hr : s.loop.record p = .ok r) (free : r.alreadyResolved = false)
    (native : s.loop.bridge = .native) (flat : v.IsFlat k) : (m.resolve k p v).Comes k
      { s with loop := s.loop.resolved p .fulfill v, control := .signal .done } := by
  obtain ⟨n, taken, hn⟩ := h.withLock hr free v fun m => m.resolveLocked p v
  rw [Machine.resolve, taken]
  exact hn.resolveLocked ((Loop.record_eq_ok.mp hr).1.trans h.id_loop) native flat

theorem resolve_self (h : m.Shows k s) (hr : s.loop.record p = .ok r) (free : r.alreadyResolved = false) :
    (m.resolve k p (.promise p)).Comes k
      { s with loop := s.loop.resolved p .reject cycleError, control := .signal .done } := by
  obtain ⟨n, taken, hn⟩ := h.withLock hr free (.promise p) fun m => m.resolveLocked p (.promise p)
  rw [Machine.resolve, taken]
  exact (hn.resolveLocked_self ((Loop.record_eq_ok.mp hr).1.trans h.id_loop)).comes

theorem resolve_promise (h : m.Shows k s) {q : Promise} (hr : s.loop.record p = .ok r)
    (free : r.alreadyResolved = false) (home : q.home = k) (ne : q ≠ p) :
    (m.resolve k p (.promise q)).Comes k { s with
      loop := (locked s.loop p).enqueue (.adoption p (.promise q) (.function (.method k .then_)))
      control := .signal .done } := by
  obtain ⟨n, taken, hn⟩ := h.withLock hr free (.promise q) fun m => m.resolveLocked p (.promise q)
  rw [Machine.resolve, taken]
  exact hn.resolveLocked_promise ((Loop.record_eq_ok.mp hr).1.trans h.id_loop) home ne

theorem reject (h : m.Shows k s) (hr : s.loop.record p = .ok r) (free : r.alreadyResolved = false)
    (v : Value) : (m.reject k p v).Comes k
      { s with loop := s.loop.resolved p .reject v, control := .signal .done } := by
  obtain ⟨n, taken, hn⟩ := h.withLock hr free v fun m => m.settle p .rejected v []
  rw [Machine.reject, taken]
  exact (hn.settle ((Loop.record_eq_ok.mp hr).1.trans h.id_loop) .rejected v []).comes

-- ---------------------------------------------------------------------------
-- Registering handlers
-- ---------------------------------------------------------------------------

/-- Handlers are registered on a promise whose rejection has not been reported. -/
theorem attach (h : m.Shows k s) (wf : s.loop.heap.Wf) (hr : s.loop.record p = .ok r)
    (prompt : Loop.handledLate r = false) (f g : Option Value) (unused : List Value) :
    (m.attach k p f g unused).Shows k { s with
      loop := s.loop.chained p f g r, control := .signal (.value (.promise s.loop.newPromise.1)) } := by
  obtain ⟨releases, hl⟩ := h.loop
  have attached := (Loop.attach_eq_ok wf (f := f) (g := g)).mpr ⟨r, hr, rfl⟩
  have same : ∀ d j, Loop.endAttach { s.loop.registered p f g r with releases } d j =
      { (s.loop.registered p f g r).endAttach d j with releases } := fun d j => by
    cases j <;> rfl
  unfold Machine.attach
  rw [hl]
  simp only [Loop.attach_releases, attached, Except.map, prompt, Bool.false_eq_true, if_false, same]
  exact ((h.setLoop (l := s.loop.chained p f g r) (by rw [Loop.id_chained, h.id_loop])
    releases).signal _).drop _

end Shows
end Machine
end PromiseLoop

import PromiseLoop.Proofs.Registrations
import PromiseLoop.Proofs.Scenes.Promises

/-!
# Jobs in a scene

What a drain makes of a scene, job by job.  A reaction whose handler has returned or thrown settles its
derived promise.  The adoption of a promise of the loop registers a fresh one-shot pair on it, and a
reaction that calls one of the pair settles the promise that the pair is for.

## Results

* `Scene.to_of_job`, `Scene.to_of_drained`: a drain takes the next job, or ends.
* `Scene.to_of_reacting`: a reaction after its handler.
* `Scene.to_of_adoption`, `Scene.to_of_resolver`: the two jobs by which one promise follows another.
-/

namespace PromiseLoop

namespace Completion

/-- The signal of a function that has replied. -/
def signal : Completion → Signal
  | returned v => .value v
  | thrown v => .thrown v

end Completion

/-- One of the two functions of the one-shot pair with a number. -/
def Promise.oneShot (p : Promise) (guard : Nat) (side : Side) : Callable :=
  .resolver { promise := p, guard := .flag guard, side }

namespace Loop

/-- The loop after its oldest job has been taken, with what is left in its queue. -/
def took (l : Loop) (j : Job) (rest : List Job) : Loop :=
  { l with microtasks := ⟨rest⟩ }.note (.started j)

theorem dequeue?_of_entries {l : Loop} {j : Job} {rest : List Job}
    (h : l.microtasks.entries = j :: rest) : l.dequeue? = some (j, l.took j rest) := by
  have taken : l.microtasks.dequeue? = some (j, ⟨rest⟩) := (Queue.dequeue?_eq_some_iff _ _ _).mpr h
  rw [Loop.dequeue?, taken]
  rfl

/-- The loop after a promise `p` has asked another one, whose record is `r`, to settle it through a
one-shot pair. -/
def followed (l : Loop) (q p : Promise) (guard : Nat) (r : Record) : Loop :=
  (l.note (.invoked (.function (.method l.id .then_)))).chained q
    (some (.function (p.oneShot guard .fulfill))) (some (.function (p.oneShot guard .reject))) r

/-- The loop after a reaction has called one of the functions of a one-shot pair, and has resolved its
derived promise with the nothing that the function gives. -/
def passedOn (l : Loop) (p : Promise) (guard : Nat) (side : Side) (v : Value) (derived : Promise) :
    Loop :=
  ((l.note (.invoked (.function (p.oneShot guard side)))).settledAs p side v).resolved derived .fulfill
    .undefined

end Loop

namespace Machine.Shows

variable {m : Machine} {k : LoopId} {s : Scene}

theorem invoke (h : m.Shows k s) (f : Callable) (this : Value) (arguments : List Value) :
    (m.invoke k (.function f) this arguments).Shows k
      { s with loop := s.loop.note (.invoked (.function f)), control := .call f this arguments } := by
  have noted := h.modifyLoop (f := fun l => l.note (.invoked (.function f)))
    (l := s.loop.note (.invoked (.function f))) h.id_loop fun releases => ⟨releases, rfl⟩
  unfold Machine.invoke
  dsimp only
  split
  · cases ‹Value.function f = _›
  · exact noted.willCall f this arguments

/-- The first call of a one-shot pair settles the promise that the pair is for, and gives nothing. -/
theorem enter_oneShot {p : Promise} {guard : Nat} (h : m.Shows k s) (home : p.home = k)
    (unfired : s.pairs[guard]? = some { promise := p }) (side : Side) (this v : Value) :
    ∃ n : Machine, (m.enter (p.oneShot guard side) this [v] = match side with
        | .fulfill => n.resolveLocked p v
        | .reject => n.settle p .rejected v []) ∧
      n.Shows k { s with
        pairs := s.pairs.modify guard fun pair => { pair with fired := true }
        stack := .give .undefined [this] :: s.stack
        control := .signal .done } := by
  obtain ⟨releases, hl⟩ := h.loop
  let m' : Machine :=
    { m with pairs := m.pairs.modify guard fun pair => { pair with fired := true } }
  have claimed : m.claim { promise := p, guard := .flag guard, side } = .ok (true, m') := by
    have first : m.pairs[guard]? = some { promise := p } := by rw [h.pairs]; exact unfired
    simp only [Machine.claim, first]
    rfl
  have shown : m'.Shows k { s with pairs := s.pairs.modify guard fun pair => { pair with fired := true } } :=
    ⟨h.placed, h.named, h.loop, congrArg (List.modify · guard _) h.pairs, h.vars, h.names, h.stack, h.control⟩
  refine ⟨_, ?_, ((shown.push (.give .undefined [this])).drop_signal [] (.value v)).signal .done⟩
  show m.enterResolver { promise := p, guard := .flag guard, side } this [v] = _
  unfold Machine.enterResolver
  simp only [home, hl, Option.isNone_some, Bool.false_eq_true, if_false, claimed]
  cases side <;> rfl

/-- The adoption of a thenable calls its `then` with a fresh one-shot pair. -/
theorem startAdoption (h : m.Shows k s) (p : Promise) (thenable : Value) (f : Callable) :
    (m.startAdoption k p thenable (.function f)).Shows k { s with
      loop := s.loop.note (.invoked (.function f))
      pairs := s.pairs ++ [{ promise := p }]
      stack := .adopting p (.function (p.oneShot s.pairs.length .reject)) (.function f) :: s.stack
      control := .call f thenable [.function (p.oneShot s.pairs.length .fulfill),
        .function (p.oneShot s.pairs.length .reject)] } := by
  obtain ⟨guard, paired⟩ := h.newPair p
  have begun := (paired.push (.adopting p (.function (p.oneShot s.pairs.length .reject))
    (.function f))).invoke f thenable
    [.function (p.oneShot s.pairs.length .fulfill), .function (p.oneShot s.pairs.length .reject)]
  unfold Machine.startAdoption
  dsimp only
  rw [guard]
  exact begun

/-- A drain that goes on looks for the oldest job. -/
theorem resume_draining {t : Signal} (h : m.Shows k s) (calm : ∀ f, t ≠ .fault f) :
    ∃ n : Machine, m.resume (.draining k) t = n.nextMicrotask k ∧ n.Shows k s := by
  refine ⟨_, ?_, h.drop t.held⟩
  show m.resumeDraining k t = _
  unfold Machine.resumeDraining
  cases t with
  | fault f => exact absurd rfl (calm f)
  | _ => rfl

/-- A drain that finds a job takes it. -/
theorem resumeDraining {j : Job} {l' : Loop} {t : Signal} (h : m.Shows k s) (calm : ∀ f, t ≠ .fault f)
    (next : s.loop.dequeue? = some (j, l')) : ∃ n : Machine, m.resume (.draining k) t = n.startJob k j ∧
      n.Shows k { s with loop := l', stack := .draining k :: s.stack } := by
  obtain ⟨n, resumed, shown⟩ := h.resume_draining calm
  obtain ⟨releases, hl⟩ := shown.loop
  have id : l'.id = k := (Loop.id_dequeue? next).trans h.id_loop
  rw [resumed, Machine.nextMicrotask, hl, Option.bind_some, Loop.dequeue?_releases next]
  exact ⟨_, rfl, (shown.setLoop id releases).push (.draining k)⟩

/-- A drain that finds no job ends. -/
theorem endDraining {t : Signal} (h : m.Shows k s) (calm : ∀ f, t ≠ .fault f)
    (empty : s.loop.microtasks.entries = []) : (m.resume (.draining k) t).Shows k
      { s with loop := s.loop.stopDraining.note .drained, control := .signal .done } := by
  obtain ⟨n, resumed, shown⟩ := h.resume_draining calm
  obtain ⟨releases, hl⟩ := shown.loop
  have none : Loop.dequeue? { s.loop with releases } = none := by
    rw [Loop.dequeue?, Option.map_eq_none_iff, Queue.dequeue?_eq_none_iff, Queue.isEmpty]
    simp [empty]
  have ended := shown.modifyLoop (f := fun l => l.stopDraining.note .drained)
    (l := s.loop.stopDraining.note .drained) h.id_loop fun releases => ⟨releases, rfl⟩
  rw [resumed, Machine.nextMicrotask, hl, Option.bind_some, none]
  exact ended.signal .done

end Machine.Shows

namespace Scene

variable {k : LoopId} {s' : Scene} {l l' : Loop} {pairs : List Pair} {vars : Variables}
  {names : List (String × LoopId)} {stack : List Frame} {t : Signal}

-- ---------------------------------------------------------------------------
-- Drains
-- ---------------------------------------------------------------------------

/-- A drain that goes on runs the oldest job. -/
theorem to_of_job {j : Job} (calm : ∀ f, t ≠ .fault f) (next : l.dequeue? = some (j, l'))
    (h : ∀ m : Machine, m.Shows k ⟨l', pairs, vars, names, .draining k :: stack, .signal .done⟩ →
      (m.startJob k j).Comes k s') :
    To k ⟨l, pairs, vars, names, .draining k :: stack, .signal t⟩ s' :=
  to_of_resume fun m hm => by
    obtain ⟨n, resumed, hn⟩ := hm.resumeDraining calm next
    rw [resumed]
    exact h n hn

/-- A drain that finds no job ends. -/
theorem to_of_drained (calm : ∀ f, t ≠ .fault f) (empty : l.microtasks.entries = []) :
    To k ⟨l, pairs, vars, names, .draining k :: stack, .signal t⟩
      ⟨l.stopDraining.note .drained, pairs, vars, names, stack, .signal .done⟩ :=
  to_of_resume fun _ hm => (hm.endDraining calm empty).comes

theorem to_of_hold (vs : List Value) : To k ⟨l, pairs, vars, names, .hold vs :: stack, .signal t⟩
    ⟨l, pairs, vars, names, stack, .signal t⟩ :=
  to_of_resume fun _ hm => (hm.drop_signal vs t).comes

-- ---------------------------------------------------------------------------
-- Reactions
-- ---------------------------------------------------------------------------

/-- A reaction whose handler has replied settles the derived promise, if nobody has. -/
theorem to_of_reacting {handler : Value} {derived : Promise} {r : Record} (c : Completion)
    (native : l.bridge = .native) (hr : l.record derived = .ok r) (free : r.alreadyResolved = false)
    (flat : ∀ v, c = .returned v → v.IsFlat k) :
    To k ⟨l, pairs, vars, names, .reacting handler derived :: stack, .signal c.signal⟩
      ⟨l.resolved derived c.side c.value, pairs, vars, names, stack, .signal .done⟩ :=
  to_of_resume fun m hm => by
    have home : derived.home = k := (Loop.record_eq_ok.mp hr).1.trans hm.id_loop
    have held := hm.push (.hold [handler, .promise derived])
    cases c with
    | returned v =>
      have settled := held.resolve hr free native (flat v rfl)
      rw [← home] at settled ⊢
      exact settled.to (to_of_hold _)
    | thrown v =>
      have settled := held.reject hr free v
      rw [← home] at settled ⊢
      exact settled.to (to_of_hold _)

-- ---------------------------------------------------------------------------
-- Following another promise
-- ---------------------------------------------------------------------------

/-- The intrinsic `then`, called on a promise of the loop with two functions, registers both. -/
theorem to_of_then {q : Promise} {r : Record} (native : l.bridge = .native) (wf : l.heap.Wf)
    (hr : l.record q = .ok r) (prompt : Loop.handledLate r = false) (f g : Callable) :
    To k ⟨l, pairs, vars, names, stack,
        .call (.method k .then_) (.promise q) [.function f, .function g]⟩
      ⟨l.chained q (some (.function f)) (some (.function g)) r, pairs, vars, names, stack,
        .signal (.value (.promise l.newPromise.1))⟩ :=
  to_of_call fun m hm => by
    obtain ⟨releases, hl⟩ := hm.loop
    have own : Loop.ownPromise? { l with releases } (.promise q) = some q := by
      have home : q.home = l.id := (Loop.record_eq_ok.mp hr).1
      simp [Loop.ownPromise?, Value.asPromise?, Loop.owns, home]
    have attached := (hm.push (.surface [.promise q])).attach wf hr prompt (some (.function f))
      (some (.function g)) []
    have entered : m.enter (.method k .then_) (.promise q) [.function f, .function g] =
        (m.push (.surface [.promise q])).attach k q (some (.function f)) (some (.function g)) [] := by
      show m.thenMethod k _ _ [] = _
      unfold Machine.thenMethod
      rw [hl]
      simp only [own]
      simp only [native]
      rfl
    rw [entered]
    exact attached.comes.to (to_of_resume fun n hn => (hn.drop_signal _ _).comes)

/-- What the intrinsic `then` gives to an adoption is let go. -/
theorem to_of_adopting {p : Promise} {resolver thenFunction v : Value} :
    To k ⟨l, pairs, vars, names, .adopting p resolver thenFunction :: stack, .signal (.value v)⟩
      ⟨l, pairs, vars, names, stack, .signal .done⟩ :=
  to_of_resume fun _ hm =>
    ((hm.push (.discard [resolver, thenFunction, .promise p])).signal (.value v)).comes.to
      (to_of_resume fun _ hn => (hn.drop_signal _ .done).comes)

/-- The adoption of a promise of the loop registers a fresh one-shot pair on it. -/
theorem to_of_adoption {p q : Promise} {r : Record} (native : l.bridge = .native)
    (calm : ∀ f, t ≠ .fault f)
    (next : l.dequeue? = some (.adoption p (.promise q) (.function (.method k .then_)), l'))
    (wf : l'.heap.Wf) (hr : l'.record q = .ok r) (prompt : Loop.handledLate r = false) :
    To k ⟨l, pairs, vars, names, .draining k :: stack, .signal t⟩
      ⟨l'.followed q p pairs.length r, pairs ++ [{ promise := p }], vars, names, .draining k :: stack,
        .signal .done⟩ :=
  to_of_job calm next fun m hm => by
    have home : l'.id = k := hm.id_loop
    have bridge : l'.bridge = .native := by
      obtain ⟨⟨j, rest⟩, -, heq⟩ := Option.map_eq_some_iff.mp next
      rw [← (Prod.mk.inj heq).2]
      exact native
    rw [Loop.followed, home]
    exact (hm.startAdoption p (.promise q) (.method k .then_)).comes.to (.trans
      (to_of_then (l := l'.note (.invoked (.function (.method k .then_)))) bridge wf hr prompt _ _)
      to_of_adopting)

/-- The first call of a one-shot pair settles the promise that the pair is for. -/
theorem to_of_oneShot {p : Promise} {guard : Nat} {side : Side} {v : Value} (home : p.home = k)
    (native : l.bridge = .native) (unfired : pairs[guard]? = some { promise := p })
    (flat : side = .fulfill → v.IsFlat k) :
    To k ⟨l, pairs, vars, names, stack, .call (p.oneShot guard side) .undefined [v]⟩
      ⟨l.settledAs p side v, pairs.modify guard (fun pair => { pair with fired := true }), vars,
        names, stack, .signal (.value .undefined)⟩ :=
  to_of_call fun m hm => by
    obtain ⟨n, entered, given⟩ := hm.enter_oneShot home unfired side .undefined v
    rw [entered]
    cases side with
    | fulfill =>
      exact (given.resolveLocked home native (flat rfl)).to (to_of_resume fun n hn =>
        (hn.drop_signal [.undefined] (.value .undefined)).comes)
    | reject =>
      exact (given.settle home .rejected v []).comes.to (to_of_resume fun n hn =>
        (hn.drop_signal [.undefined] (.value .undefined)).comes)

/-- A reaction that calls one of the functions of a one-shot pair for the first time settles the promise
that the pair is for. -/
theorem to_of_passing {p derived : Promise} {guard : Nat} {side : Side} {v : Value} {r : Record}
    (home : p.home = k) (native : l'.bridge = .native) (calm : ∀ f, t ≠ .fault f)
    (next : l.dequeue? = some
      (.reaction ⟨side, some (.function (p.oneShot guard side)), derived⟩ v, l'))
    (unfired : pairs[guard]? = some { promise := p }) (flat : side = .fulfill → v.IsFlat k)
    (hr : ((l'.note (.invoked (.function (p.oneShot guard side)))).settledAs p side v).record derived = .ok r)
    (free : r.alreadyResolved = false) :
    To k ⟨l, pairs, vars, names, .draining k :: stack, .signal t⟩
      ⟨l'.passedOn p guard side v derived, pairs.modify guard (fun pair => { pair with fired := true }),
        vars, names, .draining k :: stack, .signal .done⟩ :=
  to_of_job calm next fun m hm => by
    have begun := (hm.push (.reacting (.function (p.oneShot guard side)) derived)).invoke
      (p.oneShot guard side) .undefined [v]
    have bridge : ((l'.note (.invoked (.function (p.oneShot guard side)))).settledAs p side v).bridge =
        .native := by
      rw [Loop.bridge_settledAs]
      exact native
    exact begun.comes.to (.trans
      (to_of_oneShot (l := l'.note (.invoked (.function (p.oneShot guard side)))) home native unfired flat)
      (to_of_reacting (.returned .undefined) bridge hr free fun v hv => by cases hv; trivial))

end Scene
end PromiseLoop

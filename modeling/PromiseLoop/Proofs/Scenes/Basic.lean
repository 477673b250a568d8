import PromiseLoop.Proofs.Activities

/-!
# Scenes

While a loop works on its own and no script of the host runs, few parts of a machine matter: the loop,
the one-shot pairs, the variables, the names, and what goes on.  A *scene* is these parts.  Values that
are let go on the way only add to the releases of loops, so a machine shows a scene up to releases, and
letting go does not change the scene.  Neither does the removal of another loop.  What a machine does is
then calculated scene by scene.

## Results

* `Machine.Shows.drop`: letting values go does not change the scene.
* `Scene.to_of_resume`, `Scene.to_of_call`: how a step begins.
* `Scene.To.trans`, `Machine.Comes.to`: how steps follow each other.
-/

namespace PromiseLoop

/-- What matters of a machine while one of its loops works on its own. -/
structure Scene where
  loop : Loop
  pairs : List Pair
  vars : Variables
  names : List (String × LoopId)
  stack : List Frame
  control : Control

namespace Machine

variable {m : Machine} {k : LoopId} {s s' : Scene}

/-- A machine shows a scene: its parts are those of the scene, up to releases of the loop, which has a
name. -/
structure Shows (m : Machine) (k : LoopId) (s : Scene) : Prop where
  placed : m.Placed
  named : (m.names.any fun e => e.2 = k) = true
  loop : ∃ releases, m.loop? k = some { s.loop with releases }
  pairs : m.pairs = s.pairs
  vars : m.vars = s.vars
  names : m.names = s.names
  stack : m.stack = s.stack
  control : m.control = s.control

/-- A machine comes to show a scene after some steps. -/
def Comes (m : Machine) (k : LoopId) (s : Scene) : Prop := ∃ n, (run n m).Shows k s

namespace Shows

theorem comes (h : m.Shows k s) : m.Comes k s := ⟨0, h⟩

theorem id_loop (h : m.Shows k s) : s.loop.id = k := by
  obtain ⟨releases, hl⟩ := h.loop
  have placed := h.placed k _ hl
  exact placed

theorem push (h : m.Shows k s) (f : Frame) : (m.push f).Shows k { s with stack := f :: s.stack } :=
  ⟨h.placed, h.named, h.loop, h.pairs, h.vars, h.names, congrArg (f :: ·) h.stack, h.control⟩

theorem signal (h : m.Shows k s) (t : Signal) : (m.signal t).Shows k { s with control := .signal t } :=
  ⟨h.placed, h.named, h.loop, h.pairs, h.vars, h.names, h.stack, rfl⟩

theorem willCall (h : m.Shows k s) (f : Callable) (this : Value) (arguments : List Value) :
    (m.willCall f this arguments).Shows k { s with control := .call f this arguments } :=
  ⟨h.placed, h.named, h.loop, h.pairs, h.vars, h.names, h.stack, rfl⟩

/-- The control of the machine does not matter to an operation that is about to replace it. -/
theorem spend (h : m.Shows k s) {c : Control} : ({ m with control := c } : Machine).Shows k
    { s with control := c } :=
  ⟨h.placed, h.named, h.loop, h.pairs, h.vars, h.names, h.stack, rfl⟩

theorem newPair (h : m.Shows k s) (p : Promise) :
    (m.newPair p).1 = .flag s.pairs.length ∧
      (m.newPair p).2.Shows k { s with pairs := s.pairs ++ [{ promise := p }] } :=
  ⟨congrArg (fun ps : List Pair => Guard.flag ps.length) h.pairs,
    ⟨h.placed, h.named, h.loop, congrArg (· ++ [({ promise := p } : Pair)]) h.pairs, h.vars, h.names,
      h.stack, h.control⟩⟩

/-- Letting values go does not change the scene. -/
theorem drop (h : m.Shows k s) (vs : List Value) : (Machine.drop vs m).Shows k s := by
  have aside : Aside k m (Machine.drop vs m) := aside_drop vs m
  refine ⟨aside.placed h.placed, (names_drop vs m).symm ▸ h.named, ?_, (pairs_drop vs m).trans h.pairs,
    (vars_drop vs m).trans h.vars, (names_drop vs m).trans h.names, (stack_drop vs m).trans h.stack,
    (control_drop vs m).trans h.control⟩
  obtain ⟨releases, hl⟩ := h.loop
  obtain ⟨released, look⟩ := loop?_drop_of vs hl
  exact ⟨releases ++ released, look⟩

theorem drop_signal (h : m.Shows k s) (vs : List Value) (t : Signal) :
    (Machine.drop vs (m.signal t)).Shows k { s with control := .signal t } :=
  (h.signal t).drop vs

/-- The loop is replaced by what an operation has made of it. -/
theorem setLoop (h : m.Shows k s) {l : Loop} (id : l.id = k) (releases : List PromiseId) :
    (m.setLoop { l with releases }).Shows k { s with loop := l } := by
  obtain ⟨old, hl⟩ := h.loop
  subst id
  have found : m.loop? ({ l with releases } : Loop).id = some { s.loop with releases := old } := hl
  refine ⟨fun j x hx => ?_, h.named, ⟨releases, loop?_setLoop found⟩, h.pairs, h.vars, h.names, h.stack,
    h.control⟩
  by_cases hj : j = l.id
  · subst hj
    rw [loop?_setLoop found] at hx
    obtain rfl := Option.some.inj hx
    rfl
  · have other := loop?_modifyLoop_of_ne m (Ne.symm hj) fun _ => ({ l with releases } : Loop)
    exact h.placed j x (other.symm.trans hx)

theorem modifyLoop (h : m.Shows k s) {f : Loop → Loop} {l : Loop} (id : l.id = k)
    (does : ∀ releases, ∃ releases', f { s.loop with releases } = { l with releases := releases' }) :
    (m.modifyLoop k f).Shows k { s with loop := l } := by
  obtain ⟨old, hl⟩ := h.loop
  obtain ⟨releases, hf⟩ := does old
  have hid : (f { s.loop with releases := old }).id = k := by rw [hf]; exact id
  rw [modifyLoop_of_found f hl hid, hf]
  exact h.setLoop id releases

/-- The removal of a loop that nothing keeps alive does not change the scene. -/
theorem removeLoop (h : m.Shows k s) {l : Loop} (ho : m.orphan? = some l) : (m.removeLoop l).Shows k s := by
  have ne : k ≠ l.id := fun e => by
    have unkept := (orphan?_eq_some h.placed ho).2
    rw [← e, keepsLoop, h.named] at unkept
    simp at unkept
  have cut : ({ m with loops := m.loops.modify l.id.number fun _ => none } : Machine).Shows k s := by
    refine ⟨fun j x hx => ?_, h.named, ?_, h.pairs, h.vars, h.names, h.stack, h.control⟩
    · rw [loop?_modify_none] at hx
      split at hx
      · cases hx
      · exact h.placed j x hx
    · rw [loop?_modify_none, if_neg ne]
      exact h.loop
  exact cut.drop l.held

/-- After finitely many removals there is nothing left to remove, and nothing else has happened. -/
theorem exists_cleared (h : m.Shows k s) : ∃ n, (run n m).Shows k s ∧ (run n m).orphan? = none ∧
    ∀ i ≤ n, (run i m).stack = m.stack := by
  induction hn : m.population using Nat.strongRecOn generalizing m with
  | ind N ih =>
    cases ho : m.orphan? with
    | none => exact ⟨0, h, ho, fun i hi => by rw [Nat.le_zero.mp hi]; rfl⟩
    | some l =>
      have step : m.step = m.removeLoop l := by rw [Machine.step, ho]
      obtain ⟨n, shown, settled, still⟩ :=
        ih _ (hn ▸ population_removeLoop h.placed ho) (h.removeLoop ho) rfl
      have same : (m.removeLoop l).stack = m.stack := (h.removeLoop ho).stack.trans h.stack.symm
      refine ⟨n + 1, by rwa [run_succ, step], by rwa [run_succ, step], fun i hi => ?_⟩
      cases i with
      | zero => rfl
      | succ i => rw [run_succ, step, still i (Nat.le_of_succ_le_succ hi), same]

theorem exists_settled (h : m.Shows k s) : ∃ n, (run n m).Shows k s ∧ (run n m).orphan? = none := by
  obtain ⟨n, shown, settled, -⟩ := h.exists_cleared
  exact ⟨n, shown, settled⟩

end Shows
end Machine

-- ---------------------------------------------------------------------------
-- From scene to scene
-- ---------------------------------------------------------------------------

namespace Scene

variable {k : LoopId} {s s' s'' : Scene}

/-- Every machine that shows a scene comes to show another one. -/
def To (k : LoopId) (s s' : Scene) : Prop := ∀ m : Machine, m.Shows k s → m.Comes k s'

theorem To.refl (s : Scene) : To k s s := fun _ h => h.comes

end Scene

theorem Machine.Comes.to {m : Machine} {k : LoopId} {s s' : Scene} (h : m.Comes k s)
    (next : Scene.To k s s') : m.Comes k s' := by
  obtain ⟨i, hi⟩ := h
  obtain ⟨j, hj⟩ := next _ hi
  exact ⟨i + j, by rwa [Machine.run_add]⟩

namespace Scene

variable {k : LoopId} {s s' s'' : Scene}

theorem To.trans (h : To k s s') (h' : To k s' s'') : To k s s'' := fun m hm => (h m hm).to h'

theorem to_of_step (h : ∀ m : Machine, m.Shows k s → m.orphan? = none → m.step.Comes k s') :
    To k s s' := fun m hm => by
  obtain ⟨i, shown, settled⟩ := hm.exists_settled
  obtain ⟨n, hn⟩ := h _ shown settled
  exact ⟨i + (n + 1), by rwa [Machine.run_add, Machine.run_succ]⟩

section

variable {loop : Loop} {pairs : List Pair} {vars : Variables} {names : List (String × LoopId)}
  {stack : List Frame}

/-- A step that resumes a frame takes the frame off first. -/
theorem to_of_resume {f : Frame} {t : Signal}
    (h : ∀ m : Machine, m.Shows k ⟨loop, pairs, vars, names, stack, .signal .done⟩ →
      (m.resume f t).Comes k s') : To k ⟨loop, pairs, vars, names, f :: stack, .signal t⟩ s' :=
  to_of_step fun m hm settled => by
    rw [Machine.step_of_signal settled hm.control hm.stack]
    exact h _ ⟨hm.placed, hm.named, hm.loop, hm.pairs, hm.vars, hm.names, rfl, rfl⟩

/-- A step that calls a function enters it. -/
theorem to_of_call {f : Callable} {this : Value} {arguments : List Value}
    (h : ∀ m : Machine, m.Shows k ⟨loop, pairs, vars, names, stack, .signal .done⟩ →
      (m.enter f this arguments).Comes k s') :
    To k ⟨loop, pairs, vars, names, stack, .call f this arguments⟩ s' :=
  to_of_step fun m hm settled => by
    rw [Machine.step, settled, hm.control]
    exact h _ (hm.signal .done)

end

end Scene
end PromiseLoop

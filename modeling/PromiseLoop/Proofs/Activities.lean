import PromiseLoop.Proofs.Handles.Runs
import PromiseLoop.Proofs.Views.Calm

/-!
# Activities

Whatever a machine has begun runs above the frames that were there before, and ends when it comes back
to them.  This module says what can be counted on in the meantime: loops that nothing keeps alive are
removed first, and then the activity goes on; and a tracker that leaves its loop alone is heard out
until the frame that told it something is resumed.

## Results

* `exists_run_settled`: after finitely many removals no loop is left to be removed.
* `stays_run`: a loop lives as long as an activity of it goes on.
* `run_keeps`: what steps keep while an activity goes on, runs keep.
* `Yields.told`, `AlwaysYields.told`: a tracker that has been told something returns, and its loop is as
  it was.
-/

namespace PromiseLoop

open Relation

namespace Machine

variable {m m' : Machine} {k : LoopId}

-- ---------------------------------------------------------------------------
-- Single steps
-- ---------------------------------------------------------------------------

theorem run_succ' (n : Nat) (m : Machine) : run (n + 1) m = (run n m).step := by
  rw [run_add, run_succ]
  rfl

theorem step_of_collect {s : Sweep} (ho : m.orphan? = none) (hc : m.control = .collect k s) :
    m.step = (m.signal .done).collectNext k s := by
  unfold step
  rw [ho, hc]

theorem step_of_signal {t : Signal} {f : Frame} {rest : List Frame} (ho : m.orphan? = none)
    (hc : m.control = .signal t) (hs : m.stack = f :: rest) :
    m.step = { m with stack := rest, control := .signal .done }.resume f t := by
  unfold step
  rw [ho, hc, hs]

theorem loop?_drop_of (vs : List Value) {l : Loop} (hl : m.loop? k = some l) :
    ∃ released, (drop vs m).loop? k = some { l with releases := l.releases ++ released } := by
  obtain ⟨released, h⟩ := exists_loop?_drop vs m k
  exact ⟨released, by rw [h, hl]; rfl⟩

-- ---------------------------------------------------------------------------
-- Removing loops
-- ---------------------------------------------------------------------------

/-- The number of loops that are alive. -/
def population (m : Machine) : Nat := (m.loops.map Option.isSome).count true

theorem map_isSome_modify (loops : List (Option Loop)) (n : Nat) (f : Loop → Loop) :
    (loops.modify n (Option.map f)).map Option.isSome = loops.map Option.isSome := by
  refine List.ext_getElem? fun i => ?_
  simp only [List.getElem?_map, List.getElem?_modify]
  split
  · cases loops[i]? with
    | none => rfl
    | some x => cases x <;> rfl
  · simp

theorem population_drop (vs : List Value) (m : Machine) : (drop vs m).population = m.population := by
  apply drop_induction (P := fun m' => m'.population = m.population)
  · intro m' p h
    rw [← h, population, population, modifyLoop, map_isSome_modify]
  · intro m' o ps m'' h ht
    rw [← h, eq_of_takeObject? ht]
    rfl
  · rfl

theorem count_modify_none {loops : List (Option Loop)} {n : Nat} {l : Loop}
    (hn : loops[n]? = some (some l)) :
    ((loops.modify n fun _ => none).map Option.isSome).count true + 1 =
      (loops.map Option.isSome).count true := by
  induction loops generalizing n with
  | nil => simp at hn
  | cons x rest ih =>
    cases n with
    | zero =>
      obtain rfl : x = some l := by simpa using hn
      simp
    | succ n =>
      have := ih (n := n) (by simpa using hn)
      cases x <;> simp [← this]

theorem population_removeLoop {l : Loop} (hp : m.Placed) (ho : m.orphan? = some l) :
    (m.removeLoop l).population < m.population := by
  have found := (orphan?_eq_some hp ho).1
  have place : m.loops[l.id.number]? = some (some l) := by
    unfold loop? at found
    cases hn : m.loops[l.id.number]? with
    | none => rw [hn] at found; cases found
    | some x => rw [hn] at found; exact congrArg some found
  rw [removeLoop, population_drop]
  exact Nat.lt_of_succ_le (Nat.le_of_eq (count_modify_none place))

/-- Removing a loop changes loops and objects only. -/
theorem exists_removeLoop_eq (m : Machine) (l : Loop) :
    ∃ loops objects, m.removeLoop l = { m with loops := loops, objects := objects } := by
  obtain ⟨loops, objects, h⟩ :=
    exists_drop_eq l.held { m with loops := m.loops.modify l.id.number fun _ => none }
  exact ⟨loops, objects, h⟩

/-- The removal of another loop happens outside of a loop. -/
theorem aside_removeLoop {l : Loop} (hp : m.Placed) (hne : k ≠ l.id) : Aside k m (m.removeLoop l) := by
  have cut : Aside k m { m with loops := m.loops.modify l.id.number fun _ => none } := by
    have look (j : LoopId) := loop?_modify_none m l.id j
    refine ⟨fun _ j x hx => ?_, Nat.le_of_eq (List.length_modify ..).symm, fun x hx => ⟨x, ?_, .refl⟩,
      fun hg => ?_, rfl, rfl⟩
    · rw [look] at hx
      split at hx
      · cases hx
      · exact hp j x hx
    · rw [look, if_neg hne, hx]
    · rw [look, if_neg hne, hg]
  exact cut.trans (aside_drop l.held _)

/-- A step removes a loop and does nothing else, or there is nothing to remove. -/
theorem step_removes_or (m : Machine) (hp : m.Placed) (kept : m.keepsLoop k = true) :
    m.step.stack = m.stack ∧ m.step.control = m.control ∧ Aside k m m.step ∨ m.orphan? = none := by
  cases ho : m.orphan? with
  | none => exact .inr rfl
  | some l =>
    have hne : k ≠ l.id := fun e => by
      have := (orphan?_eq_some hp ho).2
      rw [← e, kept] at this
      cases this
    have step : m.step = m.removeLoop l := by rw [Machine.step, ho]
    obtain ⟨loops, objects, removed⟩ := exists_removeLoop_eq m l
    exact .inl ⟨by rw [step, removed], by rw [step, removed], step ▸ aside_removeLoop hp hne⟩

/-- A step that removes no loop leaves every loop alive. -/
theorem stays_of_settled (hp : m.Placed) (ho : m.orphan? = none) {l : Loop} (hl : m.loop? k = some l) :
    ∃ l', m.step.loop? k = some l' := by
  have stays {R : View → View → Prop} {m m' : Machine} (h : Relates R k m m') (hp : m.Placed)
      (hl : m.loop? k = some l) (idle : m.sweepOf k = none) : ∃ l', m'.loop? k = some l' := by
    obtain ⟨v', hv', -⟩ := h.stays hp _ (sees_of_loop? hl) idle
    exact ⟨v'.loop, (sees_eq_some.mp hv').1⟩
  unfold Machine.step
  rw [ho]
  dsimp only
  split
  · exact ⟨l, hl⟩
  · rename_i f this arguments hc
    exact stays (goes_enter (m.signal .done) f this arguments) hp hl rfl
  · rename_i id s hc
    by_cases hk : k = id
    · subst hk
      obtain ⟨v', hv', -⟩ := sweeps_collectNext (m := m.signal .done) hp rfl hl s
      exact ⟨v'.loop, (sees_eq_some.mp hv').1⟩
    · exact stays (quiet_collectNext_of_ne (m.signal .done) s hk) hp hl rfl
  · rename_i s hc
    split
    · exact ⟨l, hl⟩
    · rename_i f rest hs
      let popped : Machine := { m with stack := rest, control := .signal .done }
      cases hf : f.tells k with
      | true => exact stays (resumes_resume popped f s rfl hf) hp hl rfl
      | false =>
        by_cases hd : f = .draining k
        · subst hd
          exact stays (drains_resumeDraining popped s rfl) hp hl rfl
        · exact stays (goes_resume popped f s rfl hf hd) hp hl rfl

/-- A loop that a name or a begun activity keeps alive is there after the next step. -/
theorem stays_of_kept (hp : m.Placed) (kept : m.keepsLoop k = true) {l : Loop} (hl : m.loop? k = some l) :
    ∃ l', m.step.loop? k = some l' := by
  rcases step_removes_or m hp kept with ⟨-, -, aside⟩ | settled
  · obtain ⟨l', hl', -⟩ := aside.stays l hl
    exact ⟨l', hl'⟩
  · exact stays_of_settled hp settled hl

theorem keepsLoop_of_suffix {f : Frame} {base : List Frame} (hf : f.loop? = some k)
    (h : f :: base <:+ m.stack) : m.keepsLoop k = true := by
  have mem : f ∈ m.stack := h.subset (List.mem_cons_self ..)
  simp only [keepsLoop, Bool.or_eq_true, List.any_eq_true, decide_eq_true_eq]
  exact .inr ⟨f, mem, hf⟩

theorem keepsLoop_of_stack {f : Frame} {fs : List Frame} (hs : m.stack = f :: fs)
    (hf : f.loop? = some k) : m.keepsLoop k = true :=
  keepsLoop_of_suffix hf (show f :: fs <:+ m.stack from hs ▸ List.suffix_rfl)

/-- Taking steps is a run. -/
theorem runs_run (n : Nat) (m : Machine) : Run m (run n m) := by
  induction n with
  | zero => exact .refl
  | succ n ih => exact run_succ' n m ▸ ih.tail (.step _)

/-- A loop lives as long as an activity of it goes on. -/
theorem stays_run (hm : Reachable m) {f : Frame} {base : List Frame} (hf : f.loop? = some k)
    {n : Nat} (inside : ∀ i < n, f :: base <:+ (run i m).stack) {l : Loop} (hl : m.loop? k = some l) :
    ∃ l', (run n m).loop? k = some l' := by
  induction n with
  | zero => exact ⟨l, hl⟩
  | succ n ih =>
    obtain ⟨l', hl'⟩ := ih fun i hi => inside i (Nat.lt_succ_of_lt hi)
    rw [run_succ']
    exact stays_of_kept (hm.run n).placed (keepsLoop_of_suffix hf (inside n (Nat.lt_succ_self n))) hl'

/-- What a step keeps while an activity goes on is kept by a run in which it goes on. -/
theorem run_keeps {P : Machine → Prop} {fs : List Frame} (hm : Reachable m) (h : P m)
    (keep : ∀ {m : Machine}, Reachable m → P m → fs <:+ m.step.stack → P m.step) {n : Nat}
    (inside : ∀ i ≤ n, fs <:+ (run i m).stack) : P (run n m) := by
  induction n with
  | zero => exact h
  | succ n ih =>
    have before := ih fun i hi => inside i (Nat.le_succ_of_le hi)
    have next := inside (n + 1) (Nat.le_refl _)
    rw [run_succ'] at next ⊢
    exact keep (hm.run n) before next

/-- The stacks of a machine and of its next steps. -/
def stacksOf : Nat → Machine → List (List Frame)
  | 0, m => [m.stack]
  | n + 1, m => m.stack :: stacksOf n m.step

/-- An activity goes on over some steps if its frames are at the bottom of each of these stacks. -/
theorem suffix_of_stacks {fs : List Frame} {n : Nat}
    (h : (stacksOf n m).map (fun s => s.drop (s.length - fs.length)) = List.replicate (n + 1) fs) :
    ∀ i ≤ n, fs <:+ (run i m).stack := by
  induction n generalizing m with
  | zero =>
    intro i hi
    rw [Nat.le_zero.mp hi]
    exact (List.cons.inj h).1 ▸ List.drop_suffix _ _
  | succ n ih =>
    obtain ⟨first, rest⟩ := List.cons.inj h
    intro i hi
    cases i with
    | zero => exact first ▸ List.drop_suffix _ _
    | succ i =>
      rw [run_succ]
      exact ih rest i (Nat.le_of_succ_le_succ hi)

/-- A machine with nothing to remove that does next what another one does, whose loop `k` has only been
touched from outside. -/
structure Settles (k : LoopId) (m m' : Machine) : Prop where
  orphan : m'.orphan? = none
  same : ∃ loops objects, m' = { m with loops := loops, objects := objects }
  aside : Aside k m m'

theorem Settles.control (h : Settles k m m') : m'.control = m.control := by
  obtain ⟨_, _, rfl⟩ := h.same
  rfl

theorem Settles.stack (h : Settles k m m') : m'.stack = m.stack := by
  obtain ⟨_, _, rfl⟩ := h.same
  rfl

/-- After finitely many removals there is nothing left to remove. -/
theorem exists_run_settled (hp : m.Placed) (kept : m.keepsLoop k = true) :
    ∃ n, Settles k m (run n m) ∧ ∀ i ≤ n, (run i m).stack = m.stack := by
  induction hn : m.population using Nat.strongRecOn generalizing m with
  | ind N ih =>
    cases ho : m.orphan? with
    | none =>
      refine ⟨0, ⟨ho, ⟨m.loops, m.objects, rfl⟩, .refl m⟩, fun i hi => ?_⟩
      rw [Nat.le_zero.mp hi]
      rfl
    | some l =>
      have step : m.step = m.removeLoop l := by rw [Machine.step, ho]
      obtain ⟨loops, objects, removed⟩ := exists_removeLoop_eq m l
      have hne : k ≠ l.id := fun e => by
        have := (orphan?_eq_some hp ho).2
        rw [← e, kept] at this
        cases this
      have aside : Aside k m m.step := step ▸ aside_removeLoop hp hne
      have fewer : m.step.population < N := step ▸ hn ▸ population_removeLoop hp ho
      have kept' : m.step.keepsLoop k = true := by rw [step, removed]; exact kept
      obtain ⟨n, hs, hstack⟩ := ih _ fewer (aside.placed hp) kept' rfl
      have stack : m.step.stack = m.stack := by rw [step, removed]
      refine ⟨n + 1, ?_, fun i hi => ?_⟩
      · rw [run_succ]
        refine ⟨hs.orphan, ?_, aside.trans hs.aside⟩
        obtain ⟨loops', objects', heq⟩ := hs.same
        exact ⟨loops', objects', by rw [heq, step, removed]⟩
      · cases i with
        | zero => rfl
        | succ i => rw [run_succ, hstack i (Nat.le_of_succ_le_succ hi), stack]

-- ---------------------------------------------------------------------------
-- Trackers that yield
-- ---------------------------------------------------------------------------

/-- After some steps, what has been begun in a machine still goes on. -/
def Lasts (m : Machine) (n : Nat) : Prop := ∀ i ≤ n, m.stack <:+ (run i m).stack

theorem lasts_of_stack {n : Nat} (h : ∀ i ≤ n, (run i m).stack = m.stack) : m.Lasts n :=
  fun i hi => h i hi ▸ List.suffix_rfl

theorem Lasts.succ {n : Nat} (h : m.Lasts n) (hs : m.stack <:+ (run (n + 1) m).stack) :
    m.Lasts (n + 1) := fun i hi => by
  rcases Nat.lt_or_eq_of_le hi with hi | rfl
  · exact h i (Nat.le_of_lt_succ hi)
  · exact hs

theorem Lasts.append {n i : Nat} (h : m.Lasts n)
    (h' : ∀ j ≤ i, m.stack <:+ (run j (run n m)).stack) : m.Lasts (n + i) := fun j hj => by
  rcases Nat.lt_or_ge n j with hn | hn
  · obtain ⟨d, rfl⟩ := Nat.exists_eq_add_of_le (Nat.le_of_lt hn)
    rw [run_add]
    exact h' d (by omega)
  · exact h j hn

theorem Lasts.add {n i : Nat} (h : m.Lasts n) (hs : (run n m).stack = m.stack)
    (h' : (run n m).Lasts i) : m.Lasts (n + i) :=
  h.append fun j hj => hs ▸ h' j hj

/-- As long as what a machine has begun goes on, the tracker of a loop leaves the loop alone whenever it
is told something, and returns. -/
structure Yields (k : LoopId) (m : Machine) : Prop where
  calm : ∀ n, m.Lasts n → (run n m).IsTelling k → Aside k (run n m) (run (n + 1) m)
  returns : ∀ n, m.Lasts n → ∃ i, ¬ (run (n + i) m).IsTelling k

theorem Yields.later {n : Nat} (h : m.Yields k) (hl : m.Lasts n) (hs : (run n m).stack = m.stack) :
    (run n m).Yields k where
  calm i hi ht := by
    rw [← run_add] at ht ⊢
    rw [← run_add, ← Nat.add_assoc]
    exact h.calm (n + i) (hl.add hs hi) ht
  returns i hi := by
    obtain ⟨j, hj⟩ := h.returns (n + i) (hl.add hs hi)
    exact ⟨j, by rwa [← run_add, ← Nat.add_assoc]⟩

theorem Reachable.above (h : Reachable m) : m.beneath <:+ m.step.stack :=
  have kept := h.balanced ⟨0⟩
  (kept.1.step kept.2).above

/-- A frame that lies beneath what happens next stays until it is resumed. -/
theorem beneath_or_top {f : Frame} {base : List Frame} (h : f :: base <:+ m.stack) :
    f :: base <:+ m.beneath ∨ m.stack = f :: base ∧ ∃ s, m.control = .signal s := by
  unfold beneath
  split
  · rename_i s hs
    obtain ⟨above, heq⟩ := h
    cases above with
    | nil => exact .inr ⟨heq.symm, s, hs⟩
    | cons g above => exact .inl ⟨above, by rw [← heq]; rfl⟩
  · exact .inl h

/-- What has been begun above a frame leaves a loop alone until the frame is resumed, if every step does
that as long as the frame waits. -/
theorem resumed_or_waits (hm : Reachable m) {f : Frame} {base : List Frame} (above : f :: base <:+ m.stack)
    (calm : ∀ i, f :: base <:+ (run i m).beneath → (∀ j ≤ i, base <:+ (run j m).stack) →
      Aside k (run i m) (run (i + 1) m)) (i : Nat) :
    (∃ j s, (run j m).stack = f :: base ∧ (run j m).control = .signal s ∧ Aside k m (run j m) ∧
      ∀ a ≤ j, base <:+ (run a m).stack) ∨
    f :: base <:+ (run i m).beneath ∧ Aside k m (run i m) ∧ ∀ a ≤ i, base <:+ (run a m).stack := by
  induction i with
  | zero =>
    have first : ∀ a ≤ 0, base <:+ (run a m).stack := fun a ha => by
      obtain rfl := Nat.le_zero.mp ha
      exact (List.suffix_cons f base).trans above
    rcases beneath_or_top above with waits | ⟨top, s, signal⟩
    · exact .inr ⟨waits, .refl _, first⟩
    · exact .inl ⟨0, s, top, signal, .refl _, first⟩
  | succ i ih =>
    rcases ih with returned | ⟨waits, aside, lasts⟩
    · exact .inl returned
    · have next : f :: base <:+ (run (i + 1) m).stack := by
        rw [run_succ']
        exact waits.trans (hm.run i).above
      have aside' := aside.trans (calm i waits lasts)
      have lasts' : ∀ a ≤ i + 1, base <:+ (run a m).stack := fun a ha => by
        rcases Nat.lt_or_eq_of_le ha with ha | rfl
        · exact lasts a (Nat.le_of_lt_succ ha)
        · exact (List.suffix_cons f base).trans next
      rcases beneath_or_top next with waits | ⟨top, s, signal⟩
      · exact .inr ⟨waits, aside', lasts'⟩
      · exact .inl ⟨i + 1, s, top, signal, aside', lasts'⟩

/-- A tracker that has been told something returns to the frame that told it, and its loop has only been
touched from outside in the meantime. -/
theorem Yields.told {n : Nat} {f : Frame} (hm : Reachable m) (hy : m.Yields k) (hl : m.Lasts n)
    (hf : f.tells k = true) (above : f :: m.stack <:+ (run n m).stack) :
    ∃ i s, (run (n + i) m).stack = f :: m.stack ∧ (run (n + i) m).control = .signal s ∧
      Aside k (run n m) (run (n + i) m) ∧ m.Lasts (n + i) := by
  obtain ⟨i, quiet⟩ := hy.returns n hl
  have waited := resumed_or_waits (k := k) (hm.run n) above fun i waits lasts => by
    rw [← run_add] at waits ⊢
    rw [← run_add, ← Nat.add_assoc]
    exact hy.calm (n + i) (hl.append lasts) ⟨f, waits.subset (List.mem_cons_self ..), hf⟩
  rcases waited i with ⟨j, s, stack, control, aside, lasts⟩ | ⟨waits, -⟩
  · rw [← run_add] at stack control aside
    exact ⟨j, s, stack, control, aside, hl.append lasts⟩
  · rw [← run_add] at waits
    exact absurd ⟨f, waits.subset (List.mem_cons_self ..), hf⟩ quiet

/-- Throughout a run, the tracker of a loop leaves the loop alone whenever it is told something, and
returns. -/
structure AlwaysYields (k : LoopId) (m : Machine) : Prop where
  calm : ∀ n, (run n m).IsTelling k → Aside k (run n m) (run (n + 1) m)
  returns : ∀ n, ∃ i, ¬ (run (n + i) m).IsTelling k

theorem AlwaysYields.yields (h : m.AlwaysYields k) (n : Nat) : (run n m).Yields k where
  calm i _ telling := by
    rw [← run_add] at telling ⊢
    rw [← run_add, ← Nat.add_assoc]
    exact h.calm (n + i) telling
  returns i _ := by
    obtain ⟨j, quiet⟩ := h.returns (n + i)
    exact ⟨j, by rwa [← run_add, ← Nat.add_assoc]⟩

/-- As `Yields.told`, whatever lies below the frame. -/
theorem AlwaysYields.told {n : Nat} {f : Frame} {base : List Frame} (hm : Reachable m)
    (hy : m.AlwaysYields k) (hf : f.tells k = true) (above : f :: base <:+ (run n m).stack) :
    ∃ i s, (run (n + i) m).stack = f :: base ∧ (run (n + i) m).control = .signal s ∧
      Aside k (run n m) (run (n + i) m) := by
  obtain ⟨i, quiet⟩ := hy.returns n
  have waited := resumed_or_waits (k := k) (hm.run n) above fun i waits _ => by
    rw [← run_add] at waits ⊢
    rw [← run_add, ← Nat.add_assoc]
    exact hy.calm (n + i) ⟨f, waits.subset (List.mem_cons_self ..), hf⟩
  rcases waited i with ⟨j, s, stack, control, aside, -⟩ | ⟨waits, -⟩
  · rw [← run_add] at stack control aside
    exact ⟨j, s, stack, control, aside⟩
  · rw [← run_add] at waits
    exact absurd ⟨f, waits.subset (List.mem_cons_self ..), hf⟩ quiet

theorem isCalm_of_isCalmFor {n : Nat} (h : isCalmFor k n m = true) {i : Nat} (hi : i < n) :
    (run i m).isCalm k = true := by
  induction n generalizing m i with
  | zero => omega
  | succ n ih =>
    rw [isCalmFor, Bool.and_eq_true] at h
    cases i with
    | zero => exact h.1
    | succ i =>
      rw [run_succ]
      exact ih h.2 (by omega)

/-- A tracker yields if it lets values go at most, until the machine is idle. -/
theorem alwaysYields_of_isCalmFor {n : Nat} (calm : isCalmFor k n m = true)
    (idle : (run n m).isIdle = true) (quiet : (run n m).beneath.any (Frame.tells k) = false) :
    m.AlwaysYields k := by
  have still (i : Nat) : ¬ (run (n + i) m).IsTelling k := by
    rw [run_add, run_of_isIdle idle]
    exact fun ⟨f, hf, ht⟩ => absurd ht (by simpa using List.any_eq_false.mp quiet f hf)
  refine ⟨fun i ht => ?_, fun i => ⟨n, by rw [Nat.add_comm]; exact still i⟩⟩
  rcases Nat.lt_or_ge i n with hi | hi
  · rw [run_succ']
    exact aside_step_of_isCalm (isCalm_of_isCalmFor calm hi) ht
  · obtain ⟨d, rfl⟩ := Nat.exists_eq_add_of_le hi
    exact absurd ht (still d)

end Machine
end PromiseLoop

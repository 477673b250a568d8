import PromiseLoop.Proofs.Drains
import PromiseLoop.Proofs.Faults.Handles

/-!
# Faults in runs

A sealed activity stays sealed from step to step, so it never hands a fault to the frame that it began
on.  The jobs that a loop queues on its own account are such activities.  A drain itself passes faults
on, and all that it can pass on are the faults of microtasks supplied by the host.

## Results

* `Sealed.step`, `Sealed.hands_back`: a sealed activity never hands back a fault.
* `HandsBack.descends`: what has been handed back and is only handed on comes to the frames below.
* `sealed_picked`: the jobs of promises and of background work are sealed.
* `exists_host_of_fault`: the fault that a drain hands back is one that a microtask of the host has handed
  to the drain.
-/

namespace PromiseLoop.Machine

variable {m m' : Machine} {base : List Frame} {k : LoopId} {p : Promise}

-- ---------------------------------------------------------------------------
-- Steps of sealed activities
-- ---------------------------------------------------------------------------

/-- The slots of every loop have indices. -/
def Roomy (m : Machine) : Prop := ∀ k l, m.loop? k = some l → l.heap.slots.length < 2 ^ 32

theorem roomy_of_all (h : m.loops.all (fun x => x.all fun l => l.heap.slots.length < 2 ^ 32) = true) :
    m.Roomy := by
  intro k l hl
  unfold loop? at hl
  cases hn : m.loops[k.number]? with
  | none => rw [hn] at hl; cases hl
  | some x =>
    rw [hn] at hl
    obtain rfl : x = some l := hl
    simpa using List.all_eq_true.mp h _ (List.mem_of_getElem? hn)

/-- Whether a machine is about to go on with the uppermost of some frames. -/
def IsBackAt (base : List Frame) (m : Machine) : Prop := m.stack = base ∧ ∃ s, m.control = .signal s

theorem Sealed.under_frames {above : List Frame} (h : Sealed (above ++ base) m)
    (shut : PromiseLoop.leaks false above = false) : Sealed base m := by
  obtain ⟨frames, stack, outer⟩ := h
  refine ⟨frames ++ above, by rw [stack, List.append_assoc], ?_⟩
  rw [leaks_append, outer, shut]

/-- What can be waited for stays sealed as long as it goes on. -/
theorem Sealed.step (h : Sealed base m) (hm : Reachable m) (room : m.Roomy) (busy : ¬ IsBackAt base m) :
    Sealed base m.step := by
  obtain ⟨above, stack, shut⟩ := h
  cases ho : m.orphan? with
  | some l =>
    obtain ⟨loops, objects, removed⟩ := exists_removeLoop_eq m l
    have step : m.step = m.removeLoop l := by rw [Machine.step, ho]
    exact ⟨above, by rw [step, removed]; exact stack, by rw [step, removed]; exact shut⟩
  | none =>
    cases hc : m.control with
    | idle a =>
      have step : m.step = m := by rw [Machine.step, ho, hc]
      rw [step]
      exact ⟨above, stack, shut⟩
    | call f this arguments =>
      have step : m.step = (m.signal .done).enter f this arguments := by rw [Machine.step, ho, hc]
      rw [hc] at shut
      have entered := sealed_enter (m.signal .done) f this arguments
      rw [show (m.signal .done).stack = above ++ base from stack] at entered
      exact step ▸ entered.under_frames shut
    | collect loop s =>
      rw [hc] at shut
      have swept := sealed_collectNext (m.signal .done) loop s
      rw [show (m.signal .done).stack = above ++ base from stack] at swept
      exact step_of_collect ho hc ▸ swept.under_frames shut
    | signal s =>
      cases above with
      | nil => exact absurd ⟨stack, s, hc⟩ busy
      | cons f above =>
        rw [hc] at shut
        have shut : PromiseLoop.leaks (f.leaks s.isFault) above = false := shut
        rw [step_of_signal ho hc stack]
        cases hf : f.leaks s.isFault with
        | false =>
          have resumed := sealed_resume (m := { m with stack := above ++ base, control := .signal .done })
            rfl hf fun handler derived reacts l hl => by
              have held : .promise derived ∈ m.heldByStack :=
                List.mem_flatMap.mpr ⟨f, stack ▸ List.mem_cons_self .., by simp [reacts, Frame.held]⟩
              exact hm.record_of_held hl (room _ l hl) rfl
                (.inl (mem_kept.mpr (.inr (.inl (mem_handles.mpr ⟨_, held, rfl⟩)))))
          exact resumed.under_frames (hf ▸ shut)
        | true =>
          -- whatever comes out of this frame, those above the base stop it
          rw [hf] at shut
          have kept := hm.above
          rw [step_of_signal ho hc stack, beneath, hc, stack] at kept
          obtain ⟨newer, kept⟩ := kept
          refine ⟨newer ++ above, by rw [← kept]; simp, ?_⟩
          rw [leaks_append]
          exact leaks_of_leaks_true shut _

-- ---------------------------------------------------------------------------
-- Handing back
-- ---------------------------------------------------------------------------

/-- After `n` steps, and no sooner, what has been begun above some frames hands a signal to them. -/
structure HandsBack (m : Machine) (base : List Frame) (n : Nat) (s : Signal) : Prop where
  stack : (run n m).stack = base
  control : (run n m).control = .signal s
  first : ∀ i < n, ¬ IsBackAt base (run i m)

theorem HandsBack.tail {n i : Nat} {s : Signal} (h : m.HandsBack base n s) (hi : i ≤ n) :
    (run i m).HandsBack base (n - i) s where
  stack := by rw [← run_add, Nat.add_sub_cancel' hi]; exact h.stack
  control := by rw [← run_add, Nat.add_sub_cancel' hi]; exact h.control
  first j hj := by
    rw [← run_add]
    exact h.first (i + j) (by omega)

/-- Something is handed back for the first time at one moment only. -/
theorem HandsBack.unique {n i : Nat} {s t : Signal} (h : m.HandsBack base n s)
    (h' : m.HandsBack base i t) : n = i := by
  rcases Nat.lt_trichotomy n i with sooner | same | later
  · exact absurd ⟨h.stack, s, h.control⟩ (h'.first n sooner)
  · exact same
  · exact absurd ⟨h'.stack, t, h'.control⟩ (h.first i later)

/-- Whether a machine goes on with a frame and has so many of them. -/
def isDownTo (depth : Nat) (m : Machine) : Bool :=
  m.stack.length = depth &&
    match m.control with
    | .signal _ => true
    | _ => false

/-- An activity that has been followed until it hands something back. -/
theorem handsBack_of_isDownTo {n : Nat} {s : Signal} (stack : (run n m).stack = base)
    (control : (run n m).control = .signal s)
    (above : ((List.range n).any fun i => (run i m).isDownTo base.length) = false) :
    m.HandsBack base n s := by
  refine ⟨stack, control, fun i hi top => ?_⟩
  obtain ⟨same, t, signals⟩ := top
  have := List.any_eq_false.mp above i (List.mem_range.mpr hi)
  simp [isDownTo, same, signals] at this

theorem run_one (m : Machine) : run 1 m = m.step := run_succ 0 m

theorem Sealed.run {n : Nat} (h : Sealed base m) (hm : Reachable m) (room : ∀ i < n, (run i m).Roomy)
    (busy : ∀ i < n, ¬ IsBackAt base (run i m)) : Sealed base (run n m) := by
  induction n with
  | zero => exact h
  | succ n ih =>
    have before := ih (fun i hi => room i (Nat.lt_succ_of_lt hi)) fun i hi => busy i (Nat.lt_succ_of_lt hi)
    rw [run_succ']
    exact before.step (hm.run n) (room n (Nat.lt_succ_self n)) (busy n (Nat.lt_succ_self n))

/-- A sealed activity never hands back a fault. -/
theorem Sealed.hands_back {n : Nat} {s : Signal} (h : Sealed base m) (hm : Reachable m)
    (room : ∀ i < n, (Machine.run i m).Roomy) (back : m.HandsBack base n s) : s.isFault = false := by
  obtain ⟨above, stack, shut⟩ := h.run hm room back.first
  rw [back.stack] at stack
  obtain rfl : above = [] := by
    have := congrArg List.length stack
    rw [List.length_append] at this
    exact List.length_eq_zero_iff.mp (by omega)
  rw [back.control] at shut
  exact shut

/-- As long as nothing has been handed back to a frame, the frame waits. -/
theorem suffix_of_busy (hm : Reachable m) {f : Frame} (h : f :: base <:+ m.stack) {n : Nat}
    (busy : ∀ i < n, ¬ IsBackAt (f :: base) (run i m)) : f :: base <:+ (run n m).stack := by
  induction n with
  | zero => exact h
  | succ n ih =>
    have waits := ih fun i hi => busy i (Nat.lt_succ_of_lt hi)
    rw [run_succ']
    exact ((beneath_or_top waits).resolve_right (busy n (Nat.lt_succ_self n))).trans (hm.run n).above

/-- The first time that something is handed back. -/
theorem exists_first {n : Nat} (back : IsBackAt base (run n m)) : ∃ d s, d ≤ n ∧ m.HandsBack base d s := by
  induction n using Nat.strongRecOn with
  | ind n ih =>
    by_cases sooner : ∃ i < n, IsBackAt base (run i m)
    · obtain ⟨i, hi, top⟩ := sooner
      obtain ⟨d, s, hd, first⟩ := ih i hi top
      exact ⟨d, s, Nat.le_trans hd (Nat.le_of_lt hi), first⟩
    · obtain ⟨stack, s, control⟩ := back
      exact ⟨n, s, Nat.le_refl n, stack, control, fun i hi top => sooner ⟨i, hi, top⟩⟩

/-- What has been begun above a frame hands something back to it, if the frame is gone later on. -/
theorem exists_handsBack (hm : Reachable m) {f : Frame} (h : f :: base <:+ m.stack) {n : Nat}
    (ended : (run n m).stack = base) : ∃ d s, d < n ∧ m.HandsBack (f :: base) d s := by
  by_contra none
  have waits := suffix_of_busy hm h (n := n) fun i hi top => by
    obtain ⟨d, s, hd, back⟩ := exists_first top
    exact none ⟨d, s, Nat.lt_of_le_of_lt hd hi, back⟩
  have := waits.length_le
  rw [ended, List.length_cons] at this
  omega

-- ---------------------------------------------------------------------------
-- Handing on
-- ---------------------------------------------------------------------------

/-- Loops that nothing keeps alive are removed first, which changes nothing that goes on. -/
theorem exists_run_without_orphan (hm : Reachable m) : ∃ d, (run d m).orphan? = none ∧
    (∀ k, m.keepsLoop k = true → Aside k m (run d m)) ∧
    ∀ j ≤ d, (run j m).stack = m.stack ∧ (run j m).control = m.control := by
  induction hn : m.population using Nat.strongRecOn generalizing m with
  | ind N ih =>
    cases ho : m.orphan? with
    | none =>
      refine ⟨0, ho, fun k _ => .refl m, fun j hj => ?_⟩
      rw [Nat.le_zero.mp hj]
      exact ⟨rfl, rfl⟩
    | some l =>
      have step : m.step = m.removeLoop l := by rw [Machine.step, ho]
      obtain ⟨loops, objects, removed⟩ := exists_removeLoop_eq m l
      have stack : m.step.stack = m.stack := by rw [step, removed]
      have control : m.step.control = m.control := by rw [step, removed]
      have keeps (k : LoopId) : m.step.keepsLoop k = m.keepsLoop k := by rw [step, removed]; rfl
      have fewer : m.step.population < N := step ▸ hn ▸ population_removeLoop hm.placed ho
      obtain ⟨d, settled, aside, same⟩ := ih _ fewer hm.step rfl
      refine ⟨d + 1, by rw [run_succ]; exact settled, fun k kept => ?_, fun j hj => ?_⟩
      · have other : k ≠ l.id := fun e => by
          have := (orphan?_eq_some hm.placed ho).2
          rw [← e, kept] at this
          cases this
        have removes : Aside k m m.step := step ▸ aside_removeLoop hm.placed other
        rw [run_succ]
        exact removes.trans (aside k ((keeps k).trans kept))
      · cases j with
        | zero => exact ⟨rfl, rfl⟩
        | succ j =>
          obtain ⟨stack', control'⟩ := same j (Nat.le_of_succ_le_succ hj)
          rw [run_succ]
          exact ⟨stack'.trans stack, control'.trans control⟩

/-- In some steps a signal comes down to some frames, and on its way nothing is called. -/
structure Descends (m : Machine) (base : List Frame) (d : Nat) (t : Signal) : Prop where
  stack : (run d m).stack = base
  control : (run d m).control = .signal t
  above : ∀ j < d, ∃ f fs, (run j m).stack = f :: fs ∧ base <:+ fs
  signals : ∀ j ≤ d, ∃ s, (run j m).control = .signal s

theorem Descends.refl {t : Signal} (hs : m.stack = base) (hc : m.control = .signal t) : m.Descends base 0 t where
  stack := hs
  control := hc
  above j hj := absurd hj (Nat.not_lt_zero j)
  signals j hj := ⟨t, by rw [Nat.le_zero.mp hj]; exact hc⟩

theorem Descends.trans {mid : List Frame} {a b : Nat} {s t : Signal} (h : m.Descends mid a s)
    (h' : (run a m).Descends base b t) (beneath : base <:+ mid) : m.Descends base (a + b) t where
  stack := by rw [run_add]; exact h'.stack
  control := by rw [run_add]; exact h'.control
  above j hj := by
    rcases Nat.lt_or_ge j a with before | after
    · obtain ⟨f, fs, stack, above⟩ := h.above j before
      exact ⟨f, fs, stack, beneath.trans above⟩
    · obtain ⟨e, rfl⟩ := Nat.exists_eq_add_of_le after
      rw [run_add]
      exact h'.above e (by omega)
  signals j hj := by
    rcases Nat.le_total j a with before | after
    · exact h.signals j before
    · obtain ⟨e, rfl⟩ := Nat.exists_eq_add_of_le after
      rw [run_add]
      exact h'.signals e (by omega)

/-- The step that takes the uppermost frame off comes as soon as nothing is left to remove. -/
theorem exists_descends_step (hm : Reachable m) {f : Frame} {rest : List Frame} {s : Signal}
    (hs : m.stack = f :: rest) (hc : m.control = .signal s) : ∃ d, (run d m).orphan? = none ∧
      (run d m).stack = f :: rest ∧ (run d m).control = .signal s ∧
      (∀ k, m.keepsLoop k = true → Aside k m (run d m)) ∧
      ∀ {base b t}, base <:+ rest → (run d m).step.Descends base b t → m.Descends base (d + 1 + b) t := by
  obtain ⟨d, settled, aside, same⟩ := exists_run_without_orphan hm
  have stack (j : Nat) (hj : j ≤ d) : (run j m).stack = f :: rest := (same j hj).1.trans hs
  have control (j : Nat) (hj : j ≤ d) : (run j m).control = .signal s := (same j hj).2.trans hc
  refine ⟨d, settled, stack d (Nat.le_refl d), control d (Nat.le_refl d), aside, fun {base b t} beneath later => ?_⟩
  rw [← run_succ'] at later
  refine ⟨by rw [run_add]; exact later.stack, by rw [run_add]; exact later.control, fun j hj => ?_, fun j hj => ?_⟩
  · rcases Nat.lt_or_ge d j with after | before
    · obtain ⟨e, rfl⟩ := Nat.exists_eq_add_of_le after
      rw [run_add]
      exact later.above e (by omega)
    · exact ⟨f, rest, stack j before, beneath⟩
  · rcases Nat.lt_or_ge d j with after | before
    · obtain ⟨e, rfl⟩ := Nat.exists_eq_add_of_le after
      rw [run_add]
      exact later.signals e (by omega)
    · exact ⟨s, control j before⟩

/-- A frame that lets values go hands a signal on. -/
theorem exists_descends (hm : Reachable m) {f : Frame} {s t : Signal} (hs : m.stack = f :: base)
    (hc : m.control = .signal s) (hands : ∀ n : Machine, ∃ vs, n.resume f s = drop vs (n.signal t)) :
    ∃ d, m.Descends base d t := by
  obtain ⟨d, settled, stack, control, -, descends⟩ := exists_descends_step hm hs hc
  obtain ⟨vs, handed⟩ := hands { run d m with stack := base, control := .signal .done }
  have next := (step_of_signal settled control stack).trans handed
  exact ⟨_, descends List.suffix_rfl (.refl (by rw [next, stack_drop]; rfl) (by rw [next, control_drop]; rfl))⟩

/-- A signal that has been handed back and comes down to the frames below is handed back to them. -/
theorem HandsBack.descends (hm : Reachable m) {f : Frame} {i d : Nat} {s t : Signal}
    (begun : f :: base <:+ m.stack) (back : m.HandsBack (f :: base) i s) (descends : (run i m).Descends base d t) :
    m.HandsBack base (i + d) t where
  stack := by rw [run_add]; exact descends.stack
  control := by rw [run_add]; exact descends.control
  first j hj top := by
    -- until then some frame lies above them
    obtain ⟨g, gs, stack, beneath⟩ : ∃ g gs, (run j m).stack = g :: gs ∧ base <:+ gs := by
      rcases Nat.lt_or_ge j i with before | after
      · obtain ⟨above, stack⟩ := suffix_of_busy hm begun fun k hk => back.first k (Nat.lt_trans hk before)
        cases above with
        | nil => exact ⟨f, base, stack.symm, List.suffix_rfl⟩
        | cons g above => exact ⟨g, _, stack.symm, (List.suffix_cons f base).trans (List.suffix_append above _)⟩
      · obtain ⟨e, rfl⟩ := Nat.exists_eq_add_of_le after
        rw [run_add]
        exact descends.above e (by omega)
    have := beneath.length_le
    rw [← top.1, stack, List.length_cons] at this
    omega

-- ---------------------------------------------------------------------------
-- Jobs
-- ---------------------------------------------------------------------------

/-- A drain is about to start a job. -/
structure Picks (k : LoopId) (base : List Frame) (j : Job) (m : Machine) : Prop where
  settled : m.orphan? = none
  stack : m.stack = .draining k :: base
  control : ∃ s, m.control = .signal s ∧ s.isFault = false
  next : ∃ l rest, m.loop? k = some l ∧ l.microtasks.entries = j :: rest

theorem resumeDraining_of_ok (m : Machine) (k : LoopId) {s : Signal} (ok : s.isFault = false) :
    m.resumeDraining k s = (drop s.held m).nextMicrotask k := by
  cases s <;> first | rfl | cases ok

theorem nextMicrotask_of_some {l l' : Loop} {j : Job} (hl : m.loop? k = some l)
    (next : l.dequeue? = some (j, l')) :
    m.nextMicrotask k = ((m.setLoop l').push (.draining k)).startJob k j := by
  simp only [nextMicrotask, hl, Option.bind_some, next]

/-- The step that starts a job.  Nothing but the queue, the releases and the history of the loop are other
than before. -/
theorem Picks.step {j : Job} (h : Picks k base j m) (hm : Reachable m) :
    ∃ (n : Machine) (x l : Loop), m.loop? k = some l ∧ m.step = n.startJob k j ∧
      n.stack = .draining k :: base ∧ n.Placed ∧ n.loop? k = some x ∧
      x.id = l.id ∧ x.heap = l.heap ∧ x.inFlight = l.inFlight ∧ x.history = .started j :: l.history := by
  obtain ⟨s, hc, ok⟩ := h.control
  obtain ⟨l, rest, hl, entries⟩ := h.next
  let popped : Machine := { m with stack := base, control := .signal .done }
  obtain ⟨released, hd⟩ := loop?_drop_of (m := popped) s.held hl
  generalize hx : { l with releases := l.releases ++ released } = x at hd
  have same : x.id = l.id ∧ x.heap = l.heap ∧ x.inFlight = l.inFlight ∧ x.history = l.history ∧
      x.microtasks = l.microtasks := by
    rw [← hx]
    exact ⟨rfl, rfl, rfl, rfl, rfl⟩
  obtain ⟨id, heap, inFlight, history, queue⟩ := same
  obtain ⟨x', next, id', heap', inFlight', history'⟩ : ∃ x', x.dequeue? = some (j, x') ∧ x'.id = x.id ∧
      x'.heap = x.heap ∧ x'.inFlight = x.inFlight ∧ x'.history = .started j :: x.history := by
    rw [Loop.dequeue?, Queue.dequeue?, queue, entries]
    exact ⟨_, rfl, rfl, rfl, rfl, rfl⟩
  have aside : Aside k popped (drop s.held popped) := aside_drop s.held popped
  have placed : (drop s.held popped).Placed := aside.placed fun i x hx => hm.placed i x hx
  obtain rfl : x.id = k := placed k x hd
  refine ⟨((drop s.held popped).setLoop x').push (.draining x.id), x', l, hl, ?_, ?_, placed.setLoop hd id',
    loop?_setLoop_self hd id', id'.trans id, heap'.trans heap, inFlight'.trans inFlight,
    history'.trans (congrArg _ history)⟩
  · rw [step_of_signal h.settled hc h.stack]
    exact (resumeDraining_of_ok popped x.id ok).trans (nextMicrotask_of_some hd next)
  · show Frame.draining x.id :: (drop s.held popped).stack = _
    rw [stack_drop]

/-- The jobs of promises and of background work are sealed. -/
theorem sealed_picked {j : Job} (h : Picks k base j m) (hm : Reachable m) (room : m.Roomy)
    (own : ∀ w, j ≠ .host w) : Sealed (.draining k :: base) m.step := by
  obtain ⟨n, x, l, hl, step, stack, placed, hx, id, heap, inFlight, -⟩ := h.step hm
  have room := room k l hl
  have found {p : Promise} (hp : ∃ r, l.record p = .ok r) : ∃ r, x.record p = .ok r := by
    rwa [Loop.record, Loop.owns, id, heap]
  rw [step, ← stack]
  cases j with
  | reaction r argument =>
    refine sealed_startReaction (fun x' hx' => ?_) argument
    obtain rfl := Option.some.inj (hx.symm.trans hx')
    obtain ⟨l', rest, hl', entries⟩ := h.next
    obtain rfl := Option.some.inj (hl.symm.trans hl')
    exact found (hm.record_of_queued hl room (entries ▸ List.mem_cons_self ..) rfl).2
  | adoption p thenable thenFunction => exact sealed_startAdoption n k p thenable thenFunction
  | settlement r =>
    refine sealed_startSettlement (fun x' hx' p hp => ?_) placed
    obtain rfl := Option.some.inj (hx.symm.trans hx')
    exact found (hm.record_of_inFlight hl room (inFlight ▸ hp))
  | host w => exact absurd rfl (own w)

-- ---------------------------------------------------------------------------
-- Drains
-- ---------------------------------------------------------------------------

/-- A fault that has come to a drain breaks it off, and is handed on. -/
theorem handed_on (hm : Reachable m) {f : Fault} (hs : m.stack = .draining k :: base)
    (hc : m.control = .signal (.fault f)) {n : Nat} {s : Signal} (back : m.HandsBack base n s) :
    s = .fault f := by
  induction n generalizing m with
  | zero => exact absurd (hs.symm.trans back.stack) (List.cons_ne_self _ _)
  | succ n ih =>
    rcases step_removes_or m hm.placed (keepsLoop_of_stack hs rfl) with ⟨stack, control, -⟩ | settled
    · exact ih hm.step (stack.trans hs) (control.trans hc) (run_one m ▸ back.tail (Nat.le_add_left 1 n))
    · have stepped := step_of_signal settled hc hs
      rw [← run_one m] at stepped
      have stack : (run 1 m).stack = base := congrArg Machine.stack stepped
      have control : (run 1 m).control = .signal (.fault f) := congrArg Machine.control stepped
      cases n with
      | zero => exact Control.signal.inj (back.control.symm.trans control)
      | succ n => exact absurd ⟨stack, _, control⟩ (back.first 1 (by omega))

/-- The fault that a drain hands back is one that a microtask of the host has handed to the drain. -/
theorem exists_host_of_fault (hm : Reachable m) {t : Signal} {f : Fault} {n : Nat}
    (hs : m.stack = .draining k :: base) (hc : m.control = .signal t) (ok : t.isFault = false)
    (room : ∀ i < n, (run i m).Roomy) (back : m.HandsBack base n (.fault f)) :
    ∃ i w d, i + 1 + d < n ∧ Picks k base (.host w) (run i m) ∧
      (run (i + 1) m).HandsBack (.draining k :: base) d (.fault f) := by
  induction n using Nat.strongRecOn generalizing m t with
  | ind n ih =>
    -- what is found after some steps is found in the whole run
    have later {i : Nat} (hi : i < n) {t : Signal} (pos : 0 < i) (hs : (run i m).stack = .draining k :: base)
        (hc : (run i m).control = .signal t) (ok : t.isFault = false) :
        ∃ i w d, i + 1 + d < n ∧ Picks k base (.host w) (run i m) ∧
          (run (i + 1) m).HandsBack (.draining k :: base) d (.fault f) := by
      obtain ⟨j, w, d, hd, picks, broken⟩ := ih (n - i) (by omega) (hm.run i) hs hc ok
        (fun j hj => run_add i j m ▸ room (i + j) (by omega)) (back.tail (Nat.le_of_lt hi))
      rw [← run_add] at picks broken
      exact ⟨i + j, w, d, by omega, picks, broken⟩
    have pos : 0 < n := Nat.pos_of_ne_zero fun h => by
      subst h
      exact List.cons_ne_self _ _ (hs.symm.trans back.stack)
    rcases step_removes_or m hm.placed (keepsLoop_of_stack hs rfl) with ⟨stack, control, -⟩ | settled
    · rw [← run_one m] at stack control
      have one : 1 < n := Nat.lt_of_le_of_ne pos fun h => by
        subst h
        exact List.cons_ne_self _ _ (hs.symm.trans (stack.symm.trans back.stack))
      exact later one Nat.one_pos (stack.trans hs) (control.trans hc) ok
    · obtain ⟨l, hl⟩ := hm.alive_of_draining (hs ▸ List.mem_cons_self ..)
      cases entries : l.microtasks.entries with
      | nil =>
        -- the drain would end without a fault
        let popped : Machine := { m with stack := base, control := .signal .done }
        obtain ⟨released, hd⟩ := loop?_drop_of (m := popped) t.held hl
        have empty : Loop.dequeue? { l with releases := l.releases ++ released } = none := by
          rw [Loop.dequeue?, Queue.dequeue?, entries]
          rfl
        have stepped : run 1 m = (drop t.held popped).endDrain k := by
          rw [run_one, step_of_signal settled hc hs]
          refine (resumeDraining_of_ok popped k ok).trans ?_
          simp only [nextMicrotask, hd, Option.bind_some, empty]
        have stack : (run 1 m).stack = base :=
          (congrArg Machine.stack stepped).trans (stack_drop t.held popped)
        have control : (run 1 m).control = .signal .done := congrArg Machine.control stepped
        rcases Nat.lt_or_eq_of_le pos with more | rfl
        · exact absurd ⟨stack, _, control⟩ (back.first 1 more)
        · cases Control.signal.inj (control.symm.trans back.control)
      | cons j rest =>
        have picks : Picks k base j m := ⟨settled, hs, ⟨t, hc, ok⟩, l, rest, hl, entries⟩
        obtain ⟨x, -, -, -, step, stack, -⟩ := picks.step hm
        have begun : .draining k :: base <:+ m.step.stack := step ▸ stack ▸ above_startJob x k j
        have ended : (run (n - 1) m.step).stack = base := by
          rw [← run_succ, Nat.sub_add_cancel pos]
          exact back.stack
        obtain ⟨d, s, hd, handed⟩ := exists_handsBack hm.step begun ended
        have shift : run d m.step = run (d + 1) m := (run_succ d m).symm
        have stack : (run (d + 1) m).stack = .draining k :: base := shift ▸ handed.stack
        have control : (run (d + 1) m).control = .signal s := shift ▸ handed.control
        cases fault : s.isFault with
        | false => exact later (by omega) (Nat.succ_pos d) stack control fault
        | true =>
          obtain ⟨g, rfl⟩ : ∃ g, s = .fault g := by
            cases s with
            | fault g => exact ⟨g, rfl⟩
            | _ => cases fault
          have same := handed_on (hm.run (d + 1)) stack control (back.tail (i := d + 1) (by omega))
          cases j with
          | host w => exact ⟨0, w, d, by omega, picks, run_one m ▸ same ▸ handed⟩
          | _ =>
            have sealed_ := sealed_picked picks hm (room 0 pos) fun w => by simp
            have quiet := sealed_.hands_back hm.step
              (fun i hi => run_succ i m ▸ room (i + 1) (by omega)) handed
            rw [quiet] at fault
            cases fault

end PromiseLoop.Machine

import PromiseLoop.Proofs.Orders.Swaps
import PromiseLoop.Proofs.Thenables.Adoptions
import PromiseLoop.Proofs.Twins.Runs

/-!
# Settlements that come too late

Where the lock of a promise is taken, a settlement is noted and nothing else happens, so it makes no difference
whether handlers are registered before or after.  If the rejection of the promise has been reported, the tracker
hears of the handlers, and the registration comes back when the tracker has returned.

## Results

* `comesBack_attach_late`: what a registration comes back with that the tracker has to hear of.
* `HandsBack.twin`: twins hand back the same at the same time.
* `swaps_of_taken`: the two orders, where the lock of the promise is taken.
-/

namespace PromiseLoop

namespace Loop.Alike

variable {gap : Gap} {l l' : Loop} {e : Event}

/-- Only one of two loops notes when something was asked of it. -/
theorem note_left (h : l.Alike gap l') (timing : e.isTiming = true) : (l.note e).Alike gap l' where
  same := by rw [h.same]; rfl
  awaiting := h.awaiting
  history := by rw [h.history, Loop.note, untimed_cons, if_pos timing]
  flat i v hv := by
    rcases List.mem_cons.mp hv with new | old
    · subst new
      cases timing
    · exact h.flat i v old

theorem note_right (h : l.Alike gap l') (timing : e.isTiming = true) : l.Alike gap (l'.note e) where
  same := by rw [h.same]; rfl
  awaiting := h.awaiting
  history := by rw [Loop.note, untimed_cons, if_pos timing, h.history]
  flat := h.flat

end Loop.Alike

namespace Machine

variable {m m' x : Machine} {k : LoopId} {l : Loop} {p : Promise} {r : Record} {v : Value} {f g : Option Value}
  {values : List Value} {past : List Pair} {s : Signal} {base : List Frame}

-- ---------------------------------------------------------------------------
-- Registrations that a tracker hears of
-- ---------------------------------------------------------------------------

/-- What has been begun above a frame comes back to it, and has left a loop alone. -/
def YieldsTo (k : LoopId) (top : Frame) (base : List Frame) (m : Machine) : Prop :=
  ∃ n s, (run n m).stack = top :: base ∧ (run n m).control = .signal s ∧ Aside k m (run n m) ∧
    ∀ i ≤ n, top :: base <:+ (run i m).stack

theorem not_isBackAt_of_suffix (top : Frame) (h : top :: base <:+ x.stack) : ¬ IsBackAt base x := fun back => by
  have := h.length_le
  rw [back.1, List.length_cons] at this
  omega

/-- A registration that the tracker has to hear of comes back when the tracker has returned. -/
theorem comesBack_attach_late (h : m.Hosts k l values) (wf : l.heap.Wf) (hr : l.record p = .ok r)
    (late : Loop.handledLate r = true)
    (returns : (m.attach k p f g []).YieldsTo k
      (.attaching l.newPromise.1 (r.reactionJob f g l.newPromise.1)) m.stack) :
    ∃ a la, ComesBack (fun m => m.attach k p f g []) m (.value (.promise l.newPromise.1)) a ∧
      a.loop? k = some la ∧ la.id = l.id ∧ la.heap = (l.registered p f g r).heap := by
  let d := l.newPromise.1
  let job := r.reactionJob f g d
  let top : Frame := .attaching d job
  let set := ((m.setLoop (l.registered p f g r)).push top).signal .done
  have attached := (Loop.attach_eq_ok wf (f := f) (g := g)).mpr ⟨r, hr, rfl⟩
  have begun : m.attach k p f g [] = (drop (r.unusedReaction f g d) set).tellHandled k p.id := by
    unfold attach
    simp only [h.loop, attached, late, if_true]
    rfl
  obtain ⟨n, s, stack, control, aside, waits⟩ := returns
  -- the tracker has returned
  have id : (l.registered p f g r).id = l.id := rfl
  have hosts := h.setLoop _ id .done
  have told : Aside k set (m.attach k p f g []) := by
    rw [begun]
    exact (aside_drop _ set).trans (aside_tellHandled _ _ _ (by rw [control_drop]; rfl))
  have back := told.trans aside
  have placed : (run n (m.attach k p f g [])).Placed := back.placed hosts.placed
  obtain ⟨l₁, hl₁, outside₁⟩ := back.stays _ hosts.loop
  -- loops that nothing keeps alive go first
  have keeps : (run n (m.attach k p f g [])).keepsLoop k = true :=
    keepsLoop_of_stack stack (by rw [← h.id]; rfl)
  obtain ⟨i, settles, same⟩ := exists_run_settled placed keeps
  obtain ⟨l₂, hl₂, outside₂⟩ := settles.aside.stays _ hl₁
  rw [← run_add] at settles hl₂
  have stands := (Loop.StandsAs.of_outside outside₁).trans (.of_outside outside₂)
  -- the registration ends
  let popped : Machine := { run (n + i) (m.attach k p f g []) with stack := m.stack, control := .signal .done }
  have ended : (run (n + i) (m.attach k p f g [])).step = popped.resumeAttaching d job s := by
    have control' := settles.control.trans control
    have stack' := settles.stack.trans stack
    exact step_of_signal settles.orphan control' stack'
  have home : d.home = k := h.id
  have found : ((popped.modifyLoop d.home fun l => l.endAttach d job).signal (.value (.promise d))).loop? k =
      some (l₂.endAttach d job) := by
    rw [home]
    refine (loop?_modifyLoop_self popped k _).trans ?_
    rw [show popped.loop? k = some l₂ from hl₂]
    rfl
  obtain ⟨released, look⟩ := loop?_drop_of s.held found
  refine ⟨popped.resumeAttaching d job s, _, ⟨n + i + 1, ⟨?_, ?_, fun j hj => ?_⟩, ?_⟩, look, ?_, ?_⟩
  · rw [run_succ', ended]
    exact stack_drop ..
  · rw [run_succ', ended]
    exact control_drop ..
  · refine not_isBackAt_of_suffix top ?_
    rcases Nat.lt_or_ge n j with hn | hn
    · obtain ⟨c, rfl⟩ := Nat.exists_eq_add_of_le (Nat.le_of_lt hn)
      rw [run_add, same c (by omega), stack]
    · exact waits j hn
  · rw [run_succ', ended]
  · exact (Loop.id_endAttach l₂ d job).trans stands.id
  · exact (Loop.heap_endAttach l₂ d job).trans stands.heap

-- ---------------------------------------------------------------------------
-- Twins side by side
-- ---------------------------------------------------------------------------

theorem Ends.run (h : Ends none past m m') (n : Nat) :
    ∃ past', Ends none past' (Machine.run n m) (Machine.run n m') := by
  induction n with
  | zero => exact ⟨past, h⟩
  | succ n ih =>
    obtain ⟨past', ends⟩ := ih
    obtain ⟨past'', -, stepped⟩ := ends.step (nothingDue_none _)
    rw [run_succ', run_succ']
    exact ⟨past'', stepped⟩

/-- Twins hand back the same at the same time. -/
theorem HandsBack.twin {n : Nat} (back : m.HandsBack base n s) (h : Ends none past m m') :
    m'.HandsBack base n s := by
  have same (i : Nat) : (run i m').stack = (run i m).stack ∧ (run i m').control = (run i m).control := by
    obtain ⟨past', ends⟩ := h.run i
    exact ⟨ends.stack, ends.control⟩
  refine ⟨(same n).1.trans back.stack, (same n).2.trans back.control, fun i hi top => back.first i hi ?_⟩
  obtain ⟨stack, t, control⟩ := top
  exact ⟨(same i).1.symm.trans stack, t, (same i).2.symm.trans control⟩

-- ---------------------------------------------------------------------------
-- The two orders
-- ---------------------------------------------------------------------------

theorem signal_of_control (h : m.control = .signal s) : m.signal s = m := by
  rw [signal, ← h]

theorem attach_signal (m : Machine) (s : Signal) (k : LoopId) (p : Promise) (f g : Option Value) (unused : List Value) :
    (m.signal s).attach k p f g unused = m.attach k p f g unused := rfl

/-- A registration comes back, and leaves the lock of the promise as it is. -/
theorem comesBack_attach (h : m.Hosts k l (.promise p :: v :: (f.toList ++ g.toList))) (wf : l.heap.Wf)
    (hr : l.record p = .ok r)
    (returns : Loop.handledLate r = true → (m.attach k p f g []).YieldsTo k
      (.attaching l.newPromise.1 (r.reactionJob f g l.newPromise.1)) m.stack) :
    ∃ a la, ComesBack (fun m => m.attach k p f g []) m (.value (.promise l.newPromise.1)) a ∧
      a.loop? k = some la ∧ la.heap.Wf ∧ la.record p = .ok (r.registered f g l.newPromise.1) := by
  have wf' := Loop.wf_chained wf hr f g
  obtain ⟨home, found⟩ := Loop.record_eq_ok.mp hr
  obtain ⟨top, mem, kept⟩ := h.holds
  have registered : (l.registered p f g r).heap.get? p.id = some (r.registered f g l.newPromise.1) := by
    have := Loop.get?_chained (f := f) (g := g) wf found
    rwa [Loop.heap_chained] at this
  cases hl : Loop.handledLate r with
  | false =>
    have attached := attach_of_prompt h.loop wf hr hl mem (f := f) (g := g) fun w hw =>
      kept w (List.mem_cons_of_mem _ (List.mem_cons_of_mem _ hw))
    have put := (h.setLoop _ (l.id_chained p f g r) (.value (.promise l.newPromise.1))).loop
    refine ⟨_, l.chained p f g r, comesBack_at_once attached rfl rfl, put, wf', ?_⟩
    exact Loop.record_eq_ok.mpr ⟨home.trans (Loop.id_chained ..).symm, Loop.get?_chained wf found⟩
  | true =>
    obtain ⟨a, la, back, look, id, heap⟩ := comesBack_attach_late h wf hr hl (returns hl)
    have same : la.heap = (l.chained p f g r).heap := heap.trans (Loop.heap_chained ..).symm
    exact ⟨a, la, back, look, same ▸ wf', Loop.record_eq_ok.mpr ⟨home.trans id.symm, heap ▸ registered⟩⟩

/-- Where a settlement comes too late, it makes no difference when handlers are registered. -/
theorem swaps_of_taken (h : m.Hosts k l (.promise p :: v :: (f.toList ++ g.toList)))
    (twins : Twins none past m m) (wf : l.heap.Wf) (hr : l.record p = .ok r) (taken : r.alreadyResolved = true)
    (side : Side) (returns : Loop.handledLate r = true → (m.attach k p f g []).YieldsTo k
      (.attaching l.newPromise.1 (r.reactionJob f g l.newPromise.1)) m.stack) :
    ∃ x y past', Swaps (fun m => m.attach k p f g []) (settling side k p v) m (.promise l.newPromise.1) x y ∧
      Twins none past' x y ∧ x.HasHandled k p.id := by
  let d := l.newPromise.1
  let e : Event := .attempted p.id false
  obtain ⟨top, mem, kept⟩ := h.holds
  have held : v ∈ top.held := kept v (by simp)
  obtain ⟨a, la, forth, look, wfa, hra⟩ := comesBack_attach h wf hr returns
  obtain ⟨n, back, eq⟩ := forth
  have stack : a.stack = m.stack := eq ▸ back.stack
  have control : a.control = .signal (.value (.promise d)) := eq ▸ back.control
  -- the settlement comes first
  have first := settling_of_taken (v := v) h.loop hr taken mem held side
  obtain ⟨l', hl', alike⟩ := twins.toPaired.exists_alike h.loop
  obtain rfl : l' = l := Option.some.inj (hl'.symm.trans h.loop)
  have noted : Twins none past m (m.setLoop (l'.note e)) := by
    have := twins.setLoop h.loop (alike.note_right (e := e) rfl) rfl
    rwa [setLoop_self h.loop h.id] at this
  have attached := (noted.signal .done).attach k p f g []
  obtain ⟨past', ends⟩ := attached.ends.run n
  rw [attach_signal, ← eq] at ends
  -- the settlement comes last
  have last := settling_of_taken (m := a.signal .done) (v := v) look hra (by simpa using taken)
    (stack.symm ▸ mem) held side
  obtain ⟨ly, hly, alikeY⟩ := ends.toPaired.exists_alike look
  have idY : ly.id = k := alikeY.id.trans (ends.placed k la look)
  let x := ((a.setLoop (la.note e)).signal .done).signal (.value (.promise d))
  let y := run n (((m.setLoop (l'.note e)).signal .done).attach k p f g [])
  have paired : Paired none past' (a.setLoop (la.note e)) y := by
    have := ends.toPaired.setLoop look (alikeY.note_left (e := e) rfl) rfl
    rwa [setLoop_self hly idY] at this
  have signalled : x = a.setLoop (la.note e) :=
    signal_of_control (m := a.setLoop (la.note e)) control
  refine ⟨x, y, past', ⟨⟨a, _, ⟨n, back, eq⟩, comesBack_at_once last rfl rfl, rfl⟩,
    ⟨_, comesBack_at_once first rfl rfl, n, back.twin attached.ends, rfl⟩⟩, ?_,
    la.note e, r.registered f g d, ?_, wfa, (Loop.record_eq_ok.mp hra).2, Record.isHandled_registered ..⟩
  · rw [signalled]
    refine ⟨paired, fun f hf => twins.asks f ?_⟩
    rw [← stack]
    exact hf
  · have placed := ends.placed k la look
    rw [← placed] at look
    exact placed ▸ loop?_setLoop_self look rfl

end Machine
end PromiseLoop

import PromiseLoop.Proofs.Orders.Futures
import PromiseLoop.Proofs.RecordStates
import PromiseLoop.Proofs.Warrants.Runs

/-!
# Registering before or after settling

Handlers may be registered on a promise before it is settled or after: the host gets the same derived promise,
and whatever becomes of the machine, the records, the queues and what trackers have heard are the same.  This
is so in every state of the promise.  If its lock is free, the reactions that settling takes from its record are
those that registering queues at once.  If its lock is taken, or if it follows another promise, the settlement
is only noted.  The bridge has to be the native one, and the tracker must not touch the loop when it hears of
handlers that come late.

## Results

* `Issues.twins`: a host that has begun a step is its own twin.
* `trackerStaysOut_of_quiet`: trackers that call no functions stay out of the loop.
* `registering_and_settling_commute`: the two orders, and whatever comes after them.
-/

namespace PromiseLoop.Machine

variable {m m' scene : Machine} {k : LoopId} {l : Loop} {p : Promise} {v : Value} {f g : Option Value} {s : Step}
  {info : CommandInfo} {values : List Value}

-- ---------------------------------------------------------------------------
-- Hosts
-- ---------------------------------------------------------------------------

/-- The host of a step that concerns a loop has values in its hands. -/
def hosting (scene : Machine) (info : CommandInfo) (k : LoopId) (values : List Value) : Machine :=
  scene.push (.command { info with loop := some k } values)

/-- If the values are known, such a host holds nothing that is new. -/
theorem Issues.holds_hosting (h : m.Issues s info scene m')
    (known : ∀ w ∈ values, ∀ a, w.handle? = some a → m.holds a = true) {a : Handle}
    (holds : (scene.hosting info k values).holds a = true) : m.holds a = true := by
  rw [holds_eq_any_held, any_has_iff] at holds
  obtain ⟨w, hw, ha⟩ := mem_handles.mp holds
  by_cases mem : w ∈ values
  · exact known w mem a ha
  · refine holds_of_mem ?_ ha
    rw [mem_held] at hw ⊢
    cases h with
    | given _ _ _ => simpa [hosting, push, heldByStack, Frame.held, mem, heldByLoops, heldByObjects] using hw
    | met _ stack _ =>
      simpa [hosting, push, heldByStack, Frame.held, mem, heldByLoops, heldByObjects, stack] using hw

theorem Issues.hosts (h : m.Issues s info scene m') (hm : Reachable m) (hl : m.loop? k = some l)
    (values : List Value) : (scene.hosting info k values).Hosts k l values where
  loop := by rwa [loop?, show (scene.hosting info k values).loops = m.loops from h.loops]
  placed j x hx := hm.placed j x (by rwa [loop?, ← h.loops])
  settled := orphan?_eq_none_of_keeps h.settled rfl fun j hj => by
    simp only [keepsLoop, Bool.or_eq_true] at hj ⊢
    exact hj.imp id fun on => List.any_cons ▸ Bool.or_eq_true_iff.mpr (.inr on)
  spent := h.spent
  holds := ⟨_, List.mem_cons_self .., fun _ hv => hv⟩

/-- A host that has begun a step is its own twin. -/
theorem Issues.twins (h : m.Issues s info scene m') (hm : Reachable m) (k : LoopId) (values : List Value) :
    Twins none m.pairs (scene.hosting info k values) (scene.hosting info k values) := by
  have ends := hm.ends
  refine Twins.push ?_ trivial
  cases h with
  | given idle _ _ =>
    exact (ends.twins (control_ne_signal_of_isIdle idle)).of_eq rfl rfl rfl rfl rfl
  | met _ stack _ =>
    refine ⟨ends.toPaired.of_eq rfl rfl rfl rfl, List.forall_mem_cons.mpr ⟨trivial, fun f hf => ends.asks f ?_⟩⟩
    rwa [stack]

-- ---------------------------------------------------------------------------
-- Trackers
-- ---------------------------------------------------------------------------

/-- If the tracker has to hear of handlers that are registered on a promise, it returns, and leaves the loop
alone. -/
def TrackerStaysOut (m : Machine) (k : LoopId) (p : Promise) (f g : Option Value) : Prop :=
  ∀ l r, m.loop? k = some l → l.record p = .ok r → Loop.handledLate r = true →
    (m.attach k p f g []).YieldsTo k (.attaching l.newPromise.1 (r.reactionJob f g l.newPromise.1)) m.stack

/-- Trackers that call no functions stay out of the loop. -/
theorem trackerStaysOut_of_quiet (hosts : m.Hosts k l values) (wf : l.heap.Wf)
    (quiet : ∀ late, l.tracker ≠ .callbacks late) (p : Promise) (f g : Option Value) :
    m.TrackerStaysOut k p f g := by
  intro l' r hl' hr late
  obtain rfl : l' = l := Option.some.inj (hl'.symm.trans hosts.loop)
  have attached := (Loop.attach_eq_ok wf (f := f) (g := g)).mpr ⟨r, hr, rfl⟩
  let top : Frame := .attaching l'.newPromise.1 (r.reactionJob f g l'.newPromise.1)
  have told : (m.attach k p f g []).stack = top :: m.stack ∧ (m.attach k p f g []).control = .signal .done := by
    let set := ((m.setLoop (l'.registered p f g r)).push top).signal .done
    have begun : m.attach k p f g [] = (drop (r.unusedReaction f g l'.newPromise.1) set).tellHandled k p.id := by
      unfold attach
      simp only [hl', attached, late, if_true]
      rfl
    have found : set.loop? k = some (l'.registered p f g r) := (hosts.setLoop (l'.registered p f g r) rfl .done).loop
    obtain ⟨released, look⟩ := loop?_drop_of (r.unusedReaction f g l'.newPromise.1) found
    rw [begun]
    unfold tellHandled
    rw [look]
    split
    · exact ⟨(stack_traceEntry ..).trans (stack_drop ..), (control_traceEntry ..).trans (control_drop ..)⟩
    · rename_i called
      exact absurd (Option.some.inj called) (quiet true)
    · exact ⟨stack_drop .., control_drop ..⟩
  refine ⟨0, .done, told.1, told.2, .refl _, fun i hi => ?_⟩
  obtain rfl : i = 0 := Nat.le_zero.mp hi
  exact told.1 ▸ List.suffix_rfl

-- ---------------------------------------------------------------------------
-- The two orders
-- ---------------------------------------------------------------------------

/-- It makes no difference whether handlers are registered on a promise before it is settled or after, in
whatever state it is: the host gets the same derived promise, and the machines agree whatever becomes of them.
This is so until the slot of the promise has lost `2 ^ 32` records, when its id may be given once more. -/
theorem registering_and_settling_commute (hm : Reachable m) (issued : m.Issues s info scene m')
    (hl : m.loop? k = some l) (native : l.bridge = .native) (room : l.heap.slots.length < 2 ^ 32)
    (home : p.home = k)
    (known : ∀ w ∈ .promise p :: v :: (f.toList ++ g.toList), ∀ a, w.handle? = some a → m.holds a = true)
    (out : (scene.hosting info k (.promise p :: v :: (f.toList ++ g.toList))).TrackerStaysOut k p f g) (side : Side)
    (plain : side = .fulfill → ∀ o, v ≠ .object o) :
    ∃ x y, Swaps (fun m => m.attach k p f g []) (settling side k p v)
        (scene.hosting info k (.promise p :: v :: (f.toList ++ g.toList))) (.promise l.newPromise.1) x y ∧
      ∀ moves, (∀ before, before <+: moves →
          (follow before x).losses k p.id.index < x.losses k p.id.index + 2 ^ 32) →
        Agree k p.id (follow moves x) (follow moves y) := by
  let values : List Value := .promise p :: v :: (f.toList ++ g.toList)
  let host := scene.hosting info k values
  have hosts : host.Hosts k l values := issued.hosts hm hl _
  have twins : Twins none m.pairs host host := issued.twins hm _ _
  have guarded := (hm.warranted k).guarded l hl room
  have sound := (hm.warranted k).sound k l hl
  obtain ⟨r, found⟩ := guarded.live p (knows_iff.mpr ⟨home, known _ (List.mem_cons_self ..) _ rfl⟩)
  have hr : l.record p = .ok r := Loop.record_eq_ok.mpr ⟨home.trans hosts.id.symm, found⟩
  cases taken : r.alreadyResolved with
  | true =>
    obtain ⟨x, y, past, swaps, after, handled⟩ := swaps_of_taken hosts twins sound.wf hr taken side
      (out l r hosts.loop hr)
    have paired := after.toPaired.widen (some (k, p.id))
    exact ⟨x, y, swaps, fun moves few => Twins.agree ⟨paired, after.asks⟩ handled moves few⟩
  | false =>
    have pending : r.state = .pending := by
      by_contra settled
      rw [guarded.locked p.id r found settled] at taken
      cases taken
    have unreported : r.rejectionReported = false := by
      by_contra reported
      have := (hm.formed hl p.id r found).reported (by simpa using reported)
      rw [pending] at this
      cases this
    -- nobody has heard of the new promise
    have young : host.holds (.promise l.newPromise.1) = false := by
      by_contra holds
      have held := issued.holds_hosting known (by simpa using holds)
      exact absurd (guarded.young _ (.inl (knows_iff.mpr ⟨hosts.id, held⟩))) (Nat.lt_irrefl _)
    obtain ⟨x, y, swaps, after, handled⟩ := swaps_of_free hosts twins sound hr taken pending unreported native
      young side plain
    exact ⟨x, y, swaps, fun moves few => after.agree handled moves few⟩

/-- The script of `chainedOnce` is about to reject its promise. -/
def rejecting : Machine :=
  { chainedOnce with trace := [] }.hosting { word := "reject", store := none, catches := false, isControl := false }
    ⟨0⟩ [.promise ⟨⟨0⟩, 0, ⟨0, 0⟩⟩, .null]

/-- The script goes on, drains the queue and has a checkpoint. -/
def draining : List Move :=
  [.step, .start (.step (.drain "main") none false), .step, .step, .step, .step, .step,
    .start (.step (.checkpoint "main") none false), .step]

theorem registering_and_settling_commute_rejecting : ∃ x y,
    Swaps (fun m => m.attach ⟨0⟩ ⟨⟨0⟩, 0, ⟨0, 0⟩⟩ none none []) (settling .reject ⟨0⟩ ⟨⟨0⟩, 0, ⟨0, 0⟩⟩ .null)
      rejecting (.promise ⟨⟨0⟩, 2, ⟨2, 0⟩⟩) x y ∧
    (follow draining x).isIdle = true ∧ Agree ⟨0⟩ ⟨0, 0⟩ (follow draining x) (follow draining y) := by
  obtain ⟨l, hl⟩ := Option.isSome_iff_exists.mp
    (by cbv : (chainedOnce.loop? ⟨0⟩).isSome = true)
  have facts : (chainedOnce.loop? ⟨0⟩).map (fun l => (l.newPromise.1, l.bridge, l.heap.slots.length, l.tracker)) =
      some (⟨⟨0⟩, 2, ⟨2, 0⟩⟩, .native, 2, .log) := by cbv
  rw [hl, Option.map_some, Option.some.injEq, Prod.mk.injEq, Prod.mk.injEq, Prod.mk.injEq] at facts
  obtain ⟨derived, native, slots, tracker⟩ := facts
  have issued : chainedOnce.Issues (.reject "main" (.variable "p") (.constant .null)) _ _ _ :=
    .given (by cbv) none false
  obtain ⟨x, y, swaps, later⟩ := registering_and_settling_commute (p := ⟨⟨0⟩, 0, ⟨0, 0⟩⟩) (v := .null)
    (f := none) (g := none) reachable_chainedOnce issued hl native (by omega) rfl
    (by
      intro w hw a ha
      rcases List.mem_cons.mp hw with rfl | hw
      · obtain rfl : Handle.promise _ = a := Option.some.inj ha
        cbv
      · obtain rfl : w = .null := by simpa using hw
        cases ha)
    (trackerStaysOut_of_quiet (issued.hosts reachable_chainedOnce hl _) (reachable_chainedOnce.wf hl)
      (by simp [tracker]) _ _ _)
    .reject (fun fulfills => by cases fulfills)
  rw [derived] at swaps
  -- both calls come back at once
  obtain ⟨a, b, registered, rejected, rfl⟩ := swaps.forth
  obtain rfl := registered.eq_of_isBackAt ⟨by cbv, _, by cbv⟩
  obtain rfl := rejected.eq_of_isBackAt ⟨by cbv, _, by cbv⟩
  have future := later draining
  simp only [← List.mem_inits] at future
  exact ⟨_, y, swaps, by cbv, future (of_decide_eq_true (by cbv))⟩

end PromiseLoop.Machine

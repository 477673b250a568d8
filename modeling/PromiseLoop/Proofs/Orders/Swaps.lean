import PromiseLoop.Proofs.Orders.Calls

/-!
# Registering and settling, and the other way round

A host registers handlers on a promise and settles it, or does so in the other order.  Both come back with
the same derived promise, and what they leave differs in nothing that a script could find out.

## Results

* `drop_chained`: letting go and registering handlers may be done in either order.
* `swaps_of_free`: the two orders, where the lock of the promise is free.
-/

namespace PromiseLoop

-- ---------------------------------------------------------------------------
-- What a registration makes a loop hold
-- ---------------------------------------------------------------------------

namespace Loop

variable {l : Loop} {p : Promise} {r : Record} {f g : Option Value}

theorem loopHolds_iff {a : Handle} : Machine.loopHolds a l = true ↔ a ∈ handles l.held := by
  rw [← Machine.any_held_loop, any_has_iff]

/-- A registration concerns no handles but those of the handlers and that of the new promise. -/
theorem loopHolds_chained (h : l.Sound) (hr : l.heap.get? p.id = some r) {a : Handle}
    (young : a ≠ .promise l.newPromise.1) (other : a ∉ handles (f.toList ++ g.toList)) :
    Machine.loopHolds a (l.chained p f g r) = Machine.loopHolds a l := by
  let d := l.newPromise.1
  have traded := trades_registered h hr f g
  have ended := trades_endAttach traded.sound d (r.reactionJob f g d)
  -- what is not needed comes from what is registered
  have unused : a ∉ handles (r.unusedReaction f g d) := by
    unfold Record.unusedReaction
    split <;> simp [Reaction.held, handles_cons, Value.handle?] at other ⊢ <;> tauto
  have given : a ∉ handles (.promise d :: (f.toList ++ g.toList)) := by
    simp [handles_cons, Value.handle?] at other ⊢
    tauto
  have new := traded.held a
  have last := ended.held a
  rw [handles_append, List.mem_append] at new
  rw [Bool.eq_iff_iff, loopHolds_iff, loopHolds_iff, ← mem_handles_held_newPromise h]
  unfold chained
  simp only [handles_nil, List.not_mem_nil, or_false] at last
  tauto

/-- Alike loops remain alike if an exception is made. -/
theorem Alike.widen {l' : Loop} (h : l.Alike none l') (gap : Gap) : l.Alike gap l' where
  same := h.same
  awaiting := by
    have all : IsCounted none l.id = fun _ => true := funext fun _ => by simp [IsCounted]
    have same : l'.awaiting = l.awaiting := by simpa [all] using h.awaiting
    rw [same]
  history := h.history
  flat := h.flat

/-- A registration does not look at what has been released. -/
theorem chained_release (l : Loop) (id : PromiseId) (p : Promise) (f g : Option Value) (r : Record) :
    (l.release id).chained p f g r = (l.chained p f g r).release id := by
  have same : (l.release id).newPromise.1 = l.newPromise.1 := rfl
  unfold chained endAttach
  rw [same]
  cases r.reactionJob f g l.newPromise.1 <;> rfl

theorem sound_met (h : l.Sound) (hr : l.heap.get? p.id = some r) (pending : r.state = .pending) (fate : Destiny) :
    (l.met p fate).Sound := by
  refine ⟨?_, fun id x hx hs => ?_⟩
  · rw [heap_met hr pending]
    exact h.wf.modify _ _
  · rw [heap_met hr pending, Heap.get?_modify_ite] at hx
    split at hx
    · rename_i hi
      rw [hi, hr] at hx
      obtain rfl := Option.some.inj hx
      cases fate with
      | settles side v => exact absurd hs side.state_ne_pending
      | adopts q => exact h.valueless p.id r hr pending
    · exact h.valueless id x hx hs

/-- The job of the new handler holds the new promise. -/
theorem loopHolds_derived (wf : l.heap.Wf) (hr : l.heap.get? p.id = some r) (pending : r.state = .pending)
    (side : Side) (v : Value) : Machine.loopHolds (.promise l.newPromise.1)
      ((l.chained p f g r).met p (.settles side v)) = true := by
  rw [resolved_chained wf hr pending]
  unfold Machine.loopHolds
  rw [fire_registered pending]
  cases side <;> simp [Record.met, Record.settled, Record.reactionJob, Side.state, Machine.jobHolds,
    Machine.reactionHolds, Handle.isOn]

end Loop

/-- A promise is never fulfilled with another one of its loop. -/
theorem Destiny.plain_of_of {l : Loop} {p : Promise} {side : Side} {v w : Value}
    (h : Destiny.of p side v = .settles .fulfill w) (home : p.home = l.id) : l.ownPromise? w = none := by
  unfold Destiny.of at h
  cases side with
  | reject => cases h
  | fulfill =>
    dsimp only at h
    split at h
    · cases h
    · split at h
      · split at h
        · cases h
        · cases h
          rename_i other
          simp [Loop.ownPromise?, Value.asPromise?, Loop.owns, ← home, other]
      · cases h
        rename_i other
        cases v with
        | promise q => exact absurd rfl (other q)
        | _ => rfl

theorem Record.mem_held_of_left {r : Record} {fate : Destiny} {w : Value} (hw : w ∈ r.left fate) : w ∈ r.held := by
  cases fate with
  | adopts q => cases hw
  | settles side v =>
    cases side <;> simp [left, released, Side.state, Record.held] at hw ⊢ <;> tauto

namespace Machine

variable {m x : Machine} {k : LoopId} {l : Loop} {p : Promise} {r : Record} {v : Value} {f g : Option Value}
  {values : List Value}

-- ---------------------------------------------------------------------------
-- Letting go before or after a registration
-- ---------------------------------------------------------------------------

/-- Whether the handle is not held by an object. -/
def Unknown (a : Handle) (m : Machine) : Prop := ∀ v ∈ m.heldByObjects, v.handle? ≠ some a

/-- Letting go and registering handlers may be done in either order, as long as the values do not have the promise
that the registration creates. -/
theorem drop_chained {top : Frame} (hl : m.loop? k = some l) (sound : l.Sound) (hr : l.heap.get? p.id = some r)
    (mem : top ∈ m.stack) (kept : ∀ v ∈ f.toList ++ g.toList, v ∈ top.held)
    (young : m.Unknown (.promise l.newPromise.1)) (vs : List Value)
    (old : ∀ v ∈ vs, v.handle? ≠ some (.promise l.newPromise.1)) :
    drop vs (m.modifyLoop k fun l => l.chained p f g r) =
      (drop vs m).modifyLoop k fun l => l.chained p f g r := by
  let d := l.newPromise.1
  refine drop_modifyLoop (P := fun a => a ≠ .promise d)
    (Q := fun m' => m'.Still k l m.stack ∧ m'.Unknown (.promise d)) ?_ ?_ ?_ ?_ ?_ vs ?_ ⟨⟨rfl, l.releases, hl⟩, young⟩
  · exact fun m' q h => ⟨h.1.release q, h.2⟩
  · refine fun m' o h => ⟨h.1.take o, fun v hv => h.2 v ?_⟩
    obtain ⟨e, he, held⟩ := List.mem_flatMap.mp hv
    exact List.mem_flatMap.mpr ⟨e, List.mem_of_mem_filter he, held⟩
  · exact fun l id => l.chained_release id p f g r
  · intro m' a h ha
    by_cases handler : a ∈ handles (f.toList ++ g.toList)
    · -- the handlers are held by the frame anyway
      obtain ⟨v, hv, has⟩ := mem_handles.mp handler
      have frame (y : Machine) (stack : y.stack = m.stack) : y.holds a = true :=
        holds_of_stack (stack ▸ mem) (kept v hv) has
      exact (frame (m'.modifyLoop k _) h.1.stack).trans (frame m' h.1.stack).symm
    · obtain ⟨releases, found⟩ := h.1.loop
      exact holds_modifyLoop found (Loop.loopHolds_chained (l := { l with releases })
        ⟨sound.wf, sound.valueless⟩ hr ha handler)
  · intro m' h v hv a ha e
    exact h.2 v hv (e ▸ ha)
  · intro v hv a ha e
    exact old v hv (e ▸ ha)

-- ---------------------------------------------------------------------------
-- The two orders
-- ---------------------------------------------------------------------------

/-- Two things are done in a machine, one after the other, and in the other order.  The first comes back with a
value each time, which is handed on in the end, and the second with none. -/
structure Swaps (first second : Machine → Machine) (m : Machine) (v : Value) (x y : Machine) : Prop where
  forth : ∃ a b, ComesBack first m (.value v) a ∧ ComesBack second (a.signal .done) .done b ∧
    x = b.signal (.value v)
  back : ∃ b, ComesBack second m .done b ∧ ComesBack first b (.value v) y

/-- The record of an id is there, and has been handled. -/
def HasHandled (m : Machine) (k : LoopId) (id : PromiseId) : Prop :=
  ∃ l r, m.loop? k = some l ∧ l.heap.Wf ∧ l.heap.get? id = some r ∧ r.isHandled = true

/-- Handlers are registered on a promise whose lock is free, and it is settled. -/
theorem forth_of_free (h : m.Hosts k l (.promise p :: v :: (f.toList ++ g.toList))) (wf : l.heap.Wf)
    (hr : l.record p = .ok r) (free : r.alreadyResolved = false) (pending : r.state = .pending)
    (native : l.bridge = .native) (side : Side) (plain : side = .fulfill → ∀ o, v ≠ .object o) :
    ∃ a, ComesBack (fun m => m.attach k p f g []) m (.value (.promise l.newPromise.1)) a ∧
      ComesBack (settling side k p v) (a.signal .done) .done (drop (r.left (Destiny.of p side v))
        ((m.setLoop ((l.chained p f g r).met p (Destiny.of p side v))).signal .done)) := by
  let d := l.newPromise.1
  let fate := Destiny.of p side v
  obtain ⟨top, mem, kept⟩ := h.holds
  have attached := attach_of_prompt h.loop wf hr (by simp [Loop.handledLate, pending]) mem
    (f := f) (g := g) fun w hw => kept w (List.mem_cons_of_mem _ (List.mem_cons_of_mem _ hw))
  have hosts := h.setLoop _ (l.id_chained p f g r) .done
  have hr' : (l.chained p f g r).record p = .ok (r.registered f g d) := by
    obtain ⟨home, hr⟩ := Loop.record_eq_ok.mp hr
    exact Loop.record_eq_ok.mpr ⟨home.trans (l.id_chained p f g r).symm, Loop.get?_chained wf hr⟩
  have settled := comesBack_settling hosts hr' (by simpa using free) (by simpa using pending)
    (by simpa using native) (List.mem_cons_self ..) side plain
  refine ⟨_, comesBack_at_once attached rfl rfl, ?_⟩
  let A := (l.chained p f g r).met p fate
  have id : A.id = l.id := (Loop.id_met ..).trans (l.id_chained p f g r)
  have same : drop ((r.registered f g d).left fate) ((((m.setLoop (l.chained p f g r)).signal .done).setLoop A).signal
      .done) = drop (r.left fate) ((m.setLoop A).signal .done) := by
    have put := congrArg (·.signal .done) (setLoop_setLoop m (l.chained p f g r) A (Loop.id_met ..))
    rw [Record.left_registered f g d pending]
    refine (congrArg (drop _) put).trans ?_
    refine drop_append_of_kept (Q := fun y => y.Still k A m.stack) (fun _ q still => still.release q)
      (fun _ o still => still.take o) (fun y still w hw a ha => ?_) _ ⟨rfl, A.releases, (h.setLoop _ id .done).loop⟩
    rcases Record.mem_unusedReaction hw with handler | rfl
    · exact holds_of_stack (still.stack ▸ mem) (kept w (by simp at handler ⊢; tauto)) ha
    · -- a promise that adopts another one has no use for the handlers so far
      obtain rfl : Handle.promise d = a := Option.some.inj ha
      cases hf : fate with
      | adopts q => rw [hf] at hw; simp [Record.met, Record.unusedReaction, pending] at hw
      | settles side v =>
        refine still.holds_of_loop ?_
        have holds := Loop.loopHolds_derived (f := f) (g := g) wf (Loop.record_eq_ok.mp hr).2 pending side v
        rwa [← hf] at holds
  rw [← same]
  exact settled

/-- The promise is settled first. -/
theorem back_of_free (h : m.Hosts k l (.promise p :: v :: (f.toList ++ g.toList))) (sound : l.Sound)
    (hr : l.record p = .ok r) (free : r.alreadyResolved = false) (pending : r.state = .pending)
    (unreported : r.rejectionReported = false) (native : l.bridge = .native)
    (young : m.holds (.promise l.newPromise.1) = false) (side : Side)
    (plain : side = .fulfill → ∀ o, v ≠ .object o) :
    ∃ b, ComesBack (settling side k p v) m .done b ∧
      ComesBack (fun m => m.attach k p f g []) b (.value (.promise l.newPromise.1))
        ((drop (r.left (Destiny.of p side v)) ((m.setLoop ((l.met p (Destiny.of p side v)).chained p f g
          (r.met (Destiny.of p side v)))).signal .done)).signal (.value (.promise l.newPromise.1))) := by
  let d := l.newPromise.1
  let fate := Destiny.of p side v
  let L := l.met p fate
  let b := drop (r.left fate) ((m.setLoop L).signal .done)
  obtain ⟨top, mem, kept⟩ := h.holds
  obtain ⟨home, found⟩ := Loop.record_eq_ok.mp hr
  have id : L.id = l.id := Loop.id_met ..
  have soundL : L.Sound := Loop.sound_met sound found pending fate
  have foundL : L.heap.get? p.id = some (r.met fate) := by
    rw [Loop.heap_met found pending, Heap.get?_modify, found]
    rfl
  have same : L.newPromise.1 = d := Loop.newPromise_met sound.wf found pending fate
  have settled : ComesBack (settling side k p v) m .done b :=
    comesBack_settling h hr free pending native (List.mem_cons_self ..) side plain
  refine ⟨b, settled, ?_⟩
  -- what the host finds by then
  have loopL := (h.setLoop _ id .done).loop
  obtain ⟨released, look⟩ := exists_loop?_drop (r.left fate) ((m.setLoop L).signal .done) k
  rw [loopL, Option.map_some] at look
  have mem' : top ∈ b.stack := by
    rw [stack_drop]
    exact mem
  have attached := attach_of_prompt look (f := f) (g := g) soundL.wf
    (Loop.record_eq_ok.mpr ⟨home.trans id.symm, foundL⟩) (Record.handledLate_met pending unreported fate) mem'
    fun w hw => kept w (List.mem_cons_of_mem _ (List.mem_cons_of_mem _ hw))
  have registered : (b.setLoop (Loop.chained { L with releases := L.releases ++ released } p f g (r.met fate))) =
      drop (r.left fate) ((m.setLoop (L.chained p f g (r.met fate))).signal .done) := by
    -- nobody knows the new promise before
    have unknown (w : Value) (hw : w ∈ m.held) : w.handle? ≠ some (.promise L.newPromise.1) := fun hd => by
      rw [same] at hd
      exact absurd (holds_of_mem hw hd) (by simp [d, young])
    have held (w : Value) (hw : w ∈ r.left fate) : w ∈ m.held := by
      have inside : w ∈ l.held := by
        simp [Loop.held, Heap.mem_held_of_get? found (Record.mem_held_of_left hw)]
      exact mem_held.mpr (.inr (.inr (.inr (.inl (mem_heldByLoops.mpr ⟨k, l, h.loop, inside⟩)))))
    have commute := drop_chained (m := (m.setLoop L).signal .done) (f := f) (g := g) loopL soundL foundL mem
      (fun w hw => kept w (List.mem_cons_of_mem _ (List.mem_cons_of_mem _ hw)))
      (fun w hw => unknown w (mem_held.mpr (by simp [show w ∈ m.heldByObjects from hw]))) (r.left fate)
      fun w hw => unknown w (held w hw)
    have put := modifyLoop_of_found (fun x => x.chained p f g (r.met fate)) loopL
      ((Loop.id_chained ..).trans (id.trans h.id))
    have put' := modifyLoop_of_found (fun x => x.chained p f g (r.met fate)) look
      ((Loop.id_chained ..).trans (id.trans h.id))
    have twice := congrArg (·.signal .done) (setLoop_setLoop m L (L.chained p f g (r.met fate)) (Loop.id_chained ..))
    exact put'.symm.trans (commute.symm.trans (congrArg (drop _) (put.trans twice)))
  have eq : b.attach k p f g [] = (drop (r.left fate)
      ((m.setLoop (L.chained p f g (r.met fate))).signal .done)).signal (.value (.promise d)) := by
    rw [← registered, ← same]
    exact attached
  exact comesBack_at_once eq (by simp [b, signal, setLoop, modifyLoop]) rfl

/-- Twins remain twins if an exception is made. -/
theorem Paired.widen {past : List Pair} {m' : Machine} (h : Paired none past m m') (gap : Gap) :
    Paired gap past m m' where
  same := h.same
  loops := h.loops.imp fun _ _ rel => by
    cases rel with
    | none => exact .none
    | some alike => exact .some (alike.widen gap)
  placed := h.placed
  pairs := h.pairs

/-- Where the lock of a promise is free, handlers may be registered before it is settled, or after. -/
theorem swaps_of_free {past : List Pair} (h : m.Hosts k l (.promise p :: v :: (f.toList ++ g.toList)))
    (twins : Twins none past m m) (sound : l.Sound) (hr : l.record p = .ok r) (free : r.alreadyResolved = false)
    (pending : r.state = .pending) (unreported : r.rejectionReported = false) (native : l.bridge = .native)
    (young : m.holds (.promise l.newPromise.1) = false) (side : Side)
    (plain : side = .fulfill → ∀ o, v ≠ .object o) :
    ∃ x y, Swaps (fun m => m.attach k p f g []) (settling side k p v) m (.promise l.newPromise.1) x y ∧
      Twins (some (k, p.id)) past x y ∧ x.HasHandled k p.id := by
  let d := l.newPromise.1
  let fate := Destiny.of p side v
  let A := (l.chained p f g r).met p fate
  let B := (l.met p fate).chained p f g (r.met fate)
  obtain ⟨home, found⟩ := Loop.record_eq_ok.mp hr
  obtain ⟨-, -, -, -, -, flat⟩ := twins.toPaired.exists_alike h.loop
  have alike : A.Alike (some (k, p.id)) B := by
    rw [← h.id]
    exact Loop.chained_met sound.wf found pending unreported flat fate fun w hw => Destiny.plain_of_of hw home
  have id : A.id = l.id := (Loop.id_met ..).trans (l.id_chained p f g r)
  have put : Twins (some (k, p.id)) past (m.setLoop A) (m.setLoop B) :=
    ⟨(twins.toPaired.widen _).setLoop h.loop alike id, twins.asks⟩
  obtain ⟨a, forth, settled⟩ := forth_of_free h sound.wf hr free pending native side plain
  refine ⟨_, _, ⟨⟨a, _, forth, settled, rfl⟩, back_of_free h sound hr free pending unreported native young side
    plain⟩, ((put.signal .done).drop _).signal _, ?_⟩
  -- registering has marked the record as handled, and settling leaves the mark
  have chained := Loop.get?_chained (f := f) (g := g) sound.wf found
  have heap : A.heap = (l.chained p f g r).heap.modify p.id fun _ => (r.registered f g d).met fate :=
    Loop.heap_met chained (by simpa using pending) fate
  obtain ⟨released, look⟩ := loop?_drop_of (r.left fate) (h.setLoop _ id .done).loop
  refine ⟨_, (r.registered f g d).met fate, look, ?_, ?_, by simp⟩
  · exact heap ▸ (Loop.wf_chained sound.wf hr f g).modify _ _
  · show A.heap.get? p.id = _
    rw [heap, Heap.get?_modify, chained]
    rfl

end Machine
end PromiseLoop

import PromiseLoop.Proofs.Handles.Ledger
import PromiseLoop.Proofs.Records

/-!
# What loops take and give

An operation of a loop takes values in and gives values out, and neither makes nor loses any handle
on the way.  `Loop.Trades` says so for the operations that neither create nor free a record.

## Results

* `Loop.trades_settle`: settling takes the value and gives back the reactions of the other side.
* `Loop.trades_registered`: registering takes the handlers and gives the job and what is not needed.
* `Loop.frees`: freeing a record gives what it held.
-/

namespace PromiseLoop

-- ---------------------------------------------------------------------------
-- What heaps hold
-- ---------------------------------------------------------------------------

namespace Heap

variable {h : Heap} {id : PromiseId} {r : Record}

/-- The handles that a slot holds. -/
def slotHandles (s : Slot) : List Handle := (s.record.map fun r => handles r.held).getD []

theorem handles_held (h : Heap) : handles h.held = h.slots.flatMap slotHandles := by
  rw [held, handles_flatMap, records]
  induction h.slots with
  | nil => rfl
  | cons s slots ih =>
    cases hs : s.record with
    | none => rw [List.filterMap_cons_none hs, ih, List.flatMap_cons, slotHandles, hs]; rfl
    | some r =>
      rw [List.filterMap_cons_some hs, List.flatMap_cons, List.flatMap_cons, ih, slotHandles, hs]
      rfl

/-- What a heap holds is what one record holds and what the others do. -/
theorem exists_others (hr : h.get? id = some r) : ∃ others : List Handle, ∀ a,
    (a ∈ handles h.held ↔ a ∈ others ∨ a ∈ handles r.held) ∧
    (∀ f : Record → Record,
      a ∈ handles (h.modify id f).held ↔ a ∈ others ∨ a ∈ handles (f r).held) ∧
    (a ∈ handles (h.vacated id).held ↔ a ∈ others) := by
  obtain ⟨others, split⟩ := mem_flatMap_modify (get?_eq_some.mp hr) slotHandles
  refine ⟨others, fun a => ⟨?_, fun f => ?_, ?_⟩⟩
  · rw [handles_held, (split a).1]
    rfl
  · rw [handles_held]
    refine ((split a).2 _).trans ?_
    simp [slotHandles]
  · rw [handles_held]
    refine ((split a).2 _).trans ?_
    simp [slotHandles]

/-- A new record holds nothing, and takes the place of no other one. -/
theorem mem_handles_held_allocate (wf : h.Wf) (a : Handle) :
    a ∈ handles (h.allocate .pending).2.held ↔ a ∈ handles h.held := by
  cases hv : h.vacant with
  | nil =>
    rw [allocate_of_full _ hv, handles_held, handles_held]
    simp [slotHandles, Record.pending, Record.held, heldByReactions]
  | cons i rest =>
    obtain ⟨g, hg, ha⟩ := allocate_of_vacant wf .pending hv
    obtain ⟨others, split⟩ := mem_flatMap_modify hg slotHandles
    rw [ha, handles_held, handles_held, (split a).1]
    refine ((split a).2 _).trans ?_
    simp [slotHandles, Record.pending, Record.held, heldByReactions]

theorem slots_modify (h : Heap) (id : PromiseId) (f : Record → Record) :
    (h.modify id f).slots.length = h.slots.length := List.length_modify ..

theorem slots_allocate (h : Heap) (r : Record) : h.slots.length ≤ (h.allocate r).2.slots.length := by
  unfold allocate
  split <;> simp

theorem live_modify (h : Heap) (id k : PromiseId) (f : Record → Record) :
    (h.modify id f).Live k ↔ h.Live k := by
  unfold Live
  rw [get?_modify_ite]
  split
  · rename_i hk
    rw [hk]
    cases h.get? id <;> simp
  · rfl

end Heap

-- ---------------------------------------------------------------------------
-- Trades
-- ---------------------------------------------------------------------------

/-- A record holds the reason it would be reported with. -/
theorem Record.mem_handles_of_reason {r : Record} {a : Handle} (h : r.reason.handle? = some a) :
    a ∈ handles r.held := by
  unfold reason at h
  cases hv : r.value with
  | none =>
    rw [hv] at h
    cases h
  | some v =>
    rw [hv] at h
    simp [held, hv, show v.handle? = some a from h]

namespace Loop

variable {l l' : Loop}

/-- A loop whose heap is in order and whose pending promises have no value yet. -/
structure Sound (l : Loop) : Prop where
  wf : l.heap.Wf
  valueless : ∀ id r, l.heap.get? id = some r → r.state = .pending → r.value = none

theorem sound_new (id : LoopId) (config : Config) (tracker : Tracker) (bridge : Bridge) :
    Sound { id, config, tracker, bridge } where
  wf := .empty_heap
  valueless id r hr := by simp at hr

/-- The handles that a loop holds. -/
theorem mem_handles_held {a : Handle} : a ∈ handles l.held ↔
    a ∈ handles (l.log.flatMap RejectionEvent.held) ∨ a ∈ handles l.heap.held ∨
      a ∈ l.inFlight.map Handle.promise ∨ a ∈ handles (l.microtasks.entries.flatMap Job.held) := by
  simp [held]

/-- An operation of a loop takes values in and gives values out.  No handle is made or lost by it, and
no record. -/
structure Trades (l l' : Loop) (taken given : List Value) : Prop where
  id : l'.id = l.id
  sound : l'.Sound
  held : ∀ a, (a ∈ handles l'.held ∨ a ∈ handles given) ↔
    (a ∈ handles l.held ∨ a ∈ handles taken)
  releases : l'.releases = l.releases
  live : ∀ k, l'.heap.Live k ↔ l.heap.Live k
  slots : l.heap.slots.length ≤ l'.heap.slots.length

variable {taken given : List Value}

/-- Operations that leave the records alone. -/
theorem trades_of_heap (h : l.Sound) (id : l'.id = l.id) (heap : l'.heap = l.heap)
    (releases : l'.releases = l.releases)
    (held : ∀ a, (a ∈ handles l'.held ∨ a ∈ handles given) ↔
      (a ∈ handles l.held ∨ a ∈ handles taken)) : l.Trades l' taken given where
  id := id
  sound := ⟨heap ▸ h.wf, heap ▸ h.valueless⟩
  held := held
  releases := releases
  live _ := by rw [heap]
  slots := Nat.le_of_eq (by rw [heap])

/-- Operations that change neither records nor what else the loop holds. -/
theorem trades_of_eq (h : l.Sound) (id : l'.id = l.id) (heap : l'.heap = l.heap)
    (releases : l'.releases = l.releases) (log : l'.log = l.log) (inFlight : l'.inFlight = l.inFlight)
    (microtasks : l'.microtasks = l.microtasks) : l.Trades l' [] [] :=
  trades_of_heap h id heap releases fun a => by
    rw [mem_handles_held, mem_handles_held, log, heap, inFlight, microtasks]

/-- Operations that change one record. -/
theorem trades_of_modify (h : l.Sound) {k : PromiseId} {r : Record} (hr : l.heap.get? k = some r)
    (f : Record → Record) (id : l'.id = l.id) (heap : l'.heap = l.heap.modify k f)
    (releases : l'.releases = l.releases)
    (valueless : (f r).state = .pending → (f r).value = none)
    (held : ∀ a, (a ∈ handles l'.held ∨ a ∈ handles given) ↔
      (a ∈ handles l.held ∨ a ∈ handles taken)) : l.Trades l' taken given where
  id := id
  sound := by
    refine ⟨heap ▸ h.wf.modify k f, fun i x hx hs => ?_⟩
    rw [heap, Heap.get?_modify_ite] at hx
    split at hx
    · rename_i hi
      rw [hi, hr] at hx
      obtain rfl := Option.some.inj hx
      exact valueless hs
    · exact h.valueless i x hx hs
  held := held
  releases := releases
  live i := by rw [heap, Heap.live_modify]
  slots := Nat.le_of_eq (by rw [heap, Heap.slots_modify])

/-- Operations that mark one record. -/
theorem trades_of_mark (h : l.Sound) {k : PromiseId} {r : Record} (hr : l.heap.get? k = some r)
    (f : Record → Record) (id : l'.id = l.id) (heap : l'.heap = l.heap.modify k f)
    (releases : l'.releases = l.releases) (log : l'.log = l.log) (inFlight : l'.inFlight = l.inFlight)
    (microtasks : l'.microtasks = l.microtasks) (state : (f r).state = r.state)
    (value : (f r).value = r.value) (held : (f r).held = r.held) : l.Trades l' [] [] := by
  obtain ⟨others, split⟩ := Heap.exists_others hr
  refine trades_of_modify h hr f id heap releases (fun hs => ?_) fun a => ?_
  · rw [value]
    exact h.valueless k r hr (state ▸ hs)
  · rw [mem_handles_held, mem_handles_held, log, heap, inFlight, microtasks, (split a).2.1,
      (split a).1, held]

theorem Trades.refl (h : l.Sound) : l.Trades l [] [] := trades_of_eq h rfl rfl rfl rfl rfl rfl

theorem Trades.trans {l'' : Loop} (h : l.Trades l' [] []) (h' : l'.Trades l'' [] []) :
    l.Trades l'' [] [] where
  id := h'.id.trans h.id
  sound := h'.sound
  held a := (h'.held a).trans (h.held a)
  releases := h'.releases.trans h.releases
  live k := (h'.live k).trans (h.live k)
  slots := Nat.le_trans h.slots h'.slots

/-- What the jobs of reactions hold. -/
theorem mem_handles_fired (rs : List Reaction) (v : Value) (a : Handle) :
    (a ∈ handles ((rs.map (Job.reaction · v)).flatMap Job.held) ∨ v.handle? = some a) ↔
      (a ∈ handles (heldByReactions rs) ∨ v.handle? = some a) := by
  induction rs with
  | nil => rfl
  | cons r rs ih =>
    simp only [List.map_cons, List.flatMap_cons, heldByReactions, Job.held, handles_append,
      List.mem_append, mem_handles_cons, handles_nil, List.not_mem_nil, or_false] at ih ⊢
    grind

section

variable (h : l.Sound)
include h

theorem trades_note (e : Event) : l.Trades (l.note e) [] [] := trades_of_eq h rfl rfl rfl rfl rfl rfl

theorem trades_startDraining : l.Trades l.startDraining [] [] :=
  trades_of_eq h rfl rfl rfl rfl rfl rfl

theorem trades_stopDraining : l.Trades l.stopDraining [] [] := trades_of_eq h rfl rfl rfl rfl rfl rfl

theorem trades_drained : l.Trades (l.stopDraining.note .drained) [] [] :=
  trades_of_eq h rfl rfl rfl rfl rfl rfl

theorem trades_enqueueTask (w : Work) : l.Trades (l.enqueueTask w) [] [] :=
  trades_of_eq h rfl rfl rfl rfl rfl rfl

theorem trades_post (r : Report) : l.Trades (l.post r) [] [] := trades_of_eq h rfl rfl rfl rfl rfl rfl

theorem trades_releaseWorker : l.Trades l.releaseWorker.2 [] [] := by
  unfold releaseWorker
  split
  · exact .refl h
  · exact trades_of_eq h rfl rfl rfl rfl rfl rfl

theorem trades_enqueue (j : Job) : l.Trades (l.enqueue j) j.held [] :=
  trades_of_heap h rfl rfl rfl fun a => by
    simp [mem_handles_held, enqueue, note, Queue.enqueue, or_assoc]

theorem trades_dequeue? {j : Job} (hd : l.dequeue? = some (j, l')) : l.Trades l' [] j.held := by
  obtain ⟨⟨j', q⟩, hq, heq⟩ := Option.map_eq_some_iff.mp hd
  obtain ⟨rfl, rfl⟩ := Prod.mk.inj heq
  have entries := (Queue.dequeue?_eq_some_iff _ _ _).mp hq
  refine trades_of_heap h rfl rfl rfl fun a => ?_
  simp only [mem_handles_held, note, entries, List.flatMap_cons, handles_append, List.mem_append,
    handles_nil, List.not_mem_nil, or_false]
  grind

theorem trades_dequeueTask? {w : Work} (hd : l.dequeueTask? = some (w, l')) : l.Trades l' [] [] := by
  obtain ⟨⟨w', q⟩, -, heq⟩ := Option.map_eq_some_iff.mp hd
  rw [← (Prod.mk.inj heq).2]
  exact trades_of_eq h rfl rfl rfl rfl rfl rfl

theorem trades_receive? (hr : l.receive? = some l') : l.Trades l' [] [] := by
  unfold receive? at hr
  split at hr
  · cases hr
  · rw [← Option.some.inj hr]
    refine trades_of_heap h rfl rfl rfl fun a => ?_
    simp [mem_handles_held, enqueue, note, Queue.enqueue, Job.held]

theorem trades_deliver : l.Trades l.deliver [] [] := by
  have fold : ∀ (rs : List Report) (l : Loop), l.Sound →
      l.Trades (rs.foldl (fun l r => l.enqueue (.settlement r)) l) [] [] := by
    intro rs
    induction rs with
    | nil => exact fun _ h => .refl h
    | cons r rs ih =>
      intro l h
      have first : l.Trades (l.enqueue (.settlement r)) [] [] := trades_enqueue h (.settlement r)
      exact first.trans (ih _ first.sound)
  have emptied : l.Trades { l with channel := [] } [] [] := trades_of_eq h rfl rfl rfl rfl rfl rfl
  exact emptied.trans (fold _ _ emptied.sound)

theorem trades_lock {p : Promise} {accepted : Bool} (hl : l.lock p = .ok (accepted, l')) :
    l.Trades l' [] [] := by
  obtain ⟨r, hr, -, rfl⟩ := lock_eq_ok.mp hl
  obtain ⟨-, hr⟩ := record_eq_ok.mp hr
  exact trades_of_mark h hr (fun r => { r with alreadyResolved := true }) rfl rfl rfl rfl rfl rfl rfl
    rfl rfl

theorem trades_settle (k : PromiseId) (s : State) (v : Value) :
    l.Trades (l.settle k s v).1 [v] (l.settle k s v).2 := by
  rcases settle_cases l k s v with heq | ⟨r, hr, hs, hne, heq⟩
  · rw [heq]
    exact trades_of_heap h rfl rfl rfl fun a => Iff.rfl
  · obtain ⟨others, split⟩ := Heap.exists_others hr
    have before : handles r.held =
        handles (heldByReactions r.fulfillReactions) ++ handles (heldByReactions r.rejectReactions) := by
      simp [Record.held, h.valueless _ r hr hs]
    rw [heq]
    refine trades_of_modify h hr (fun _ => r.settled s v) rfl rfl rfl (fun ha => absurd ha hne)
      fun a => ?_
    have fired := mem_handles_fired (r.released s).fire v a
    have sides : (a ∈ handles (heldByReactions (r.released s).fire) ∨
        a ∈ handles (heldByReactions (r.released s).discarded)) ↔
        (a ∈ handles (heldByReactions r.fulfillReactions) ∨
          a ∈ handles (heldByReactions r.rejectReactions)) := by
      cases s
      · exact absurd rfl hne
      · exact Iff.rfl
      · exact or_comm
    have after : a ∈ handles (r.settled s v).held ↔ v.handle? = some a := by
      simp [Record.settled, Record.held, heldByReactions]
    simp only [mem_handles_held, List.flatMap_append, handles_append, List.mem_append,
      mem_handles_cons, handles_nil, List.not_mem_nil, or_false]
    rw [(split a).2.1, (split a).1, before, after, List.mem_append]
    grind

theorem trades_land (k : PromiseId) :
    l.Trades (l.land k).2 [] ((l.land k).1.toList.map .promise) := by
  refine trades_of_heap h rfl rfl rfl fun a => ?_
  have struck (p : Promise) : (p ∈ l.inFlight.eraseP (fun q => q.id = k) ∨
      l.inFlight.find? (fun q => q.id = k) = some p) ↔ p ∈ l.inFlight := by
    induction l.inFlight with
    | nil => simp
    | cons q ps ih =>
      by_cases hq : q.id = k
      · simp [hq, or_comm, @eq_comm _ p q]
      · simp [hq, or_assoc, ih]
  simp only [mem_handles_held, land, handles_map_promise, handles_nil, List.not_mem_nil, or_false,
    List.mem_map, Option.mem_toList]
  simp only [← struck]
  grind

/-- A report that goes to a log leaves its reason there. -/
theorem trades_report {reason : Value} (k : PromiseId) :
    l.Trades (l.report k reason) [reason] [reason] := by
  rw [report_eq]
  refine trades_of_heap h rfl rfl rfl fun a => ?_
  simp only [mem_handles_held]
  split
  · simp only [List.flatMap_append, List.flatMap_cons, RejectionEvent.held, List.flatMap_nil,
      handles_append, List.mem_append, handles_nil, List.not_mem_nil, or_false]
    grind
  · rfl

theorem trades_takeReports : l.Trades l.takeReports.2 [] [] := by
  have fold : ∀ (ids : List PromiseId) (acc : List (PromiseId × Value) × Loop), acc.2.Sound →
      acc.2.Trades (ids.foldl selectReport acc).2 [] [] := by
    intro ids
    induction ids with
    | nil => exact fun _ h => .refl h
    | cons k ids ih =>
      intro acc h
      have first : acc.2.Trades (selectReport acc k).2 [] [] := by
        unfold selectReport
        split
        · exact .refl h
        · rename_i r hr
          split
          · exact trades_of_mark h hr (fun r => { r with rejectionReported := true }) rfl rfl rfl rfl
              rfl rfl rfl rfl rfl
          · exact .refl h
      exact first.trans (ih _ first.sound)
  have cleared : l.Trades { l with awaiting := [] } [] [] := trades_of_eq h rfl rfl rfl rfl rfl rfl
  unfold takeReports
  dsimp only
  split
  · exact cleared.trans (fold l.awaiting ([], { l with awaiting := [] }) cleared.sound)
  · exact cleared

omit h in
/-- The reason of a selected report is held by its record. -/
theorem mem_handles_of_takeReports {e : PromiseId × Value} (he : e ∈ l.takeReports.1) {a : Handle}
    (ha : e.2.handle? = some a) : a ∈ handles l.held := by
  obtain ⟨heap, -, sel, -⟩ := takeReports_spec l
  obtain ⟨r, hr, -, hreason⟩ := sel.awaited e he
  obtain ⟨others, split⟩ := Heap.exists_others hr
  have held : a ∈ handles r.held := Record.mem_handles_of_reason (hreason ▸ ha)
  exact mem_handles_held.mpr (.inr (.inl ((split a).1.mpr (.inr held))))

theorem trades_endAttach (derived : Promise) (job : Option Job) :
    l.Trades (l.endAttach derived job) ((job.map Job.held).getD []) [] := by
  cases job with
  | none => exact trades_of_eq h rfl rfl rfl rfl rfl rfl
  | some j =>
    have queued := trades_enqueue h j
    refine ⟨rfl, (trades_note queued.sound (.returned derived)).sound, fun a => queued.held a, rfl,
      queued.live, queued.slots⟩

end

-- ---------------------------------------------------------------------------
-- Creating and freeing records
-- ---------------------------------------------------------------------------

theorem Sound.newPromise (h : l.Sound) : l.newPromise.2.Sound where
  wf := h.wf.allocate .pending
  valueless k r hr hs := by
    rcases Heap.get?_allocate h.wf .pending k with heq | ⟨-, -, heq⟩
    · exact h.valueless k r (heq.symm.trans hr) hs
    · rw [← Option.some.inj (heq.symm.trans hr)]
      rfl

/-- A new promise holds nothing. -/
theorem mem_handles_held_newPromise (h : l.Sound) (a : Handle) :
    a ∈ handles l.newPromise.2.held ↔ a ∈ handles l.held := by
  rw [mem_handles_held, mem_handles_held]
  exact or_congr_right (or_congr_left (Heap.mem_handles_held_allocate h.wf a))

/-- As long as there is room, a new promise gets an id that was free. -/
theorem live_newPromise (h : l.Sound) (room : l.newPromise.2.heap.slots.length < 2 ^ 32) :
    ¬ l.heap.Live l.newPromise.1.id ∧
      ∀ k, l.newPromise.2.heap.Live k ↔ k = l.newPromise.1.id ∨ l.heap.Live k := by
  obtain ⟨new, found⟩ := Heap.get?_allocate_self h.wf .pending (Nat.le_of_lt room)
  refine ⟨fun ⟨r, hr⟩ => ?_, fun k => ⟨fun ⟨r, hr⟩ => ?_, fun hk => ?_⟩⟩
  · rw [show l.heap.get? l.newPromise.1.id = none from new] at hr
    cases hr
  · rcases Heap.get?_allocate h.wf .pending k with heq | ⟨hk, -, -⟩
    · exact .inr ⟨r, heq.symm.trans hr⟩
    · exact .inl hk
  · rcases hk with rfl | ⟨r, hr⟩
    · exact ⟨_, found⟩
    · exact ⟨r, Heap.get?_allocate_of_some h.wf .pending hr⟩

/-- What a record holds after a registration, and what the registration gives, is what the record held
and what the registration took. -/
theorem mem_handles_registered (r : Record) (f g : Option Value) (d : Promise) (a : Handle) :
    (a ∈ handles (r.registered f g d).held ∨
      a ∈ handles (((r.reactionJob f g d).map Job.held).getD [] ++ r.unusedReaction f g d)) ↔
    (a ∈ handles r.held ∨ a ∈ handles (.promise d :: (f.toList ++ g.toList))) := by
  have reason := @Record.mem_handles_of_reason r a
  cases hs : r.state
  · simp [Record.registered, Record.reactionJob, Record.unusedReaction, Record.isPending, hs,
      Record.addReaction, Record.held, heldByReactions, Reaction.held]
    grind
  · have held : (r.registered f g d).held = r.held := by
      simp [Record.registered, Record.isPending, hs, Record.held]
    simp [held, Record.reactionJob, Record.unusedReaction, hs, Job.held, Reaction.held]
    grind
  · have held : (r.registered f g d).held = r.held := by
      simp [Record.registered, Record.isPending, hs, Record.held]
    simp [held, Record.reactionJob, Record.unusedReaction, hs, Job.held, Reaction.held]
    grind

/-- Registering takes the handlers and the derived promise, and gives the job and what is not
needed. -/
theorem trades_registered (h : l.Sound) {q : Promise} {r : Record} (hr : l.heap.get? q.id = some r)
    (f g : Option Value) : l.newPromise.2.Trades (l.registered q f g r)
      (.promise l.newPromise.1 :: (f.toList ++ g.toList))
      (((r.reactionJob f g l.newPromise.1).map Job.held).getD [] ++
        r.unusedReaction f g l.newPromise.1) := by
  have found : l.newPromise.2.heap.get? q.id = some r := Heap.get?_allocate_of_some h.wf .pending hr
  obtain ⟨others, split⟩ := Heap.exists_others found
  refine trades_of_modify h.newPromise found (fun _ => r.registered f g l.newPromise.1) rfl rfl rfl
    (fun hs => ?_) fun a => ?_
  · rw [Record.state_registered] at hs
    rw [Record.value_registered]
    exact h.valueless q.id r hr hs
  · have logged : a ∈ handles ((l.registered q f g r).log.flatMap RejectionEvent.held) ↔
        a ∈ handles (l.log.flatMap RejectionEvent.held) := by
      unfold registered
      dsimp only
      split
      · simp [RejectionEvent.held]
      · rfl
    have traded := mem_handles_registered r f g l.newPromise.1 a
    have heap : a ∈ handles (l.registered q f g r).heap.held ↔
        a ∈ others ∨ a ∈ handles (r.registered f g l.newPromise.1).held := (split a).2.1 _
    rw [mem_handles_held, mem_handles_held, logged, heap, (split a).1]
    show (_ ∨ _ ∨ a ∈ l.inFlight.map Handle.promise ∨
        a ∈ handles (l.microtasks.entries.flatMap Job.held)) ∨ _ ↔
      (a ∈ handles (l.log.flatMap RejectionEvent.held) ∨ _ ∨ a ∈ l.inFlight.map Handle.promise ∨
        a ∈ handles (l.microtasks.entries.flatMap Job.held)) ∨ _
    grind

/-- A record is freed and gives what it held. -/
structure Frees (l l' : Loop) (k : PromiseId) (r : Record) : Prop where
  id : l'.id = l.id
  sound : l'.Sound
  held : ∀ a, (a ∈ handles l'.held ∨ a ∈ handles r.held) ↔ a ∈ handles l.held
  releases : l'.releases = l.releases
  live : ∀ i, l'.heap.Live i ↔ l.heap.Live i ∧ i ≠ k
  slots : l.heap.slots.length ≤ l'.heap.slots.length

theorem frees_of_free? (h : l.Sound) {k : PromiseId} {r : Record} (hf : l.free? k = some (r, l')) :
    l.Frees l' k r := by
  have hr := (free?_eq_some.mp hf).1
  have heap := heap_free? hf
  have found (i : PromiseId) : l'.heap.get? i = if i = k then none else l.heap.get? i := by
    rw [heap, Heap.get?_vacated_of_get? hr]
  obtain ⟨others, split⟩ := Heap.exists_others hr
  have rest : l'.releases = l.releases ∧ l'.inFlight = l.inFlight ∧ l'.microtasks = l.microtasks ∧
      (l'.log = l.log ∨ l'.log = l.log ++ [.unhandled k r.reason]) := by
    obtain ⟨-, rfl⟩ := free?_eq_some.mp hf
    split
    · rw [report_eq]
      refine ⟨rfl, rfl, rfl, ?_⟩
      show (if _ then _ else _) = _ ∨ (if _ then _ else _) = _
      split
      · exact .inr rfl
      · exact .inl rfl
    · exact ⟨rfl, rfl, rfl, .inl rfl⟩
  obtain ⟨releases, inFlight, microtasks, log⟩ := rest
  refine ⟨id_free? hf, ⟨heap ▸ h.wf.vacated hr, fun i x hx hs => ?_⟩, fun a => ?_, releases,
    fun i => ?_, Nat.le_of_eq (by rw [heap]; exact (List.length_modify ..).symm)⟩
  · rw [found] at hx
    split at hx
    · cases hx
    · exact h.valueless i x hx hs
  · have reason := @Record.mem_handles_of_reason r a
    rw [mem_handles_held, mem_handles_held, inFlight, microtasks, heap, (split a).1, (split a).2.2]
    rcases log with log | log
    · rw [log]
      grind
    · simp only [log, List.flatMap_append, List.flatMap_cons, List.flatMap_nil, RejectionEvent.held,
        handles_append, List.mem_append, mem_handles_cons, handles_nil, List.not_mem_nil, or_false]
      grind
  · unfold Heap.Live
    rw [found]
    by_cases hi : i = k <;> simp [hi]

end Loop
end PromiseLoop

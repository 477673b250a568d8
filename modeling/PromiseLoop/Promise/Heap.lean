import PromiseLoop.Promise.Record

/-!
# The promise heap

Records are kept in slots.  A freed slot is reused, the last freed one first, under a new
generation, so that the id of a freed record finds nothing.  Generations wrap around.

Main results:

* `get?_modify`, `get?_modify_of_ne`: a change shows under its own id and under no other.
* `remove?_eq_some_iff`: exactly the ids that find a record can be removed, and give that record.
* `get?_of_remove?`: a removed id finds nothing.
-/

namespace PromiseLoop

/-- A place for a record, with the number of records it has lost so far. -/
structure Slot where
  generation : UInt32
  record : Option Record
deriving DecidableEq, Repr, Inhabited

/-- Slots with their records, the stack of vacant slots, and the number of records. -/
structure Heap where
  slots : List Slot
  /-- The vacant slots, the last vacated one first. -/
  vacant : List UInt32
  live : Nat
deriving DecidableEq, Repr, Inhabited

namespace Heap

def empty : Heap := { slots := [], vacant := [], live := 0 }

/-- The number of records. -/
def size (h : Heap) : Nat := h.live

def isEmpty (h : Heap) : Bool := h.live = 0

/-- The number of slots, vacant ones included. -/
def capacity (h : Heap) : Nat := h.slots.length

/-- Stores a record in the last vacated slot, or in a new one. -/
def allocate (h : Heap) (r : Record) : PromiseId × Heap :=
  match h.vacant with
  | index :: vacant =>
    let generation := (h.slots[index.toNat]?.map Slot.generation).getD 0
    ({ index := index, generation := generation },
      { slots := h.slots.modify index.toNat (fun s => { s with record := some r })
        vacant := vacant
        live := h.live + 1 })
  | [] =>
    ({ index := UInt32.ofNat h.slots.length, generation := 0 },
      { slots := h.slots ++ [{ generation := 0, record := some r }]
        vacant := []
        live := h.live + 1 })

/-- The record of an id, if it has not been removed. -/
def get? (h : Heap) (id : PromiseId) : Option Record :=
  match h.slots[id.index.toNat]? with
  | some s => if s.generation = id.generation then s.record else none
  | none => none

/-- Changes the record of an id.  An id without a record changes nothing. -/
def modify (h : Heap) (id : PromiseId) (f : Record → Record) : Heap :=
  { h with slots := h.slots.modify id.index.toNat fun s =>
      if s.generation = id.generation then { s with record := s.record.map f } else s }

/-- The heap with the slot of an id vacated. -/
def vacated (h : Heap) (id : PromiseId) : Heap :=
  { slots := h.slots.modify id.index.toNat
      (fun s => { generation := s.generation + 1, record := none })
    vacant := id.index :: h.vacant
    live := h.live - 1 }

/-- Removes the record of an id and vacates its slot. -/
def remove? (h : Heap) (id : PromiseId) : Option (Record × Heap) :=
  (h.get? id).map fun r => (r, h.vacated id)

/-- The records in the order of their slots. -/
def records (h : Heap) : List Record := h.slots.filterMap Slot.record

/-- The values held by all records, slot by slot. -/
def held (h : Heap) : List Value := h.records.flatMap Record.held

/-- The numbers of records and of slots. -/
def debug (h : Heap) : String :=
  Text.fields "PromiseHeap" [("live", toString h.live), ("capacity", toString h.capacity)]

@[simp] theorem get?_empty (id : PromiseId) : empty.get? id = none := rfl

theorem size_allocate (h : Heap) (r : Record) : (h.allocate r).2.size = h.size + 1 := by
  unfold allocate
  split <;> rfl

/-! ## Looking up after a change -/

theorem get?_modify (h : Heap) (id : PromiseId) (f : Record → Record) :
    (h.modify id f).get? id = (h.get? id).map f := by
  simp only [modify, get?, List.getElem?_modify, if_true]
  cases h.slots[id.index.toNat]? with
  | none => rfl
  | some s => by_cases hg : s.generation = id.generation <;> simp [hg]

theorem get?_modify_of_ne (h : Heap) {id other : PromiseId} (hne : id ≠ other)
    (f : Record → Record) : (h.modify id f).get? other = h.get? other := by
  simp only [modify, get?, List.getElem?_modify]
  cases h.slots[other.index.toNat]? with
  | none => rfl
  | some s =>
    by_cases hi : id.index.toNat = other.index.toNat
    · have hgen : id.generation ≠ other.generation := fun hg =>
        hne (by cases id; cases other; simp_all [UInt32.toNat_inj])
      by_cases hg : s.generation = id.generation
      · simp [hi, hg, hgen]
      · simp [hg]
    · simp [hi]

/-! ## Removing -/

/-- Exactly the ids that find a record can be removed, and give that record. -/
theorem remove?_eq_some_iff (h h' : Heap) (id : PromiseId) (r : Record) :
    h.remove? id = some (r, h') ↔ h.get? id = some r ∧ h' = h.vacated id := by
  rw [remove?, Option.map_eq_some_iff]
  constructor
  · rintro ⟨r', hr', heq⟩
    obtain ⟨rfl, rfl⟩ := Prod.mk.inj heq
    exact ⟨hr', rfl⟩
  · rintro ⟨hr, rfl⟩
    exact ⟨r, hr, rfl⟩

theorem remove?_eq_none_iff (h : Heap) (id : PromiseId) :
    h.remove? id = none ↔ h.get? id = none := by
  rw [remove?, Option.map_eq_none_iff]

theorem get?_vacated (h : Heap) (id : PromiseId) : (h.vacated id).get? id = none := by
  simp only [vacated, get?, List.getElem?_modify, if_true]
  cases h.slots[id.index.toNat]? with
  | none => rfl
  | some s => simp

/-- A removed id finds nothing. -/
theorem get?_of_remove? {h h' : Heap} {id : PromiseId} {r : Record}
    (hr : h.remove? id = some (r, h')) : h'.get? id = none := by
  obtain ⟨-, rfl⟩ := (remove?_eq_some_iff h h' id r).mp hr
  exact get?_vacated h id

end Heap
end PromiseLoop

import Mathlib
import PromiseLoop.Promise.Heap

/-!
# Well-formed heaps

The vacant slots of a heap are listed once each and hold no record, and the number of records is
kept.  Then storing a record finds a free id and disturbs no other record, and removing one takes
away that record alone.

## Results

* `get?_allocate`: what is found after a record was stored.
* `get?_vacated_of_get?`: what is found after a record was removed.
* `Wf.allocate`, `Wf.modify`, `Wf.vacated`: every operation keeps a heap well-formed.
-/

namespace PromiseLoop.Heap

/-- The vacant slots are listed once each and are empty, and the records are counted. -/
structure Wf (h : Heap) : Prop where
  nodup : h.vacant.Nodup
  empty : ∀ i ∈ h.vacant, ∃ g, h.slots[i.toNat]? = some ⟨g, none⟩
  live : h.live = h.records.length

theorem Wf.empty_heap : Heap.empty.Wf :=
  ⟨List.nodup_nil, by simp [Heap.empty], rfl⟩

-- ---------------------------------------------------------------------------
-- Slots
-- ---------------------------------------------------------------------------

theorem get?_eq_some {h : Heap} {id : PromiseId} {r : Record} :
    h.get? id = some r ↔ h.slots[id.index.toNat]? = some ⟨id.generation, some r⟩ := by
  unfold get?
  cases hs : h.slots[id.index.toNat]? with
  | none => simp
  | some s =>
    obtain ⟨g, x⟩ := s
    by_cases hg : g = id.generation <;> simp [hg]

/-- Of the ids with one slot at most one finds a record. -/
theorem eq_of_get? {h : Heap} {a b : PromiseId} {r x : Record} (ha : h.get? a = some r)
    (hb : h.get? b = some x) (hi : a.index = b.index) : a = b := by
  rw [get?_eq_some] at ha hb
  rw [hi, hb] at ha
  obtain ⟨i, g⟩ := a
  obtain ⟨j, g'⟩ := b
  simp_all

theorem records_modify_of_map (slots : List Slot) (n : Nat) (f : Slot → Slot)
    (h : ∀ s, ((f s).record.isSome = s.record.isSome)) :
    ((slots.modify n f).filterMap Slot.record).length = (slots.filterMap Slot.record).length := by
  induction slots generalizing n with
  | nil => simp
  | cons s rest ih =>
    cases n with
    | zero =>
      have := h s
      cases hs : s.record <;> cases hf : (f s).record <;> simp_all
    | succ n => cases hs : s.record <;> simp [hs, ih]

theorem length_records_modify_some (slots : List Slot) (n : Nat) {s : Slot} (f : Slot → Slot)
    (hn : slots[n]? = some s) (before : s.record = none) (after : (f s).record.isSome) :
    ((slots.modify n f).filterMap Slot.record).length =
      (slots.filterMap Slot.record).length + 1 := by
  induction slots generalizing n with
  | nil => simp at hn
  | cons t rest ih =>
    cases n with
    | zero =>
      obtain rfl : t = s := by simpa using hn
      obtain ⟨r, hr⟩ := Option.isSome_iff_exists.mp after
      simp [before, hr]
    | succ n =>
      have := ih n (by simpa using hn)
      cases ht : t.record <;> simp [ht, this]

theorem length_records_modify_none (slots : List Slot) (n : Nat) {s : Slot} (f : Slot → Slot)
    (hn : slots[n]? = some s) (before : s.record.isSome) (after : (f s).record = none) :
    ((slots.modify n f).filterMap Slot.record).length + 1 =
      (slots.filterMap Slot.record).length := by
  induction slots generalizing n with
  | nil => simp at hn
  | cons t rest ih =>
    cases n with
    | zero =>
      obtain rfl : t = s := by simpa using hn
      obtain ⟨r, hr⟩ := Option.isSome_iff_exists.mp before
      simp [after, hr]
    | succ n =>
      have := ih n (by simpa using hn)
      cases ht : t.record <;> simp [ht, ← this]

-- ---------------------------------------------------------------------------
-- Storing a record
-- ---------------------------------------------------------------------------

/-- A heap with a vacant slot stores the next record there. -/
theorem allocate_of_vacant {h : Heap} (wf : h.Wf) {i : UInt32} {rest : List UInt32} (r : Record)
    (hv : h.vacant = i :: rest) :
    ∃ g, h.slots[i.toNat]? = some ⟨g, none⟩ ∧
      h.allocate r = (⟨i, g⟩,
        { slots := h.slots.modify i.toNat (fun s => { s with record := some r })
          vacant := rest
          live := h.live + 1 }) := by
  obtain ⟨g, hg⟩ := wf.empty i (by simp [hv])
  exact ⟨g, hg, by simp [allocate, hv, hg]⟩

/-- A heap without a vacant slot stores the next record in a new one. -/
theorem allocate_of_full {h : Heap} (r : Record) (hv : h.vacant = []) :
    h.allocate r = (⟨UInt32.ofNat h.slots.length, 0⟩,
      { slots := h.slots ++ [⟨0, some r⟩], vacant := [], live := h.live + 1 }) := by
  simp [allocate, hv]

/-- Storing a record shows under its own id, where nothing was found before, and nowhere else.
Where there are more slots than indices, it may show nowhere at all. -/
theorem get?_allocate {h : Heap} (wf : h.Wf) (r : Record) (k : PromiseId) :
    (h.allocate r).2.get? k = h.get? k ∨
      k = (h.allocate r).1 ∧ h.get? k = none ∧ (h.allocate r).2.get? k = some r := by
  cases hv : h.vacant with
  | cons i rest =>
    obtain ⟨g, hg, ha⟩ := allocate_of_vacant wf r hv
    rw [ha]
    simp only [get?, List.getElem?_modify]
    by_cases hi : i.toNat = k.index.toNat
    · obtain rfl : i = k.index := UInt32.toNat_inj.mp hi
      by_cases hk : g = k.generation
      · exact .inr (by subst hk; simp [hg])
      · exact .inl (by simp [hg, hk])
    · exact .inl (by simp [hi])
  | nil =>
    rw [allocate_of_full r hv]
    simp only [get?]
    rcases Nat.lt_trichotomy k.index.toNat h.slots.length with hk | hk | hk
    · exact .inl (by rw [List.getElem?_append_left hk])
    · by_cases hg : k.generation = 0
      · refine .inr ⟨?_, ?_, ?_⟩
        · obtain ⟨i, g⟩ := k
          subst hg
          rw [← hk, UInt32.ofNat_toNat]
        · rw [List.getElem?_eq_none (by omega)]
        · simp [hk, hg]
      · refine .inl ?_
        rw [List.getElem?_eq_none (by omega : h.slots.length ≤ k.index.toNat)]
        simp [hk, Ne.symm hg]
    · refine .inl ?_
      rw [List.getElem?_eq_none (by simp; omega), List.getElem?_eq_none (by omega)]

theorem get?_allocate_of_some {h : Heap} (wf : h.Wf) (x : Record) {k : PromiseId} {r : Record}
    (hr : h.get? k = some r) : (h.allocate x).2.get? k = some r := by
  rcases get?_allocate wf x k with heq | ⟨-, hn, -⟩
  · rw [heq, hr]
  · rw [hn] at hr
    cases hr

/-- As long as there are indices left, a stored record is found under its id, where nothing was found
before. -/
theorem get?_allocate_self {h : Heap} (wf : h.Wf) (r : Record)
    (room : (h.allocate r).2.slots.length ≤ 2 ^ 32) :
    h.get? (h.allocate r).1 = none ∧ (h.allocate r).2.get? (h.allocate r).1 = some r := by
  cases hv : h.vacant with
  | cons i rest =>
    obtain ⟨g, hg, ha⟩ := allocate_of_vacant wf r hv
    simp [ha, get?, hg]
  | nil =>
    rw [allocate_of_full r hv] at room ⊢
    have hlen : (UInt32.ofNat h.slots.length).toNat = h.slots.length :=
      UInt32.toNat_ofNat_of_lt' (by simp at room; simp [UInt32.size]; omega)
    simp [get?, hlen]

theorem slots_allocate_le (h : Heap) (r : Record) :
    (h.allocate r).2.slots.length ≤ h.slots.length + 1 := by
  unfold Heap.allocate
  split <;> simp

theorem Wf.allocate {h : Heap} (wf : h.Wf) (r : Record) : (h.allocate r).2.Wf := by
  cases hv : h.vacant with
  | cons i rest =>
    obtain ⟨g, hg, ha⟩ := allocate_of_vacant wf r hv
    rw [ha]
    have nodup := wf.nodup
    rw [hv, List.nodup_cons] at nodup
    refine ⟨nodup.2, fun j hj => ?_, ?_⟩
    · have hne : i.toNat ≠ j.toNat := fun e => nodup.1 (UInt32.toNat_inj.mp e ▸ hj)
      simpa [hne] using wf.empty j (by simp [hv, hj])
    · exact (congrArg (· + 1) wf.live).trans
        (length_records_modify_some h.slots i.toNat (fun s => { s with record := some r }) hg rfl
          rfl).symm
  | nil =>
    rw [allocate_of_full r hv]
    exact ⟨List.nodup_nil, by simp, by simp [records, wf.live]⟩

-- ---------------------------------------------------------------------------
-- Changing and removing a record
-- ---------------------------------------------------------------------------

theorem Wf.modify {h : Heap} (wf : h.Wf) (id : PromiseId) (f : Record → Record) :
    (h.modify id f).Wf := by
  refine ⟨wf.nodup, fun i hi => ?_, ?_⟩
  · obtain ⟨g, hg⟩ := wf.empty i hi
    refine ⟨g, ?_⟩
    simp only [Heap.modify, List.getElem?_modify, hg]
    split <;> simp
  · refine wf.live.trans (records_modify_of_map _ _ _ fun s => ?_).symm
    split <;> simp

/-- Removing a record takes away that record alone. -/
theorem get?_vacated_of_get? {h : Heap} {id : PromiseId} {r : Record} (hr : h.get? id = some r)
    (k : PromiseId) : (h.vacated id).get? k = if k = id then none else h.get? k := by
  by_cases hk : k = id
  · rw [if_pos hk, hk, get?_vacated]
  · rw [if_neg hk]
    by_cases hi : id.index.toNat = k.index.toNat
    · -- another generation of the same slot, which finds nothing either way
      rw [get?_eq_some] at hr
      have hg : id.generation ≠ k.generation := fun hg => hk (by
        obtain ⟨i, g⟩ := id
        obtain ⟨j, g'⟩ := k
        simp_all [UInt32.toNat_inj])
      rw [hi] at hr
      simp [vacated, get?, hi, hr, hg]
    · simp [vacated, get?, hi]

theorem Wf.vacated {h : Heap} (wf : h.Wf) {id : PromiseId} {r : Record}
    (hr : h.get? id = some r) : (h.vacated id).Wf := by
  rw [get?_eq_some] at hr
  refine ⟨List.nodup_cons.mpr ⟨fun hmem => ?_, wf.nodup⟩, fun i hi => ?_, ?_⟩
  · obtain ⟨g, hg⟩ := wf.empty _ hmem
    rw [hr] at hg
    simp at hg
  · rcases List.mem_cons.mp hi with rfl | hi
    · exact ⟨id.generation + 1, by simp [Heap.vacated, hr]⟩
    · obtain ⟨g, hg⟩ := wf.empty i hi
      have hne : id.index.toNat ≠ i.toNat := by
        intro e
        rw [e, hg] at hr
        simp at hr
      exact ⟨g, by simp [Heap.vacated, hne, hg]⟩
  · have := length_records_modify_none h.slots id.index.toNat
      (fun s => { generation := s.generation + 1, record := none }) hr rfl rfl
    have live := wf.live
    simp only [Heap.vacated, records] at live ⊢
    omega

end PromiseLoop.Heap

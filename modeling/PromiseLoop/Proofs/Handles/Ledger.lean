import PromiseLoop.Machine.Holding
import PromiseLoop.Proofs.Heaps

/-!
# Handles, records and releases

A promise or an object has a handle as long as some value that is held somewhere refers to it.  Between
the handles on promises, the records of a heap and the ids that are queued for release there is a
balance: the record of a promise that has a handle is there, promises that have handles do not share a
record, and every record either belongs to such a promise or is queued, once.  `Ledger` is that balance,
for any set of promises.

## Results

* `Ledger.released`, `Ledger.created`, `Ledger.freed`: the three ways in which the balance shifts.
* `Ledger.count`: records are counted by the handles and the queue.
-/

namespace PromiseLoop

-- ---------------------------------------------------------------------------
-- Handles in values
-- ---------------------------------------------------------------------------

@[simp] theorem Value.handle?_promise (p : Promise) : (Value.promise p).handle? = some (.promise p) := rfl

@[simp] theorem Value.handle?_object (o : ObjectId) : (Value.object o).handle? = some (.object o) := rfl

@[simp] theorem Value.handle?_resolver (r : Resolver) :
    (Value.function (.resolver r)).handle? = some (.promise r.promise) := rfl

theorem Value.handle?_of_isPlain {v : Value} (h : v.isPlain = true) : v.handle? = none := by
  cases v <;> first | rfl | cases h

/-- The handles that values have. -/
def handles (vs : List Value) : List Handle := vs.filterMap Value.handle?

@[simp] theorem handles_nil : handles [] = [] := rfl

@[simp] theorem handles_append (vs ws : List Value) :
    handles (vs ++ ws) = handles vs ++ handles ws := List.filterMap_append

theorem handles_cons (v : Value) (vs : List Value) :
    handles (v :: vs) = v.handle?.toList ++ handles vs := by
  unfold handles
  rw [List.filterMap_cons]
  cases v.handle? <;> rfl

@[simp] theorem mem_handles_cons {v : Value} {vs : List Value} {h : Handle} :
    h ∈ handles (v :: vs) ↔ v.handle? = some h ∨ h ∈ handles vs := by
  simp [handles_cons]

theorem mem_handles {vs : List Value} {h : Handle} :
    h ∈ handles vs ↔ ∃ v ∈ vs, v.handle? = some h := List.mem_filterMap

theorem handles_flatMap {α : Type} (xs : List α) (f : α → List Value) :
    handles (xs.flatMap f) = xs.flatMap fun x => handles (f x) := List.filterMap_flatMap

@[simp] theorem handles_map_promise (ps : List Promise) :
    handles (ps.map .promise) = ps.map .promise := by
  simp [handles, List.filterMap_map, Function.comp_def]

theorem any_has_iff {vs : List Value} {h : Handle} : vs.any (·.has h) = true ↔ h ∈ handles vs := by
  simp [mem_handles, List.any_eq_true, Value.has_iff]

/-- The promise on which a value is a handle. -/
def Value.promise? (v : Value) : Option Promise :=
  match v.handle? with
  | some (.promise p) => some p
  | _ => none

theorem Value.promise?_eq_some {v : Value} {p : Promise} :
    v.promise? = some p ↔ v.handle? = some (.promise p) := by
  unfold promise?
  split
  · rename_i q hq
    simp [hq]
  · rename_i hn
    exact iff_of_false (by simp) fun h => hn p h

/-- The promises on which values are handles. -/
def promises (vs : List Value) : List Promise := vs.filterMap Value.promise?

theorem mem_promises {vs : List Value} {p : Promise} :
    p ∈ promises vs ↔ .promise p ∈ handles vs := by
  simp [promises, mem_handles, Value.promise?_eq_some]

/-- Where one element of a list is replaced, what it contributed is exchanged for what the new one
does. -/
theorem mem_flatMap_modify {α β : Type} {xs : List α} {n : Nat} {x : α} (hx : xs[n]? = some x)
    (g : α → List β) : ∃ others : List β, ∀ b,
      (b ∈ xs.flatMap g ↔ b ∈ others ∨ b ∈ g x) ∧
      ∀ f : α → α, b ∈ (xs.modify n f).flatMap g ↔ b ∈ others ∨ b ∈ g (f x) := by
  induction xs generalizing n with
  | nil => cases hx
  | cons y xs ih =>
    cases n with
    | zero =>
      obtain rfl : y = x := by simpa using hx
      exact ⟨xs.flatMap g, fun b => ⟨by simp [or_comm], fun f => by simp [or_comm]⟩⟩
    | succ n =>
      obtain ⟨others, h⟩ := ih (by simpa using hx)
      refine ⟨g y ++ others, fun b => ⟨?_, fun f => ?_⟩⟩
      · simp only [List.flatMap_cons, List.mem_append, (h b).1, or_assoc]
      · simp only [List.modify_succ_cons, List.flatMap_cons, List.mem_append, (h b).2 f, or_assoc]

-- ---------------------------------------------------------------------------
-- Ledgers
-- ---------------------------------------------------------------------------

/-- Whether an id finds a record. -/
def Heap.Live (h : Heap) (id : PromiseId) : Prop := ∃ r, h.get? id = some r

/-- The balance between the records of a heap, the promises that have handles and the ids that are
queued for release. -/
structure Ledger (heap : Heap) (held : Promise → Prop) (queued : List PromiseId) : Prop where
  live : ∀ p, held p → heap.Live p.id
  distinct : ∀ p q, held p → held q → p.id = q.id → p = q
  once : queued.Nodup
  /-- What is queued has a record and no handle. -/
  loose : ∀ id ∈ queued, heap.Live id ∧ ∀ p, held p → p.id ≠ id
  accounted : ∀ id, heap.Live id → id ∈ queued ∨ ∃ p, held p ∧ p.id = id

namespace Ledger

variable {heap heap' : Heap} {held held' : Promise → Prop} {queued queued' : List PromiseId}

theorem empty (h : ∀ p, ¬ held p) : Ledger .empty held [] where
  live p hp := absurd hp (h p)
  distinct p _ hp := absurd hp (h p)
  once := List.nodup_nil
  loose := by simp
  accounted id hid := by
    obtain ⟨r, hr⟩ := hid
    cases hr

theorem congr (h : Ledger heap held queued) (live : ∀ id, heap'.Live id ↔ heap.Live id)
    (same : ∀ p, held' p ↔ held p) (perm : queued'.Perm queued) : Ledger heap' held' queued' where
  live p hp := (live _).mpr (h.live p ((same p).mp hp))
  distinct p q hp hq := h.distinct p q ((same p).mp hp) ((same q).mp hq)
  once := perm.nodup_iff.mpr h.once
  loose id hid := by
    obtain ⟨hlive, hloose⟩ := h.loose id (perm.mem_iff.mp hid)
    exact ⟨(live id).mpr hlive, fun p hp => hloose p ((same p).mp hp)⟩
  accounted id hid := by
    rw [perm.mem_iff]
    simpa only [same] using h.accounted id ((live id).mp hid)

/-- The last handle on a promise goes, and its id is queued. -/
theorem released (h : Ledger heap held queued) {p : Promise} (hp : held p)
    (last : ∀ q, held' q ↔ held q ∧ q ≠ p) : Ledger heap held' (queued ++ [p.id]) where
  live q hq := h.live q ((last q).mp hq).1
  distinct a b ha hb := h.distinct a b ((last a).mp ha).1 ((last b).mp hb).1
  once := by
    refine List.nodup_append.mpr ⟨h.once, by simp, fun a ha b hb => ?_⟩
    rw [List.mem_singleton.mp hb]
    exact ((h.loose a ha).2 p hp).symm
  loose id hid := by
    rcases List.mem_append.mp hid with hid | hid
    · exact ⟨(h.loose id hid).1, fun q hq => (h.loose id hid).2 q ((last q).mp hq).1⟩
    · rw [List.mem_singleton.mp hid]
      refine ⟨h.live p hp, fun q hq heq => ?_⟩
      obtain ⟨hq, hne⟩ := (last q).mp hq
      exact hne (h.distinct q p hq hp heq)
  accounted id hid := by
    rcases h.accounted id hid with hq | ⟨q, hq, rfl⟩
    · exact .inl (List.mem_append_left _ hq)
    · by_cases hqp : q = p
      · exact .inl (by simp [hqp])
      · exact .inr ⟨q, (last q).mpr ⟨hq, hqp⟩, rfl⟩

/-- A promise is created, with a handle on it. -/
theorem created (h : Ledger heap held queued) {p : Promise} (new : ¬ heap.Live p.id)
    (live : ∀ id, heap'.Live id ↔ id = p.id ∨ heap.Live id) (more : ∀ q, held' q ↔ q = p ∨ held q) :
    Ledger heap' held' queued where
  live q hq := by
    rw [live]
    rcases (more q).mp hq with rfl | hq
    · exact .inl rfl
    · exact .inr (h.live q hq)
  distinct a b ha hb heq := by
    rcases (more a).mp ha with rfl | ha <;> rcases (more b).mp hb with rfl | hb
    · rfl
    · exact absurd (heq ▸ h.live b hb) new
    · exact absurd (heq ▸ h.live a ha) new
    · exact h.distinct a b ha hb heq
  once := h.once
  loose id hid := by
    obtain ⟨hlive, hloose⟩ := h.loose id hid
    refine ⟨(live id).mpr (.inr hlive), fun q hq heq => ?_⟩
    rcases (more q).mp hq with rfl | hq
    · exact new (heq ▸ hlive)
    · exact hloose q hq heq
  accounted id hid := by
    rcases (live id).mp hid with rfl | hid
    · exact .inr ⟨p, (more p).mpr (.inl rfl), rfl⟩
    · rcases h.accounted id hid with hq | ⟨q, hq, rfl⟩
      · exact .inl hq
      · exact .inr ⟨q, (more q).mpr (.inr hq), rfl⟩

/-- A record that is queued is freed. -/
theorem freed {id : PromiseId} (h : Ledger heap held (id :: queued))
    (live : ∀ k, heap'.Live k ↔ heap.Live k ∧ k ≠ id) : Ledger heap' held queued where
  live p hp := (live _).mpr ⟨h.live p hp, (h.loose id (List.mem_cons_self ..)).2 p hp⟩
  distinct := h.distinct
  once := (List.nodup_cons.mp h.once).2
  loose k hk := by
    obtain ⟨hlive, hloose⟩ := h.loose k (List.mem_cons_of_mem _ hk)
    exact ⟨(live k).mpr ⟨hlive, fun e => (List.nodup_cons.mp h.once).1 (e ▸ hk)⟩, hloose⟩
  accounted k hk := by
    obtain ⟨hk, hne⟩ := (live k).mp hk
    rcases h.accounted k hk with hq | hp
    · rcases List.mem_cons.mp hq with rfl | hq
      · exact absurd rfl hne
      · exact .inl hq
    · exact .inr hp

/-- What is released is exactly what is alive without a handle, each once. -/
theorem count_eq (h : Ledger heap held queued) {id : PromiseId} (live : heap.Live id) :
    (∃ p, held p ∧ p.id = id) ∧ queued.count id = 0 ∨
      (¬ ∃ p, held p ∧ p.id = id) ∧ queued.count id = 1 := by
  by_cases mem : id ∈ queued
  · exact .inr ⟨fun ⟨p, hp, heq⟩ => (h.loose id mem).2 p hp heq,
      List.count_eq_one_of_mem h.once mem⟩
  · exact .inl ⟨(h.accounted id live).resolve_left mem, List.count_eq_zero.mpr mem⟩

end Ledger

-- ---------------------------------------------------------------------------
-- Counting records
-- ---------------------------------------------------------------------------

/-- The numbers of the slots that are taken. -/
def Heap.taken (h : Heap) : List Nat :=
  (List.range h.slots.length).filter fun n => (h.slots[n]?.any fun s => s.record.isSome)

theorem Heap.mem_taken {h : Heap} {n : Nat} :
    n ∈ h.taken ↔ ∃ g r, h.slots[n]? = some ⟨g, some r⟩ := by
  simp only [taken, List.mem_filter, List.mem_range, Option.any_eq_true, Option.isSome_iff_exists]
  constructor
  · rintro ⟨-, ⟨g, _⟩, hs, r, rfl⟩
    exact ⟨g, r, hs⟩
  · rintro ⟨g, r, hs⟩
    exact ⟨(List.getElem?_eq_some_iff.mp hs).1, _, hs, r, rfl⟩

theorem Heap.length_records (h : Heap) : h.records.length = h.taken.length := by
  have same : h.slots.map (fun s => s.record.isSome) =
      (List.range h.slots.length).map fun n => h.slots[n]?.any fun s => s.record.isSome := by
    refine List.ext_getElem (by simp) fun n hn _ => ?_
    simp only [List.length_map] at hn
    simp [hn]
  have count := congrArg (List.countP id) same
  rw [List.countP_map, List.countP_map] at count
  rw [records, List.length_filterMap_eq_countP, taken, ← List.countP_eq_length_filter]
  exact count

/-- As long as every slot has an index, the records are counted by the handles and the queue. -/
theorem Ledger.count {heap : Heap} {held : Promise → Prop} {queued : List PromiseId}
    (h : Ledger heap held queued) (wf : heap.Wf) (room : heap.slots.length ≤ 2 ^ 32)
    {ps : List Promise} (nodup : ps.Nodup) (mem : ∀ p, p ∈ ps ↔ held p) :
    heap.live = ps.length + queued.length := by
  let ids := ps.map Promise.id ++ queued
  have live (id : PromiseId) : id ∈ ids ↔ heap.Live id := by
    simp only [ids, List.mem_append, List.mem_map, mem]
    constructor
    · rintro (⟨p, hp, rfl⟩ | hid)
      · exact h.live p hp
      · exact (h.loose id hid).1
    · exact fun hid => (h.accounted id hid).symm
  have ids_nodup : ids.Nodup := by
    refine List.nodup_append.mpr ⟨?_, h.once, fun a ha b hb => ?_⟩
    · exact nodup.map_on fun p hp q hq => h.distinct p q ((mem p).mp hp) ((mem q).mp hq)
    · obtain ⟨p, hp, rfl⟩ := List.mem_map.mp ha
      exact (h.loose b hb).2 p ((mem p).mp hp)
  -- of the ids with one slot only one is alive
  have perm : (ids.map fun id => id.index.toNat).Perm heap.taken := by
    refine (List.perm_ext_iff_of_nodup ?_ ?_).mpr fun n => ?_
    · refine ids_nodup.map_on fun a ha b hb hab => ?_
      obtain ⟨r, hr⟩ := (live a).mp ha
      obtain ⟨x, hx⟩ := (live b).mp hb
      exact Heap.eq_of_get? hr hx (UInt32.toNat_inj.mp hab)
    · exact List.nodup_range.filter _
    · rw [Heap.mem_taken, List.mem_map]
      constructor
      · rintro ⟨id, hid, rfl⟩
        obtain ⟨r, hr⟩ := (live id).mp hid
        exact ⟨id.generation, r, Heap.get?_eq_some.mp hr⟩
      · rintro ⟨g, r, hs⟩
        have hn : n < heap.slots.length := (List.getElem?_eq_some_iff.mp hs).1
        have index : (UInt32.ofNat n).toNat = n :=
          UInt32.toNat_ofNat_of_lt' (by simp only [UInt32.size]; omega)
        exact ⟨⟨UInt32.ofNat n, g⟩, (live _).mpr ⟨r, Heap.get?_eq_some.mpr (by rwa [index])⟩, index⟩
  rw [wf.live, Heap.length_records, ← perm.length_eq]
  simp [ids]

end PromiseLoop

import PromiseLoop.Proofs.Heaps

/-!
# Heaps and their logs

Whatever is done to a heap can be written down, with the ids and records that it gave.  What an id finds
is then read off the log: the record stored last under the id, as it has been edited since, unless it has
been taken out since.  Slots and generations play no part in that reading, and a heap agrees with it as long
as there is an index for each slot.

The generation of a slot counts the records taken out of it, up to `2 ^ 32`.  That dates every id by the
log at the time it was given, and it is all that tells an old id from a new one of the same slot.

## Results

* `Logged.Sound.perform`, `Logged.sound`: what every action keeps, and so every list of actions.
* `frees_pos`: between two records of a slot the first one is taken out.
* `heap_agrees_with_log`: what ids find, what is counted, which slots are vacant, and which ids recur.
-/

namespace PromiseLoop.Heap

-- ---------------------------------------------------------------------------
-- Actions and their log
-- ---------------------------------------------------------------------------

/-- What can be done to a heap, with any id. -/
inductive Action
  | store (r : Record)
  | look (id : PromiseId)
  | edit (id : PromiseId) (f : Record → Record)
  | free (id : PromiseId)

/-- What was done to a heap, with the id that it gave or the record that it found. -/
inductive Entry
  | stored (r : Record) (id : PromiseId)
  | looked (id : PromiseId) (found : Option Record)
  | edited (id : PromiseId) (f : Record → Record) (found : Option Record)
  | freed (id : PromiseId) (found : Option Record)

/-- A heap with everything that was done to it, the newest entry first. -/
structure Logged where
  heap : Heap := .empty
  log : List Entry := []

/-- Does one thing to a heap and writes it down. -/
def Logged.perform (x : Logged) : Action → Logged
  | .store r =>
    { heap := (x.heap.allocate r).2, log := .stored r (x.heap.allocate r).1 :: x.log }
  | .look id => { heap := x.heap, log := .looked id (x.heap.get? id) :: x.log }
  | .edit id f => { heap := x.heap.modify id f, log := .edited id f (x.heap.get? id) :: x.log }
  | .free id =>
    match x.heap.remove? id with
    | some (r, h) => { heap := h, log := .freed id (some r) :: x.log }
    | none => { heap := x.heap, log := .freed id none :: x.log }

/-- An empty heap after a list of actions. -/
def Logged.run (actions : List Action) : Logged := actions.foldl Logged.perform {}

theorem Logged.perform_free_of_none {x : Logged} {id : PromiseId} (h : x.heap.get? id = none) :
    x.perform (.free id) = { heap := x.heap, log := .freed id none :: x.log } := by
  rw [perform, (remove?_eq_none_iff _ id).mpr h]

theorem Logged.perform_free_of_some {x : Logged} {id : PromiseId} {r : Record}
    (h : x.heap.get? id = some r) :
    x.perform (.free id) = { heap := x.heap.vacated id, log := .freed id (some r) :: x.log } := by
  rw [perform, (remove?_eq_some_iff _ _ id r).mpr ⟨h, rfl⟩]

theorem Logged.run_append (actions : List Action) (a : Action) :
    Logged.run (actions ++ [a]) = (Logged.run actions).perform a := by
  simp [Logged.run]

/-- The record that an id stands for: the one stored last under it, as edited since, unless it has been
taken out since. -/
def recorded (id : PromiseId) : List Entry → Option Record
  | [] => none
  | .stored r other :: log => if other = id then some r else recorded id log
  | .looked _ _ :: log => recorded id log
  | .edited other f _ :: log => if other = id then (recorded id log).map f else recorded id log
  | .freed other _ :: log => if other = id then none else recorded id log

/-- Whether an entry took a record out of a slot. -/
def Entry.frees (slot : UInt32) : Entry → Bool
  | .freed id (some _) => id.index = slot
  | _ => false

/-- The number of records taken out of a slot. -/
def frees (slot : UInt32) (log : List Entry) : Nat := log.countP (Entry.frees slot)

@[simp] theorem frees_nil (slot : UInt32) : frees slot [] = 0 := rfl

theorem frees_cons (slot : UInt32) (e : Entry) (log : List Entry) :
    frees slot (e :: log) = frees slot log + if e.frees slot then 1 else 0 :=
  List.countP_cons

theorem frees_append (slot : UInt32) (newer older : List Entry) :
    frees slot (newer ++ older) = frees slot newer + frees slot older :=
  List.countP_append

-- ---------------------------------------------------------------------------
-- Generations
-- ---------------------------------------------------------------------------

/-- The generation of a slot, also of one that is not there yet. -/
def generation (h : Heap) (slot : UInt32) : UInt32 :=
  (h.slots[slot.toNat]?.map Slot.generation).getD 0

theorem generation_of_get? {h : Heap} {id : PromiseId} {r : Record} (hr : h.get? id = some r) :
    h.generation id.index = id.generation := by
  simp [generation, get?_eq_some.mp hr]

theorem generation_modify (h : Heap) (id : PromiseId) (f : Record → Record) (slot : UInt32) :
    (h.modify id f).generation slot = h.generation slot := by
  simp only [generation, Heap.modify, List.getElem?_modify]
  cases h.slots[slot.toNat]? with
  | none => rfl
  | some s => by_cases hg : s.generation = id.generation <;> split <;> simp [hg]

theorem generation_vacated {h : Heap} {id : PromiseId} {r : Record} (hr : h.get? id = some r)
    (slot : UInt32) : (h.vacated id).generation slot =
      h.generation slot + if id.index = slot then 1 else 0 := by
  simp only [generation, vacated, List.getElem?_modify]
  by_cases hi : id.index = slot
  · simp [← hi, get?_eq_some.mp hr]
  · simp [hi, UInt32.toNat_inj]

theorem generation_allocate (h : Heap) (r : Record) (slot : UInt32) :
    (h.allocate r).2.generation slot = h.generation slot := by
  simp only [generation, allocate]
  cases h.vacant with
  | cons i rest =>
    simp only [List.getElem?_modify]
    cases h.slots[slot.toNat]? with
    | none => rfl
    | some s => by_cases hi : i.toNat = slot.toNat <;> simp [hi]
  | nil =>
    rcases Nat.lt_trichotomy slot.toNat h.slots.length with lt | eq | gt
    · simp [List.getElem?_append_left lt]
    · simp [eq]
    · rw [List.getElem?_eq_none (by simp; omega), List.getElem?_eq_none (by omega)]

/-- A new id has the generation of its slot. -/
theorem generation_allocate_id {h : Heap} (wf : h.Wf) (r : Record)
    (room : (h.allocate r).2.slots.length ≤ 2 ^ 32) :
    h.generation (h.allocate r).1.index = (h.allocate r).1.generation := by
  rw [← generation_allocate h r]
  exact generation_of_get? (get?_allocate_self wf r room).2

/-- An id without a record changes nothing. -/
theorem modify_of_get?_none {h : Heap} {id : PromiseId} (none : h.get? id = none)
    (f : Record → Record) : h.modify id f = h := by
  have slots : (h.modify id f).slots = h.slots := by
    refine List.ext_getElem? fun n => ?_
    simp only [Heap.modify, List.getElem?_modify]
    cases hs : h.slots[n]? with
    | none => rfl
    | some s =>
      by_cases hn : id.index.toNat = n
      · rw [get?, hn, hs] at none
        by_cases hg : s.generation = id.generation
        · have empty : s.record = .none := by simpa [hg] using none
          obtain ⟨g, x⟩ := s
          obtain rfl : x = .none := empty
          simp
        · simp [hg]
      · simp [hn]
  show { h with slots := (h.modify id f).slots } = h
  rw [slots]

-- ---------------------------------------------------------------------------
-- What every action keeps
-- ---------------------------------------------------------------------------

/-- The generation of an id is the number of records that its slot has lost. -/
def Dated (id : PromiseId) (log : List Entry) : Prop :=
  id.generation = UInt32.ofNat (frees id.index log)

/-- An entry agrees with the log before it: it finds what the log says, and ids are dated by it. -/
def Entry.Agrees (log : List Entry) : Entry → Prop
  | .stored _ id => recorded id log = none ∧ Dated id log
  | .looked id found | .edited id _ found | .freed id found =>
    found = recorded id log ∧ (found.isSome → Dated id log)

namespace Logged

/-- A heap that agrees with its log. -/
structure Sound (x : Logged) : Prop where
  wf : x.heap.Wf
  /-- Ids find what the log says. -/
  found : ∀ id, x.heap.get? id = recorded id x.log
  /-- Every slot without a record is among the vacant ones. -/
  vacant : ∀ i s, x.heap.slots[UInt32.toNat i]? = some s → s.record = none → i ∈ x.heap.vacant
  /-- The records are counted. -/
  counted : ∃ ids : List PromiseId, ids.Nodup ∧ (∀ id, id ∈ ids ↔ (x.heap.get? id).isSome) ∧
    x.heap.size = ids.length
  /-- Generations count what was taken out. -/
  dated : ∀ slot, x.heap.generation slot = UInt32.ofNat (frees slot x.log)
  /-- Every entry agrees with the log before it. -/
  agrees : ∀ newer e older, x.log = newer ++ e :: older → Entry.Agrees older e

theorem Sound.empty : Sound {} where
  wf := .empty_heap
  found _ := rfl
  vacant _ _ hs := by cases hs
  counted := ⟨[], List.nodup_nil, by simp, rfl⟩
  dated _ := rfl
  agrees newer e older h := by cases newer <;> cases h

/-- An id that finds a record is dated by the log. -/
theorem Sound.dated_of_get? {x : Logged} (sound : x.Sound) {id : PromiseId} {r : Record}
    (hr : x.heap.get? id = some r) : Dated id x.log := by
  rw [Dated, ← sound.dated id.index, generation_of_get? hr]

/-- What an entry on any id but a new one has to agree with. -/
theorem Sound.agrees_found {x : Logged} (sound : x.Sound) (id : PromiseId) :
    x.heap.get? id = recorded id x.log ∧ ((x.heap.get? id).isSome → Dated id x.log) := by
  refine ⟨sound.found id, fun some => ?_⟩
  obtain ⟨r, hr⟩ := Option.isSome_iff_exists.mp some
  exact sound.dated_of_get? hr

/-- Every entry of a longer log agrees with what is before it. -/
theorem Sound.agrees_cons {x : Logged} (sound : x.Sound) {e : Entry} (he : Entry.Agrees x.log e) :
    ∀ newer d older, e :: x.log = newer ++ d :: older → Entry.Agrees older d := by
  intro newer d older h
  cases newer with
  | nil =>
    obtain ⟨rfl, rfl⟩ := List.cons.inj h
    exact he
  | cons _ newer => exact sound.agrees newer d older (List.cons.inj h).2

variable {x : Logged}

theorem Sound.store (sound : x.Sound) (r : Record)
    (room : (x.heap.allocate r).2.slots.length ≤ 2 ^ 32) : (x.perform (.store r)).Sound := by
  obtain ⟨before, after⟩ := get?_allocate_self sound.wf r room
  have get? : ∀ k, (x.heap.allocate r).2.get? k =
      if (x.heap.allocate r).1 = k then some r else x.heap.get? k := by
    intro k
    by_cases hk : (x.heap.allocate r).1 = k
    · rw [if_pos hk, ← hk, after]
    · rcases get?_allocate sound.wf r k with same | ⟨eq, -⟩
      · rw [if_neg hk, same]
      · exact absurd eq.symm hk
  refine ⟨sound.wf.allocate r, fun k => ?_, fun i s hs none => ?_, ?_, fun slot => ?_, ?_⟩
  · rw [perform, get? k, recorded, sound.found]
  · simp only [perform] at hs ⊢
    cases hv : x.heap.vacant with
    | cons j rest =>
      obtain ⟨g, hg, alloc⟩ := allocate_of_vacant sound.wf r hv
      rw [alloc] at hs ⊢
      by_cases hj : j = i
      · -- the slot that was filled
        simp only [List.getElem?_modify, hj, if_true] at hs
        rw [hj] at hg
        rw [hg] at hs
        cases hs
        cases none
      · have unchanged : x.heap.slots[i.toNat]? = some s := by
          simpa [List.getElem?_modify, UInt32.toNat_inj, hj] using hs
        have mem := sound.vacant i s unchanged none
        rw [hv] at mem
        exact (List.mem_cons.mp mem).resolve_left fun eq => hj eq.symm
    | nil =>
      rw [allocate_of_full r hv] at hs
      by_cases hi : i.toNat < x.heap.slots.length
      · rw [List.getElem?_append_left hi] at hs
        have mem := sound.vacant i s hs none
        rw [hv] at mem
        cases mem
      · rw [List.getElem?_append_right (Nat.le_of_not_lt hi), List.getElem?_singleton] at hs
        split at hs
        · cases hs
          cases none
        · cases hs
  · obtain ⟨ids, nodup, mem, size⟩ := sound.counted
    refine ⟨(x.heap.allocate r).1 :: ids, List.nodup_cons.mpr ⟨fun h => ?_, nodup⟩, fun k => ?_, ?_⟩
    · rw [mem, before] at h
      cases h
    · rw [perform, get? k, List.mem_cons, mem]
      by_cases hk : (x.heap.allocate r).1 = k
      · simp [hk]
      · simp [hk, Ne.symm hk]
    · rw [perform, size_allocate, size, List.length_cons]
  · rw [perform, generation_allocate, sound.dated, frees_cons]
    rfl
  · refine sound.agrees_cons ⟨?_, ?_⟩
    · rw [← sound.found, before]
    · rw [Dated, ← sound.dated, generation_allocate_id sound.wf r room]

theorem Sound.look (sound : x.Sound) (id : PromiseId) : (x.perform (.look id)).Sound where
  wf := sound.wf
  found k := by rw [perform, recorded, sound.found]
  vacant := sound.vacant
  counted := sound.counted
  dated slot := by rw [perform, frees_cons]; exact sound.dated slot
  agrees := sound.agrees_cons (sound.agrees_found id)

theorem Sound.edit (sound : x.Sound) (id : PromiseId) (f : Record → Record) :
    (x.perform (.edit id f)).Sound := by
  have get? : ∀ k, (x.heap.modify id f).get? k =
      if id = k then (x.heap.get? k).map f else x.heap.get? k := by
    intro k
    by_cases hk : id = k
    · rw [if_pos hk, ← hk, get?_modify]
    · rw [if_neg hk, get?_modify_of_ne _ hk]
  refine ⟨sound.wf.modify id f, fun k => ?_, fun i s hs none => ?_, ?_, fun slot => ?_, ?_⟩
  · rw [perform, get? k, recorded, sound.found]
  · simp only [perform, Heap.modify, List.getElem?_modify] at hs ⊢
    cases ht : x.heap.slots[i.toNat]? with
    | none => simp [ht] at hs
    | some t =>
      refine sound.vacant i t ht ?_
      rw [ht, Option.map_eq_map, Option.map_some, Option.some.injEq] at hs
      subst hs
      split at none
      · split at none
        · exact Option.map_eq_none_iff.mp none
        · exact none
      · exact none
  · obtain ⟨ids, nodup, mem, size⟩ := sound.counted
    refine ⟨ids, nodup, fun k => ?_, size⟩
    rw [perform, get? k, mem]
    split <;> simp
  · rw [perform, generation_modify, sound.dated, frees_cons]
    rfl
  · exact sound.agrees_cons (sound.agrees_found id)

theorem Sound.free (sound : x.Sound) (id : PromiseId) : (x.perform (.free id)).Sound := by
  cases hr : x.heap.get? id with
  | none =>
    rw [perform_free_of_none hr]
    refine ⟨sound.wf, fun k => ?_, sound.vacant, sound.counted, fun slot => ?_, ?_⟩
    · rw [recorded, ← sound.found]
      split
      · next hk => rw [← hk, hr]
      · rfl
    · rw [frees_cons]
      exact sound.dated slot
    · exact sound.agrees_cons (hr ▸ sound.agrees_found id)
  | some r =>
    rw [perform_free_of_some hr]
    refine ⟨sound.wf.vacated hr, fun k => ?_, fun i s hs none => ?_, ?_, fun slot => ?_, ?_⟩
    · rw [get?_vacated_of_get? hr, recorded, sound.found]
      exact if_congr eq_comm rfl rfl
    · by_cases hi : id.index = i
      · exact hi ▸ List.mem_cons_self
      · have unchanged : x.heap.slots[i.toNat]? = some s := by
          simpa [vacated, List.getElem?_modify, UInt32.toNat_inj, hi] using hs
        exact List.mem_cons_of_mem _ (sound.vacant i s unchanged none)
    · obtain ⟨ids, nodup, mem, size⟩ := sound.counted
      have held : id ∈ ids := by rw [mem, hr]; rfl
      refine ⟨ids.erase id, nodup.erase id, fun k => ?_, ?_⟩
      · rw [nodup.mem_erase_iff, mem, get?_vacated_of_get? hr]
        by_cases hk : k = id <;> simp [hk]
      · rw [List.length_erase_of_mem held, ← size]
        rfl
    · rw [generation_vacated hr, sound.dated, frees_cons, UInt32.ofNat_add]
      by_cases hi : id.index = slot <;> simp [Entry.frees, hi]
    · exact sound.agrees_cons (hr ▸ sound.agrees_found id)

/-- No action takes slots away. -/
theorem capacity_le_perform (x : Logged) (a : Action) :
    x.heap.capacity ≤ (x.perform a).heap.capacity := by
  cases a with
  | store r =>
    simp only [perform, capacity, allocate]
    split <;> simp
  | look id => exact Nat.le_refl _
  | edit id f => simp [perform, capacity, Heap.modify]
  | free id =>
    cases hr : x.heap.get? id with
    | none => rw [perform_free_of_none hr]
    | some r => simp [perform_free_of_some hr, capacity, vacated]

theorem Sound.perform (sound : x.Sound) {a : Action}
    (room : (x.perform a).heap.capacity ≤ 2 ^ 32) : (x.perform a).Sound := by
  cases a with
  | store r => exact sound.store r room
  | look id => exact sound.look id
  | edit id f => exact sound.edit id f
  | free id => exact sound.free id

/-- A heap agrees with its log as long as there is an index for each slot. -/
theorem sound (actions : List Action) (room : (run actions).heap.capacity ≤ 2 ^ 32) :
    (run actions).Sound := by
  induction actions using List.reverseRecOn with
  | nil => exact .empty
  | append_singleton actions a ih =>
    rw [run_append] at room ⊢
    exact (ih (Nat.le_trans (capacity_le_perform _ a) room)).perform room

end Logged

-- ---------------------------------------------------------------------------
-- Ids that recur
-- ---------------------------------------------------------------------------

/-- A record that is no longer found was taken out of its slot. -/
theorem frees_pos {log newer : List Entry} {id : PromiseId} {r : Record}
    (agrees : ∀ a e b, newer = a ++ e :: b → Entry.Agrees (b ++ log) e)
    (before : recorded id log = some r) (after : recorded id (newer ++ log) = none) :
    0 < frees id.index newer := by
  induction newer with
  | nil => rw [List.nil_append, before] at after; cases after
  | cons e newer ih =>
    rw [frees_cons]
    cases hr : recorded id (newer ++ log) with
    | none =>
      have := ih (fun a d b h => agrees (e :: a) d b (by rw [h, List.cons_append])) hr
      omega
    | some x =>
      -- the entry that ends what the log says of the id
      have he := agrees [] e newer rfl
      rw [List.cons_append] at after
      cases e with
      | stored y other =>
        rw [recorded] at after
        split at after
        · cases after
        · rw [hr] at after; cases after
      | looked => rw [recorded, hr] at after; cases after
      | edited other f found =>
        rw [recorded, hr] at after
        split at after <;> cases after
      | freed other found =>
        rw [recorded, hr] at after
        split at after
        · next eq =>
          rw [eq] at he ⊢
          rw [he.1, hr]
          simp [Entry.frees]
        · cases after

/-- An id that is found again after its record was taken out has been given again. -/
theorem exists_stored_of_recorded {log newer : List Entry} {id : PromiseId}
    (before : recorded id log = none) (after : recorded id (newer ++ log) ≠ none) :
    ∃ a r b, newer = a ++ .stored r id :: b := by
  induction newer with
  | nil => exact absurd before after
  | cons e newer ih =>
    rw [List.cons_append] at after
    by_cases hr : recorded id (newer ++ log) = none
    · cases e with
      | stored r other =>
        rw [recorded, hr] at after
        split at after
        · next eq => exact ⟨[], r, newer, by rw [eq]; rfl⟩
        · exact absurd rfl after
      | looked => exact absurd (by rw [recorded, hr]) after
      | edited other f found => exact absurd (by rw [recorded, hr]; simp) after
      | freed other found => exact absurd (by rw [recorded, hr]; simp) after
    · obtain ⟨a, r, b, rfl⟩ := ih hr
      exact ⟨e :: a, r, b, rfl⟩

/-- Two logs that date one id differ by a multiple of `2 ^ 32` records taken out. -/
theorem Dated.dvd {older : List Entry} {id : PromiseId} (newer : List Entry) (old : Dated id older)
    (new : Dated id (newer ++ older)) : 2 ^ 32 ∣ frees id.index newer := by
  have eq : (UInt32.ofNat (frees id.index (newer ++ older))).toNat =
      (UInt32.ofNat (frees id.index older)).toNat := by rw [← new, ← old]
  rw [frees_append, UInt32.toNat_ofNat', UInt32.toNat_ofNat'] at eq
  omega

namespace Logged

variable {x : Logged}

/-- Taking a record out takes one off the count. -/
theorem Sound.size_free (sound : x.Sound) {id : PromiseId} (found : (recorded id x.log).isSome) :
    (x.perform (.free id)).heap.size + 1 = x.heap.size := by
  rw [← sound.found] at found
  obtain ⟨r, hr⟩ := Option.isSome_iff_exists.mp found
  obtain ⟨ids, -, mem, size⟩ := sound.counted
  have pos : 0 < x.heap.size := size ▸ List.length_pos_of_mem ((mem id).mpr found)
  rw [perform_free_of_some hr]
  exact Nat.succ_pred_eq_of_pos pos

/-- Two records with one id are a nonzero multiple of `2 ^ 32` records of their slot apart. -/
theorem Sound.recurs (sound : x.Sound) {newer between older : List Entry} {r r' : Record} {id : PromiseId}
    (hx : x.log = newer ++ .stored r' id :: (between ++ .stored r id :: older)) :
    ∃ n, 0 < n ∧ frees id.index between = 2 ^ 32 * n := by
  obtain ⟨gone, new⟩ := sound.agrees newer _ _ hx
  have old := (sound.agrees (newer ++ .stored r' id :: between) (.stored r id) older (by simp [hx])).2
  have pos : 0 < frees id.index between := by
    refine frees_pos (fun a e b split => ?_) (by rw [recorded, if_pos rfl]) gone
    exact sound.agrees (newer ++ .stored r' id :: a) e _ (by simp [hx, split])
  have dvd := Dated.dvd (between ++ [.stored r id]) old (by simpa using new)
  obtain ⟨n, hn⟩ : 2 ^ 32 ∣ frees id.index between := by
    simpa [frees_append, frees_cons, Entry.frees] using dvd
  exact ⟨n, by omega, hn⟩

/-- An id whose record was taken out finds nothing until its slot has lost `2 ^ 32` records. -/
theorem Sound.stale (sound : x.Sound) {newer older : List Entry} {r : Record} {id : PromiseId}
    (hx : x.log = newer ++ .freed id (some r) :: older) (few : frees id.index newer + 1 < 2 ^ 32) :
    x.heap.get? id = none := by
  obtain ⟨-, dated⟩ := sound.agrees newer _ older hx
  by_contra still
  rw [sound.found, hx] at still
  obtain ⟨a, r', b, rfl⟩ := exists_stored_of_recorded (by rw [recorded, if_pos rfl]) still
  have new := (sound.agrees a (.stored r' id) _ (by rw [hx, List.append_assoc]; rfl)).2
  have dvd := Dated.dvd (b ++ [.freed id (some r)]) (dated rfl) (by simpa using new)
  have one : frees id.index (b ++ [.freed id (some r)]) = frees id.index b + 1 := by
    simp [frees_append, frees_cons, Entry.frees]
  have le := Nat.le_of_dvd (by omega) dvd
  rw [frees_append, frees_cons] at few
  omega

end Logged

/-- A heap is a map from ids to records.  Over every list of actions that leaves an index for each slot:
every id finds what the log says and every answer in the log was what the log said then; an id without a
record changes nothing; each record is counted, and taking one out takes one off; the vacant slots are those
without a record, each listed once; two records get one id only if a nonzero multiple of `2 ^ 32` records
have been taken out of their slot in between, and an id whose record was taken out finds nothing until
then. -/
theorem heap_agrees_with_log (actions : List Action)
    (room : (Logged.run actions).heap.capacity ≤ 2 ^ 32) :
    let h := (Logged.run actions).heap
    let log := (Logged.run actions).log
    (∀ id, h.get? id = recorded id log) ∧
    (∀ newer older id found, log = newer ++ .looked id found :: older → found = recorded id older) ∧
    (∀ newer older id f found, log = newer ++ .edited id f found :: older → found = recorded id older) ∧
    (∀ newer older id found, log = newer ++ .freed id found :: older → found = recorded id older) ∧
    (∀ id, recorded id log = none → (Logged.run (actions ++ [.free id])).heap = h ∧
      ∀ f, (Logged.run (actions ++ [.edit id f])).heap = h) ∧
    (∃ ids : List PromiseId, ids.Nodup ∧ (∀ id, id ∈ ids ↔ (recorded id log).isSome) ∧
      h.size = ids.length) ∧
    (∀ id, (recorded id log).isSome → (Logged.run (actions ++ [.free id])).heap.size + 1 = h.size) ∧
    (h.vacant.Nodup ∧ ∀ i : UInt32, i ∈ h.vacant ↔ ∃ s, h.slots[i.toNat]? = some s ∧ s.record = none) ∧
    (∀ newer r' between r older id, log = newer ++ .stored r' id :: (between ++ .stored r id :: older) →
      ∃ n, 0 < n ∧ frees id.index between = 2 ^ 32 * n) ∧
    (∀ newer id r older, log = newer ++ .freed id (some r) :: older →
      frees id.index newer + 1 < 2 ^ 32 → h.get? id = none) := by
  have sound := Logged.sound actions room
  refine ⟨sound.found, fun newer older id found eq => (sound.agrees newer _ older eq).1,
    fun newer older id f found eq => (sound.agrees newer _ older eq).1,
    fun newer older id found eq => (sound.agrees newer _ older eq).1, fun id none => ⟨?_, fun f => ?_⟩,
    ?_, fun id found => ?_, ⟨sound.wf.nodup, fun i => ⟨fun mem => ?_, ?_⟩⟩,
    fun _ _ _ _ _ _ => sound.recurs, fun _ _ _ _ => sound.stale⟩
  · rw [Logged.run_append, Logged.perform_free_of_none ((sound.found id).trans none)]
  · rw [Logged.run_append]
    exact modify_of_get?_none ((sound.found id).trans none) f
  · obtain ⟨ids, nodup, mem, size⟩ := sound.counted
    exact ⟨ids, nodup, fun id => by rw [mem, sound.found], size⟩
  · rw [Logged.run_append]
    exact sound.size_free found
  · obtain ⟨g, hg⟩ := sound.wf.empty i mem
    exact ⟨_, hg, rfl⟩
  · rintro ⟨s, hs, none⟩
    exact sound.vacant i s hs none

/-- Three records in two slots, with a stale id that is looked up, edited and freed once more. -/
theorem heap_agrees_with_log_reuse :
    let first : PromiseId := ⟨0, 0⟩
    let actions : List Action :=
      [.store .pending, .free first, .store { isHandled := true }, .free first, .look first,
        .edit ⟨0, 1⟩ fun r => { r with alreadyResolved := true }, .store .pending]
    (Logged.run actions).heap.capacity ≤ 2 ^ 32 ∧ (Logged.run actions).heap.get? first = none ∧
      (Logged.run actions).heap.get? ⟨0, 1⟩ = some { isHandled := true, alreadyResolved := true } ∧
      (Logged.run actions).heap.size = 2 := by
  intro first actions
  have room : (Logged.run actions).heap.capacity ≤ 2 ^ 32 := by decide
  have agrees := heap_agrees_with_log actions room
  exact ⟨room, agrees.1 first, agrees.1 ⟨0, 1⟩, rfl⟩

end PromiseLoop.Heap

import PromiseLoop.Proofs.HeapLogs
import PromiseLoop.Proofs.Orders.Latecomers

/-!
# Common futures

Twins that have gone apart in nothing but an exception stay together as long as the exception awaits no report.
It awaits none if its record has been handled, and its slot would have to lose `2 ^ 32` records before another
record is found under the same id.

## Results

* `Loop.Act.dates`: the generation of a slot counts the records that it has lost.
* `Loop.Acts.handled`: what is found under an id whose record has been handled.
* `Twins.follow`: twins that are given the same commands and take the same steps.
-/

namespace PromiseLoop

/-- Whether an event is the end of a record in a slot. -/
def Event.vacates (slot : UInt32) : Event → Bool
  | .freed id _ => id.index = slot
  | _ => false

theorem Event.vacates_of_frees {e : Event} {id : PromiseId} (h : e.frees id = true) :
    e.vacates id.index = true := by
  cases e <;> simp [Event.frees, Event.vacates] at h ⊢
  rw [h]

theorem Event.vacates_of_isSilent {e : Event} (h : e.isSilent = true) (slot : UInt32) :
    e.vacates slot = false := by
  cases e <;> first | rfl | exact absurd h (by simp [isSilent])

namespace Loop

variable {l l' : Loop} {slot c : UInt32} {id : PromiseId} {r : Record}

/-- The number of records that a slot has lost. -/
def losses (l : Loop) (slot : UInt32) : Nat := l.history.countP (Event.vacates slot)

/-- The generation of a slot, apart from a constant, is the number of records that it has lost. -/
def Dates (slot c : UInt32) (l : Loop) : Prop := l.heap.generation slot = c + UInt32.ofNat (l.losses slot)

/-- What frees no record. -/
theorem Dates.kept (h : l.Dates slot c) (newer : List Event)
    (generation : l'.heap.generation slot = l.heap.generation slot) (history : l'.history = newer ++ l.history)
    (kept : ∀ e ∈ newer, e.vacates slot = false) : l'.Dates slot c := by
  have none : newer.countP (Event.vacates slot) = 0 := List.countP_eq_zero.mpr fun e he => by simp [kept e he]
  rw [Dates, generation, h, losses, losses, history, List.countP_append, none, Nat.zero_add]

theorem generation_foldl_selectReport (ids : List PromiseId) (acc : List (PromiseId × Value) × Loop)
    (slot : UInt32) : (ids.foldl selectReport acc).2.heap.generation slot = acc.2.heap.generation slot := by
  induction ids generalizing acc with
  | nil => rfl
  | cons id ids ih =>
    refine (ih _).trans ?_
    unfold selectReport
    split
    · rfl
    · split
      · exact Heap.generation_modify ..
      · rfl

theorem Chore.dates (h : l.Chore l') (dates : l.Dates slot c) : l'.Dates slot c := by
  cases h with
  | silent newer heap serial awaiting log config tracker history silent =>
    exact dates.kept newer (by rw [heap]) history fun e he => Event.vacates_of_isSilent (silent e he) slot
  | created => exact dates.kept [] (Heap.generation_allocate ..) rfl (by simp)
  | attempted h =>
    obtain ⟨r, -, -, rfl⟩ := lock_eq_ok.mp h
    exact dates.kept [_] (Heap.generation_modify ..) rfl (by simp [Event.vacates])
  | settled id s v =>
    rcases settle_cases l id s v with same | ⟨r, -, -, -, settled⟩
    · rw [same]
      exact dates
    · rw [settled]
      refine dates.kept _ (Heap.generation_modify ..) (List.append_cons ..) fun e he => ?_
      simp only [List.mem_append, List.mem_reverse, List.mem_map, List.mem_singleton] at he
      rcases he with ⟨y, -, rfl⟩ | rfl <;> rfl

theorem Deed.dates (h : l.Deed l') (dates : l.Dates slot c) : l'.Dates slot c := by
  cases h with
  | chore h => exact h.dates dates
  | selected =>
    obtain ⟨heap, eq, -, -⟩ := takeReports_spec l
    refine dates.kept [] ?_ (by rw [eq]; rfl) (by simp)
    unfold takeReports
    split
    · exact generation_foldl_selectReport ..
    · rfl
  | reported id reason =>
    rw [report_eq]
    exact dates.kept [_] rfl rfl (by simp [Event.vacates])
  | @freed _ id r h =>
    -- the slot of the id loses one more record, and any other slot none
    have before : (if l.reportsOnFree r then [Event.reported id r.reason] else []).countP
        (Event.vacates slot) = 0 := by split <;> simp [Event.vacates]
    rw [Dates, heap_free? h, Heap.generation_vacated (free?_eq_some.mp h).1, dates, losses, losses,
      history_free? h, List.countP_cons, List.countP_append, before, Nat.zero_add]
    by_cases same : id.index = slot
    · simp [Event.vacates, same, UInt32.ofNat_add, UInt32.add_assoc]
    · simp [Event.vacates, same]
  | checked => exact dates.kept [_] rfl rfl (by simp [Event.vacates])

theorem Act.dates (h : l.Act l') (wf : l.heap.Wf) (dates : l.Dates slot c) : l'.Dates slot c := by
  cases h with
  | deed h => exact h.dates dates
  | @attached p f g _ h =>
    obtain ⟨r, -, rfl⟩ := (attach_eq_ok wf).mp h
    refine dates.kept _ ((Heap.generation_modify ..).trans (Heap.generation_allocate ..))
      (List.append_cons ..) fun e he => ?_
    rcases List.mem_append.mp he with he | he
    · split at he <;> simp at he
      rw [he]
      rfl
    · rw [List.mem_singleton.mp he]
      rfl
  | ended derived job =>
    refine dates.kept (.returned derived :: (job.map Event.queued).toList) (by rw [heap_endAttach])
      (history_endAttach l derived job) fun e he => ?_
    rcases List.mem_cons.mp he with rfl | he
    · rfl
    · obtain ⟨j, -, rfl⟩ := Option.map_eq_some_iff.mp (Option.mem_toList.mp he)
      rfl

/-- What is found under an id whose record has been handled has been handled too, unless the slot has lost very
many records in the meantime. -/
theorem Acts.handled (h : l.Acts l') (wf : l.heap.Wf) (hr : l.heap.get? id = some r) (handled : r.isHandled = true)
    (few : l'.losses id.index < l.losses id.index + 2 ^ 32) {r' : Record} (hr' : l'.heap.get? id = some r') :
    r'.isHandled = true := by
  have dates : l.Dates id.index (l.heap.generation id.index - UInt32.ofNat (l.losses id.index)) := by
    rw [Dates, UInt32.sub_add_cancel]
  have dates' := h.keeps (fun wf h => h.dates wf) wf dates
  have same : UInt32.ofNat (l'.losses id.index) = UInt32.ofNat (l.losses id.index) := by
    rw [Dates, Heap.generation_of_get? hr', Heap.generation_of_get? hr] at dates'
    grind
  obtain ⟨newer, history, stays⟩ := h.advances wf
  have more : l'.losses id.index = newer.countP (Event.vacates id.index) + l.losses id.index := by
    rw [losses, history, List.countP_append, losses]
  have none : newer.countP (Event.vacates id.index) = 0 := by
    have rest := congrArg UInt32.toNat same
    rw [UInt32.toNat_ofNat', UInt32.toNat_ofNat'] at rest
    omega
  obtain ⟨x, hx, advances⟩ := stays id r hr fun e he => by
    by_contra frees
    exact absurd (Event.vacates_of_frees (by simpa using frees)) (by simpa using List.countP_eq_zero.mp none e he)
  obtain rfl := Option.some.inj (hx.symm.trans hr')
  exact advances.handled handled

end Loop

namespace Machine

open Relation

variable {gap : Gap} {m x y : Machine} {k : LoopId} {id : PromiseId} {past : List Pair}

-- ---------------------------------------------------------------------------
-- Continuations
-- ---------------------------------------------------------------------------

/-- What happens to a machine next: it takes a step, or it is given a command. -/
inductive Move
  | step
  | start (c : Command)

/-- A machine that is busy ignores commands. -/
def move (m : Machine) : Move → Machine
  | .step => m.step
  | .start c => if m.isIdle then m.start c else m

/-- What becomes of a machine. -/
def follow (moves : List Move) (m : Machine) : Machine := moves.foldl move m

theorem follow_append (moves : List Move) (mv : Move) (m : Machine) :
    follow (moves ++ [mv]) m = (follow moves m).move mv := by
  rw [follow, List.foldl_append]
  rfl

theorem run_follow (moves : List Move) (m : Machine) : Run m (follow moves m) := by
  induction moves using List.reverseRecOn with
  | nil => exact .refl
  | append_singleton moves mv ih =>
    rw [follow_append]
    cases mv with
    | step => exact ih.tail (.step _)
    | start c =>
      dsimp only [move]
      split
      · rename_i idle
        exact ih.tail (.start idle c)
      · exact ih

/-- The number of records that a slot of a loop has lost. -/
def losses (m : Machine) (k : LoopId) (slot : UInt32) : Nat := ((m.loop? k).map (·.losses slot)).getD 0

theorem losses_of_loop? {l : Loop} (hl : m.loop? k = some l) (slot : UInt32) :
    m.losses k slot = l.losses slot := by
  rw [losses, hl]
  rfl

/-- What is found under the id later has been handled as well. -/
theorem HasHandled.follow (h : x.HasHandled k id) (placed : x.Placed) (moves : List Move)
    (few : (follow moves x).losses k id.index < x.losses k id.index + 2 ^ 32) {l : Loop} {r : Record}
    (hl : (Machine.follow moves x).loop? k = some l) (hr : l.heap.get? id = some r) : r.isHandled = true := by
  obtain ⟨lx, rx, hlx, wf, hrx, handled⟩ := h
  rw [losses_of_loop? hl, losses_of_loop? hlx] at few
  exact (placed.acts (run_follow moves x) hlx hl).handled wf hrx handled few hr

-- ---------------------------------------------------------------------------
-- Twins
-- ---------------------------------------------------------------------------

theorem Ends.move (h : Ends gap past x y) (due : x.NothingDue gap) (mv : Move) :
    ∃ past', Ends gap past' (x.move mv) (y.move mv) := by
  cases mv with
  | step =>
    obtain ⟨past', -, ends⟩ := h.step due
    exact ⟨past', ends⟩
  | start c =>
    unfold Machine.move
    simp only [h.isIdle]
    split
    · rename_i idle
      exact ⟨past, h.start (control_ne_signal_of_isIdle idle) c⟩
    · exact ⟨past, h⟩

/-- Two machines differ in nothing but the times at which something was asked of their loops, and in whether
the list of rejections that await a report has an id whose record has been handled. -/
structure Agree (k : LoopId) (id : PromiseId) (x y : Machine) : Prop where
  same : y = { x with loops := y.loops }
  loops : List.Forall₂ (Option.Rel (Loop.Alike (some (k, id)))) x.loops y.loops
  handled : ∀ l r, x.loop? k = some l → l.heap.get? id = some r → r.isHandled = true

/-- Twins remain twins, whatever becomes of them. -/
theorem Twins.follow (h : Twins (some (k, id)) past x y) (handled : x.HasHandled k id) (moves : List Move)
    (few : ∀ before, before <+: moves →
      (Machine.follow before x).losses k id.index < x.losses k id.index + 2 ^ 32) :
    ∃ past', Ends (some (k, id)) past' (Machine.follow moves x) (Machine.follow moves y) := by
  induction moves using List.reverseRecOn with
  | nil => exact ⟨past, h.ends⟩
  | append_singleton moves mv ih =>
    obtain ⟨past', ends⟩ := ih fun before prefixed => few before (prefixed.trans (List.prefix_append ..))
    have due : (Machine.follow moves x).NothingDue (some (k, id)) := by
      intro k' l hl id' gap r hr
      obtain ⟨rfl, rfl⟩ := Prod.mk.inj (Option.some.inj gap)
      obtain rfl : l.id = k' := ends.placed k' l hl
      have := handled.follow h.placed moves (few moves (List.prefix_append ..)) hl hr
      simp [Record.awaitsReport, this]
    rw [follow_append, follow_append]
    exact ends.move due mv

theorem Twins.agree (h : Twins (some (k, id)) past x y) (handled : x.HasHandled k id) (moves : List Move)
    (few : ∀ before, before <+: moves →
      (Machine.follow before x).losses k id.index < x.losses k id.index + 2 ^ 32) :
    Agree k id (Machine.follow moves x) (Machine.follow moves y) := by
  obtain ⟨past', ends⟩ := h.follow handled moves few
  exact ⟨ends.same, ends.loops, fun l r hl hr => handled.follow h.placed moves (few moves List.prefix_rfl) hl hr⟩

end Machine
end PromiseLoop

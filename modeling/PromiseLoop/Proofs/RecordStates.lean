import PromiseLoop.Proofs.Reentrance
import PromiseLoop.Proofs.Warrants.Runs

/-!
# The states of records

What is found under an id goes through few changes: a record is created, locked, settled, chained,
marked as reported, and freed.  `Record.Change` lists them, and every act of a loop makes one of them
under every id.  So what a record looks like, and which of its marks stay, is decided change by change,
whoever makes them and whatever script runs in between.

## Results

* `Loop.Act.change`: what an act may do to what is found under an id.
* `Record.Change.formed`, `Record.Change.advances`: what every change keeps of a record.
* `Machine.records_stay_consistent`: what every record of a run looks like, and what it never goes
  back on.
-/

namespace PromiseLoop

-- ---------------------------------------------------------------------------
-- Changes of one record
-- ---------------------------------------------------------------------------

/-- The two sides of one registration. -/
structure Reaction.Sides (f g : Reaction) : Prop where
  fulfill : f.side = .fulfill
  reject : g.side = .reject
  derived : f.derived = g.derived

namespace Record

/-- The values and the reactions of a record fit its state. -/
inductive Fits (r : Record) : Prop
  | pending (state : r.state = .pending) (value : r.value = none)
    (sides : List.Forall₂ Reaction.Sides r.fulfillReactions r.rejectReactions)
  | settled (state : r.state ≠ .pending) (value : r.value.isSome = true)
    (fulfill : r.fulfillReactions = []) (reject : r.rejectReactions = [])

/-- What a record looks like, whatever has happened to it. -/
structure Formed (r : Record) : Prop where
  fits : r.Fits
  /-- Reactions have been registered, so the promise is handled. -/
  handled : r.fulfillReactions ≠ [] ∨ r.rejectReactions ≠ [] → r.isHandled = true
  /-- Only rejections are reported. -/
  reported : r.rejectionReported = true → r.state = .rejected

/-- What a record does not go back on. -/
structure Advances (r r' : Record) : Prop where
  settled : r.state ≠ .pending → r'.state = r.state ∧ r'.value = r.value
  locked : r.alreadyResolved = true → r'.alreadyResolved = true
  handled : r.isHandled = true → r'.isHandled = true
  reported : r.rejectionReported = true → r'.rejectionReported = true

/-- What can happen at once to what is found under an id.  It is freed only if `gone` says so. -/
inductive Change (gone : Prop) : Option Record → Option Record → Prop
  | none (o : Option Record) : Change gone o o
  | created : Change gone .none (some .pending)
  | locked (r : Record) : Change gone (some r) (some { r with alreadyResolved := true })
  | settled {r : Record} (s : State) (v : Value) (pending : r.state = .pending) (settles : s ≠ .pending) :
    Change gone (some r) (some (r.settled s v))
  | registered (r : Record) (f g : Option Value) (derived : Promise) :
    Change gone (some r) (some (r.registered f g derived))
  | selected {r : Record} (awaits : r.awaitsReport = true) :
    Change gone (some r) (some { r with rejectionReported := true })
  | freed (r : Record) (h : gone) : Change gone (some r) .none

theorem Advances.refl (r : Record) : r.Advances r := ⟨fun _ => ⟨rfl, rfl⟩, id, id, id⟩

theorem Advances.trans {r r' r'' : Record} (h : r.Advances r') (h' : r'.Advances r'') :
    r.Advances r'' where
  settled hs := by
    obtain ⟨state, value⟩ := h.settled hs
    obtain ⟨state', value'⟩ := h'.settled (state ▸ hs)
    exact ⟨state'.trans state, value'.trans value⟩
  locked := h'.locked ∘ h.locked
  handled := h'.handled ∘ h.handled
  reported := h'.reported ∘ h.reported

theorem formed_pending : Formed .pending where
  fits := .pending rfl rfl .nil
  handled h := by simp [pending] at h
  reported h := nomatch h

theorem Formed.settled {r : Record} (h : r.Formed) {s : State} (v : Value) (pending : r.state = .pending)
    (settles : s ≠ .pending) : (r.settled s v).Formed where
  fits := .settled settles rfl rfl rfl
  handled h := by simp [Record.settled] at h
  reported hr := by
    -- no rejection has been reported of a promise that was pending
    have rejected := h.reported hr
    rw [pending] at rejected
    cases rejected

theorem Formed.registered {r : Record} (h : r.Formed) (f g : Option Value) (derived : Promise) :
    (r.registered f g derived).Formed where
  fits := by
    cases h.fits with
    | pending state value sides =>
      refine .pending (by simpa) (by simpa) ?_
      simpa [Record.registered, isPending, state, addReaction] using
        List.rel_append sides
          (.cons (⟨rfl, rfl, rfl⟩ : Reaction.Sides ⟨.fulfill, f, derived⟩ ⟨.reject, g, derived⟩) .nil)
    | settled state value fulfill reject =>
      refine .settled (by simpa) (by simpa) ?_ ?_ <;>
        simpa [Record.registered, isPending, state]
  handled _ := isHandled_registered ..
  reported hr := by simpa using h.reported (by simpa using hr)

/-- Every change leaves a record well formed. -/
theorem Change.formed {gone : Prop} {o o' : Option Record} (h : Change gone o o')
    (before : ∀ r, o = some r → r.Formed) :
    ∀ r, o' = some r → r.Formed := by
  rintro r rfl
  cases h with
  | none => exact before r rfl
  | created => exact formed_pending
  | locked r =>
    obtain ⟨fits, handled, reported⟩ := before r rfl
    refine ⟨?_, handled, reported⟩
    cases fits with
    | pending state value sides => exact .pending state value sides
    | settled state value fulfill reject => exact .settled state value fulfill reject
  | settled s v pending settles => exact (before _ rfl).settled v pending settles
  | registered r f g derived => exact (before r rfl).registered f g derived
  | @selected r awaits =>
    obtain ⟨fits, handled, -⟩ := before r rfl
    refine ⟨?_, handled, fun _ => ((Loop.awaitsReport_iff r).mp awaits).1⟩
    cases fits with
    | pending state value sides => exact .pending state value sides
    | settled state value fulfill reject => exact .settled state value fulfill reject

/-- No change that leaves a record in its place takes anything back. -/
theorem Change.advances {gone : Prop} {r r' : Record} (h : Change gone (some r) (some r')) : r.Advances r' := by
  cases h with
  | none => exact .refl r
  | locked => exact ⟨fun _ => ⟨rfl, rfl⟩, fun _ => rfl, id, id⟩
  | settled s v pending _ => exact ⟨fun settled => absurd pending settled, id, id, id⟩
  | registered _ f g derived =>
    exact ⟨fun _ => ⟨state_registered .., value_registered ..⟩,
      fun h => (alreadyResolved_registered ..).trans h, fun _ => isHandled_registered ..,
      fun h => (rejectionReported_registered ..).trans h⟩
  | selected => exact ⟨fun _ => ⟨rfl, rfl⟩, id, id, fun _ => rfl⟩

end Record

-- ---------------------------------------------------------------------------
-- What acts do to records
-- ---------------------------------------------------------------------------

namespace Loop

variable {l l' : Loop}

theorem change_allocate (wf : l.heap.Wf) (gone : Prop) (k : PromiseId) :
    Record.Change gone (l.heap.get? k) ((l.heap.allocate .pending).2.get? k) := by
  rcases Heap.get?_allocate wf .pending k with h | ⟨-, h, h'⟩
  · rw [h]
    exact .none _
  · rw [h, h']
    exact .created

/-- A chore frees nothing. -/
theorem Chore.change (h : l.Chore l') (wf : l.heap.Wf) (gone : Prop) (k : PromiseId) :
    Record.Change gone (l.heap.get? k) (l'.heap.get? k) := by
  cases h with
  | silent newer heap _ _ _ _ _ _ _ =>
    rw [heap]
    exact .none _
  | created => exact change_allocate wf _ k
  | @attempted _ p _ h =>
    obtain ⟨r, hr, -, rfl⟩ := lock_eq_ok.mp h
    show Record.Change gone _ ((l.heap.modify p.id _).get? k)
    rw [Heap.get?_modify_ite]
    split
    · rename_i hk
      rw [hk, (record_eq_ok.mp hr).2]
      exact .locked r
    · exact .none _
  | settled id s v =>
    rcases settle_cases l id s v with h | ⟨r, hr, pending, settles, h⟩
    · rw [h]
      exact .none _
    · rw [h]
      show Record.Change gone _ ((l.heap.modify id _).get? k)
      rw [Heap.get?_modify_ite]
      split
      · rename_i hk
        rw [hk, hr]
        exact .settled s v pending settles
      · exact .none _

/-- Whether a loop has freed the record of an id on its way to another state. -/
def HasFreed (l l' : Loop) (id : PromiseId) : Prop :=
  ∃ r newer, l'.history = (.freed id r :: newer) ++ l.history

theorem Deed.change (h : l.Deed l') (wf : l.heap.Wf) (k : PromiseId) :
    Record.Change (l.HasFreed l' k) (l.heap.get? k) (l'.heap.get? k) := by
  cases h with
  | chore h => exact h.change wf _ k
  | selected =>
    obtain ⟨heap, heq, sel, -⟩ := takeReports_spec l
    rw [show l.takeReports.2.heap = heap by rw [heq], sel.find]
    cases hr : l.heap.get? k with
    | none => exact .none _
    | some r =>
      simp only [Option.map_some]
      split
      · rename_i mem
        obtain ⟨e, he, rfl⟩ := List.mem_map.mp mem
        obtain ⟨x, hx, awaits, -⟩ := sel.awaited e he
        obtain rfl := Option.some.inj (hr.symm.trans hx)
        exact .selected awaits
      · exact .none _
  | reported id reason =>
    rw [report_eq]
    exact .none _
  | @freed _ id r h =>
    rw [get?_free? h]
    split
    · rename_i hk
      rw [hk, (free?_eq_some.mp h).1]
      exact .freed r ⟨_, _, history_free? h⟩
    · exact .none _
  | checked => exact .none _

/-- An act makes one change at most under every id, and frees a record only by an event that says so. -/
theorem Act.change (h : l.Act l') (wf : l.heap.Wf) (k : PromiseId) :
    Record.Change (l.HasFreed l' k) (l.heap.get? k) (l'.heap.get? k) := by
  cases h with
  | deed h => exact h.change wf k
  | @attached p f g _ h =>
    obtain ⟨r, hr, rfl⟩ := (attach_eq_ok wf).mp h
    rw [get?_registered wf (record_eq_ok.mp hr).2]
    split
    · rename_i hk
      rw [hk, (record_eq_ok.mp hr).2]
      exact .registered r f g _
    · exact change_allocate wf _ k
  | ended derived job =>
    rw [heap_endAttach]
    exact .none _

/-- The records of a loop are well formed. -/
def Formed (l : Loop) : Prop := ∀ id r, l.heap.get? id = some r → r.Formed

theorem Act.formed (h : l.Act l') (wf : l.heap.Wf) (formed : l.Formed) : l'.Formed := fun id =>
  (h.change wf id).formed (formed id)

/-- A rejection that has to be reported stays on the list until a checkpoint marks it. -/
theorem Deed.waits (h : l.Deed l') (wf : l.heap.Wf) (waits : l.Waits) : l'.Waits := by
  cases h with
  | chore h => exact h.waits wf waits
  | selected =>
    obtain ⟨heap, heq, sel, -⟩ := takeReports_spec l
    rw [heq]
    intro tracking k r hr awaits
    have tracking : l.config.trackUnhandledRejections = true := tracking
    have hr : heap.get? k = some r := hr
    rw [sel.find] at hr
    obtain ⟨x, hx, rfl⟩ := Option.map_eq_some_iff.mp hr
    split at awaits
    · simp [awaitsReport_of_reported] at awaits
    · rename_i left
      have mem := waits tracking k x hx awaits
      rw [if_pos tracking] at sel
      exact absurd (sel.complete k mem x hx awaits) left
  | reported id reason =>
    rw [report_eq]
    exact waits
  | freed h =>
    obtain ⟨config, awaiting⟩ := kept_free? h
    intro tracking k r hr awaits
    rw [get?_free? h] at hr
    split at hr
    · cases hr
    · rw [awaiting]
      exact waits (config ▸ tracking) k r hr awaits
  | checked => exact waits

theorem Act.waits (h : l.Act l') (wf : l.heap.Wf) (waits : l.Waits) : l'.Waits := by
  cases h with
  | deed h => exact h.waits wf waits
  | attached h =>
    obtain ⟨r, hr, rfl⟩ := (attach_eq_ok wf).mp h
    intro tracking k x hx awaits
    rw [get?_registered wf (record_eq_ok.mp hr).2] at hx
    split at hx
    · -- the promise is handled from now on
      rw [← Option.some.inj hx] at awaits
      simp [Record.awaitsReport] at awaits
    · exact (Chore.created l).waits wf waits tracking k x hx awaits
  | ended derived job => cases job <;> exact waits

/-- Records stay until they are freed, and take nothing back. -/
def Advances (l l' : Loop) : Prop := ∃ newer, l'.history = newer ++ l.history ∧
  ∀ id r, l.heap.get? id = some r → (∀ e ∈ newer, e.frees id = false) →
    ∃ r', l'.heap.get? id = some r' ∧ r.Advances r'

theorem Advances.refl (l : Loop) : l.Advances l := ⟨[], rfl, fun _ r hr _ => ⟨r, hr, .refl r⟩⟩

theorem Advances.trans {l'' : Loop} (h : l.Advances l') (h' : l'.Advances l'') : l.Advances l'' := by
  obtain ⟨newer, history, stays⟩ := h
  obtain ⟨newer', history', stays'⟩ := h'
  refine ⟨newer' ++ newer, by rw [history', history, List.append_assoc], fun id r hr alive => ?_⟩
  rw [List.forall_mem_append] at alive
  obtain ⟨r', hr', advances⟩ := stays id r hr alive.2
  obtain ⟨r'', hr'', advances'⟩ := stays' id r' hr' alive.1
  exact ⟨r'', hr'', advances.trans advances'⟩

theorem Act.advances (h : l.Act l') (wf : l.heap.Wf) : l.Advances l' := by
  obtain ⟨newer, history⟩ := h.history
  refine ⟨newer, history, fun id r hr alive => ?_⟩
  have change := h.change wf id
  rw [hr] at change
  cases hr' : l'.heap.get? id with
  | some r' =>
    rw [hr'] at change
    exact ⟨r', rfl, change.advances⟩
  | none =>
    rw [hr'] at change
    cases change with
    | freed _ gone =>
      obtain ⟨x, newer', freed⟩ := gone
      obtain rfl := List.append_cancel_right (history.symm.trans freed)
      have alive := alive _ (List.mem_cons_self ..)
      simp [Event.frees] at alive

theorem Acts.advances (h : l.Acts l') (wf : l.heap.Wf) : l.Advances l' := by
  induction h with
  | refl => exact .refl l
  | tail hs h ih => exact ih.trans (h.advances (Acts.wf hs wf))

end Loop

-- ---------------------------------------------------------------------------
-- Records in runs
-- ---------------------------------------------------------------------------

namespace Machine

variable {m m' : Machine} {k : LoopId} {l l' : Loop}

theorem Reachable.formed (h : Reachable m) (hl : m.loop? k = some l) : l.Formed :=
  h.keeps hl (fun _ _ _ id r hr => by simp at hr) fun wf act formed => act.formed wf formed

theorem Reachable.waits (h : Reachable m) (hl : m.loop? k = some l) : l.Waits :=
  h.keeps hl (fun _ _ _ _ id r hr => by simp at hr) fun wf act waits => act.waits wf waits

/-- Every record of a loop, whatever is being done at the moment, is either pending, without a value and
with reactions whose two sides belong together, or has settled with a value, keeps no reactions and is
locked.  It is handled exactly if handlers have been registered on its promise, it has been marked as
reported only if it is a rejection, and while it has to be reported its id waits for the next checkpoint,
if rejections are tracked.  Until it is freed it stays settled once it has settled, with the same value,
and its marks stay. -/
theorem records_stay_consistent (h : Reachable m) (hl : m.loop? k = some l) :
    (∀ id r, l.heap.get? id = some r →
      r.Formed ∧
      (l.heap.slots.length < 2 ^ 32 → r.state ≠ .pending → r.alreadyResolved = true) ∧
      (r.isHandled = true ↔ Handled id l.history) ∧
      (l.config.trackUnhandledRejections = true → r.awaitsReport = true → id ∈ l.awaiting)) ∧
    ∀ m' l', Run m m' → m'.loop? k = some l' → l.Advances l' := by
  refine ⟨fun id r hr => ⟨h.formed hl id r hr, fun room settled => ?_, ?_, fun tracking awaits => ?_⟩,
    fun m' l' hr hl' => (Run.acts h hr hl hl').advances (h.wf hl)⟩
  · exact ((h.warranted k).guarded l hl room).locked id r hr settled
  · have handled := (h.told hl).handled id
    rwa [hr] at handled
  · exact h.waits hl tracking id r hr awaits

/-- A machine whose script has registered handlers on a pending promise. -/
def chainedOnce : Machine :=
  (boot {} .log .native).obey [.step (.newPromise "main") (some "p") false,
    .step (.attach .then_ "main" (.variable "p") none none) (some "d") false]

/-- `chainedOnce` a moment later, when its script has fulfilled the promise. -/
def chainedFulfilled : Machine :=
  (chainedOnce.start (.step (.resolve "main" (.variable "p") (.constant .null)) none false)).step

theorem reachable_chainedOnce : Reachable chainedOnce := .obey (.boot _ _ _) _

theorem records_stay_consistent_chainedOnce :
    ∃ l l' r r', chainedOnce.loop? ⟨0⟩ = some l ∧ chainedFulfilled.loop? ⟨0⟩ = some l' ∧
      l.heap.get? ⟨0, 0⟩ = some r ∧ r.fulfillReactions.length = 1 ∧ r.Formed ∧ r.isHandled = true ∧
      l'.heap.get? ⟨0, 0⟩ = some r' ∧ r'.state = .fulfilled ∧ r.Advances r' := by
  obtain ⟨l, hl⟩ := Option.isSome_iff_exists.mp
    (by cbv : (chainedOnce.loop? ⟨0⟩).isSome = true)
  obtain ⟨l', hl'⟩ := Option.isSome_iff_exists.mp
    (by cbv : (chainedFulfilled.loop? ⟨0⟩).isSome = true)
  have before : ((chainedOnce.loop? ⟨0⟩).bind fun l => l.heap.get? ⟨0, 0⟩).map
      (fun r => r.fulfillReactions.length) = some 1 := by cbv
  have after : ((chainedFulfilled.loop? ⟨0⟩).bind fun l => l.heap.get? ⟨0, 0⟩).map Record.state =
      some .fulfilled := by cbv
  have freed : (chainedFulfilled.loop? ⟨0⟩).map
      (fun l => l.history.countP (Event.frees ⟨0, 0⟩)) = some 0 := by cbv
  rw [hl] at before
  rw [hl'] at after freed
  obtain ⟨r, hr, one⟩ := Option.map_eq_some_iff.mp before
  obtain ⟨r', hr', fulfilled⟩ := Option.map_eq_some_iff.mp after
  have hr : l.heap.get? ⟨0, 0⟩ = some r := hr
  have hr' : l'.heap.get? ⟨0, 0⟩ = some r' := hr'
  obtain ⟨records, runs⟩ := records_stay_consistent reachable_chainedOnce hl
  obtain ⟨formed, -, -, -⟩ := records _ r hr
  obtain ⟨newer, history, stays⟩ := runs _ l' (.tail (.single (.start (by cbv) _)) (.step _)) hl'
  have unfreed : ∀ e ∈ newer, e.frees ⟨0, 0⟩ = false := fun e he => by
    simpa using List.countP_eq_zero.mp (Option.some.inj freed) e (by simp [history, he])
  obtain ⟨x, hx, advances⟩ := stays _ r hr unfreed
  obtain rfl := Option.some.inj (hr'.symm.trans hx)
  have handled := formed.handled (.inl fun empty => by simp [empty] at one)
  exact ⟨l, l', r, r', hl, hl', hr, one, formed, handled, hr', fulfilled, advances⟩

end Machine
end PromiseLoop

import PromiseLoop.Proofs.Handles.Updates

/-!
# Warrants

Whoever may still settle a promise has a *warrant* for it: a queued adoption of a thenable, a pair of
one-shot functions of which none has been called, or a resolution that is waiting for its value to be
asked for a `then`.  A warrant comes into being when the lock of a record is taken, and it is handed on
from the resolution to the adoption and from there to a pair.

A pair of functions does not look at the lock, so whoever holds one of them has to be known to hold
the function that belongs to the pair.  The *mark* of a value says of which promise it is a handle and
through which pair it settles that promise.  Marks are not made up: whatever a loop holds after an
operation it held before, or it was given.

A loop is *guarded* if exactly those of its promises have a warrant whose records are locked and still
pending, and none of them has two.

## Results

* `Loop.known_settle`, `Loop.known_registered`: where the values of a loop come from.
* `Loop.Guarded.lock`, `Loop.Guarded.settle`: a warrant is issued with the lock, and used up by
  settling.
-/

namespace PromiseLoop

-- ---------------------------------------------------------------------------
-- Marks
-- ---------------------------------------------------------------------------

/-- The promise on which a value is a handle, and the pair through which it settles that promise. -/
structure Mark where
  promise : Promise
  pair : Option Nat
deriving DecidableEq, Repr

/-- The pair that a guard belongs to. -/
def Guard.pair? : Guard → Option Nat
  | .lock => none
  | .flag n => some n

def Value.mark? : Value → Option Mark
  | .promise p => some ⟨p, none⟩
  | .function (.resolver r) => some ⟨r.promise, r.guard.pair?⟩
  | _ => none

/-- A mark says on which promise a value is a handle. -/
theorem Value.promise?_eq_map_mark? (v : Value) : v.promise? = v.mark?.map Mark.promise := by
  cases v with
  | function f => cases f <;> rfl
  | _ => rfl

/-- Whether the mark of a value is among those that are known. -/
def Value.Known (ks : List Mark) (v : Value) : Prop := ∀ k, v.mark? = some k → k ∈ ks

/-- Whether the marks of values are known. -/
def Known (ks : List Mark) (vs : List Value) : Prop := ∀ v ∈ vs, v.Known ks

section

variable {ks ks' : List Mark} {v : Value} {vs ws : List Value}

theorem Value.known_of_mark?_eq_none (h : v.mark? = none) : v.Known ks := fun k hk => by
  rw [h] at hk
  cases hk

theorem Value.known_iff_of_mark? {k : Mark} (h : v.mark? = some k) : v.Known ks ↔ k ∈ ks := by
  refine ⟨fun known => known k h, fun mem k' hk => ?_⟩
  obtain rfl := Option.some.inj (h.symm.trans hk)
  exact mem

@[simp] theorem Value.known_promise {p : Promise} : (Value.promise p).Known ks ↔ ⟨p, none⟩ ∈ ks :=
  known_iff_of_mark? rfl

@[simp] theorem Value.known_resolver {r : Resolver} :
    (Value.function (.resolver r)).Known ks ↔ ⟨r.promise, r.guard.pair?⟩ ∈ ks :=
  known_iff_of_mark? rfl

@[simp] theorem Value.known_routine (n : Nat) (name : String) :
    (Value.function (.routine n name)).Known ks := known_of_mark?_eq_none rfl

@[simp] theorem Value.known_method (home : LoopId) (method : Method) :
    (Value.function (.method home method)).Known ks := known_of_mark?_eq_none rfl

@[simp] theorem Value.known_object (o : ObjectId) : (Value.object o).Known ks := known_of_mark?_eq_none rfl

@[simp] theorem Value.known_native (n : Nat) : (Value.native n).Known ks := known_of_mark?_eq_none rfl

theorem Value.known_of_isPlain (h : v.isPlain = true) : v.Known ks := known_of_mark?_eq_none (by
  cases v <;> first | rfl | cases h)

@[simp] theorem Value.known_undefined : Value.undefined.Known ks := known_of_isPlain rfl

@[simp] theorem Value.known_text (s : String) : (Value.text s).Known ks := known_of_isPlain rfl

@[simp] theorem Value.known_error (e : ErrorValue) : (Value.error e).Known ks := known_of_isPlain rfl

@[simp] theorem Value.known_typeError (s : String) : (Value.typeError s).Known ks := known_of_isPlain rfl

theorem Value.Known.mono (h : v.Known ks) (more : ks ⊆ ks') : v.Known ks' := fun k hk => more (h k hk)

@[simp] theorem known_nil : Known ks [] := by simp [Known]

@[simp] theorem known_cons : Known ks (v :: vs) ↔ v.Known ks ∧ Known ks vs := by simp [Known]

@[simp] theorem known_append : Known ks (vs ++ ws) ↔ Known ks vs ∧ Known ks ws := by
  simp [Known, or_imp, forall_and]

theorem Known.mono (h : Known ks vs) (more : ks ⊆ ks') : Known ks' vs := fun v hv => (h v hv).mono more

theorem Known.subset (h : Known ks vs) (fewer : ws ⊆ vs) : Known ks ws := fun v hv => h v (fewer hv)

/-- Of values that are known, any one that was picked is. -/
theorem Known.of_mem_toList {o : Option Value} (h : Known ks o.toList) (hv : o = some v) :
    v.Known ks := h v (by simp [hv])

theorem Known.headD (h : Known ks vs) : (vs.headD .undefined).Known ks := by
  cases vs with
  | nil => simp
  | cons v vs => exact h v (List.mem_cons_self ..)

end

-- ---------------------------------------------------------------------------
-- Warrants
-- ---------------------------------------------------------------------------

/-- The promise that a job has the warrant for. -/
def Job.warrant? : Job → Option Promise
  | .adoption p _ _ => some p
  | _ => none

/-- The promise that a begun activity has the warrant for. -/
def Frame.warrant? : Frame → Option Promise
  | .resolving p _ => some p
  | _ => none

/-- The promise that a pair of one-shot functions has the warrant for. -/
def Pair.warrant? (x : Pair) : Option Promise := if x.fired then none else some x.promise

/-- The promises that queued adoptions are to settle. -/
def Loop.adoptions (l : Loop) : List Promise := l.microtasks.entries.filterMap Job.warrant?

namespace Machine

/-- The promises whose pair of one-shot functions has not been used. -/
def openPairs (m : Machine) : List Promise := m.pairs.filterMap Pair.warrant?

/-- The promises that are being resolved, while their values are asked for a `then`. -/
def resolutions (m : Machine) : List Promise := m.stack.filterMap Frame.warrant?

/-- The promises with a warrant, as far as a loop is concerned. -/
def warrants (m : Machine) (l : Loop) : List Promise := l.adoptions ++ (m.openPairs ++ m.resolutions)

end Machine

-- ---------------------------------------------------------------------------
-- Where the values of a heap come from
-- ---------------------------------------------------------------------------

namespace Heap

variable {h : Heap} {id : PromiseId} {v : Value}

theorem mem_held : v ∈ h.held ↔ ∃ s ∈ h.slots, ∃ r, s.record = some r ∧ v ∈ r.held := by
  simp only [held, records, List.mem_flatMap, List.mem_filterMap]
  constructor
  · rintro ⟨r, ⟨s, hs, hr⟩, hv⟩
    exact ⟨s, hs, r, hr, hv⟩
  · rintro ⟨s, hs, r, hr, hv⟩
    exact ⟨r, ⟨s, hs, hr⟩, hv⟩

theorem mem_held_of_get? {r : Record} (hr : h.get? id = some r) (hv : v ∈ r.held) : v ∈ h.held :=
  mem_held.mpr ⟨_, List.mem_of_getElem? (get?_eq_some.mp hr), r, rfl, hv⟩

/-- An element of a list in which one was changed is one that was there, or the changed one. -/
theorem mem_of_mem_modify {α : Type} {xs : List α} {n : Nat} {f : α → α} {y : α}
    (hy : y ∈ xs.modify n f) : y ∈ xs ∨ ∃ x, xs[n]? = some x ∧ y = f x := by
  obtain ⟨i, hi⟩ := List.mem_iff_getElem?.mp hy
  rw [List.getElem?_modify] at hi
  obtain ⟨x, hx, rfl⟩ := Option.map_eq_some_iff.mp hi
  split
  · rename_i hn
    exact .inr ⟨x, hn ▸ hx, rfl⟩
  · exact .inl (List.mem_of_getElem? hx)

theorem held_modify (h : Heap) (id : PromiseId) (f : Record → Record) {new : List Value}
    (draws : ∀ r, h.get? id = some r → (f r).held ⊆ r.held ++ new) :
    (h.modify id f).held ⊆ h.held ++ new := by
  intro v hv
  rw [List.mem_append]
  obtain ⟨s, hs, r, hr, hv⟩ := mem_held.mp hv
  rcases mem_of_mem_modify hs with hs | ⟨x, hx, rfl⟩
  · exact .inl (mem_held.mpr ⟨s, hs, r, hr, hv⟩)
  · split at hr
    · rename_i hg
      obtain ⟨r', hr', rfl⟩ := Option.map_eq_some_iff.mp hr
      have found : h.get? id = some r' := get?_eq_some.mpr (by rw [hx, ← hg, ← hr'])
      exact (List.mem_append.mp (draws r' found hv)).imp_left (mem_held_of_get? found)
    · exact .inl (mem_held.mpr ⟨x, List.mem_of_getElem? hx, r, hr, hv⟩)

theorem held_allocate (h : Heap) : (h.allocate .pending).2.held ⊆ h.held := by
  intro v hv
  obtain ⟨s, hs, r, hr, hv⟩ := mem_held.mp hv
  have empty : v ∉ Record.pending.held := by simp [Record.pending, Record.held, heldByReactions]
  cases hvac : h.vacant with
  | nil =>
    rw [allocate_of_full _ hvac] at hs
    rcases List.mem_append.mp hs with hs | hs
    · exact mem_held.mpr ⟨s, hs, r, hr, hv⟩
    · obtain rfl := List.mem_singleton.mp hs
      cases hr
      exact absurd hv empty
  | cons i rest =>
    simp only [allocate, hvac] at hs
    rcases mem_of_mem_modify hs with hs | ⟨x, -, rfl⟩
    · exact mem_held.mpr ⟨s, hs, r, hr, hv⟩
    · cases hr
      exact absurd hv empty

theorem held_vacated (h : Heap) (id : PromiseId) : (h.vacated id).held ⊆ h.held := by
  intro v hv
  obtain ⟨s, hs, r, hr, hv⟩ := mem_held.mp hv
  rcases mem_of_mem_modify hs with hs | ⟨x, -, rfl⟩
  · exact mem_held.mpr ⟨s, hs, r, hr, hv⟩
  · cases hr

end Heap

-- ---------------------------------------------------------------------------
-- Where the values of a loop come from
-- ---------------------------------------------------------------------------

theorem Record.mem_held_of_reason {r : Record} (h : r.reason ≠ .undefined) : r.reason ∈ r.held := by
  unfold reason at h ⊢
  cases hv : r.value with
  | none => simp [hv] at h
  | some v => simp [held, hv]

/-- The reason of a record is one of the values it holds, or nothing worth mentioning. -/
theorem Record.known_reason {ks : List Mark} {r : Record} (h : Known ks r.held) : r.reason.Known ks := by
  by_cases hr : r.reason = .undefined
  · simp [hr]
  · exact h _ (mem_held_of_reason hr)

/-- The job and the rest that a registration gives draw on the record and on the handlers. -/
theorem Record.known_registered {ks : List Mark} {r : Record} {f g : Option Value} {d : Promise}
    (h : Known ks r.held) (handlers : Known ks (f.toList ++ g.toList)) (derived : ⟨d, none⟩ ∈ ks) :
    Known ks (r.registered f g d).held ∧
      Known ks (((r.reactionJob f g d).map Job.held).getD [] ++ r.unusedReaction f g d) := by
  have reason := known_reason h
  simp only [known_append] at handlers
  cases hs : r.state
  · simp [registered, reactionJob, unusedReaction, isPending, hs, addReaction, held, heldByReactions,
      Reaction.held] at h ⊢
    tauto
  all_goals
    have same : (r.registered f g d).held = r.held := by simp [registered, isPending, hs, held]
    refine ⟨same ▸ h, ?_⟩
    simp [reactionJob, unusedReaction, hs, Job.held, Reaction.held]
    tauto

namespace Loop

variable {l l' : Loop} {ks : List Mark}

theorem known_held : Known ks l.held ↔ Known ks (l.log.flatMap RejectionEvent.held) ∧
    Known ks l.heap.held ∧ Known ks (l.inFlight.map .promise) ∧
      Known ks (l.microtasks.entries.flatMap Job.held) := by
  simp [held]

/-- Where a loop keeps its log, its flight and its queue, only the heap matters. -/
theorem known_of_heap (h : Known ks l.held) (log : l'.log = l.log) (inFlight : l'.inFlight = l.inFlight)
    (microtasks : l'.microtasks = l.microtasks) (heap : Known ks l'.heap.held) : Known ks l'.held := by
  rw [known_held] at h ⊢
  rw [log, inFlight, microtasks]
  exact ⟨h.1, heap, h.2.2⟩

theorem known_modify (h : Known ks l.held) (id : PromiseId) (f : Record → Record) {new : List Value}
    (given : Known ks new) (draws : ∀ r, l.heap.get? id = some r → (f r).held ⊆ r.held ++ new) :
    Known ks (l.heap.modify id f).held :=
  (known_append.mpr ⟨(known_held.mp h).2.1, given⟩).subset (l.heap.held_modify id f draws)

theorem known_record (h : Known ks l.held) {id : PromiseId} {r : Record} (hr : l.heap.get? id = some r) :
    Known ks r.held := (known_held.mp h).2.1.subset fun _ hv => Heap.mem_held_of_get? hr hv

theorem known_job (h : Known ks l.held) {j : Job} (hj : j ∈ l.microtasks.entries) : Known ks j.held :=
  (known_held.mp h).2.2.2.subset fun _ hv => List.mem_flatMap.mpr ⟨j, hj, hv⟩

theorem known_newPromise (h : Known ks l.held) : Known ks l.newPromise.2.held :=
  known_of_heap h rfl rfl rfl ((known_held.mp h).2.1.subset l.heap.held_allocate)

theorem known_enqueue (h : Known ks l.held) {j : Job} (hj : Known ks j.held) :
    Known ks (l.enqueue j).held := by
  rw [known_held] at h ⊢
  refine ⟨h.1, h.2.1, h.2.2.1, ?_⟩
  simp only [enqueue, note, Queue.entries_enqueue, List.flatMap_append, List.flatMap_cons,
    List.flatMap_nil, List.append_nil, known_append]
  exact ⟨h.2.2.2, hj⟩

theorem known_settle (h : Known ks l.held) (id : PromiseId) (s : State) {v : Value} (hv : v.Known ks) :
    Known ks (l.settle id s v).1.held ∧ Known ks (l.settle id s v).2 := by
  rcases settle_cases l id s v with heq | ⟨r, hr, -, -, heq⟩
  · rw [heq]
    exact ⟨h, by simpa using hv⟩
  · have record := known_record h hr
    have sides : Known ks (heldByReactions r.fulfillReactions) ∧
        Known ks (heldByReactions r.rejectReactions) := by
      simp only [Record.held, known_append] at record
      exact ⟨record.1.2, record.2⟩
    have fire : Known ks (heldByReactions (r.released s).fire) ∧
        Known ks (heldByReactions (r.released s).discarded) := by
      cases s
      · exact sides.symm
      · exact sides
      · exact sides.symm
    have jobs : Known ks (((r.released s).fire.map (Job.reaction · v)).flatMap Job.held) := by
      intro w hw
      simp only [List.mem_flatMap, List.mem_map] at hw
      obtain ⟨_, ⟨x, hx, rfl⟩, hw⟩ := hw
      rcases List.mem_append.mp hw with hw | hw
      · exact fire.1 w (List.mem_flatMap.mpr ⟨x, hx, hw⟩)
      · obtain rfl := List.mem_singleton.mp hw
        exact hv
    have heap := known_modify h id (fun _ => r.settled s v)
      (show Known ks [v] by simpa using hv) fun _ _ => by simp [Record.settled, Record.held, heldByReactions]
    rw [heq]
    rw [known_held] at h ⊢
    refine ⟨⟨h.1, heap, h.2.2.1, ?_⟩, fire.2⟩
    simp only [List.flatMap_append, known_append]
    exact ⟨h.2.2.2, jobs⟩

theorem known_deliver (l : Loop) (h : Known ks l.held) : Known ks l.deliver.held := by
  rw [deliver_eq]
  rw [known_held] at h ⊢
  refine ⟨h.1, h.2.1, h.2.2.1, ?_⟩
  simp only [List.flatMap_append, known_append]
  refine ⟨h.2.2.2, fun v hv => ?_⟩
  simp [List.mem_flatMap, Job.held] at hv

theorem known_receive? (h : Known ks l.held) (hr : l.receive? = some l') : Known ks l'.held := by
  unfold receive? at hr
  split at hr
  · cases hr
  · rename_i r rest _
    rw [← Option.some.inj hr]
    exact known_enqueue (l := { l with channel := rest }) (j := .settlement r) h known_nil

theorem held_releaseWorker (l : Loop) : l.releaseWorker.2.held = l.held := by
  unfold releaseWorker
  split <;> rfl

/-- The log of a loop that hears of a report keeps the reason. -/
theorem known_report (h : Known ks l.held) (id : PromiseId) {reason : Value} (hr : reason.Known ks) :
    Known ks (l.report id reason).held := by
  rw [report_eq, known_held]
  rw [known_held] at h
  refine ⟨?_, h.2⟩
  split
  · simpa [RejectionEvent.held, hr] using h.1
  · exact h.1

theorem known_takeReports (h : Known ks l.held) : Known ks l.takeReports.2.held ∧
    Known ks (l.takeReports.1.map Prod.snd) := by
  have fold : ∀ (ids : List PromiseId) (acc : List (PromiseId × Value) × Loop),
      Known ks acc.2.held → Known ks (acc.1.map Prod.snd) →
      Known ks (ids.foldl selectReport acc).2.held ∧
        Known ks ((ids.foldl selectReport acc).1.map Prod.snd) := by
    intro ids
    induction ids with
    | nil => exact fun _ h h' => ⟨h, h'⟩
    | cons id ids ih =>
      intro acc h h'
      refine ih (selectReport acc id) ?_ ?_ <;> unfold selectReport <;> split
      · exact h
      · split
        · exact known_of_heap h rfl rfl rfl (known_modify h _ _ known_nil fun _ _ => by simp [Record.held])
        · exact h
      · exact h'
      · rename_i r hr
        split
        · simpa using ⟨h', Record.known_reason (known_record h hr)⟩
        · exact h'
  unfold takeReports
  dsimp only
  split
  · exact fold l.awaiting ([], { l with awaiting := [] }) h known_nil
  · exact ⟨h, known_nil⟩

theorem known_registered (h : Known ks l.held) {q : Promise} {r : Record}
    (hr : l.heap.get? q.id = some r) {f g : Option Value} (handlers : Known ks (f.toList ++ g.toList))
    (derived : ⟨l.newPromise.1, none⟩ ∈ ks) : Known ks (l.registered q f g r).held := by
  have created := known_newPromise h
  have record := (Record.known_registered (known_record h hr) handlers derived).1
  have heap := known_modify created q.id (fun _ => r.registered f g l.newPromise.1)
    record fun _ _ => by simp
  rw [known_held] at h ⊢
  refine ⟨?_, heap, h.2.2⟩
  unfold registered
  dsimp only
  split
  · simpa [RejectionEvent.held] using h.1
  · exact h.1

theorem known_free? (h : Known ks l.held) {id : PromiseId} {r : Record}
    (hf : l.free? id = some (r, l')) : Known ks l'.held ∧ Known ks r.held := by
  obtain ⟨hr, rfl⟩ := free?_eq_some.mp hf
  have record := known_record h hr
  have vacated : Known ks { l with heap := l.heap.vacated id }.held :=
    known_of_heap h rfl rfl rfl ((known_held.mp h).2.1.subset (l.heap.held_vacated id))
  refine ⟨?_, record⟩
  split
  · exact known_report vacated id (Record.known_reason record)
  · exact vacated

-- ---------------------------------------------------------------------------
-- Guarded records
-- ---------------------------------------------------------------------------

end Loop

/-- What settling looks at: the state of a promise, and whether its lock has been taken. -/
def Record.phase (r : Record) : State × Bool := (r.state, r.alreadyResolved)

namespace Loop

/-- An operation that touches neither the locks and states of records nor the adoptions. -/
structure Mild (l l' : Loop) : Prop where
  id : l'.id = l.id
  sound : l.Sound → l'.Sound
  serial : l'.nextSerial = l.nextSerial
  slots : l'.heap.slots.length = l.heap.slots.length
  phases : ∀ k, (l'.heap.get? k).map Record.phase = (l.heap.get? k).map Record.phase
  adoptions : l'.adoptions = l.adoptions

variable {l l' : Loop} {ks : List Mark}

theorem mild_of_heap (id : l'.id = l.id) (serial : l'.nextSerial = l.nextSerial) (heap : l'.heap = l.heap)
    (adoptions : l'.adoptions = l.adoptions) : l.Mild l' where
  id := id
  sound h := ⟨heap ▸ h.wf, heap ▸ h.valueless⟩
  serial := serial
  slots := by rw [heap]
  phases k := by rw [heap]
  adoptions := adoptions

theorem Mild.refl (l : Loop) : l.Mild l := mild_of_heap rfl rfl rfl rfl

theorem Mild.trans {l'' : Loop} (h : l.Mild l') (h' : l'.Mild l'') : l.Mild l'' where
  id := h'.id.trans h.id
  sound hs := h'.sound (h.sound hs)
  serial := h'.serial.trans h.serial
  slots := h'.slots.trans h.slots
  phases k := (h'.phases k).trans (h.phases k)
  adoptions := h'.adoptions.trans h.adoptions

/-- Changes of a record that settling does not look at. -/
theorem mild_of_modify {id : PromiseId} {r : Record} {f : Record → Record} (hr : l.heap.get? id = some r)
    (same : l'.id = l.id) (serial : l'.nextSerial = l.nextSerial) (heap : l'.heap = l.heap.modify id f)
    (adoptions : l'.adoptions = l.adoptions) (phase : (f r).phase = r.phase)
    (value : (f r).value = r.value) : l.Mild l' where
  id := same
  sound h := by
    refine ⟨heap ▸ h.wf.modify id f, fun k x hx hs => ?_⟩
    rw [heap, Heap.get?_modify_ite] at hx
    split at hx
    · rename_i hk
      rw [hk, hr] at hx
      obtain rfl := Option.some.inj hx
      rw [value]
      exact h.valueless id r hr ((congrArg Prod.fst phase).symm.trans hs)
    · exact h.valueless k x hx hs
  serial := serial
  slots := by rw [heap, Heap.slots_modify]
  phases k := by
    rw [heap, Heap.get?_modify_ite]
    split
    · rename_i hk
      rw [hk, hr]
      exact congrArg some phase
    · rfl
  adoptions := adoptions

theorem adoptions_enqueue (l : Loop) (j : Job) :
    (l.enqueue j).adoptions = l.adoptions ++ j.warrant?.toList := by
  unfold adoptions
  rw [show (l.enqueue j).microtasks.entries = l.microtasks.entries ++ [j] from rfl, List.filterMap_append]
  cases j <;> rfl

theorem mild_enqueue (l : Loop) {j : Job} (h : j.warrant? = none) : l.Mild (l.enqueue j) :=
  mild_of_heap rfl rfl rfl (by rw [adoptions_enqueue, h]; simp)

theorem mild_note (l : Loop) (e : Event) : l.Mild (l.note e) := mild_of_heap rfl rfl rfl rfl

theorem mild_deliver (l : Loop) : l.Mild l.deliver := by
  rw [deliver_eq]
  refine mild_of_heap rfl rfl rfl ?_
  simp [adoptions, List.filterMap_append, Job.warrant?]

theorem mild_receive? (h : l.receive? = some l') : l.Mild l' := by
  unfold receive? at h
  split at h
  · cases h
  · rename_i r rest _
    rw [← Option.some.inj h]
    exact (mild_of_heap rfl rfl rfl rfl : l.Mild { l with channel := rest }).trans
      (mild_enqueue { l with channel := rest } (j := .settlement r) rfl)

theorem mild_releaseWorker (l : Loop) : l.Mild l.releaseWorker.2 := by
  unfold releaseWorker
  split
  · exact .refl l
  · exact mild_of_heap rfl rfl rfl rfl

theorem mild_dequeueTask? {w : Work} (h : l.dequeueTask? = some (w, l')) : l.Mild l' := by
  obtain ⟨⟨w', q⟩, -, heq⟩ := Option.map_eq_some_iff.mp h
  rw [← (Prod.mk.inj heq).2]
  exact mild_of_heap rfl rfl rfl rfl

theorem mild_report (l : Loop) (id : PromiseId) (reason : Value) : l.Mild (l.report id reason) := by
  rw [report_eq]
  exact mild_of_heap rfl rfl rfl rfl

theorem mild_takeReports (l : Loop) : l.Mild l.takeReports.2 := by
  have fold : ∀ (ids : List PromiseId) (acc : List (PromiseId × Value) × Loop),
      acc.2.Mild (ids.foldl selectReport acc).2 := by
    intro ids
    induction ids with
    | nil => exact fun acc => .refl acc.2
    | cons id ids ih =>
      intro acc
      refine Mild.trans ?_ (ih (selectReport acc id))
      unfold selectReport
      split
      · exact .refl _
      · rename_i r hr
        split
        · exact mild_of_modify hr rfl rfl rfl rfl rfl rfl
        · exact .refl _
  have cleared : l.Mild { l with awaiting := [] } := mild_of_heap rfl rfl rfl rfl
  unfold takeReports
  dsimp only
  split
  · exact cleared.trans (fold l.awaiting ([], { l with awaiting := [] }))
  · exact cleared

/-- Registering handlers leaves what settling looks at alone, once the derived promise is there. -/
theorem mild_registered (wf : l.heap.Wf) {q : Promise} {r : Record} (hr : l.heap.get? q.id = some r)
    (f g : Option Value) : l.newPromise.2.Mild (l.registered q f g r) :=
  mild_of_modify (f := fun _ => r.registered f g l.newPromise.1)
    (Heap.get?_allocate_of_some wf .pending hr) rfl rfl rfl rfl (by simp [Record.phase]) (by simp)

theorem mild_endAttach (l : Loop) (derived : Promise) {job : Option Job}
    (h : job.bind Job.warrant? = none) : l.Mild (l.endAttach derived job) := by
  cases job with
  | none => exact mild_note l _
  | some j => exact (mild_enqueue l h).trans (mild_note _ _)

/-- A lock that has been taken stays as it is. -/
theorem mild_of_lock_refused {p : Promise} (h : l.lock p = .ok (false, l')) : l.Mild l' := by
  obtain ⟨r, hr, taken, rfl⟩ := lock_eq_ok.mp h
  have taken : r.alreadyResolved = true := by simpa using taken
  exact mild_of_modify (f := fun r => { r with alreadyResolved := true }) (record_eq_ok.mp hr).2 rfl rfl
    rfl rfl (by simp [Record.phase, taken]) rfl

/-- The records of the promises that are known.  Exactly those that are locked and pending have a warrant
in `out`, and none has two. -/
structure Guarded (l : Loop) (known : Promise → Prop) (out : List Promise) : Prop where
  home : ∀ p, known p → p.home = l.id
  live : ∀ p, known p → l.heap.Live p.id
  distinct : ∀ p q, known p → known q → p.id = q.id → p = q
  /-- Promises that are known or have a warrant have been created. -/
  young : ∀ p, known p ∨ (p ∈ out ∧ p.home = l.id) → p.serial < l.nextSerial
  once : ∀ p, p.home = l.id → out.count p ≤ 1
  waits : ∀ p, known p → (p ∈ out ↔ (l.heap.get? p.id).map Record.phase = some (.pending, true))
  locked : ∀ k r, l.heap.get? k = some r → r.state ≠ .pending → r.alreadyResolved = true

namespace Guarded

variable {known known' : Promise → Prop} {out out' : List Promise} {p : Promise}

theorem mild (h : l.Guarded known out) (hm : l.Mild l') : l'.Guarded known out := by
  have found {k : PromiseId} {r' : Record} (hr : l'.heap.get? k = some r') :
      ∃ r, l.heap.get? k = some r ∧ r.phase = r'.phase :=
    Option.map_eq_some_iff.mp ((hm.phases k).symm.trans (congrArg _ hr))
  refine ⟨hm.id ▸ h.home, fun p hp => ?_, h.distinct, ?_, hm.id ▸ h.once, fun p hp => ?_,
    fun k r' hr' hs => ?_⟩
  · obtain ⟨r, hr⟩ := h.live p hp
    obtain ⟨r', hr', -⟩ := Option.map_eq_some_iff.mp ((hm.phases p.id).trans (congrArg _ hr))
    exact ⟨r', hr'⟩
  · rw [hm.id, hm.serial]
    exact h.young
  · rw [hm.phases]
    exact h.waits p hp
  · obtain ⟨r, hr, same⟩ := found hr'
    obtain ⟨state, taken⟩ := Prod.mk.inj same
    exact taken ▸ h.locked k r hr (state ▸ hs)

/-- The warrants may be listed in any order, and fewer promises may be known. -/
theorem congr (h : l.Guarded known out) (less : ∀ p, known' p → known p)
    (count : ∀ p, p.home = l.id → out'.count p = out.count p) : l.Guarded known' out' := by
  have same {p : Promise} (home : p.home = l.id) : p ∈ out' ↔ p ∈ out := by
    rw [← List.count_pos_iff, ← List.count_pos_iff, count p home]
  refine ⟨fun p hp => h.home p (less p hp), fun p hp => h.live p (less p hp),
    fun p q hp hq => h.distinct p q (less p hp) (less q hq), fun p hp => h.young p ?_,
    fun p home => count p home ▸ h.once p home, fun p hp => ?_, h.locked⟩
  · exact hp.imp (less p) fun ⟨hp, home⟩ => ⟨(same home).mp hp, home⟩
  · rw [same (h.home p (less p hp))]
    exact h.waits p (less p hp)

/-- A promise is created that nobody has known. -/
theorem newPromise (h : l.Guarded known out) (sound : l.Sound)
    (room : l.newPromise.2.heap.slots.length < 2 ^ 32)
    (more : ∀ p, known' p ↔ p = l.newPromise.1 ∨ known p) :
    l.newPromise.2.Guarded known' out := by
  obtain ⟨new, live⟩ := live_newPromise sound room
  have serial : l.newPromise.2.nextSerial = l.newPromise.1.serial + 1 := rfl
  have unused : l.newPromise.1 ∉ out := fun hp =>
    absurd (h.young _ (.inr ⟨hp, rfl⟩)) (Nat.lt_irrefl _)
  refine ⟨fun p hp => ?_, fun p hp => ?_, fun p q hp hq same => ?_, fun p hp => ?_, h.once,
    fun p hp => ?_, fun k r hr hs => ?_⟩
  · rcases (more p).mp hp with rfl | hp
    · rfl
    · exact h.home p hp
  · exact (live p.id).mpr (((more p).mp hp).imp (congrArg Promise.id) (h.live p))
  · rcases (more p).mp hp with rfl | hp <;> rcases (more q).mp hq with rfl | hq
    · rfl
    · exact absurd (same ▸ h.live q hq) new
    · exact absurd (same ▸ h.live p hp) new
    · exact h.distinct p q hp hq same
  · rw [serial]
    rcases hp with hp | hp
    · rcases (more p).mp hp with rfl | hp
      · exact Nat.lt_succ_self _
      · exact Nat.lt_succ_of_lt (h.young p (.inl hp))
    · exact Nat.lt_succ_of_lt (h.young p (.inr hp))
  · rcases (more p).mp hp with rfl | hp
    · have found := (Heap.get?_allocate_self sound.wf .pending (Nat.le_of_lt room)).2
      rw [show l.newPromise.2.heap.get? l.newPromise.1.id = some .pending from found]
      simp [unused, Record.phase, Record.pending]
    · obtain ⟨r, hr⟩ := h.live p hp
      rw [h.waits p hp, hr, show l.newPromise.2.heap.get? p.id = some r from
        Heap.get?_allocate_of_some sound.wf .pending hr]
  · rcases Heap.get?_allocate sound.wf .pending k with heq | ⟨-, -, heq⟩
    · exact h.locked k r (heq.symm.trans hr) hs
    · rw [← Option.some.inj (heq.symm.trans hr)] at hs
      exact absurd rfl hs

/-- The record of one promise is replaced, and the warrants for the others stay as they are. -/
theorem replace (h : l.Guarded known out) (hp : known p) (r' : Record) (id : l'.id = l.id)
    (serial : l'.nextSerial = l.nextSerial)
    (look : ∀ k, l'.heap.get? k = if k = p.id then some r' else l.heap.get? k)
    (others : ∀ q, q ≠ p → out'.count q = out.count q) (own : out'.count p ≤ 1)
    (waits : p ∈ out' ↔ r'.phase = (.pending, true))
    (locked : r'.state ≠ .pending → r'.alreadyResolved = true) : l'.Guarded known out' := by
  have same {q : Promise} (ne : q ≠ p) : q ∈ out' ↔ q ∈ out := by
    rw [← List.count_pos_iff, ← List.count_pos_iff, others q ne]
  refine ⟨id ▸ h.home, fun q hq => ?_, h.distinct, fun q hq => ?_, fun q home => ?_,
    fun q hq => ?_, fun k r hr hs => ?_⟩
  · rw [Heap.Live, look]
    split
    · exact ⟨r', rfl⟩
    · exact h.live q hq
  · rw [serial]
    refine h.young q (hq.elim .inl fun ⟨hmem, home⟩ => ?_)
    by_cases he : q = p
    · exact .inl (he ▸ hp)
    · exact .inr ⟨(same he).mp hmem, id ▸ home⟩
  · by_cases he : q = p
    · exact he ▸ own
    · exact others q he ▸ h.once q (id ▸ home)
  · rw [look]
    by_cases he : q = p
    · rw [he, if_pos rfl, waits]
      simp
    · rw [if_neg fun e => he (h.distinct q p hq hp e), same he]
      exact h.waits q hq
  · rw [look] at hr
    split at hr
    · obtain rfl := Option.some.inj hr
      exact locked hs
    · exact h.locked k r hr hs

/-- The record of a promise with a warrant can be settled. -/
theorem pending_of_mem (h : l.Guarded known out) (hp : known p) (mem : p ∈ out) :
    ∃ r, l.heap.get? p.id = some r ∧ r.state = .pending ∧ r.alreadyResolved = true := by
  obtain ⟨r, hr, phase⟩ := Option.map_eq_some_iff.mp ((h.waits p hp).mp mem)
  exact ⟨r, hr, Prod.mk.inj phase⟩

/-- A promise whose lock is free is pending. -/
theorem pending_of_free (h : l.Guarded known out) {k : PromiseId} {r : Record}
    (hr : l.heap.get? k = some r) (free : r.alreadyResolved = false) : r.state = .pending := by
  by_contra hs
  simp [h.locked k r hr hs] at free

/-- Whoever takes the lock of a promise gets the only warrant for it. -/
theorem lock (h : l.Guarded known out) (hp : known p)
    (hl : l.lock p = .ok (true, l')) : l'.Guarded known (p :: out) := by
  obtain ⟨r, hr, free, rfl⟩ := lock_eq_ok.mp hl
  have free : r.alreadyResolved = false := by simpa using free
  have found := (record_eq_ok.mp hr).2
  have unused : p ∉ out := by
    rw [h.waits p hp, found]
    simp [Record.phase, free]
  refine h.replace hp { r with alreadyResolved := true } rfl rfl (fun k => ?_) (fun q ne => ?_)
    ?_ ?_ fun _ => rfl
  · show (l.heap.modify p.id _).get? k = _
    rw [Heap.get?_modify_ite]
    split
    · rename_i hk
      rw [hk, found]
      rfl
    · rfl
  · simp [ne.symm]
  · simp [List.count_eq_zero.mpr unused]
  · simp [Record.phase, h.pending_of_free found free]

/-- Settling a promise uses its warrant up. -/
theorem settle (h : l.Guarded known (p :: out)) (hp : known p) {s : State} (hs : s ≠ .pending)
    (v : Value) : (l.settle p.id s v).1.Guarded known out := by
  obtain ⟨r, hr, pending, taken⟩ := h.pending_of_mem hp (List.mem_cons_self ..)
  have once := h.once p (h.home p hp)
  rw [List.count_cons_self] at once
  have unused : p ∉ out := List.count_eq_zero.mp (by omega)
  rw [settle_of_settle hr (Record.settle_eq_some.mpr ⟨pending, hs, rfl, rfl⟩)]
  refine h.replace hp (r.settled s v) rfl rfl (fun k => ?_) (fun q ne => ?_) (by omega) ?_
    fun _ => taken
  · show (l.heap.modify p.id _).get? k = _
    rw [Heap.get?_modify_ite]
    split
    · rename_i hk
      rw [hk, hr]
      rfl
    · rfl
  · simp [ne.symm]
  · simp [unused, Record.phase, Record.settled, hs]

/-- A record is freed that belongs to no promise that is known. -/
theorem freed (h : l.Guarded known out) {k : PromiseId} {r : Record} (hf : l.free? k = some (r, l'))
    (loose : ∀ p, known p → p.id ≠ k) : l'.Guarded known out := by
  obtain ⟨hr, -⟩ := free?_eq_some.mp hf
  have look (i : PromiseId) : l'.heap.get? i = if i = k then none else l.heap.get? i := by
    rw [heap_free? hf, Heap.get?_vacated_of_get? hr]
  have serial : l'.nextSerial = l.nextSerial := by
    obtain ⟨-, rfl⟩ := free?_eq_some.mp hf
    split
    · rw [report_eq]
      rfl
    · rfl
  refine ⟨id_free? hf ▸ h.home, fun p hp => ?_, h.distinct, ?_, id_free? hf ▸ h.once,
    fun p hp => ?_, fun i x hx hs => ?_⟩
  · rw [Heap.Live, look, if_neg (loose p hp)]
    exact h.live p hp
  · rw [id_free? hf, serial]
    exact h.young
  · rw [look, if_neg (loose p hp)]
    exact h.waits p hp
  · rw [look] at hx
    split at hx
    · cases hx
    · exact h.locked i x hx hs

end Guarded

end Loop
end PromiseLoop

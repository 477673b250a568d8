import PromiseLoop.Proofs.Scenes.Promises
import PromiseLoop.Proofs.Twins.Loops

/-!
# Registering and settling in a loop

Handlers may be registered on a pending promise before it is settled, or after that.  Before, the reaction
waits in the record and is fired with the others; after, its job is enqueued behind theirs.  Either way the
record, the queue and everything else in the loop are the same in the end.  Only a rejection that nobody had
handled when it happened is on the list of those that await a report, where it is passed over.

## Results

* `Heap.allocate_modify`: a record is stored in the same slot whether or not another one was changed before.
* `Loop.chained_met`: the two orders make alike loops.
-/

namespace PromiseLoop

-- ---------------------------------------------------------------------------
-- Heaps
-- ---------------------------------------------------------------------------

/-- A record is stored in the same way whether or not another one was changed before. -/
theorem Heap.allocate_modify {h : Heap} (wf : h.Wf) {id : PromiseId} {r : Record} (hr : h.get? id = some r)
    (f : Record → Record) (x : Record) :
    (h.modify id f).allocate x = ((h.allocate x).1, (h.allocate x).2.modify id f) := by
  have found := Heap.get?_eq_some.mp hr
  cases hv : h.vacant with
  | cons i rest =>
    obtain ⟨g, empty, ha⟩ := allocate_of_vacant wf x hv
    have other : i.toNat ≠ id.index.toNat := fun e => by
      rw [e, found] at empty
      cases empty
    have vacant : (h.modify id f).vacant = i :: rest := hv
    obtain ⟨g', empty', ha'⟩ := allocate_of_vacant (wf.modify id f) x vacant
    have slot : (h.modify id f).slots[i.toNat]? = some ⟨g, none⟩ := by
      simp [Heap.modify, Ne.symm other, empty]
    obtain rfl : g' = g := by simpa [slot] using empty'.symm
    rw [ha, ha']
    simp only [Heap.modify, Prod.mk.injEq, Heap.mk.injEq, and_true, true_and]
    refine List.ext_getElem? fun n => ?_
    simp only [List.getElem?_modify]
    by_cases hi : i.toNat = n
    · simp [hi, show id.index.toNat ≠ n from hi ▸ Ne.symm other]
    · simp [hi]
  | nil =>
    have inside : id.index.toNat < h.slots.length := (List.getElem?_eq_some_iff.mp found).1
    rw [allocate_of_full x hv, allocate_of_full x (h := h.modify id f) hv]
    simp only [Heap.modify, List.length_modify, Prod.mk.injEq, Heap.mk.injEq, and_true, true_and]
    refine List.ext_getElem? fun n => ?_
    rcases Nat.lt_or_ge n h.slots.length with hn | hn
    · rw [List.getElem?_append_left (by simpa using hn)]
      simp only [List.getElem?_modify]
      rw [List.getElem?_append_left hn]
    · have other : id.index.toNat ≠ n := Nat.ne_of_lt (Nat.lt_of_lt_of_le inside hn)
      simp [List.getElem?_append_right, hn, other]

-- ---------------------------------------------------------------------------
-- What becomes of a promise
-- ---------------------------------------------------------------------------

/-- What an accepted resolution or rejection makes of a promise, where it takes no thenable: it settles, or
it adopts another promise of its loop. -/
inductive Destiny
  | settles (side : Side) (v : Value)
  | adopts (q : Promise)

/-- What becomes of a promise that is resolved, or rejected, with a value. -/
def Destiny.of (p : Promise) (side : Side) (v : Value) : Destiny :=
  match side with
  | .reject => .settles .reject v
  | .fulfill =>
    if v = .promise p then .settles .reject Machine.cycleError
    else
      match v with
      | .promise q => if q.home = p.home then .adopts q else .settles .fulfill v
      | v => .settles .fulfill v

namespace Record

/-- A record whose promise has met its fate. -/
def met (r : Record) : Destiny → Record
  | .settles side v => ({ r with alreadyResolved := true } : Record).settled side.state v
  | .adopts _ => { r with alreadyResolved := true }

/-- What a record lets go when its promise meets its fate. -/
def left (r : Record) : Destiny → List Value
  | .settles side _ => heldByReactions (r.released side.state).discarded
  | .adopts _ => []

variable {r : Record} (f g : Option Value) (derived : Promise)

theorem registered_of_pending (pending : r.state = .pending) : r.registered f g derived =
    { r with
      isHandled := true
      fulfillReactions := r.fulfillReactions ++ [⟨.fulfill, f, derived⟩]
      rejectReactions := r.rejectReactions ++ [⟨.reject, g, derived⟩] } := by
  simp [registered, isPending, pending, addReaction]

theorem registered_of_settled (settled : r.state ≠ .pending) :
    r.registered f g derived = { r with isHandled := true } := by
  simp [registered, isPending, settled]

/-- A record whose lock has been taken settles as its promise meets its fate. -/
theorem settle_locked (pending : r.state = .pending) (side : Side) (v : Value) :
    ({ r with alreadyResolved := true } : Record).settle side.state v =
      some (r.met (.settles side v), r.released side.state) :=
  settle_eq_some.mpr ⟨pending, side.state_ne_pending, rfl, by cases side <;> rfl⟩

@[simp] theorem isHandled_met (r : Record) (fate : Destiny) : (r.met fate).isHandled = r.isHandled := by
  cases fate <;> rfl

/-- In the end it does not matter to a record whether handlers were registered before or after. -/
theorem met_registered (pending : r.state = .pending) (fate : Destiny) :
    (r.registered f g derived).met fate = (r.met fate).registered f g derived := by
  rw [registered_of_pending f g derived pending]
  cases fate with
  | settles side v =>
    rw [registered_of_settled f g derived (by simp [met, settled])]
    rfl
  | adopts q =>
    rw [registered_of_pending f g derived (r := r.met (.adopts q)) (by exact pending)]
    rfl

/-- Of the new handlers, the one that is not needed goes last. -/
theorem left_registered (pending : r.state = .pending) (fate : Destiny) :
    (r.registered f g derived).left fate = r.left fate ++ (r.met fate).unusedReaction f g derived := by
  rw [registered_of_pending f g derived pending]
  cases fate with
  | settles side v => cases side <;> simp [left, released, Side.state, met, settled, unusedReaction,
      heldByReactions]
  | adopts q => simp [left, met, unusedReaction, pending]

/-- A promise that has just met its fate has not been reported. -/
theorem handledLate_met (pending : r.state = .pending) (unreported : r.rejectionReported = false)
    (fate : Destiny) : Loop.handledLate (r.met fate) = false := by
  cases fate <;> simp [Loop.handledLate, met, settled, pending, unreported]

end Record

namespace Loop

variable {l : Loop} {p : Promise} {r : Record} {f g : Option Value}

/-- The loop after a promise whose lock was free has met its fate. -/
def met (l : Loop) (p : Promise) : Destiny → Loop
  | .settles side v => l.resolved p side v
  | .adopts q => (Machine.locked l p).enqueue (.adoption p (.promise q) (.function (.method l.id .then_)))

/-- The events of an accepted attempt up to the settlement. -/
def attempts (p : Promise) (side : Side) (v : Value) : List Event :=
  (match side with
  | .fulfill => if v.isObjectLike then [.probed v] else []
  | .reject => []) ++ [.attempted p.id true]

/-- What is found under the id of a promise whose lock has just been taken. -/
theorem get?_locked (hr : l.heap.get? p.id = some r) :
    (Machine.locked l p).heap.get? p.id = some { r with alreadyResolved := true } := by
  show (l.heap.modify p.id _).get? p.id = _
  rw [Heap.get?_modify, hr]
  rfl

/-- What settling a pending promise makes of a loop, written out in full. -/
theorem resolved_eq (hr : l.heap.get? p.id = some r) (pending : r.state = .pending) (side : Side)
    (v : Value) : l.resolved p side v =
      { l with
        heap := l.heap.modify p.id fun _ => r.met (.settles side v)
        microtasks := ⟨l.microtasks.entries ++ (r.released side.state).fire.map (.reaction · v)⟩
        awaiting := if l.awaitsAfter r side.state then l.awaiting ++ [p.id] else l.awaiting
        history := ((r.released side.state).fire.map fun y => Event.queued (.reaction y v)).reverse
          ++ .settled p.id side.state v :: (attempts p side v ++ l.history) } := by
  have settles := Record.settle_locked pending side v
  have heap : ((Machine.locked l p).heap.modify p.id fun _ => r.met (.settles side v)) =
      l.heap.modify p.id fun _ => r.met (.settles side v) := Heap.modify_modify ..
  unfold resolved settledAs
  cases side with
  | reject =>
    dsimp only
    rw [settle_of_settle (get?_locked hr) settles, heap]
    rfl
  | fulfill =>
    have taken' : ((Machine.locked l p).asked v).heap.get? p.id = some { r with alreadyResolved := true } := by
      rw [heap_asked, get?_locked hr]
    dsimp only
    rw [settle_of_settle taken' settles, heap_asked, heap]
    unfold asked attempts
    split <;> rfl

/-- What adopting a promise makes of a loop, written out in full. -/
theorem met_adopts (hr : l.heap.get? p.id = some r) (q : Promise) : l.met p (.adopts q) =
    { l with
      heap := l.heap.modify p.id fun _ => r.met (.adopts q)
      microtasks := ⟨l.microtasks.entries ++ [.adoption p (.promise q) (.function (.method l.id .then_))]⟩
      history := .queued (.adoption p (.promise q) (.function (.method l.id .then_))) ::
        .attempted p.id true :: l.history } := by
  have heap : (l.heap.modify p.id fun r => { r with alreadyResolved := true }) =
      l.heap.modify p.id fun _ => r.met (.adopts q) := modify_eq_modify_const _ hr
  rw [← heap]
  rfl

theorem heap_met (hr : l.heap.get? p.id = some r) (pending : r.state = .pending) (fate : Destiny) :
    (l.met p fate).heap = l.heap.modify p.id fun _ => r.met fate := by
  cases fate with
  | settles side v => rw [met, resolved_eq hr pending]
  | adopts q => rw [met_adopts hr q]

@[simp] theorem id_met (l : Loop) (p : Promise) (fate : Destiny) : (l.met p fate).id = l.id := by
  cases fate with
  | settles side v => cases side <;> simp [met, resolved, settledAs, Machine.locked, id_settle, note, modifyRecord]
  | adopts q => rfl

/-- What registering handlers makes of a loop, where the record has not been reported. -/
theorem chained_eq (prompt : handledLate r = false) : l.chained p f g r =
    { l with
      heap := (l.heap.allocate .pending).2.modify p.id fun _ => r.registered f g l.newPromise.1
      nextSerial := l.nextSerial + 1
      microtasks := ⟨l.microtasks.entries ++ (r.reactionJob f g l.newPromise.1).toList⟩
      history := .returned l.newPromise.1 :: ((r.reactionJob f g l.newPromise.1).toList.map .queued ++
        .attached p.id l.newPromise.1 f g :: l.history) } := by
  unfold chained registered endAttach
  cases r.reactionJob f g l.newPromise.1 <;> simp [prompt, enqueue, note, Queue.enqueue]

/-- A promise that is created gets the same handle whether or not another one has met its fate. -/
theorem newPromise_met (wf : l.heap.Wf) (hr : l.heap.get? p.id = some r) (pending : r.state = .pending)
    (fate : Destiny) : (l.met p fate).newPromise.1 = l.newPromise.1 := by
  have serial : (l.met p fate).nextSerial = l.nextSerial := by
    cases fate with
    | settles side v => rw [met, resolved_eq hr pending]
    | adopts q => rfl
  have id : ((l.met p fate).heap.allocate .pending).1 = (l.heap.allocate .pending).1 := by
    rw [heap_met hr pending, Heap.allocate_modify wf hr]
  simp only [newPromise, id_met, serial, id]

/-- What is found under the id of a promise on which handlers have been registered. -/
theorem get?_chained (wf : l.heap.Wf) (hr : l.heap.get? p.id = some r) :
    (l.chained p f g r).heap.get? p.id = some (r.registered f g l.newPromise.1) := by
  rw [heap_chained, Heap.get?_modify, Heap.get?_allocate_of_some wf _ hr]
  rfl

theorem wf_chained (wf : l.heap.Wf) (hr : l.record p = .ok r) (f g : Option Value) : (l.chained p f g r).heap.Wf := by
  have attached := (attach_eq_ok wf (f := f) (g := g)).mpr ⟨r, hr, rfl⟩
  exact (Act.ended ..).wf ((Act.attached attached).wf wf)

/-- What registering handlers leaves alone. -/
theorem chained_with (prompt : handledLate r = false) (heap : Heap) (microtasks : Queue Job)
    (awaiting : List PromiseId) (history : List Event) :
    ({ l.chained p f g r with heap, microtasks, awaiting, history } : Loop) =
      { l with heap, nextSerial := l.nextSerial + 1, microtasks, awaiting, history } := by
  rw [chained_eq prompt]

/-- Handlers are registered in time, and the promise settles. -/
theorem resolved_chained (wf : l.heap.Wf) (hr : l.heap.get? p.id = some r) (pending : r.state = .pending)
    (side : Side) (v : Value) : (l.chained p f g r).met p (.settles side v) =
      { l with
        heap := ((l.chained p f g r).met p (.settles side v)).heap
        nextSerial := l.nextSerial + 1
        microtasks := ⟨l.microtasks.entries ++
          ((r.registered f g l.newPromise.1).released side.state).fire.map (.reaction · v)⟩
        history := (((r.registered f g l.newPromise.1).released side.state).fire.map
            fun y => Event.queued (.reaction y v)).reverse
          ++ .settled p.id side.state v :: (attempts p side v ++
            .returned l.newPromise.1 :: .attached p.id l.newPromise.1 f g :: l.history) } := by
  have prompt : handledLate r = false := by simp [handledLate, pending]
  have found := get?_chained (f := f) (g := g) wf hr
  have pending' : (r.registered f g l.newPromise.1).state = .pending := by simpa using pending
  have handled : awaitsAfter (l.chained p f g r) (r.registered f g l.newPromise.1) side.state = false := by
    simp [awaitsAfter]
  rw [met, resolved_eq found pending', chained_with prompt, handled, chained_eq prompt]
  simp [Record.reactionJob, pending]

/-- The promise settles, and handlers are registered later on. -/
theorem chained_resolved (wf : l.heap.Wf) (hr : l.heap.get? p.id = some r) (pending : r.state = .pending)
    (unreported : r.rejectionReported = false) (side : Side) (v : Value) :
    (l.met p (.settles side v)).chained p f g (r.met (.settles side v)) =
      { l with
        heap := ((l.met p (.settles side v)).chained p f g (r.met (.settles side v))).heap
        nextSerial := l.nextSerial + 1
        microtasks := ⟨(l.microtasks.entries ++ (r.released side.state).fire.map (.reaction · v)) ++
          ((r.met (.settles side v)).reactionJob f g l.newPromise.1).toList⟩
        awaiting := if l.awaitsAfter r side.state then l.awaiting ++ [p.id] else l.awaiting
        history := .returned l.newPromise.1 ::
          (((r.met (.settles side v)).reactionJob f g l.newPromise.1).toList.map .queued ++
            .attached p.id l.newPromise.1 f g ::
              (((r.released side.state).fire.map fun y => Event.queued (.reaction y v)).reverse
                ++ .settled p.id side.state v :: (attempts p side v ++ l.history))) } := by
  rw [chained_eq (Record.handledLate_met pending unreported _), newPromise_met wf hr pending, met,
    resolved_eq hr pending]

/-- Registering handlers before a promise meets its fate or after that makes the same heap. -/
theorem heap_chained_met (wf : l.heap.Wf) (hr : l.heap.get? p.id = some r) (pending : r.state = .pending)
    (fate : Destiny) : ((l.met p fate).chained p f g (r.met fate)).heap = ((l.chained p f g r).met p fate).heap := by
  have found := get?_chained (f := f) (g := g) wf hr
  have pending' : (r.registered f g l.newPromise.1).state = .pending := by simpa using pending
  rw [heap_met found pending', heap_chained, heap_chained, heap_met hr pending, Heap.allocate_modify wf hr,
    Heap.modify_modify, Heap.modify_modify, newPromise_met wf hr pending, Record.met_registered _ _ _ pending]
  rfl

/-- Two loops that have come of the same one are alike if they differ in nothing but the list of rejections and
the history. -/
theorem Alike.of_parts {gap : Gap} {x x' : Loop} {heap : Heap} {nextSerial : Nat} {microtasks : Queue Job}
    {awaiting awaiting' : List PromiseId} {history history' : List Event}
    (hx : x = { l with heap, nextSerial, microtasks, awaiting, history })
    (hx' : x' =
      { l with heap, nextSerial, microtasks, awaiting := awaiting', history := history' })
    (counted : awaiting'.filter (IsCounted gap l.id) = awaiting.filter (IsCounted gap l.id))
    (openly : untimed history' = untimed history)
    (flat : ∀ i v, Event.settled i .fulfilled v ∈ history → l.ownPromise? v = none) : x.Alike gap x' := by
  subst hx hx'
  exact ⟨rfl, counted, openly, flat⟩

/-- The reactions of a pending record that has had handlers registered are fired in the same order as those of
the settled one, with the job of the new handler after them. -/
theorem fire_registered (pending : r.state = .pending) (side : Side) (v : Value) (derived : Promise) :
    ((r.registered f g derived).released side.state).fire.map (Job.reaction · v) =
      (r.released side.state).fire.map (.reaction · v) ++
        ((r.met (.settles side v)).reactionJob f g derived).toList := by
  rw [Record.registered_of_pending f g derived pending]
  cases side <;> simp [Record.released, Side.state, Record.reactionJob, Record.met, Record.settled,
    Record.reason]

/-- Registering handlers before a promise settles or after that makes alike loops.  Only the list of
rejections that await a report may have the promise in one of them. -/
theorem chained_settled (wf : l.heap.Wf) (hr : l.heap.get? p.id = some r) (pending : r.state = .pending)
    (unreported : r.rejectionReported = false) (flat : l.Flat) (side : Side) (v : Value)
    (plain : side = .fulfill → l.ownPromise? v = none) :
    ((l.chained p f g r).met p (.settles side v)).Alike (some (l.id, p.id))
      ((l.met p (.settles side v)).chained p f g (r.met (.settles side v))) := by
  have heap := heap_chained_met (f := f) (g := g) wf hr pending (.settles side v)
  have fired := fire_registered (f := f) (g := g) pending side v l.newPromise.1
  have queued : ((r.registered f g l.newPromise.1).released side.state).fire.map
      (fun y => Event.queued (.reaction y v)) =
      (r.released side.state).fire.map (fun y => Event.queued (.reaction y v)) ++
        ((r.met (.settles side v)).reactionJob f g l.newPromise.1).toList.map .queued := by
    simpa [Function.comp_def] using congrArg (List.map Event.queued) fired
  have first := resolved_chained (f := f) (g := g) wf hr pending side v
  have last := chained_resolved (f := f) (g := g) wf hr pending unreported side v
  rw [fired, queued] at first
  rw [heap, List.append_assoc] at last
  refine .of_parts first last ?_ ?_ ?_
  · split <;> simp [IsCounted]
  · cases (r.met (.settles side v)).reactionJob f g l.newPromise.1 <;> simp [Event.isTiming]
  · intro i w hw
    have other : Event.settled i .fulfilled w ∉ attempts p side v := by
      unfold attempts
      cases side with
      | reject => simp
      | fulfill => dsimp only; split <;> simp
    have event : (Event.settled i .fulfilled w = .settled p.id side.state v) ∨
        Event.settled i .fulfilled w ∈ l.history := by
      simpa [other] using hw
    rcases event with new | old
    · obtain ⟨-, state, rfl⟩ := Event.settled.inj new
      exact plain (by cases side <;> first | rfl | cases state)
    · exact flat i w old

/-- Registering handlers before a promise adopts another one or after that makes alike loops. -/
theorem chained_adopting (wf : l.heap.Wf) (hr : l.heap.get? p.id = some r) (pending : r.state = .pending)
    (unreported : r.rejectionReported = false) (flat : l.Flat) (q : Promise) (gap : Gap) :
    ((l.chained p f g r).met p (.adopts q)).Alike gap
      ((l.met p (.adopts q)).chained p f g (r.met (.adopts q))) := by
  have prompt : handledLate r = false := by simp [handledLate, pending]
  have found := get?_chained (f := f) (g := g) wf hr
  have heap := heap_chained_met (f := f) (g := g) wf hr pending (.adopts q)
  let j : Job := .adoption p (.promise q) (.function (.method l.id .then_))
  have first : (l.chained p f g r).met p (.adopts q) =
      { l with
        heap := ((l.chained p f g r).met p (.adopts q)).heap
        nextSerial := l.nextSerial + 1
        microtasks := ⟨l.microtasks.entries ++ [j]⟩
        history := .queued j :: .attempted p.id true :: .returned l.newPromise.1 ::
          .attached p.id l.newPromise.1 f g :: l.history } := by
    rw [met_adopts found, chained_with prompt, chained_eq prompt]
    simp [Record.reactionJob, pending, j]
  have last : (l.met p (.adopts q)).chained p f g (r.met (.adopts q)) =
      { l with
        heap := ((l.met p (.adopts q)).chained p f g (r.met (.adopts q))).heap
        nextSerial := l.nextSerial + 1
        microtasks := ⟨l.microtasks.entries ++ [j]⟩
        history := .returned l.newPromise.1 :: .attached p.id l.newPromise.1 f g ::
          .queued j :: .attempted p.id true :: l.history } := by
    rw [chained_eq (Record.handledLate_met pending unreported _), newPromise_met wf hr pending, met_adopts hr]
    simp [Record.reactionJob, Record.met, pending, j]
  rw [heap] at last
  refine .of_parts first last rfl (by simp [Event.isTiming]) fun i w hw => flat i w ?_
  simpa using hw

/-- Registering handlers before a promise meets its fate or after that makes alike loops.  Only the list of
rejections that await a report may have the promise in one of them. -/
theorem chained_met (wf : l.heap.Wf) (hr : l.heap.get? p.id = some r) (pending : r.state = .pending)
    (unreported : r.rejectionReported = false) (flat : l.Flat) (fate : Destiny)
    (plain : ∀ v, fate = .settles .fulfill v → l.ownPromise? v = none) :
    ((l.chained p f g r).met p fate).Alike (some (l.id, p.id))
      ((l.met p fate).chained p f g (r.met fate)) := by
  cases fate with
  | settles side v =>
    exact chained_settled wf hr pending unreported flat side v fun hs => plain v (by rw [hs])
  | adopts q => exact chained_adopting wf hr pending unreported flat q _

end Loop
end PromiseLoop

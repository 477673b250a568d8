import PromiseLoop.Proofs.Changes.Runs
import PromiseLoop.Proofs.FirstAttempt
import PromiseLoop.Proofs.Objects.Keeping
import PromiseLoop.Proofs.Registrations

/-!
# Who attempts to resolve a promise

Few operations take the lock of a record: those of the host, the functions of a construction, a construction
whose initializer throws, and the jobs that settle derived promises and promises of background work.  Every
other operation leaves a given promise alone, and so do these if they concern another promise.  To know whom a
job concerns when its handler comes back, one has to know whose reactions are running.

## Results

* `Machine.tries`: whether it has been attempted to resolve or to reject a promise.
* `Spares.enter`, `Spares.resume`, `Spares.beginStep`: whatever concerns other promises spares a promise.
-/

namespace PromiseLoop

/-- Whether an event is an attempt on a record, or ends it. -/
def Event.touches (id : PromiseId) : Event → Bool
  | .attempted k _ => k = id
  | .freed k _ => k = id
  | _ => false

theorem Event.sparesLock_of_not_touches {e : Event} {id : PromiseId} (h : e.touches id = false) : e.sparesLock id := by
  refine ⟨?_, ?_⟩
  · cases e <;> first | rfl | exact h
  · rintro accepted rfl
    simp [touches] at h

/-- Whether a frame is that of a reaction from which a promise was derived. -/
def Frame.reactsFor (p : Promise) : Frame → Bool
  | .reacting _ derived => derived = p
  | _ => false

/-- Whether two promises have different records. -/
def Promise.Apart (p q : Promise) : Prop := q.home = p.home → q.id ≠ p.id

theorem Promise.Apart.ne {p q : Promise} (h : p.Apart q) : q ≠ p := fun e => h (e ▸ rfl) (e ▸ rfl)

namespace Loop

variable {l l' : Loop} {id : PromiseId}

/-- Whether it has been attempted to take the lock of a record in its life. -/
def tries (l : Loop) (id : PromiseId) : Prop := Tried id l.history

theorem tries_of_newer (newer : List Event) (h : l'.history = newer ++ l.history)
    (other : ∀ e ∈ newer, e.touches id = false) : l'.tries id = l.tries id := by
  rw [tries, h]
  exact propext (tried_append_of_spares fun e he => Event.sparesLock_of_not_touches (other e he))

theorem tries_note (l : Loop) {e : Event} (h : e.touches id = false) : (l.note e).tries id = l.tries id :=
  propext (tried_cons_of_spares (Event.sparesLock_of_not_touches h))

theorem tries_settle (l : Loop) (k : PromiseId) (s : State) (v : Value) :
    (l.settle k s v).1.tries id = l.tries id := by
  rcases l.settle_cases k s v with unsettled | ⟨r, -, -, -, settled⟩
  · rw [unsettled]
  · rw [settled]
    refine tries_of_newer (_ ++ [.settled k s v]) (by rw [List.append_assoc]; rfl) fun e he => ?_
    rcases List.mem_append.mp he with he | he
    · obtain ⟨j, -, rfl⟩ := List.mem_map.mp (List.mem_reverse.mp he)
      rfl
    · rw [List.mem_singleton.mp he]
      rfl

theorem tries_report (l : Loop) (k : PromiseId) (reason : Value) : (l.report k reason).tries id = l.tries id := by
  rw [report_eq]
  exact l.tries_note (e := .reported k reason) rfl

theorem tries_attach {p : Promise} {f g : Option Value} {a : Attached} (h : l.attach p f g = .ok a) :
    a.loop.tries id = l.tries id := by
  have marked (late : Bool) : (l.newPromise.2.markHandled p.id l.newPromise.1 f g late).tries id = l.tries id := by
    unfold markHandled
    split
    · rw [reportHandled_eq]
      exact tries_of_newer [.handledLate p.id, .attached p.id l.newPromise.1 f g] rfl
        (by simp [Event.touches])
    · exact tries_of_newer [.attached p.id l.newPromise.1 f g] rfl (by simp [Event.touches])
  unfold attach at h
  cases hr : l.record p with
  | error e => rw [hr] at h; cases h
  | ok r =>
    rw [hr] at h
    cases hs : r.state <;> simp only [Except.map, hs] at h <;> cases h <;> exact marked _

theorem tries_endAttach (l : Loop) (derived : Promise) (job : Option Job) :
    (l.endAttach derived job).tries id = l.tries id := by
  cases job with
  | none => exact l.tries_note rfl
  | some j => exact (tries_note _ rfl).trans (l.tries_note (e := .queued j) rfl)

theorem tries_free? {k : PromiseId} {r : Record} (h : l.free? k = some (r, l')) (other : k ≠ id) :
    l'.tries id = l.tries id := by
  obtain ⟨-, rfl⟩ := free?_eq_some.mp h
  rw [tries_note _ (by simp [Event.touches, other])]
  split
  · exact tries_report _ k _
  · rfl

theorem tries_deliver (l : Loop) : l.deliver.tries id = l.tries id := by
  rw [deliver_eq]
  refine tries_of_newer _ rfl fun e he => ?_
  obtain ⟨r, -, rfl⟩ := List.mem_map.mp (List.mem_reverse.mp he)
  rfl

theorem tries_takeReports (l : Loop) : l.takeReports.2.tries id = l.tries id := by
  obtain ⟨heap, selected, -⟩ := l.takeReports_spec
  rw [selected]
  rfl

theorem tries_releaseWorker (l : Loop) : l.releaseWorker.2.tries id = l.tries id := by
  unfold releaseWorker
  split
  · rfl
  · exact tries_note _ rfl

theorem tries_dequeue? {j : Job} (h : l.dequeue? = some (j, l')) : l'.tries id = l.tries id := by
  obtain ⟨⟨i, q⟩, -, heq⟩ := Option.map_eq_some_iff.mp h
  obtain ⟨rfl, rfl⟩ := Prod.mk.inj heq
  exact tries_note _ rfl

theorem tries_dequeueTask? {w : Work} (h : l.dequeueTask? = some (w, l')) : l'.tries id = l.tries id := by
  obtain ⟨⟨i, q⟩, -, heq⟩ := Option.map_eq_some_iff.mp h
  obtain ⟨rfl, rfl⟩ := Prod.mk.inj heq
  exact tries_note _ rfl

theorem tries_receive? (h : l.receive? = some l') : l'.tries id = l.tries id := by
  unfold receive? at h
  split at h
  · cases h
  · cases h
    exact tries_note _ rfl

/-- An attempt on another record. -/
theorem tries_lock {q : Promise} {accepted : Bool} (h : l.lock q = .ok (accepted, l')) (other : q.id ≠ id) :
    l'.tries id = l.tries id := by
  obtain ⟨r, -, rfl, rfl⟩ := lock_eq_ok.mp h
  exact tries_note _ (by simp [Event.touches, other])

end Loop

/-- Whether all that the jobs of a loop are to settle is other promises. -/
def Loop.Clear (p : Promise) (l : Loop) : Prop :=
  (∀ q ∈ l.inFlight, p.Apart q) ∧ ∀ j ∈ l.microtasks.entries, ∀ d, j.derived? = some d → p.Apart d

namespace Machine

variable {m : Machine} {p : Promise} {c : Prop} {k : LoopId} {l l' : Loop}

/-- Whether it has been attempted to resolve or to reject a promise. -/
def tries (m : Machine) (p : Promise) : Prop := ((m.loop? p.home).map fun l => l.tries p.id).getD False

/-- A machine in which it has been attempted to resolve or to reject a promise, or has not been, and in which no
reaction runs that the promise was derived from. -/
structure Spares (p : Promise) (c : Prop) (m : Machine) : Prop where
  placed : m.Placed
  tries : m.tries p = c
  reacts : ∀ f ∈ m.stack, f.reactsFor p = false

theorem clear_drop (clear : ∀ l, m.loop? k = some l → l.Clear p) (vs : List Value) (l : Loop)
    (hl : (Machine.drop vs m).loop? k = some l) : l.Clear p := by
  obtain ⟨released, same⟩ := exists_loop?_drop vs m k
  rw [same] at hl
  obtain ⟨x, hx, rfl⟩ := Option.map_eq_some_iff.mp hl
  exact clear x hx

namespace Spares

variable (h : m.Spares p c)
include h

theorem of_eq {m' : Machine} (loops : m'.loops = m.loops) (stack : m'.stack = m.stack) : m'.Spares p c where
  placed k l hl := h.placed k l (by rwa [loop?, loops] at hl)
  tries := by
    rw [← h.tries, Machine.tries, loop?, loops]
    rfl
  reacts := by
    rw [stack]
    exact h.reacts

theorem signal (s : Signal) : (m.signal s).Spares p c := h.of_eq rfl rfl

theorem willCall (f : Callable) (this : Value) (arguments : List Value) :
    (m.willCall f this arguments).Spares p c := h.of_eq rfl rfl

theorem traceEntry (e : Entry) : (m.traceEntry e).Spares p c := by
  unfold Machine.traceEntry
  split
  · exact h
  · exact h.of_eq rfl rfl

theorem push {f : Frame} (other : f.reactsFor p = false) : (m.push f).Spares p c where
  placed := h.placed
  tries := h.tries
  reacts := List.forall_mem_cons.mpr ⟨other, h.reacts⟩

theorem drop (vs : List Value) : (Machine.drop vs m).Spares p c where
  placed := by
    have aside : Aside p.home m (Machine.drop vs m) := aside_drop vs m
    exact aside.placed h.placed
  tries := by
    obtain ⟨released, same⟩ := exists_loop?_drop vs m p.home
    rw [← h.tries, Machine.tries, Machine.tries, same, Option.map_map]
    rfl
  reacts := by
    rw [stack_drop]
    exact h.reacts

theorem drop_signal (vs : List Value) (s : Signal) : (Machine.drop vs (m.signal s)).Spares p c :=
  (h.signal s).drop vs

theorem setLoop {x : Loop} (found : m.loop? k = some l) (id : x.id = l.id)
    (same : k = p.home → x.tries p.id = l.tries p.id) : (m.setLoop x).Spares p c := by
  obtain rfl : l.id = k := h.placed k l found
  refine ⟨h.placed.setLoop found id, ?_, h.reacts⟩
  rw [← h.tries, Machine.tries, Machine.tries, loop?_setLoop_ite found id]
  split
  · rename_i home
    rw [home, found]
    exact same home.symm
  · rfl

theorem modifyLoop (k : LoopId) {f : Loop → Loop} (id : ∀ l, (f l).id = l.id)
    (same : ∀ l : Loop, (f l).tries p.id = l.tries p.id) : (m.modifyLoop k f).Spares p c := by
  refine ⟨h.placed.modifyLoop k fun l _ => id l, ?_, h.reacts⟩
  rw [← h.tries, Machine.tries, Machine.tries]
  by_cases home : k = p.home
  · subst home
    rw [loop?_modifyLoop_self, Option.map_map]
    congr 2
    funext l
    exact same l
  · rw [loop?_modifyLoop_of_ne m home]

-- ---------------------------------------------------------------------------
-- Calls
-- ---------------------------------------------------------------------------

theorem read (o : ObjectId) (key : String) : (m.read o key).Spares p c := by
  unfold Machine.read
  split
  · exact h.signal _
  · exact h.signal _
  · exact (h.push rfl).willCall _ _ _

theorem callValue (f this : Value) (arguments : List Value) : (m.callValue f this arguments).Spares p c := by
  unfold Machine.callValue
  split
  · exact h.willCall _ _ _
  · exact h.drop_signal _ _

theorem invoke (k : LoopId) (f this : Value) (arguments : List Value) :
    (m.invoke k f this arguments).Spares p c := by
  have noted := h.modifyLoop k (f := fun l => l.note (.invoked f)) (fun _ => rfl) fun l => l.tries_note rfl
  unfold Machine.invoke
  dsimp only
  split
  · exact (noted.push rfl).read _ _
  · exact noted.callValue _ _ _

theorem askThen (v : Value) (plan : ProbePlan) : (m.askThen v plan).Spares p c := by
  unfold Machine.askThen
  split
  · exact (h.push rfl).read _ _
  · exact h.signal _
  · exact h.signal _

theorem probe (k : LoopId) (v : Value) : (m.probe k v).Spares p c := by
  unfold Machine.probe
  cases hl : m.loop? k with
  | none => exact h.signal _
  | some l =>
    dsimp only
    split
    · exact h.signal _
    · split
      · exact (h.setLoop (x := l.note (.probed v)) hl rfl fun _ => l.tries_note rfl).askThen _ _
      · exact h.signal _

theorem settle (q : Promise) (s : State) (v : Value) (spent : List Value) : (m.settle q s v spent).Spares p c := by
  unfold Machine.settle
  cases hl : m.loop? q.home with
  | none => exact h.drop_signal _ _
  | some l => exact (h.setLoop hl (l.id_settle q.id s v) fun _ => l.tries_settle q.id s v).drop_signal _ _

theorem resolveLocked (q : Promise) (v : Value) : (m.resolveLocked q v).Spares p c := by
  unfold Machine.resolveLocked
  split
  · exact h.settle _ _ _ _
  · exact (h.push rfl).probe _ _

/-- The lock of another promise is taken. -/
theorem lock {q : Promise} (apart : q.home = k → p.Apart q) (hl : m.loop? k = some l) {accepted : Bool}
    (hq : l.lock q = .ok (accepted, l')) : (m.setLoop l').Spares p c := by
  obtain ⟨r, hr, -⟩ := Loop.lock_eq_ok.mp hq
  have own : q.home = k := (Loop.record_eq_ok.mp hr).1.trans (h.placed k l hl)
  exact h.setLoop hl (Loop.id_lock hq) fun home => Loop.tries_lock hq (apart own (own.trans home))

theorem withLock {q : Promise} {k : LoopId} (apart : q.home = k → p.Apart q) (v : Value) {act : Machine → Machine}
    (acts : ∀ m : Machine, m.Spares p c → (act m).Spares p c) : (m.withLock k q v act).Spares p c := by
  unfold Machine.withLock
  cases hl : m.loop? k with
  | none => exact h.drop_signal _ _
  | some l =>
    dsimp only
    split
    · exact h.drop_signal _ _
    · rename_i l' hq
      exact (h.lock apart hl hq).drop_signal _ _
    · rename_i l' hq
      exact acts _ (h.lock apart hl hq)

theorem resolve {q : Promise} {k : LoopId} (apart : q.home = k → p.Apart q) (v : Value) :
    (m.resolve k q v).Spares p c :=
  h.withLock apart v fun _ h => h.resolveLocked q v

theorem reject {q : Promise} {k : LoopId} (apart : q.home = k → p.Apart q) (v : Value) :
    (m.reject k q v).Spares p c :=
  h.withLock apart v fun _ h => h.settle q .rejected v []

theorem newPromise {q : Promise} {m' : Machine} (hn : m.newPromise k = some (q, m')) : m'.Spares p c := by
  obtain ⟨l, hl, heq⟩ := Option.map_eq_some_iff.mp hn
  rw [← (Prod.mk.inj heq).2]
  exact h.setLoop hl l.id_newPromise fun _ => rfl

theorem callback (name : String) (arguments : List Value) : (m.callback name arguments).Spares p c := by
  unfold Machine.callback
  split
  · exact (h.push rfl).willCall _ _ _
  · exact h

theorem tellUnhandled (k : LoopId) (id : PromiseId) (reason : Value) :
    (m.tellUnhandled k id reason).Spares p c := by
  unfold Machine.tellUnhandled
  split
  · exact h.traceEntry _
  · exact h.callback _ _
  · exact h

theorem tellHandled (k : LoopId) (id : PromiseId) : (m.tellHandled k id).Spares p c := by
  unfold Machine.tellHandled
  split
  · exact h.traceEntry _
  · exact h.callback _ _
  · exact h

theorem attach (k : LoopId) (q : Promise) (f g : Option Value) (unused : List Value) :
    (m.attach k q f g unused).Spares p c := by
  unfold Machine.attach
  cases hl : m.loop? k with
  | none => exact h.drop_signal _ _
  | some l =>
    dsimp only
    cases ha : l.attach q f g with
    | error e => exact h.drop_signal _ _
    | ok a =>
      dsimp only
      split
      · have attached := h.setLoop hl (Loop.id_attach ha) fun _ => Loop.tries_attach ha
        exact ((attached.push (f := .attaching a.derived a.job) rfl).drop_signal _ _).tellHandled _ _
      · exact (h.setLoop hl (by simp [Loop.id_attach ha])
          fun _ => (Loop.tries_endAttach _ _ _).trans (Loop.tries_attach ha)).drop_signal _ _

theorem thenMethod (home : LoopId) (this : Value) (arguments unused : List Value) :
    (m.thenMethod home this arguments unused).Spares p c := by
  unfold Machine.thenMethod
  split
  · exact h.drop_signal _ _
  · split
    · exact h.drop_signal _ _
    · exact (h.push rfl).attach _ _ _ _ _

theorem claim {r : Resolver} (apart : r.guard = .lock → p.Apart r.promise) {accepted : Bool} {m' : Machine}
    (hr : m.claim r = .ok (accepted, m')) : m'.Spares p c := by
  unfold Machine.claim at hr
  split at hr
  · cases hr
    exact h.of_eq rfl rfl
  · rename_i guard
    cases hl : m.loop? r.promise.home with
    | none =>
      rw [hl] at hr
      cases hr
      exact h
    | some l =>
      rw [hl] at hr
      dsimp only at hr
      cases hk : l.lock r.promise with
      | error f => rw [hk] at hr; cases hr
      | ok taken =>
        rw [hk] at hr
        cases hr
        exact h.lock (fun _ => apart guard) hl hk

theorem enterResolver {r : Resolver} (apart : r.guard = .lock → p.Apart r.promise) (this : Value)
    (arguments : List Value) : (m.enterResolver r this arguments).Spares p c := by
  unfold Machine.enterResolver
  split
  · exact h.drop_signal _ _
  · split
    · exact h.drop_signal _ _
    · rename_i m' hr
      exact (h.claim apart hr).drop_signal _ _
    · rename_i m' hr
      have begun := (((h.claim apart hr).push (f := .give .undefined [this]) rfl).drop_signal
        (arguments.drop 1) (.value (arguments.headD .undefined))).signal .done
      dsimp only
      split
      · exact begun.resolveLocked _ _
      · exact begun.settle _ _ _ _

theorem enterRoutine (number : Nat) (name : String) (this : Value) (arguments : List Value) :
    (m.enterRoutine number name this arguments).Spares p c := by
  unfold Machine.enterRoutine
  split
  · exact h.drop_signal _ _
  · dsimp only
    exact (((h.push rfl).traceEntry _).push rfl).signal _

/-- A call of any function but those of the promise. -/
theorem enter {f : Callable} (apart : ∀ r, f = .resolver r → r.guard = .lock → p.Apart r.promise) (this : Value)
    (arguments : List Value) : (m.enter f this arguments).Spares p c := by
  cases f with
  | routine number name => exact h.enterRoutine _ _ _ _
  | resolver r => exact h.enterResolver (apart r rfl) _ _
  | method home method => cases method <;> exact h.thenMethod _ _ _ _

-- ---------------------------------------------------------------------------
-- Turns
-- ---------------------------------------------------------------------------

theorem startWork (w : Work) (e : Entry) : (m.startWork w e).Spares p c := by
  unfold Machine.startWork
  dsimp only
  exact (((h.push rfl).traceEntry _).push rfl).signal _

theorem startReaction {r : Reaction} (apart : p.Apart r.derived) (k : LoopId) (argument : Value) :
    (m.startReaction k r argument).Spares p c := by
  unfold Machine.startReaction
  split
  · exact (h.push (by simp [Frame.reactsFor, apart.ne])).invoke _ _ _ _
  · dsimp only
    split
    · exact (h.push rfl).resolve (fun _ => apart) _
    · exact (h.push rfl).reject (fun _ => apart) _

theorem startAdoption (k : LoopId) (q : Promise) (thenable thenFunction : Value) :
    (m.startAdoption k q thenable thenFunction).Spares p c := by
  have paired : (m.newPair q).2.Spares p c := h.of_eq rfl rfl
  unfold Machine.startAdoption
  exact (paired.push rfl).invoke _ _ _ _

theorem startSettlement (hl : m.loop? k = some l) (apart : ∀ q ∈ l.inFlight, p.Apart q) (r : Report) :
    (m.startSettlement k r).Spares p c := by
  have landed := h.setLoop (x := (l.land r.promise).2) hl rfl fun _ => rfl
  unfold Machine.startSettlement
  simp only [hl]
  split
  · rename_i q found
    have own := apart q (List.mem_of_find?_eq_some found)
    split
    · exact (landed.push rfl).resolve (fun _ => own) _
    · exact (landed.push rfl).reject (fun _ => own) _
  · exact landed.drop_signal _ _

theorem startJob (hl : m.loop? k = some l) (apart : ∀ q ∈ l.inFlight, p.Apart q) {j : Job}
    (derives : ∀ d, j.derived? = some d → p.Apart d) : (m.startJob k j).Spares p c := by
  cases j with
  | reaction r argument => exact h.startReaction (derives _ rfl) _ _
  | adoption q thenable thenFunction => exact h.startAdoption _ _ _ _
  | settlement r => exact h.startSettlement hl apart _
  | host w => exact h.startWork _ _

theorem endDrain (k : LoopId) : (m.endDrain k).Spares p c := by
  have ended := h.modifyLoop k (f := fun l => l.stopDraining.note .drained) (fun _ => rfl)
    fun l => l.stopDraining.tries_note rfl
  exact ended.signal .done

theorem nextMicrotask (clear : ∀ l, m.loop? k = some l → l.Clear p) : (m.nextMicrotask k).Spares p c := by
  unfold Machine.nextMicrotask
  cases hn : (m.loop? k).bind Loop.dequeue? with
  | none => exact h.endDrain _
  | some x =>
    obtain ⟨j, l'⟩ := x
    obtain ⟨l, hl, next⟩ := Option.bind_eq_some_iff.mp hn
    obtain ⟨flights, derives⟩ := clear l hl
    obtain ⟨⟨i, q⟩, taken, heq⟩ := Option.map_eq_some_iff.mp next
    obtain ⟨rfl, rfl⟩ := Prod.mk.inj heq
    have id := Loop.id_dequeue? next
    obtain rfl : l.id = k := h.placed k l hl
    have begun := (h.setLoop hl id fun _ => Loop.tries_dequeue? next).push (f := .draining l.id) rfl
    refine begun.startJob (loop?_setLoop_self hl id) flights (derives _ ?_)
    cases he : l.microtasks.entries with
    | nil => simp [Queue.dequeue?, he] at taken
    | cons e rest =>
      simp only [Queue.dequeue?, he, Option.some.injEq, Prod.mk.injEq] at taken
      rw [← taken.1]
      exact List.mem_cons_self ..

theorem drain (k : LoopId) : (m.drain k).Spares p c := by
  unfold Machine.drain
  cases hl : m.loop? k with
  | none => exact h.signal _
  | some l =>
    dsimp only
    split
    · exact h.signal _
    · exact ((h.setLoop (x := l.startDraining) hl rfl fun _ => rfl).push rfl).signal _

theorem resumeDraining (clear : ∀ l, m.loop? k = some l → l.Clear p) (s : Signal) :
    (m.resumeDraining k s).Spares p c := by
  unfold Machine.resumeDraining
  split
  · have stopped := h.modifyLoop k (f := Loop.stopDraining) (fun _ => rfl) fun _ => rfl
    exact stopped.signal _
  · exact (h.drop _).nextMicrotask (clear_drop clear _)

theorem sweep (k : LoopId) (s : Sweep) : (m.sweep k s).Spares p c := h.of_eq rfl rfl

theorem collect (k : LoopId) : (m.collect k).Spares p c := by
  unfold Machine.collect
  split
  · exact h.sweep _ _
  · exact h.signal _

theorem endCheckpoint (k : LoopId) : (m.endCheckpoint k).Spares p c := by
  have noted := h.modifyLoop k (f := fun l => l.note .checked) (fun _ => rfl) fun l => l.tries_note rfl
  exact noted.signal _

theorem endCollection (k : LoopId) (s : Sweep) : (m.endCollection k s).Spares p c := by
  unfold Machine.endCollection
  split
  · exact h.endCheckpoint _
  · exact h.signal _

theorem collectNext (s : Sweep) (kept : k = p.home → p.id ∉ s.pending) : (m.collectNext k s).Spares p c := by
  unfold Machine.collectNext
  split
  · split
    · exact h.endCollection _ _
    · exact h.endCollection _ _
    · rename_i released l' taken
      obtain ⟨l, hl, heq⟩ := Option.map_eq_some_iff.mp taken
      rw [← (Prod.mk.inj heq).2]
      exact (h.setLoop hl l.id_takeReleases fun _ => rfl).sweep _ _
  · rename_i id rest pending
    split
    · exact h.sweep _ _
    · rename_i r l' taken
      obtain ⟨l, hl, hf⟩ := Option.bind_eq_some_iff.mp taken
      have freed := h.setLoop hl (Loop.id_free? hf) fun home =>
        Loop.tries_free? hf fun same => kept home (by rw [pending, ← same]; exact List.mem_cons_self ..)
      dsimp only
      split
      · exact (((freed.push rfl).push rfl).signal _).tellUnhandled _ _ _
      · exact (freed.sweep _ _).drop _

theorem finishCheckpoint (k : LoopId) : (m.finishCheckpoint k).Spares p c := by
  unfold Machine.finishCheckpoint
  split
  · exact h.signal _
  · split
    · exact h.sweep _ _
    · exact h.endCheckpoint _

theorem resumeReporting (k : LoopId) (reports : List (PromiseId × Value)) (s : Signal) :
    (m.resumeReporting k reports s).Spares p c := by
  unfold Machine.resumeReporting
  split
  · exact (h.drop _).finishCheckpoint _
  · rename_i id reason rest
    dsimp only
    have waiting := ((h.push (f := .reporting k rest) rfl).push (f := .hold [reason]) rfl).drop s.held
    exact (waiting.modifyLoop k (fun l => l.id_report id reason) fun l => l.tries_report id reason).tellUnhandled
      _ _ _

theorem deliver (k : LoopId) : (m.modifyLoop k Loop.deliver).Spares p c :=
  h.modifyLoop k Loop.id_deliver Loop.tries_deliver

theorem checkpoint (k : LoopId) : (m.checkpoint k).Spares p c := by
  unfold Machine.checkpoint
  exact ((h.deliver k).push rfl).drain _

theorem resumeCheckpoint (k : LoopId) (s : Signal) : (m.resumeCheckpoint k s).Spares p c := by
  unfold Machine.resumeCheckpoint
  split
  · exact h.signal _
  · dsimp only
    split
    · exact h.drop _
    · rename_i reports l' taken
      obtain ⟨l, hl, heq⟩ := Option.map_eq_some_iff.mp taken
      rw [← (Prod.mk.inj heq).2]
      exact ((h.drop _).setLoop hl l.id_takeReports fun _ => l.tries_takeReports).push rfl

theorem cycle (k : LoopId) : (m.cycle k).Spares p c := by
  unfold Machine.cycle
  dsimp only
  split
  · exact (h.deliver k).checkpoint _
  · rename_i w l' taken
    obtain ⟨l, hl, hd⟩ := Option.bind_eq_some_iff.mp taken
    exact (((h.deliver k).setLoop hl (Loop.id_dequeueTask? hd) fun _ => Loop.tries_dequeueTask? hd).push rfl).startWork
      _ _

theorem resumeCycling (k : LoopId) (s : Signal) : (m.resumeCycling k s).Spares p c := by
  unfold Machine.resumeCycling
  split
  · exact h.signal _
  · exact (h.drop _).checkpoint _

theorem idle (k : LoopId) : (m.idle k).Spares p c := by
  unfold Machine.idle
  exact (h.push rfl).cycle _

theorem resumeIdling (k : LoopId) (s : Signal) : (m.resumeIdling k s).Spares p c := by
  unfold Machine.resumeIdling
  split
  · exact h.signal _
  · dsimp only
    split
    · exact h.drop _
    · exact (h.drop _).idle _

theorem finish (k : LoopId) : (m.finish k).Spares p c := by
  unfold Machine.finish
  exact (h.push rfl).idle _

theorem resumeFinishing (k : LoopId) (s : Signal) : (m.resumeFinishing k s).Spares p c := by
  unfold Machine.resumeFinishing
  split
  · exact h.signal _
  · dsimp only
    split
    · exact h.drop _
    · rename_i l hl
      split
      · exact h.drop _
      · split
        · rename_i l' hr
          exact ((h.drop _).setLoop hl (Loop.id_receive? hr) fun _ => Loop.tries_receive? hr).finish _
        · exact (h.drop _).push rfl

theorem conclude (k : LoopId) : (m.conclude k).Spares p c := by
  unfold Machine.conclude
  split
  · exact h.finish _
  · exact (h.push rfl).idle _

theorem resumeConcluding (k : LoopId) (s : Signal) : (m.resumeConcluding k s).Spares p c := by
  unfold Machine.resumeConcluding
  split
  · exact h.signal _
  · exact ((h.drop _).modifyLoop k (fun l => l.id_releaseWorker) fun l => l.tries_releaseWorker).conclude _

-- ---------------------------------------------------------------------------
-- Commands
-- ---------------------------------------------------------------------------

theorem assign (name : String) (v : Value) : (m.assign name v).Spares p c := by
  unfold Machine.assign
  have assigned : ({ m with vars := m.vars.assign name v } : Machine).Spares p c := h.of_eq rfl rfl
  exact assigned.drop _

theorem showAnswer (info : CommandInfo) (s : Signal) (answer : Answer) :
    (m.showAnswer info s answer).Spares p c := by
  unfold Machine.showAnswer
  split
  · exact h.of_eq rfl rfl
  · exact (h.traceEntry _).signal _

theorem storeValue (info : CommandInfo) (s : Signal) : (m.storeValue info s).Spares p c := by
  unfold Machine.storeValue
  split
  · split
    · exact h
    · exact h.assign _ _
  · exact h

theorem endCommand (info : CommandInfo) (operands : List Value) (e : Ending) :
    (m.endCommand info operands e).Spares p c := by
  unfold Machine.endCommand
  split
  · exact (h.drop_signal _ _).showAnswer _ _ _
  · dsimp only
    exact (((h.drop_signal _ _).storeValue _ _).showAnswer _ _ _).drop _

theorem endWith (info : CommandInfo) (v : Value) : (m.endWith info v).Spares p c := h.endCommand _ _ _

theorem endDone (info : CommandInfo) : (m.endDone info).Spares p c := h.endCommand _ _ _

theorem removeVariables (names : List String) : (names.foldl removeVariable m).Spares p c := by
  induction names generalizing m with
  | nil => exact h
  | cons name names ih =>
    refine ih ?_
    have removed : ({ m with vars := m.vars.remove name } : Machine).Spares p c := h.of_eq rfl rfl
    exact removed.drop _

theorem replaceProperty (o : ObjectId) (key : String) (x : Property) : (m.replaceProperty o key x).Spares p c := by
  have put : (m.putProperty o key x).Spares p c := h.of_eq rfl rfl
  exact put.drop _

theorem openLoop (name : String) (config : Config) (tracker : Tracker) (bridge : Bridge) :
    (m.openLoop name config tracker bridge).Spares p c := by
  have opened : Changes m (m.openLoop name config tracker bridge) := .single (.opened m name config tracker bridge)
  refine ⟨(opened.loops h.placed).1, ?_, h.reacts⟩
  -- a loop that has just been opened has no history
  rw [← h.tries, Machine.tries, Machine.tries, loop?, loop?]
  show (Option.map _ ((m.loops ++ [_])[p.home.number]?).join).getD False = _
  rcases Nat.lt_trichotomy p.home.number m.loops.length with old | new | young
  · rw [List.getElem?_append_left old]
  · rw [new, List.getElem?_concat_length, List.getElem?_eq_none (Nat.le_refl _)]
    refine eq_false ?_
    rintro ⟨accepted, tried⟩
    cases tried
  · rw [List.getElem?_eq_none (by simpa using young), List.getElem?_eq_none (Nat.le_of_lt young)]

theorem useCompleter (name : String) (result : WorkResult) : (m.useCompleter name result).Spares p c := by
  unfold Machine.useCompleter
  split
  · exact h
  · rename_i e m' taken
    obtain ⟨x, -, heq⟩ := Option.map_eq_some_iff.mp taken
    rw [← (Prod.mk.inj heq).2]
    have taken : ({ m with completers := m.completers.filter fun e => e.1 ≠ name } : Machine).Spares p c :=
      h.of_eq rfl rfl
    exact taken.modifyLoop _ (f := fun l => l.post _) (fun _ => rfl) fun l => l.tries_note rfl

theorem keepCompleter (name : String) (e : Completer) : (m.keepCompleter name e).Spares p c :=
  (h.useCompleter name .abandoned).of_eq rfl rfl

theorem withLoop (info : CommandInfo) (name : String) (operands : List Value) {run : Machine → LoopId → Machine}
    (runs : ∀ n : Machine, n.Spares p c → ∀ k, m.named? name = some k → n.loops = m.loops → (run n k).Spares p c) :
    (m.withLoop info name operands run).Spares p c := by
  unfold Machine.withLoop
  split
  · rename_i k named
    exact runs _ (h.push rfl) k named rfl
  · exact h.endDone _

theorem withPromise (info : CommandInfo) (name : String) (x : Operand)
    {run : Machine → LoopId → Promise → Machine} (runs : ∀ n : Machine, n.Spares p c → ∀ k q,
      m.named? name = some k → m.evaluate x = .promise q → (run n k q).Spares p c) :
    (m.withPromise info name x run).Spares p c := by
  unfold Machine.withPromise
  split
  · rename_i q hq
    have value : m.evaluate x = .promise q := by
      revert hq
      cases m.evaluate x <;> simp [Value.asPromise?]
    exact h.withLoop _ _ _ fun n h k named _ => runs n h k q named value
  · exact h.endDone _

theorem construct (k : LoopId) (initializer : Value) : (m.construct k initializer).Spares p c := by
  unfold Machine.construct
  cases hl : m.loop? k with
  | none => exact h.signal _
  | some l =>
    dsimp only
    split
    · exact ((h.setLoop hl l.id_newPromise fun _ => rfl).push rfl).invoke _ _ _ _
    · exact h.signal _

theorem resumeConstructing {q : Promise} {s : Signal} (apart : ∀ v, s = .thrown v → p.Apart q) :
    (m.resumeConstructing q s).Spares p c := by
  cases s with
  | thrown v => exact ((h.push rfl).push rfl).reject (fun _ => apart v rfl) _
  | _ => exact h.drop_signal _ _

theorem promiseResolve (fresh : ∀ l, m.loop? p.home = some l → l.newPromise.1.id ≠ p.id) (k : LoopId) (v : Value) :
    (m.promiseResolve k v).Spares p c := by
  unfold Machine.promiseResolve
  cases hl : m.loop? k with
  | none => exact h.signal _
  | some l =>
    dsimp only
    split
    · exact h.signal _
    · refine ((h.setLoop hl l.id_newPromise fun _ => rfl).push rfl).resolve (fun _ home => fresh l ?_) _
      rw [← home]
      show m.loop? l.id = some l
      rw [h.placed k l hl, hl]

theorem promiseReject (fresh : ∀ l, m.loop? p.home = some l → l.newPromise.1.id ≠ p.id) (k : LoopId) (v : Value) :
    (m.promiseReject k v).Spares p c := by
  unfold Machine.promiseReject
  cases hl : m.loop? k with
  | none => exact h.signal _
  | some l =>
    refine ((h.setLoop hl l.id_newPromise fun _ => rfl).push rfl).reject (fun _ home => fresh l ?_) _
    rw [← home]
    show m.loop? l.id = some l
    rw [h.placed k l hl, hl]

theorem callMethod (k : LoopId) (name : String) (this : Value) (arguments : List Value) :
    (m.callMethod k name this arguments).Spares p c := by
  unfold Machine.callMethod
  split
  · exact h.willCall _ _ _
  · exact h.drop_signal _ _

theorem beginRounds (count : Nat) (body : List Command) (quiet : Bool) :
    (m.beginRounds count body quiet).Spares p c := by
  unfold Machine.beginRounds
  split
  · exact h.signal _
  · exact ((h.push rfl).push rfl).signal _

/-- Every step spares a promise that does not resolve or reject it. -/
theorem beginStep (fresh : ∀ l, m.loop? p.home = some l → l.newPromise.1.id ≠ p.id) (info : CommandInfo) {s : Step}
    (apart : ∀ name y q x, s = .resolve name y x ∨ s = .reject name y x → m.named? name = some q.home →
      m.evaluate y = .promise q → p.Apart q) : (m.beginStep info s).Spares p c := by
  cases s with
  | ask q =>
    unfold Machine.beginStep
    dsimp only
    split <;> exact h.endCommand _ _ _
  | give x => exact h.endWith _ _
  | add a b => exact h.endCommand info [] (.signal (sum (m.evaluate a) (m.evaluate b)))
  | cycleError => exact h.endWith info cycleError
  | drop names => exact (h.removeVariables names).endDone _
  | log x => exact (h.traceEntry _).endDone _
  | routine name body quiet =>
    have made : (m.newRoutine name { body, quiet }).2.Spares p c := h.of_eq rfl rfl
    exact made.endWith _ _
  | native =>
    have made : m.newNative.2.Spares p c := h.of_eq rfl rfl
    exact made.endWith _ _
  | object properties =>
    have made : (m.newObject (m.initialProperties properties)).2.Spares p c := h.of_eq rfl rfl
    exact made.endWith _ _
  | dropLoop name =>
    have dropped : ({ m with names := m.names.filter fun e => e.1 ≠ name } : Machine).Spares p c := h.of_eq rfl rfl
    exact dropped.endDone _
  | openLoop name config tracker bridge => exact (h.openLoop _ _ _ _).endDone _
  | set o key x =>
    unfold Machine.beginStep
    dsimp only
    split
    · exact (h.replaceProperty _ _ _).endDone _
    · exact h.endDone _
  | getter o key f =>
    unfold Machine.beginStep
    dsimp only
    split
    · exact (h.replaceProperty _ _ _).endDone _
    · exact h.endDone _
  | get o key =>
    unfold Machine.beginStep
    dsimp only
    split
    · exact (h.push rfl).read _ _
    · exact h.endDone _
  | invoke f on arguments => exact (h.push rfl).callValue _ _ _
  | probeNatively x => exact (h.push rfl).askThen _ _
  | newPromise name =>
    unfold Machine.beginStep
    dsimp only
    split
    · rename_i q m' hn
      obtain ⟨k, -, hn⟩ := Option.bind_eq_some_iff.mp hn
      exact (h.newPromise hn).endWith _ _
    · exact h.endDone _
  | resolve name y x =>
    exact h.withPromise _ _ _ fun _ h k q named value =>
      h.resolve (fun home => apart name y q x (.inl rfl) (home ▸ named) value) _
  | reject name y x =>
    exact h.withPromise _ _ _ fun _ h k q named value =>
      h.reject (fun home => apart name y q x (.inr rfl) (home ▸ named) value) _
  | construct name x => exact h.withLoop _ _ _ fun _ h k _ _ => h.construct k _
  | promiseResolve name x =>
    exact h.withLoop _ _ _ fun n h k _ loops => h.promiseResolve (fun l hl => fresh l (by rwa [loop?, ← loops])) k _
  | promiseReject name x =>
    exact h.withLoop _ _ _ fun n h k _ loops => h.promiseReject (fun l hl => fresh l (by rwa [loop?, ← loops])) k _
  | attach word name y f g => exact h.withPromise _ _ _ fun _ h k q _ _ => h.attach k q _ _ _
  | callMethod name method on arguments => exact h.withLoop _ _ _ fun _ h k _ _ => h.callMethod k _ _ _
  | probe name x => exact h.withLoop _ _ _ fun _ h k _ _ => h.probe k _
  | drain name => exact h.withLoop _ _ _ fun _ h k _ _ => h.drain k
  | checkpoint name => exact h.withLoop _ _ _ fun _ h k _ _ => h.checkpoint k
  | cycle name => exact h.withLoop _ _ _ fun _ h k _ _ => h.cycle k
  | idle name => exact h.withLoop _ _ _ fun _ h k _ _ => h.idle k
  | done name => exact h.withLoop _ _ _ fun _ h k _ _ => h.conclude k
  | collect name => exact h.withLoop _ _ _ fun _ h k _ _ => h.collect k
  | dropCompleter name => exact (h.useCompleter _ _).endDone _
  | complete name result => exact (h.useCompleter _ _).endDone _
  | method name method =>
    unfold Machine.beginStep
    dsimp only
    split
    · exact h.endWith _ _
    · exact h.endDone _
  | task name label body quiet =>
    unfold Machine.beginStep
    dsimp only
    split
    · exact (h.modifyLoop _ (f := fun l => l.enqueueTask _) (fun _ => rfl) fun l => Loop.tries_note _ rfl).endDone _
    · exact h.endDone _
  | microtask name label body quiet =>
    unfold Machine.beginStep
    dsimp only
    split
    · exact (h.modifyLoop _ (f := fun l => l.enqueue _) (fun _ => rfl) fun l => Loop.tries_note _ rfl).endDone _
    · exact h.endDone _
  | completer name key =>
    unfold Machine.beginStep
    dsimp only
    split
    · rename_i l hl
      obtain ⟨k, -, hl⟩ := Option.bind_eq_some_iff.mp hl
      exact ((h.setLoop hl l.id_openFlight fun _ => rfl).keepCompleter _ _).endWith _ _
    · exact h.endDone _
  | spawn name result now =>
    unfold Machine.beginStep
    dsimp only
    split
    · rename_i l hl
      obtain ⟨k, -, hl⟩ := Option.bind_eq_some_iff.mp hl
      have working : (l.openFlight.2.addWorker l.openFlight.1).tries p.id = l.tries p.id := Loop.tries_note _ rfl
      refine (h.setLoop hl ?_ fun _ => ?_).endWith _ _
      · split <;> rfl
      · split
        · exact (Loop.tries_note _ rfl).trans working
        · exact working
    · exact h.endDone _
  | finish name =>
    unfold Machine.beginStep
    dsimp only
    split
    · rename_i l hl
      obtain ⟨k, -, hl⟩ := Option.bind_eq_some_iff.mp hl
      exact (h.setLoop hl l.id_releaseWorker fun _ => l.tries_releaseWorker).endCommand _ _ _
    · exact h.endDone _

/-- Every command spares a promise that is not a step by which it is resolved or rejected. -/
theorem beginCommand (fresh : ∀ l, m.loop? p.home = some l → l.newPromise.1.id ≠ p.id) {e : Command}
    (apart : ∀ s name y q x, e.step? = some s → s = .resolve name y x ∨ s = .reject name y x →
      m.named? name = some q.home → m.evaluate y = .promise q → p.Apart q) : (m.beginCommand e).Spares p c := by
  cases e with
  | step s store catches => exact h.beginStep fresh _ fun name y q x => apart s name y q x rfl
  | ret | raise | fail => exact h.signal _
  | branch condition yes no => exact (h.push rfl).signal _
  | loop count body quiet => exact h.beginRounds _ _ _

-- ---------------------------------------------------------------------------
-- Going on
-- ---------------------------------------------------------------------------

theorem resumeRounds (body : List Command) (round remaining : Nat) (quiet : Bool) (s : Signal) :
    (m.resumeRounds body round remaining quiet s).Spares p c := by
  unfold Machine.resumeRounds
  split
  · exact ((h.push rfl).push rfl).signal _
  · exact h.signal _

theorem resumeCall (this : Value) (arguments : List Value) (s : Signal) :
    (m.resumeCall this arguments s).Spares p c := by
  unfold Machine.resumeCall
  split <;> exact h.drop_signal _ _

theorem resumeWork (s : Signal) : (m.resumeWork s).Spares p c := by
  unfold Machine.resumeWork
  split
  · exact h.signal _
  · exact h.drop_signal _ _
  · exact h.drop_signal _ _

theorem resumeFunctionOnly (s : Signal) : (m.resumeFunctionOnly s).Spares p c := by
  unfold Machine.resumeFunctionOnly
  split
  · exact h.signal _
  · exact h.drop_signal _ _
  · exact h.signal _

theorem resumeSubstitute (this : Value) (arguments : List Value) (s : Signal) :
    (m.resumeSubstitute this arguments s).Spares p c := by
  unfold Machine.resumeSubstitute
  split
  · exact (h.push rfl).callValue _ _ _
  · exact h.drop_signal _ _

theorem resumeResolving (q : Promise) (v : Value) (s : Signal) : (m.resumeResolving q v s).Spares p c := by
  unfold Machine.resumeResolving
  split
  · rename_i t
    exact (h.modifyLoop q.home (f := fun l => l.enqueue (.adoption q v t)) (fun _ => rfl)
      fun l => Loop.tries_note _ rfl).drop_signal _ _
  · exact h.settle _ _ _ _
  · exact h.settle _ _ _ _

theorem resumeReacting {derived : Promise} (apart : p.Apart derived) (handler : Value) (s : Signal) :
    (m.resumeReacting handler derived s).Spares p c := by
  unfold Machine.resumeReacting
  dsimp only
  split
  · exact (h.push rfl).resolve (fun _ => apart) _
  · exact (h.push rfl).reject (fun _ => apart) _
  · exact (h.push rfl).signal _

theorem resumeAdopting {resolver : Value}
    (apart : ∀ r, resolver = .function (.resolver r) → r.guard = .lock → p.Apart r.promise) (q : Promise)
    (thenFunction : Value) (s : Signal) : (m.resumeAdopting q resolver thenFunction s).Spares p c := by
  unfold Machine.resumeAdopting
  dsimp only
  split
  · exact (h.push rfl).enterResolver (apart _ rfl) _ _
  · exact (h.push rfl).signal _

theorem resumeAttaching (derived : Promise) (job : Option Job) (s : Signal) :
    (m.resumeAttaching derived job s).Spares p c := by
  unfold Machine.resumeAttaching
  exact (h.modifyLoop _ (fun l => l.id_endAttach derived job)
    fun l => l.tries_endAttach derived job).drop_signal _ _

theorem resumeCollecting (k : LoopId) (sweep : Sweep) (r : Record) (s : Signal) :
    (m.resumeCollecting k sweep r s).Spares p c := by
  unfold Machine.resumeCollecting
  exact (h.sweep k sweep).drop _

theorem resumeBlock (fresh : ∀ l, m.loop? p.home = some l → l.newPromise.1.id ≠ p.id) {rest : List Command}
    {s : Signal} (apart : ∀ t store catches more, rest = .step t store catches :: more → s = .done →
      ∀ name y q x, t = .resolve name y x ∨ t = .reject name y x → m.named? name = some q.home →
        (m.push (.block more)).evaluate y = .promise q → p.Apart q) : (m.resumeBlock rest s).Spares p c := by
  unfold Machine.resumeBlock
  split
  · rename_i e more
    refine (h.push rfl).beginCommand fresh fun t name y q x ht which named value => ?_
    cases e with
    | step t' store catches =>
      cases ht
      exact apart t store catches more rfl rfl name y q x which named value
    | _ => cases ht
  · exact h.signal _

/-- Whatever a frame is waiting to do, it spares a promise if it does it to others. -/
theorem resume (fresh : ∀ l, m.loop? p.home = some l → l.newPromise.1.id ≠ p.id)
    (clear : ∀ k l, m.loop? k = some l → l.Clear p) {f : Frame} {s : Signal}
    (begins : ∀ t store catches more, f = .block (.step t store catches :: more) → s = .done →
      ∀ name y q x, t = .resolve name y x ∨ t = .reject name y x → m.named? name = some q.home →
        (m.push (.block more)).evaluate y = .promise q → p.Apart q)
    (constructs : ∀ q v, f = .constructing q → s = .thrown v → p.Apart q)
    (reacts : ∀ handler d, f = .reacting handler d → p.Apart d)
    (adopts : ∀ q resolver t, f = .adopting q resolver t → ∀ r, resolver = .function (.resolver r) →
      r.guard = .lock → p.Apart r.promise) : (m.resume f s).Spares p c := by
  unfold Machine.resume
  cases f with
  | block rest => exact h.resumeBlock fresh fun t store catches more hr => begins t store catches more (by rw [hr])
  | rounds body round remaining quiet => exact h.resumeRounds _ _ _ _ _
  | command info operands => exact h.endCommand _ _ _
  | call this arguments quiet => exact h.resumeCall _ _ _
  | work quiet => exact h.resumeWork _
  | hold values => exact h.drop_signal _ _
  | discard values => exact h.drop_signal _ _
  | give v values =>
    dsimp only
    split <;> exact h.drop_signal _ _
  | surface values =>
    dsimp only
    split <;> exact h.drop_signal _ _
  | functionOnly => exact h.resumeFunctionOnly _
  | substitute this arguments => exact h.resumeSubstitute _ _ _
  | resolving q v => exact h.resumeResolving _ _ _
  | reacting handler derived => exact h.resumeReacting (reacts handler derived rfl) _ _
  | adopting q resolver thenFunction => exact h.resumeAdopting (adopts q resolver thenFunction rfl) _ _ _
  | constructing q => exact h.resumeConstructing fun v => constructs q v rfl
  | attaching derived job => exact h.resumeAttaching _ _ _
  | draining k => exact h.resumeDraining (clear k) _
  | checkpoint k => exact h.resumeCheckpoint _ _
  | reporting k reports => exact h.resumeReporting _ _ _
  | collecting k sweep record => exact h.resumeCollecting _ _ _ _
  | cycling k => exact h.resumeCycling _ _
  | idling k => exact h.resumeIdling _ _
  | finishing k => exact h.resumeFinishing _ _
  | concluding k => exact h.resumeConcluding _ _

/-- The removal of another loop spares a promise. -/
theorem removeLoop (l : Loop) (other : p.home ≠ l.id) : (m.removeLoop l).Spares p c := by
  have look (j : LoopId) := loop?_modify_none m l.id j
  have cut : ({ m with loops := m.loops.modify l.id.number fun _ => none } : Machine).Spares p c := by
    refine ⟨fun j x hx => ?_, ?_, h.reacts⟩
    · rw [look] at hx
      split at hx
      · cases hx
      · exact h.placed j x hx
    · rw [← h.tries, Machine.tries, Machine.tries, look, if_neg other]
  exact cut.drop _

-- ---------------------------------------------------------------------------
-- Attempts
-- ---------------------------------------------------------------------------

/-- The lock of the promise is taken, or found to have been taken. -/
theorem lock_self {accepted : Bool} (hl : m.loop? p.home = some l) (hp : l.lock p = .ok (accepted, l')) :
    (m.setLoop l').Spares p True := by
  obtain ⟨r, -, -, locked⟩ := Loop.lock_eq_ok.mp hp
  have id : l.id = p.home := h.placed _ l hl
  have found : m.loop? l.id = some l := by rw [id, hl]
  refine ⟨h.placed.setLoop found (Loop.id_lock hp), ?_, h.reacts⟩
  rw [Machine.tries, loop?_setLoop_ite found (Loop.id_lock hp), if_pos id.symm]
  refine eq_true ?_
  show Tried p.id l'.history
  rw [locked]
  exact tried_cons.mpr ⟨rfl, .inl ⟨accepted, rfl⟩⟩

theorem withLock_self (hl : m.loop? p.home = some l) {r : Record} (hr : l.record p = .ok r) (v : Value)
    {act : Machine → Machine} (acts : ∀ m : Machine, m.Spares p True → (act m).Spares p True) :
    (m.withLock p.home p v act).Spares p True := by
  obtain ⟨accepted, l', hp⟩ : ∃ accepted l', l.lock p = .ok (accepted, l') :=
    ⟨_, _, Loop.lock_eq_ok.mpr ⟨r, hr, rfl, rfl⟩⟩
  have taken := h.lock_self hl hp
  unfold Machine.withLock
  simp only [hl, hp]
  cases accepted with
  | true => exact acts _ taken
  | false => exact taken.drop_signal _ _

theorem resolve_self (hl : m.loop? p.home = some l) {r : Record} (hr : l.record p = .ok r) (v : Value) :
    (m.resolve p.home p v).Spares p True :=
  h.withLock_self hl hr v fun _ h => h.resolveLocked p v

theorem reject_self (hl : m.loop? p.home = some l) {r : Record} (hr : l.record p = .ok r) (v : Value) :
    (m.reject p.home p v).Spares p True :=
  h.withLock_self hl hr v fun _ h => h.settle p .rejected v []

theorem thrown_self (hl : m.loop? p.home = some l) {r : Record} (hr : l.record p = .ok r) (v : Value) :
    (m.resumeConstructing p (.thrown v)).Spares p True :=
  ((h.push (f := .surface []) rfl).push (f := .give (.promise p) []) rfl).reject_self hl hr v

theorem call_self (hl : m.loop? p.home = some l) {r : Record} (hr : l.record p = .ok r) (side : Side)
    (this : Value) (arguments : List Value) :
    (m.enter (.resolver { promise := p, guard := .lock, side }) this arguments).Spares p True := by
  obtain ⟨accepted, l', hp⟩ : ∃ accepted l', l.lock p = .ok (accepted, l') :=
    ⟨_, _, Loop.lock_eq_ok.mpr ⟨r, hr, rfl, rfl⟩⟩
  have taken := h.lock_self hl hp
  show (m.enterResolver _ this arguments).Spares p True
  unfold Machine.enterResolver Machine.claim
  simp only [hl, hp, Except.map, Option.isNone_some, Bool.false_eq_true, if_false]
  cases accepted with
  | false => exact taken.drop_signal _ _
  | true =>
    have begun := ((taken.push (f := .give .undefined [this]) rfl).drop_signal
      (arguments.drop 1) (.value (arguments.headD .undefined))).signal .done
    cases side with
    | fulfill => exact begun.resolveLocked _ _
    | reject => exact begun.settle _ _ _ _

end Spares

end Machine
end PromiseLoop

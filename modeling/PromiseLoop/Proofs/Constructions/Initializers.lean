import PromiseLoop.Proofs.Faults.Commands
import PromiseLoop.Proofs.Thenables.Adoptions

/-!
# Initializers

A promise is constructed with an initializer, which is called at once, with the two functions that resolve
and reject the promise.  What it does with them, and whether it comes back at all, is its own affair; but if
it comes back, whatever with, the construction gives the promise.  What the initializer throws rejects the
promise, unless it has been resolved.  That this cannot fail is due to the frame of the construction, which
keeps the promise, and so its record, until then.

## Results

* `Issues.run_uncallable`: a construction with an initializer that cannot be called.
* `Issues.construct_eq`, `called_of_invoke`: the initializer is called.
* `exists_descends_constructing`: a construction gives its promise, whatever its initializer comes back with.
-/

namespace PromiseLoop

open Relation

/-- One of the two functions that the initializer of a promise is called with. -/
def Promise.settling (p : Promise) (side : Side) : Callable := .resolver { promise := p, guard := .lock, side }

/-- What a construction throws that is given something else than a function. -/
def initializerError (v : Value) : Value :=
  .typeError ("Promise resolver " ++ v.display ++ " is not a function")

namespace Machine

variable {m m' n scene : Machine} {k : LoopId} {l : Loop} {p : Promise} {s : Signal} {info : CommandInfo}
  {name : String} {x : Operand} {base : List Frame}

-- ---------------------------------------------------------------------------
-- Beginning
-- ---------------------------------------------------------------------------

/-- The frame of a construction that has been begun as a command. -/
def constructs (info : CommandInfo) (k : LoopId) (v : Value) : Frame := .command { info with loop := some k } [v]

/-- A construction begins under the frame of its command. -/
theorem Issues.construct_eq (h : m.Issues (.construct name x) info scene m') (named : scene.named? name = some k) :
    m' = (scene.push (constructs info k (scene.evaluate x))).construct k (scene.evaluate x) := by
  rw [h.begins]
  simp only [beginStep, withLoop, named]
  rfl

/-- With an initializer that cannot be called, nothing is constructed. -/
theorem construct_uncallable (hl : n.loop? k = some l) {v : Value}
    (not : l.bridge.isCallable n.properties v = false) :
    n.construct k v = n.signal (.thrown (initializerError v)) := by
  simp only [construct, hl, not]
  rfl

/-- The answer of a construction with an initializer that cannot be called: nothing else has happened. -/
theorem Issues.run_uncallable (h : m.Issues (.construct name x) info scene m')
    (named : scene.named? name = some k) (hl : m.loop? k = some l)
    (not : l.bridge.isCallable scene.properties (scene.evaluate x) = false) :
    run 1 m' = (scene.signal (.thrown (initializerError (scene.evaluate x)))).showAnswer info
      (.thrown (initializerError (scene.evaluate x))) (.thrown (scene.shown (initializerError (scene.evaluate x)))) := by
  have found : (scene.push (constructs info k (scene.evaluate x))).loop? k = some l := by
    rw [← hl, loop?, loop?, ← h.loops]
    rfl
  let failed := (scene.push (constructs info k (scene.evaluate x))).signal
    (.thrown (initializerError (scene.evaluate x)))
  have still : failed.orphan? = none := orphan?_eq_none_of_keeps h.settled rfl fun j hj => by
    have spent := h.spent
    simp only [keepsLoop, spent, Bool.or_eq_true, reduceCtorEq, decide_false, Bool.false_eq_true,
      or_false] at hj ⊢
    exact hj.imp .inl fun on => List.any_cons ▸ Bool.or_eq_true_iff.mpr (.inr on)
  rw [h.construct_eq named, construct_uncallable found not, run_one]
  rw [step_of_signal still rfl rfl]
  -- the operand that was looked up is held where it was found
  have gone : Machine.drop [scene.evaluate x] (scene.signal (.thrown (initializerError (scene.evaluate x)))) =
      scene.signal (.thrown (initializerError (scene.evaluate x))) := drop_of_kept fun v hv => by
    rw [List.mem_singleton.mp hv]
    exact kept_of_evaluate scene x
  show Machine.drop [initializerError _] (((Machine.drop [scene.evaluate x] (scene.signal _)).storeValue _ _).showAnswer
    _ _ _) = _
  rw [gone, drop_cons_of_handle?_eq_none _ _ rfl, drop_nil]
  rfl

theorem loop?_read (m : Machine) (o : ObjectId) (key : String) (k : LoopId) : (m.read o key).loop? k = m.loop? k := by
  unfold read
  split <;> rfl

theorem exists_loop?_callValue (m : Machine) (f this : Value) (arguments : List Value) (k : LoopId) :
    ∃ released, (m.callValue f this arguments).loop? k =
      (m.loop? k).map fun l => { l with releases := l.releases ++ released } := by
  unfold callValue
  split
  · exact ⟨[], by simp [loop?, willCall]⟩
  · exact exists_loop?_drop _ _ k

/-- The bridge of a loop is asked to call a value, and a function is called. -/
theorem called_of_invoke (hl : n.loop? k = some l) (f this : Value) (arguments : List Value) :
    n.stack <:+ (n.invoke k f this arguments).stack ∧
    (∃ releases, (n.invoke k f this arguments).loop? k = some { l.note (.invoked f) with releases }) ∧
    ∀ c, f = .function c → (n.invoke k f this arguments).stack = n.stack ∧
      (n.invoke k f this arguments).control = .call c this arguments := by
  have noted : (n.modifyLoop k fun l => l.note (.invoked f)).loop? k = some (l.note (.invoked f)) := by
    rw [loop?_modifyLoop_self, hl]
    rfl
  refine ⟨above_invoke n k f this arguments, ?_, fun c hc => ?_⟩
  · generalize hn : n.modifyLoop k (fun l => l.note (.invoked f)) = noting at noted
    obtain ⟨released, called⟩ := exists_loop?_callValue noting f this arguments k
    rw [noted] at called
    unfold invoke
    rw [hn]
    dsimp only
    split
    · exact ⟨l.releases, (loop?_read _ _ _ k).trans noted⟩
    · exact ⟨_, called⟩
  · subst hc
    unfold invoke
    dsimp only
    split
    · cases ‹Value.function c = _›
    · exact ⟨rfl, rfl⟩

/-- With an initializer that can be called, a pending promise is created, and the initializer is called. -/
theorem construct_callable (hl : n.loop? k = some l) {v : Value}
    (can : l.bridge.isCallable n.properties v = true) : n.construct k v =
      ((n.setLoop l.newPromise.2).push (.constructing l.newPromise.1)).invoke k v .undefined
        [.function (l.newPromise.1.settling .fulfill), .function (l.newPromise.1.settling .reject)] := by
  simp only [construct, hl, can]
  rfl

-- ---------------------------------------------------------------------------
-- Ending
-- ---------------------------------------------------------------------------

/-- A promise that has a record is rejected, or has been resolved before; nothing is called for it. -/
theorem signal_of_reject {r : Record} (hl : n.loop? p.home = some l) (hr : l.record p = .ok r) (v : Value) :
    (n.reject p.home p v).stack = n.stack ∧ (n.reject p.home p v).control = .signal .done := by
  unfold reject withLock
  simp only [hl]
  cases free : r.alreadyResolved with
  | true => simp only [lock_of_taken hr free, stack_drop, control_drop]; exact ⟨rfl, rfl⟩
  | false =>
    simp only [lock_of_free hr free]
    unfold settle
    split <;> simp only [stack_drop, control_drop] <;> exact ⟨rfl, rfl⟩

/-- The record of a promise that is being constructed is there. -/
theorem Reachable.record_of_constructing (hm : Reachable m) (constructing : .constructing p ∈ m.stack)
    (hl : m.loop? p.home = some l) (room : l.heap.slots.length < 2 ^ 32) : ∃ r, l.record p = .ok r := by
  have held : .promise p ∈ m.heldByStack := List.mem_flatMap.mpr ⟨_, constructing, List.mem_singleton_self _⟩
  exact hm.record_of_held hl room rfl (.inl (mem_kept.mpr (.inr (.inl (mem_handles.mpr ⟨_, held, rfl⟩)))))

/-- Whatever its initializer comes back with, a construction gives its promise, and calls nothing before. -/
theorem exists_descends_constructing (hm : Reachable m) (hs : m.stack = .constructing p :: base)
    (hc : m.control = .signal s) (hl : m.loop? p.home = some l) (room : l.heap.slots.length < 2 ^ 32) :
    ∃ d, m.Descends base d (.value (.promise p)) := by
  have handed (h : ∀ v, s ≠ .thrown v) : ∃ d, m.Descends base d (.value (.promise p)) :=
    exists_descends hm hs hc fun n => ⟨s.held, by
      cases s with
      | thrown v => exact absurd rfl (h v)
      | _ => rfl⟩
  cases s with
  | thrown v =>
    obtain ⟨d, settled, stack, control, aside, descends⟩ := exists_descends_step hm hs hc
    obtain ⟨l', hl', outside⟩ := (aside p.home (keepsLoop_of_stack hs rfl)).stays l hl
    have heap : l'.heap = l.heap := (Loop.StandsAs.of_outside outside).heap
    obtain ⟨r, hr⟩ := (hm.run d).record_of_constructing (stack ▸ List.mem_cons_self ..) hl' (heap ▸ room)
    -- the rejection is done above two frames that the promise comes down through
    let popped : Machine := { run d m with stack := base, control := .signal .done }
    let waiting := (popped.push (.surface [])).push (.give (.promise p) [])
    have step : (run d m).step = waiting.reject p.home p v := step_of_signal settled control stack
    obtain ⟨stack', control'⟩ := signal_of_reject (n := waiting) hl' hr v
    rw [← step] at stack' control'
    obtain ⟨a, gives⟩ := exists_descends (hm.run d).step stack' control' (t := .value (.promise p))
      fun n => ⟨[], rfl⟩
    obtain ⟨b, surfaces⟩ := exists_descends ((hm.run d).step.run a) gives.stack gives.control
      (t := .value (.promise p)) fun n => ⟨[], rfl⟩
    exact ⟨_, descends List.suffix_rfl (gives.trans surfaces (List.suffix_cons _ _))⟩
  | _ => exact handed fun v => by simp

end Machine
end PromiseLoop

import PromiseLoop.Proofs.Background.Manned
import PromiseLoop.Proofs.Constructions.Strangers

/-!
# Constructions

A construction fails exactly if it is given an initializer that cannot be called, and then nothing has
happened.  Otherwise it calls the initializer once, at once, and gives its promise as soon as the initializer
comes back, whatever that has done.  What the promise is told first decides how it is resolved.

## Results

* `Told.resolved`: a promise has been resolved exactly if it has been told something.
* `construct_fails_only_for_uncallable`: a construction, from its beginning to what its promise is told last.
-/

namespace PromiseLoop.Machine

open Relation

variable {m m' n scene : Machine} {k : LoopId} {l l' : Loop} {p : Promise} {s : Signal} {info : CommandInfo}
  {name : String} {x : Operand} {base : List Frame} {v : Value} {told : List (Side × Value)}

-- ---------------------------------------------------------------------------
-- What a promise has been told
-- ---------------------------------------------------------------------------

/-- Slots are only added to a heap. -/
theorem Run.slots_le (hm : Reachable m) (hr : Run m m') (hl : m.loop? k = some l) (hl' : m'.loop? k = some l') :
    l.heap.slots.length ≤ l'.heap.slots.length := by
  obtain ⟨w, ⟨x, hx, rfl⟩ | ⟨new, -⟩, moves⟩ := (Run.leads hm hr).loops k l' hl'
  · obtain rfl : l = x := Option.some.inj (hl.symm.trans hx)
    exact Workload.slots_of_moves moves
  · exact absurd (number_lt_of_loop? hl) (Nat.not_lt_of_le new)

/-- It is attempted to resolve or to reject the promise exactly when it is told something. -/
theorem Told.spares (hm : Reachable m) (stranger : m.Stranger p l) (spares : m.Spares p False)
    (ran : m.Told p told n) (hl' : n.loop? p.home = some l') (room : l'.heap.slots.length < 2 ^ 32) :
    n.Spares p (told ≠ []) := by
  induction ran generalizing l' with
  | nothing => simpa using spares
  | @quiet n n' told before held next quiet ih =>
    have reached := hm.runs before.run
    obtain ⟨x, hx⟩ := before.run.exists_loop? hm stranger.found next hl'
    have roomy := Nat.lt_of_le_of_lt (Run.slots_le reached (.single next) hx hl') room
    exact (before.run.stranger hm stranger hx).spares_next reached roomy held (ih hx roomy) next ⟨l', hl'⟩ quiet
  | @tells n n' told side y before tells ih =>
    have reached := hm.runs before.run
    obtain ⟨x, hx⟩ := before.run.exists_loop? hm stranger.found tells.next hl'
    have roomy := Nat.lt_of_le_of_lt (Run.slots_le reached (.single tells.next) hx hl') room
    simpa using (before.run.stranger hm stranger hx).spares_of_tells reached roomy tells.holds (ih hx roomy) tells

/-- A promise has been resolved exactly if it has been told something, and is pending until then. -/
theorem Told.resolved (hm : Reachable m) (stranger : m.Stranger p l) (spares : m.Spares p False)
    (ran : m.Told p told n) (held : n.holds (.promise p) = true) (hl' : n.loop? p.home = some l')
    (room : l'.heap.slots.length < 2 ^ 32) : ∃ r, l'.record p = .ok r ∧
      (r.alreadyResolved = true ↔ told ≠ []) ∧ (told = [] → r.state = .pending) := by
  have reached := hm.runs ran.run
  have tried := (ran.spares hm stranger spares hl' room).tries
  rw [tries, hl'] at tried
  have kept : l'.AttemptsKept := reached.keeps hl' (Loop.attemptsKept_new _) Loop.Act.attemptsKept
  obtain ⟨r, hr⟩ := reached.record_of_held hl' room rfl ((has_control_held _).mpr held)
  have found := (Loop.record_eq_ok.mp hr).2
  have locked : r.alreadyResolved = true ↔ told ≠ [] := by
    rw [← tried]
    refine Iff.trans ?_ (kept.locked p.id)
    rw [Loop.isLocked, found]
    rfl
  refine ⟨r, hr, locked, fun nothing => ?_⟩
  by_contra settled
  exact locked.mp (((reached.warranted p.home).guarded l' hl' room).locked p.id r found settled) nothing

-- ---------------------------------------------------------------------------
-- New promises
-- ---------------------------------------------------------------------------

/-- Nobody has attempted to resolve a promise that is still to be created. -/
theorem Reachable.spares_newPromise (hm : Reachable m) (hl : m.loop? k = some l)
    (room : l.heap.slots.length < 2 ^ 32) : m.Spares l.newPromise.1 False := by
  have home : l.newPromise.1.home = k := hm.placed k l hl
  refine ⟨hm.placed, ?_, fun f hf => ?_⟩
  · rw [tries, home, hl]
    refine eq_false fun tried => ?_
    have kept : l.AttemptsKept := hm.keeps hl (Loop.attemptsKept_new k) Loop.Act.attemptsKept
    have locked := (kept.locked l.newPromise.1.id).mpr tried
    have vacant : l.heap.get? l.newPromise.1.id = none :=
      (Heap.get?_allocate_self (hm.wf hl) .pending (Nat.le_trans (Heap.slots_allocate_le _ _) room)).1
    rw [Loop.isLocked, vacant] at locked
    cases locked
  · cases f with
    | reacting handler derived =>
      refine decide_eq_false ?_
      rintro rfl
      have held : m.holds (.promise l.newPromise.1) = true :=
        holds_of_stack (v := .promise l.newPromise.1) hf (by simp [Frame.held]) rfl
      exact absurd (((hm.warranted k).guarded l hl room).young _ (.inl (knows_iff.mpr ⟨home, held⟩)))
        (Nat.lt_irrefl _)
    | _ => rfl

/-- A promise that has just been created is nobody's. -/
theorem Reachable.underived_newPromise (hm : Reachable m) (hl : m.loop? k = some l) :
    l.newPromise.1 ∉ allDerived l.history ∧ l.newPromise.1 ∉ l.inFlight := by
  refine ⟨fun derived => ?_, fun flies => ?_⟩
  · exact Nat.lt_irrefl _ ((hm.reactionsKept hl).registered.fresh _ derived)
  · exact Nat.lt_irrefl _ ((hm.staffed.2 k l hl).old _ flies)

/-- A construction has begun: a pending promise has been created, which nobody works on, and the initializer is
called with its two functions, which is noted once. -/
structure Constructs (n : Machine) (k : LoopId) (l : Loop) (v : Value) (m' : Machine) : Prop where
  begins : m' = ((n.setLoop l.newPromise.2).push (.constructing l.newPromise.1)).invoke k v .undefined
    [.function (l.newPromise.1.settling .fulfill), .function (l.newPromise.1.settling .reject)]
  waits : .constructing l.newPromise.1 :: n.stack <:+ m'.stack
  calls : ∀ c, v = .function c → m'.stack = .constructing l.newPromise.1 :: n.stack ∧
    m'.control = .call c .undefined
      [.function (l.newPromise.1.settling .fulfill), .function (l.newPromise.1.settling .reject)]
  created : ∃ releases, m'.loop? k = some { l.newPromise.2.note (.invoked v) with releases }

theorem constructs_of_callable (hl : n.loop? k = some l) (id : l.id = k)
    (can : l.bridge.isCallable n.properties v = true) : Constructs n k l v (n.construct k v) := by
  have created : ((n.setLoop l.newPromise.2).push (.constructing l.newPromise.1)).loop? k = some l.newPromise.2 := by
    subst id
    exact loop?_setLoop_self hl rfl
  obtain ⟨waits, noted, calls⟩ := called_of_invoke created v .undefined
    [.function (l.newPromise.1.settling .fulfill), .function (l.newPromise.1.settling .reject)]
  rw [construct_callable hl can]
  exact ⟨rfl, waits, calls, noted⟩

-- ---------------------------------------------------------------------------
-- Constructions
-- ---------------------------------------------------------------------------

theorem loops_showAnswer (m : Machine) (info : CommandInfo) (s : Signal) (answer : Answer) :
    (m.showAnswer info s answer).loops = m.loops := by
  unfold showAnswer
  split
  · rfl
  · exact loops_traceEntry (m := m) _

/-- Whatever the initializer comes back with, the construction gives its promise next, and calls nothing
before. -/
theorem Constructs.gives (h : Constructs n k l v m') (hm : Reachable m') (id : l.id = k)
    {i : Nat} (room : (run i m').Roomy) (back : m'.HandsBack (.constructing l.newPromise.1 :: n.stack) i s) :
    ∃ d, (run i m').Descends n.stack d (.value (.promise l.newPromise.1)) ∧
      m'.HandsBack n.stack (i + d) (.value (.promise l.newPromise.1)) := by
  obtain ⟨releases, created⟩ := h.created
  obtain ⟨x, hx⟩ := stays_run hm (f := .constructing l.newPromise.1) (k := k)
    (congrArg some id) (n := i) (fun j hj => suffix_of_busy hm h.waits fun a ha => back.first a (Nat.lt_trans ha hj))
    created
  subst id
  obtain ⟨d, descends⟩ := exists_descends_constructing (hm.run i) back.stack back.control hx (room _ x hx)
  exact ⟨d, descends, back.descends hm h.waits descends⟩

/-- What a construction gives is its promise. -/
theorem Constructs.given (h : Constructs n k l v m') (hm : Reachable m') (id : l.id = k) {i : Nat}
    (room : ∀ j ≤ i, (run j m').Roomy) (back : m'.HandsBack n.stack i s) : s = .value (.promise l.newPromise.1) := by
  obtain ⟨j, t, hj, first⟩ := exists_handsBack hm h.waits back.stack
  obtain ⟨d, -, later⟩ := h.gives hm id (room j (Nat.le_of_lt hj)) first
  have same := back.control
  rw [back.unique later, later.control] at same
  exact (Control.signal.inj same).symm

/-- A construction fails exactly if its initializer cannot be called: it throws a type error that names the
value, and nothing in any loop has changed.  Otherwise a pending promise is created and the initializer called,
once and at once; whatever the initializer does, as soon as it comes back the construction gives the promise,
and calls nothing on the way.  The promise is resolved by what it is told first, during the construction or
later: by the first call of one of its two functions, by somebody who resolves or rejects it, or by what the
initializer has thrown.  Until then it is pending, and whatever it is told later is refused. -/
theorem construct_fails_only_for_uncallable (hm : Reachable m) (h : m.Issues (.construct name x) info scene m')
    (named : scene.named? name = some k) (hl : m.loop? k = some l) :
    (l.bridge.isCallable scene.properties (scene.evaluate x) = false →
      m'.loops = m.loops ∧ (run 1 m').loops = m.loops ∧
      run 1 m' = (scene.signal (.thrown (initializerError (scene.evaluate x)))).showAnswer info
        (.thrown (initializerError (scene.evaluate x)))
        (.thrown (scene.shown (initializerError (scene.evaluate x))))) ∧
    (l.bridge.isCallable scene.properties (scene.evaluate x) = true → l.heap.slots.length < 2 ^ 32 →
      Constructs (scene.push (constructs info k (scene.evaluate x))) k l (scene.evaluate x) m' ∧
      (∀ i s, (run i m').Roomy →
        m'.HandsBack (.constructing l.newPromise.1 :: constructs info k (scene.evaluate x) :: scene.stack) i s →
        ∃ d, (run i m').Descends (constructs info k (scene.evaluate x) :: scene.stack) d
            (.value (.promise l.newPromise.1)) ∧
          m'.HandsBack (constructs info k (scene.evaluate x) :: scene.stack) (i + d)
            (.value (.promise l.newPromise.1))) ∧
      (∀ i s, (∀ j ≤ i, (run j m').Roomy) →
        m'.HandsBack (constructs info k (scene.evaluate x) :: scene.stack) i s →
        s = .value (.promise l.newPromise.1)) ∧
      ∀ told n l', m'.Told l.newPromise.1 told n → n.holds (.promise l.newPromise.1) = true →
        n.loop? k = some l' → l'.heap.slots.length < 2 ^ 32 →
        ∃ r, l'.record l.newPromise.1 = .ok r ∧ (r.alreadyResolved = true ↔ told ≠ []) ∧
          (told = [] → r.state = .pending) ∧
          ∀ side y n', n.Tells l.newPromise.1 side y n' → ∃ stage : Machine,
            stage.loops = n.loops ∧ stage.vars = n.vars ∧ stage.trace <:+ n.trace ∧
            (told = [] → ∃ heard, stage.Locks l.newPromise.1 l' heard ∧ n' = heard.hear l.newPromise.1 side y) ∧
            (told ≠ [] → Refused stage l.newPromise.1 l' n')) := by
  have id : l.id = k := hm.placed k l hl
  have found : (scene.push (constructs info k (scene.evaluate x))).loop? k = some l := by
    rw [← hl, loop?, loop?, ← h.loops]
    rfl
  refine ⟨fun not => ?_, fun can room => ?_⟩
  · have shown := h.run_uncallable named hl not
    refine ⟨?_, ?_, shown⟩
    · rw [h.construct_eq named, construct_uncallable found not]
      exact h.loops
    · rw [shown, loops_showAnswer]
      exact h.loops
  · have reached := hm.next h.next
    have begun : Constructs (scene.push (constructs info k (scene.evaluate x))) k l (scene.evaluate x) m' := by
      rw [h.construct_eq named]
      exact constructs_of_callable found id can
    refine ⟨begun, fun i s roomy back => begun.gives reached id roomy back,
      fun i s roomy back => begun.given reached id roomy back, fun told n l' ran held hl' room' => ?_⟩
    have home : l.newPromise.1.home = k := id
    rw [← home] at hl'
    obtain ⟨releases, created⟩ := begun.created
    obtain ⟨underived, grounded⟩ := hm.underived_newPromise hl
    have same : allDerived (.invoked (scene.evaluate x) :: l.history) = allDerived l.history :=
      allDerived_cons_of_none rfl _
    have stranger : m'.Stranger l.newPromise.1 { l.newPromise.2.note (.invoked (scene.evaluate x)) with releases } :=
      ⟨home ▸ created, Nat.lt_succ_self _, fun derived => underived (same ▸ derived), grounded⟩
    have spares : m'.Spares l.newPromise.1 False := by
      rw [h.construct_eq named]
      exact ((h.spares (hm.spares_newPromise hl room)).push rfl).construct k _
    obtain ⟨r, hr, resolved, pending⟩ := ran.resolved reached stranger spares held hl' room'
    refine ⟨r, hr, resolved, pending, fun side y n' tells => ?_⟩
    obtain ⟨r', n'', hr', loops, vars, trace, first, late⟩ := tells.decides (reached.runs ran.run) hl' room'
    obtain rfl : r = r' := Except.ok.inj (hr.symm.trans hr')
    refine ⟨n'', loops, vars, trace, fun nothing => first ?_, fun something => late (resolved.mpr something)⟩
    by_contra taken
    exact resolved.mp (by simpa using taken) nothing

/-- A machine with a function that calls the first function it is given, and then throws. -/
def constructible : Machine :=
  (boot {} .console .native).obey
    [.step (.routine "init" [.step (.invoke (.argument 0) (.constant .undefined) [.constant (.small 5)]) none false,
      .raise (.constant (.small 6))] true) (some "f") false]

/-- The machine, given the command to construct a promise with that function. -/
def constructing : Machine := constructible.start (.step (.construct "main" (.variable "f")) none false)

/-- The promise that is constructed. -/
def constructed : Promise := { home := ⟨0⟩, serial := 0, id := ⟨0, 0⟩ }

theorem construct_fails_only_for_uncallable_constructing :
    ∃ (l : Loop) (base : List Frame) (d : Nat) (heard stage : Machine) (l' : Loop),
    constructible.loop? ⟨0⟩ = some l ∧ l.newPromise.1 = constructed ∧
    constructing.HandsBack (.constructing constructed :: base) 9 (.thrown (.small 6)) ∧
    constructing.HandsBack base (9 + d) (.value (.promise constructed)) ∧
    constructing.Told constructed [] (run 2 constructing) ∧
    run 3 constructing = heard.hear constructed .fulfill (.small 5) ∧
    constructing.Told constructed [(.fulfill, .small 5)] (run 9 constructing) ∧
    Refused stage constructed l' (run 10 constructing) := by
  obtain ⟨l, hl⟩ := Option.isSome_iff_exists.mp (by cbv : (constructible.loop? ⟨0⟩).isSome = true)
  obtain ⟨l₂, hl₂⟩ := Option.isSome_iff_exists.mp (by cbv : ((run 2 constructing).loop? ⟨0⟩).isSome = true)
  obtain ⟨l₉, hl₉⟩ := Option.isSome_iff_exists.mp (by cbv : ((run 9 constructing).loop? ⟨0⟩).isSome = true)
  have slots (m : Machine) {x : Loop} (hx : m.loop? ⟨0⟩ = some x)
      (few : ((m.loop? ⟨0⟩).map fun l => decide (l.heap.slots.length < 2 ^ 32)) = some true) :
      x.heap.slots.length < 2 ^ 32 := by
    rw [hx] at few
    exact of_decide_eq_true (Option.some.inj few)
  have promise : l.newPromise.1 = constructed := by
    have made : (constructible.loop? ⟨0⟩).map (fun l => l.newPromise.1) = some constructed := by cbv
    rw [hl] at made
    exact Option.some.inj made
  have can : l.bridge.isCallable ({ constructible with trace := [] } : Machine).properties
      (({ constructible with trace := [] } : Machine).evaluate (.variable "f")) = true := by
    have asked : (constructible.loop? ⟨0⟩).map (fun l => l.bridge.isCallable
      ({ constructible with trace := [] } : Machine).properties
      (({ constructible with trace := [] } : Machine).evaluate (.variable "f"))) = some true := by cbv
    rw [hl] at asked
    exact Option.some.inj asked
  have reached : Reachable constructible := .obey (.boot _ _ _) _
  have idle : constructible.isIdle = true := by cbv
  have issues : constructible.Issues (.construct "main" (.variable "f"))
      { word := "construct", store := none, catches := false, isControl := false }
      { constructible with trace := [] } constructing := .given idle none false
  obtain ⟨-, made⟩ := construct_fails_only_for_uncallable reached issues (k := ⟨0⟩) (by cbv) hl
  obtain ⟨-, gives, -, decides⟩ := made can (slots _ hl (by cbv))
  rw [promise] at gives decides
  -- the initializer comes back with what it has thrown
  have back : constructing.HandsBack (.constructing constructed :: constructs
      { word := "construct", store := none, catches := false, isControl := false } ⟨0⟩
      (({ constructible with trace := [] } : Machine).evaluate (.variable "f")) ::
      ({ constructible with trace := [] } : Machine).stack) 9 (.thrown (.small 6)) :=
    handsBack_of_isDownTo (by cbv) (by cbv) (by cbv)
  obtain ⟨d, -, given⟩ := gives 9 _ (roomy_of_all (by cbv)) back
  -- before that it has called the first function, and nothing was told before
  have silent : constructing.Told constructed [] (run 2 constructing) := Told.nothing.run_quiet (by cbv)
  have calling : (run 2 constructing).control = .call (constructed.settling .fulfill) .undefined [.small 5] := by cbv
  have calls : (run 2 constructing).Tells constructed .fulfill (.small 5) (run 3 constructing) :=
    run_succ' 2 constructing ▸ .call .fulfill (by cbv) calling
  have throws : (run 9 constructing).Tells constructed .reject (.small 6) (run 10 constructing) :=
    run_succ' 9 constructing ▸ .thrown (by cbv) back.stack back.control
  have spoken : constructing.Told constructed [(.fulfill, .small 5)] (run (3 + 6) constructing) := by
    rw [run_add]
    exact Told.run_quiet (silent.tells calls) (by cbv)
  obtain ⟨-, -, -, -, first⟩ := decides _ _ l₂ silent calls.holds hl₂ (slots _ hl₂ (by cbv))
  obtain ⟨-, -, -, -, next⟩ := decides _ _ l₉ spoken throws.holds hl₉ (slots _ hl₉ (by cbv))
  obtain ⟨stage, -, -, -, decided, -⟩ := first _ _ _ calls
  obtain ⟨stage', -, -, -, -, refused⟩ := next _ _ _ throws
  obtain ⟨heard, -, hears⟩ := decided rfl
  exact ⟨l, _, d, heard, stage', l₉, hl, promise, back, given, silent, hears, spoken, refused (by simp)⟩

end PromiseLoop.Machine

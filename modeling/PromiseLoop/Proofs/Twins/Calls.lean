import PromiseLoop.Proofs.Twins.Basic

/-!
# Calls of twin machines

Whatever function is called in both of two twin machines, they stay twins.  Where a promise is resolved
with another one of its loop, the value has answered by the time that the resolution waits for it; no other
call ends like that.  Only the call of a one-shot function uses its pair up.

## Results

* `Twins.settle`: a promise is fulfilled with nothing that might have been asked.
* `Twins.resolveLocked`, `Twins.withLock`: the calls after which a value may have answered.
* `Twins.enterResolver`, `Twins.enter`: functions that settle promises, and functions of any kind.
-/

namespace PromiseLoop

/-- The pairs after the function of a guard has been called. -/
def Guard.spend (g : Guard) (pairs : List Pair) : List Pair :=
  match g with
  | .flag n => pairs.modify n fun pair => { pair with fired := true }
  | .lock => pairs

theorem prefix_modify {α : Type} (f : α → α) {xs ys : List α} (h : xs <+: ys) (n : Nat) :
    xs.modify n f <+: ys.modify n f := by
  obtain ⟨more, rfl⟩ := h
  induction xs generalizing n with
  | nil => simp
  | cons x xs ih =>
    cases n with
    | zero => simp
    | succ n => simpa using ih n

theorem Guard.prefix_spend (g : Guard) {past pairs : List Pair} (h : past <+: pairs) :
    g.spend past <+: g.spend pairs := by
  cases g with
  | flag n => exact prefix_modify _ h n
  | lock => exact h

namespace Machine

variable {gap : Gap} {past : List Pair} {m m' : Machine}

namespace Twins

-- ---------------------------------------------------------------------------
-- Members and bridges
-- ---------------------------------------------------------------------------

theorem read (h : Twins gap past m m') (o : ObjectId) (key : String) :
    Twins gap past (m.read o key) (m'.read o key) := by
  unfold Machine.read
  rw [h.properties]
  split
  · exact h.signal _
  · exact h.signal _
  · exact (h.push (by trivial)).willCall _ _ _

theorem callValue (h : Twins gap past m m') (f this : Value) (arguments : List Value) :
    Twins gap past (m.callValue f this arguments) (m'.callValue f this arguments) := by
  unfold Machine.callValue
  split
  · exact h.willCall _ _ _
  · exact h.drop_signal _ _

theorem note (h : Twins gap past m m') (k : LoopId) {e : Event} (unsettled : ∀ i s v, e ≠ .settled i s v) :
    Twins gap past (m.modifyLoop k fun l => l.note e) (m'.modifyLoop k fun l => l.note e) :=
  h.modifyLoop k (fun _ _ alike => alike.note unsettled) fun _ => rfl

theorem invoke (h : Twins gap past m m') (k : LoopId) (f this : Value) (arguments : List Value) :
    Twins gap past (m.invoke k f this arguments) (m'.invoke k f this arguments) := by
  have noted := h.note k (e := .invoked f) fun _ _ _ => by simp
  unfold Machine.invoke
  dsimp only
  have plan : (((m'.modifyLoop k fun l => l.note (.invoked f)).loop? k).map fun l => l.bridge.callPlan f) =
      ((m.modifyLoop k fun l => l.note (.invoked f)).loop? k).map fun l => l.bridge.callPlan f := by
    rcases noted.found k with ⟨hl, hl'⟩ | ⟨l, l', hl, hl', alike⟩
    · rw [hl, hl']
    · rw [hl, hl', Option.map_some, Option.map_some, alike.bridge]
  rw [plan]
  split
  · exact (noted.push (by trivial)).read _ _
  · exact noted.callValue _ _ _

theorem askThen (h : Twins gap past m m') (v : Value) (plan : ProbePlan) :
    Twins gap past (m.askThen v plan) (m'.askThen v plan) := by
  unfold Machine.askThen
  split
  · exact (h.push (by trivial)).read _ _
  · exact h.signal _
  · exact h.signal _

theorem probe (h : Twins gap past m m') (k : LoopId) (v : Value) :
    Twins gap past (m.probe k v) (m'.probe k v) := by
  unfold Machine.probe
  rcases h.found k with ⟨hl, hl'⟩ | ⟨l, l', hl, hl', alike⟩
  · rw [hl, hl']
    exact h.signal _
  · rw [hl, hl']
    dsimp only
    rw [alike.ownPromise?, alike.bridge]
    split
    · exact h.signal _
    · split
      · exact (h.setLoop hl (alike.note fun _ _ _ => by simp) rfl).askThen _ _
      · exact h.signal _

-- ---------------------------------------------------------------------------
-- Promises
-- ---------------------------------------------------------------------------

theorem settle (h : Twins gap past m m') (p : Promise) {s : State} {v : Value} (spent : List Value)
    (asks : s = .fulfilled → (Frame.resolving p v).Asks ∨ m.loop? p.home = none) :
    Twins gap past (m.settle p s v spent) (m'.settle p s v spent) := by
  unfold Machine.settle
  rcases h.found p.home with ⟨hl, hl'⟩ | ⟨l, l', hl, hl', alike⟩
  · rw [hl, hl']
    exact h.drop_signal _ _
  · rw [hl, hl']
    have flat : s = .fulfilled → l.ownPromise? v = none := by
      intro hs
      have other := (asks hs).resolve_right (by rw [hl]; simp)
      rw [Loop.ownPromise?, Option.filter_eq_none_iff]
      intro q hq
      have own : v = .promise q := by cases v <;> cases hq; rfl
      simpa [Loop.owns, h.placed _ l hl] using other q own
    obtain ⟨dropped, settled⟩ := alike.settle p.id flat
    dsimp only
    rw [dropped]
    exact (h.setLoop hl settled (l.id_settle p.id s v)).drop_signal _ _

theorem reject_settle (h : Twins gap past m m') (p : Promise) (v : Value) (spent : List Value) :
    Twins gap past (m.settle p .rejected v spent) (m'.settle p .rejected v spent) :=
  h.settle p spent fun hs => by cases hs

/-- A value that is a promise of the same loop answers at once. -/
theorem resolveLocked (h : Twins gap past m m') (p : Promise) (v : Value) :
    Ends gap past (m.resolveLocked p v) (m'.resolveLocked p v) := by
  unfold Machine.resolveLocked
  split
  · exact (h.reject_settle p _ _).ends
  · by_cases asks : (Frame.resolving p v).Asks
    · exact ((h.push asks).probe _ _).ends
    · -- the frame must not be looked at before the answer is there
      have pushed : Paired gap past (m.push (.resolving p v)) (m'.push (.resolving p v)) :=
        h.toPaired.of_eq (by rw [h.same]; rfl) rfl rfl rfl
      have answered (s : Signal) (found : (∃ t, s = .value t) ∨ m.loop? p.home = none) :
          Ends gap past ((m.push (.resolving p v)).signal s) ((m'.push (.resolving p v)).signal s) :=
        ⟨pushed.of_eq (by rw [pushed.same]; rfl) rfl rfl rfl, h.asks, fun f rest hs => by
          cases hs
          exact .inr ⟨p, v, s, rfl, rfl, found⟩⟩
      unfold Machine.probe
      rcases h.found p.home with ⟨hl, hl'⟩ | ⟨l, l', hl, hl', alike⟩
      · rw [show (m.push (.resolving p v)).loop? p.home = none from hl,
          show (m'.push (.resolving p v)).loop? p.home = none from hl']
        exact answered _ (.inr hl)
      · rw [show (m.push (.resolving p v)).loop? p.home = some l from hl,
          show (m'.push (.resolving p v)).loop? p.home = some l' from hl']
        simp only [Frame.Asks, ne_eq, not_forall, not_not] at asks
        obtain ⟨q, rfl, home⟩ := asks
        have own : (l.ownPromise? (.promise q)).isSome = true := by
          simp [Loop.ownPromise?, Value.asPromise?, Loop.owns, h.placed _ l hl, home]
        dsimp only
        rw [alike.ownPromise?, own, if_pos rfl, if_pos rfl]
        exact answered _ (.inl ⟨_, rfl⟩)

theorem withLock (h : Twins gap past m m') (k : LoopId) (p : Promise) (v : Value)
    {act : Machine → Machine} (acts : ∀ n n', Twins gap past n n' → Ends gap past (act n) (act n')) :
    Ends gap past (m.withLock k p v act) (m'.withLock k p v act) := by
  unfold Machine.withLock
  rcases h.found k with ⟨hl, hl'⟩ | ⟨l, l', hl, hl', alike⟩
  · rw [hl, hl']
    exact (h.drop_signal _ _).ends
  · rw [hl, hl']
    dsimp only
    rcases alike.lock p with ⟨f, hk, hk'⟩ | ⟨accepted, x, x', hk, hk', taken⟩
    · rw [hk, hk']
      exact (h.drop_signal _ _).ends
    · rw [hk, hk']
      have locked := h.setLoop hl taken (Loop.id_lock hk)
      cases accepted with
      | false => exact (locked.drop_signal _ _).ends
      | true => exact acts _ _ locked

theorem resolve (h : Twins gap past m m') (k : LoopId) (p : Promise) (v : Value) :
    Ends gap past (m.resolve k p v) (m'.resolve k p v) :=
  h.withLock k p v fun _ _ h => h.resolveLocked p v

theorem reject (h : Twins gap past m m') (k : LoopId) (p : Promise) (v : Value) :
    Ends gap past (m.reject k p v) (m'.reject k p v) :=
  h.withLock k p v fun _ _ h => (h.reject_settle p v []).ends

theorem callback (h : Twins gap past m m') (name : String) (arguments : List Value) :
    Twins gap past (m.callback name arguments) (m'.callback name arguments) := by
  unfold Machine.callback
  rw [h.vars]
  split
  · exact (h.push (by trivial)).willCall _ _ _
  · exact h

theorem tracker (h : Twins gap past m m') (k : LoopId) :
    (m'.loop? k).map Loop.tracker = (m.loop? k).map Loop.tracker := by
  rcases h.found k with ⟨hl, hl'⟩ | ⟨l, l', hl, hl', alike⟩
  · rw [hl, hl']
  · rw [hl, hl', Option.map_some, Option.map_some, alike.tracker]

theorem tellUnhandled (h : Twins gap past m m') (k : LoopId) (id : PromiseId) (reason : Value) :
    Twins gap past (m.tellUnhandled k id reason) (m'.tellUnhandled k id reason) := by
  unfold Machine.tellUnhandled
  rw [h.tracker k]
  split
  · exact h.traceEntry _
  · exact h.callback _ _
  · exact h

theorem tellHandled (h : Twins gap past m m') (k : LoopId) (id : PromiseId) :
    Twins gap past (m.tellHandled k id) (m'.tellHandled k id) := by
  unfold Machine.tellHandled
  rw [h.tracker k]
  split
  · exact h.traceEntry _
  · exact h.callback _ _
  · exact h

theorem attach (h : Twins gap past m m') (k : LoopId) (p : Promise) (f g : Option Value)
    (unused : List Value) : Twins gap past (m.attach k p f g unused) (m'.attach k p f g unused) := by
  unfold Machine.attach
  rcases h.found k with ⟨hl, hl'⟩ | ⟨l, l', hl, hl', alike⟩
  · rw [hl, hl']
    exact h.drop_signal _ _
  · rw [hl, hl']
    dsimp only
    rcases alike.attach p f g with ⟨e, ha, ha'⟩ | ⟨a, a', ha, ha', attached, id, derived, job, late, dropped⟩
    · rw [ha, ha']
      exact h.drop_signal _ _
    · rw [ha, ha']
      dsimp only
      rw [derived, job, late, dropped]
      split
      · have pushed := ((h.setLoop hl attached id).push (f := .attaching a.derived a.job) trivial).signal .done
        exact (pushed.drop _).tellHandled _ _
      · exact (h.setLoop hl (attached.endAttach _ _) (by rw [Loop.id_endAttach, id])).drop_signal _ _

theorem thenMethod (h : Twins gap past m m') (home : LoopId) (this : Value)
    (arguments unused : List Value) :
    Twins gap past (m.thenMethod home this arguments unused) (m'.thenMethod home this arguments unused) := by
  unfold Machine.thenMethod
  rcases h.found home with ⟨hl, hl'⟩ | ⟨l, l', hl, hl', alike⟩
  · rw [hl, hl']
    exact h.drop_signal _ _
  · rw [hl, hl']
    dsimp only
    rw [alike.ownPromise?, alike.bridge, h.properties]
    split
    · exact h.drop_signal _ _
    · exact (h.push (by trivial)).attach _ _ _ _ _

-- ---------------------------------------------------------------------------
-- Entering functions
-- ---------------------------------------------------------------------------

/-- Calling a one-shot function uses its pair up in both machines. -/
theorem claim (h : Twins gap past m m') (r : Resolver) :
    (∃ f, m.claim r = .error f ∧ m'.claim r = .error f) ∨
      ∃ accepted n n', m.claim r = .ok (accepted, n) ∧ m'.claim r = .ok (accepted, n') ∧
        Twins gap (r.guard.spend past) n n' := by
  unfold Machine.claim Guard.spend
  cases r.guard with
  | flag i =>
    refine .inr ⟨_, _, _, rfl, ?_, h.withPairs (prefix_modify _ h.pairs i)⟩
    dsimp only
    rw [h.samePairs]
  | lock =>
    dsimp only
    rcases h.found r.promise.home with ⟨hl, hl'⟩ | ⟨l, l', hl, hl', alike⟩
    · rw [hl, hl']
      exact .inr ⟨_, _, _, rfl, rfl, h⟩
    · rw [hl, hl']
      dsimp only
      rcases alike.lock r.promise with ⟨f, hk, hk'⟩ | ⟨accepted, x, x', hk, hk', taken⟩
      · rw [hk, hk']
        exact .inl ⟨f, rfl, rfl⟩
      · rw [hk, hk']
        exact .inr ⟨accepted, _, _, rfl, rfl, h.setLoop hl taken (Loop.id_lock hk)⟩

end Twins

/-- After a call the pair of the function may have been used up. -/
def Spends (gap : Gap) (past : List Pair) (g : Option Guard) (m m' : Machine) : Prop :=
  ∃ past', (past' = past ∨ ∃ x, g = some x ∧ past' = x.spend past) ∧ Ends gap past' m m'

theorem Ends.spends (h : Ends gap past m m') (g : Option Guard) : Spends gap past g m m' :=
  ⟨past, .inl rfl, h⟩

theorem Spends.of_none (h : Spends gap past none m m') : Ends gap past m m' := by
  obtain ⟨past', rfl | ⟨x, hx, -⟩, ends⟩ := h
  · exact ends
  · cases hx

namespace Twins

/-- A function that settles a promise does so in both machines, or in neither. -/
theorem enterResolver (h : Twins gap past m m') (r : Resolver) (this : Value) (arguments : List Value) :
    Spends gap past (some r.guard) (m.enterResolver r this arguments) (m'.enterResolver r this arguments) := by
  unfold Machine.enterResolver
  have gone : (m'.loop? r.promise.home).isNone = (m.loop? r.promise.home).isNone := by
    rcases h.found r.promise.home with ⟨hl, hl'⟩ | ⟨l, l', hl, hl', -⟩
    · rw [hl, hl']
    · rw [hl, hl']
      rfl
  rw [gone]
  split
  · exact (h.drop_signal _ _).ends.spends _
  · rcases h.claim r with ⟨f, hc, hc'⟩ | ⟨accepted, n, n', hc, hc', claimed⟩
    · rw [hc, hc']
      exact (h.drop_signal _ _).ends.spends _
    · rw [hc, hc']
      refine ⟨_, .inr ⟨_, rfl, rfl⟩, ?_⟩
      cases accepted with
      | false => exact (claimed.drop_signal _ _).ends
      | true =>
        have pushed := claimed.push (f := .give .undefined [this]) trivial
        have begun := (pushed.drop_signal (arguments.drop 1) (.value (arguments.headD .undefined))).signal .done
        dsimp only
        cases r.side with
        | fulfill => exact begun.resolveLocked _ _
        | reject => exact (begun.reject_settle _ _ _).ends

theorem enterRoutine (h : Twins gap past m m') (number : Nat) (name : String) (this : Value)
    (arguments : List Value) :
    Twins gap past (m.enterRoutine number name this arguments) (m'.enterRoutine number name this arguments) := by
  unfold Machine.enterRoutine
  rw [h.routines]
  split
  · exact h.drop_signal _ _
  · rename_i r _
    have pushed := h.push (f := .call this arguments r.quiet) trivial
    have shown : (m'.push (.call this arguments r.quiet)).shown = (m.push (.call this arguments r.quiet)).shown :=
      funext pushed.shown
    dsimp only
    rw [shown]
    exact ((pushed.traceEntry _).push (by trivial)).signal _

end Twins

end Machine

/-- The guard that a call of a function looks at. -/
def Callable.guard? : Callable → Option Guard
  | .resolver r => some r.guard
  | _ => none

namespace Machine

theorem Twins.enter (h : Twins gap past m m') (f : Callable) (this : Value) (arguments : List Value) :
    Spends gap past f.guard? (m.enter f this arguments) (m'.enter f this arguments) := by
  cases f with
  | routine number name => exact (h.enterRoutine number name this arguments).ends.spends _
  | resolver r => exact h.enterResolver r this arguments
  | method home method =>
    cases method with
    | then_ => exact (h.thenMethod home this arguments []).ends.spends _
    | catch_ => exact (h.thenMethod home this _ _).ends.spends _

end Machine
end PromiseLoop

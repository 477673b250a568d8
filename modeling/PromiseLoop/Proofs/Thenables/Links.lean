import PromiseLoop.Proofs.Thenables.Adoptions
import PromiseLoop.Proofs.Trees.Drains

/-!
# Links of a chain

A chain of thenables is a list of objects.  The `then` of each of them resolves the promise that asks with
the next object, and the `then` of the last one with a value that is no object.  What the functions do
besides is up to the run, as long as they leave the loop alone and end.

The adoption of one link is followed through from one job to the next.  All that time the frame of the drain
stays where it is.

## Results

* `Machine.Unwinds`: what the links of a chain do in a run.
* `Machine.MeetsAt.link`: the job of one link.
-/

namespace PromiseLoop

/-- An object with the function that is its `then`. -/
structure Thenable where
  object : ObjectId
  call : Callable

/-- What an adoption lets go of in the end, where its `then` has resolved before it replied. -/
def Completion.answer : Completion → Value
  | returned v => v
  | thrown _ => .undefined

namespace Thenable

/-- The job by which a promise adopts an object. -/
def adoption (p : Promise) (x : Thenable) : Job := .adoption p (.object x.object) (.function x.call)

/-- What stands at the outer end of a chain whose last link gives `v`. -/
def outermost (v : Value) : List Thenable → Value
  | [] => v
  | x :: _ => .object x.object

end Thenable

/-- The loop when the `then` of a link has been called, whose adoption was all that waited. -/
def Loop.entered (l : Loop) (p : Promise) (x : Thenable) : Loop :=
  (l.took (x.adoption p) []).note (.invoked (.function x.call))

/-- The loop after a locked promise has been resolved with what stands at the outer end of a chain. -/
def Loop.offered (l : Loop) (p : Promise) (v : Value) : List Thenable → Loop
  | [] => l.settledAs p .fulfill v
  | x :: _ => (l.note (.probed (.object x.object))).enqueue (x.adoption p)

namespace Machine

variable {m n : Machine} {k : LoopId} {p : Promise} {v : Value} {l l' : Loop} {base stack stack' : List Frame}
  {c c' : Control} {i a b : Nat} {s : Scene} {x : Thenable} {links : List Thenable}

-- ---------------------------------------------------------------------------
-- Times of a run
-- ---------------------------------------------------------------------------

/-- At a time of its run a machine shows a loop, a stack and a control, whatever else it has then, and until
then some frames have stayed where they are. -/
structure MeetsAt (m : Machine) (k : LoopId) (base : List Frame) (a : Nat) (l : Loop) (stack : List Frame)
    (c : Control) : Prop where
  shown : ∃ vars names, (run a m).Shows k ⟨l, (run a m).pairs, vars, names, stack, c⟩
  lasts : ∀ i ≤ a, base <:+ (run i m).stack

theorem MeetsAt.stack_eq (h : m.MeetsAt k base a l stack c) : (run a m).stack = stack := by
  obtain ⟨_, _, shown⟩ := h.shown
  exact shown.stack

theorem MeetsAt.control_eq (h : m.MeetsAt k base a l stack c) : (run a m).control = c := by
  obtain ⟨_, _, shown⟩ := h.shown
  exact shown.control

/-- The loop at the time: only its releases may differ. -/
theorem MeetsAt.exists_loop (h : m.MeetsAt k base a l stack c) : ∃ l', (run a m).loop? k = some l' ∧
    l'.history = l.history ∧ l'.heap = l.heap ∧ l'.microtasks = l.microtasks := by
  obtain ⟨_, _, shown⟩ := h.shown
  obtain ⟨releases, hl⟩ := shown.loop
  exact ⟨_, hl, rfl, rfl, rfl⟩

/-- After finitely many removals there is nothing left to remove. -/
theorem MeetsAt.cleared (h : m.MeetsAt k base a l stack c) : ∃ b, a ≤ b ∧ m.MeetsAt k base b l stack c ∧
    (run b m).orphan? = none ∧ (run b m).pairs = (run a m).pairs := by
  obtain ⟨⟨vars, names, shown⟩, lasts⟩ := h
  obtain ⟨d, cleared, settled, still⟩ := shown.exists_cleared
  rw [← run_add] at cleared settled
  refine ⟨a + d, Nat.le_add_right a d, ⟨⟨vars, names, cleared.pairs ▸ cleared⟩, fun i hi => ?_⟩, settled,
    cleared.pairs⟩
  rcases Nat.lt_or_ge a i with late | early
  · obtain ⟨e, rfl⟩ := Nat.exists_eq_add_of_le (Nat.le_of_lt late)
    rw [run_add, still e (by omega)]
    exact lasts a (Nat.le_refl a)
  · exact lasts i early

/-- A machine takes a step, when nothing is left to remove. -/
theorem MeetsAt.step (h : m.MeetsAt k base a l stack c) (above : base <:+ stack')
    (does : ∀ (n : Machine) vars names, n.Shows k ⟨l, (run a m).pairs, vars, names, stack, c⟩ →
      n.orphan? = none → ∃ pairs vars names, n.step.Shows k ⟨l', pairs, vars, names, stack', c'⟩) :
    ∃ b, a < b ∧ m.MeetsAt k base b l' stack' c' := by
  obtain ⟨b, later, ⟨⟨vars, names, shown⟩, lasts⟩, settled, pairs⟩ := h.cleared
  obtain ⟨pairs', vars', names', stepped⟩ := does _ vars names (pairs ▸ shown) settled
  rw [← run_succ'] at stepped
  refine ⟨b + 1, by omega, ⟨vars', names', stepped.pairs ▸ stepped⟩, fun i hi => ?_⟩
  rcases Nat.lt_or_eq_of_le hi with before | rfl
  · exact lasts i (Nat.le_of_lt_succ before)
  · rw [stepped.stack]
    exact above

/-- The uppermost frame goes on. -/
theorem MeetsAt.resume {f : Frame} {t : Signal} (h : m.MeetsAt k base a l (f :: stack) (.signal t))
    (above : base <:+ stack')
    (does : ∀ (n : Machine) vars names,
      n.Shows k ⟨l, (run a m).pairs, vars, names, stack, .signal .done⟩ →
        ∃ pairs vars names, (n.resume f t).Shows k ⟨l', pairs, vars, names, stack', c'⟩) :
    ∃ b, a < b ∧ m.MeetsAt k base b l' stack' c' :=
  h.step above fun n vars names hn settled => by
    rw [step_of_signal settled hn.control hn.stack]
    exact does _ vars names ⟨hn.placed, hn.named, hn.loop, hn.pairs, hn.vars, hn.names, rfl, rfl⟩

/-- For some steps some frames stay where they are, and then a loop is as it was, up to releases, and has a
name. -/
structure Leaves (m : Machine) (k : LoopId) (frames : List Frame) (d : Nat) : Prop where
  lasts : ∀ i ≤ d, frames <:+ (run i m).stack
  loop : ∃ releases, (run d m).loop? k = (m.loop? k).map fun l => { l with releases }
  named : ((run d m).names.any fun e => e.2 = k) = true

theorem MeetsAt.leaves (h : m.MeetsAt k base a l stack c) (hm : Reachable m) {frames : List Frame} {d : Nat}
    (leaves : (run a m).Leaves k frames d) (above : base <:+ frames) (hs : (run (a + d) m).stack = stack')
    (hc : (run (a + d) m).control = c') : m.MeetsAt k base (a + d) l stack' c' := by
  obtain ⟨⟨vars, names, shown⟩, lasts⟩ := h
  obtain ⟨releases, hl⟩ := shown.loop
  obtain ⟨releases', loop⟩ := leaves.loop
  refine ⟨⟨_, _, (hm.run _).placed, ?_, ⟨releases', ?_⟩, rfl, rfl, rfl, hs, hc⟩, fun i hi => ?_⟩
  · rw [run_add]
    exact leaves.named
  · rw [run_add, loop, hl]
    rfl
  · rcases Nat.lt_or_ge a i with late | early
    · obtain ⟨e, rfl⟩ := Nat.exists_eq_add_of_le (Nat.le_of_lt late)
      rw [run_add]
      exact above.trans (leaves.lasts e (by omega))
    · exact lasts i early

-- ---------------------------------------------------------------------------
-- What the links do
-- ---------------------------------------------------------------------------

/-- Whether an object has just been asked for its `then`, above some frames: the answer is there, or a getter
has been called. -/
inductive IsAsking (p : Promise) (o : ObjectId) (base : List Frame) (m : Machine) : Prop
  | datum (v : Value) (hs : m.stack = asking p o ++ base) (hc : m.control = .signal (.value v))
  | getter (g : Callable) (hs : m.stack = .hold [.function g] :: (asking p o ++ base))
    (hc : m.control = .call g (.object o) [])

/-- Throughout a run, the links of a chain do what makes them one, and leave the loop and its name alone. -/
structure Unwinds (k : LoopId) (p : Promise) (chain : List Thenable) (v : Value) (m : Machine) : Prop where
  /-- An object that is asked for its `then` comes to give it. -/
  answers : ∀ x ∈ chain, ∀ a base, IsAsking p x.object base (run a m) → ∃ d,
    (run a m).Leaves k (asking p x.object ++ base) d ∧
      (run (a + d) m).stack = asking p x.object ++ base ∧
      (run (a + d) m).control = .signal (.value (.function x.call))
  /-- A `then` that is called comes to call the function that resolves, with what is next in the chain.  It
  has not called any of its functions before, and when the call has returned, the `then` comes to an end. -/
  tells : ∀ outer x inner, chain = outer ++ x :: inner → ∀ a g base,
    (run a m).control = .call x.call (.object x.object)
      [.function (p.oneShot g .fulfill), .function (p.oneShot g .reject)] →
    (run a m).stack = .adopting p (.function (p.oneShot g .reject)) (.function x.call) :: base →
    ∃ d above this, (run a m).Leaves k (run a m).stack d ∧
      (run (a + d) m).control = .call (p.oneShot g .fulfill) this [Thenable.outermost v inner] ∧
      (run (a + d) m).stack = above ++ (run a m).stack ∧
      (run (a + d) m).pairs[g]? = some { promise := p } ∧
      ∀ b, a + d ≤ b → (run b m).stack = above ++ (run a m).stack →
        (run b m).control = .signal (.value .undefined) → ∃ e c,
          (run b m).Leaves k (run a m).stack e ∧ (run (b + e) m).stack = (run a m).stack ∧
            (run (b + e) m).control = .signal (Completion.signal c)

-- ---------------------------------------------------------------------------
-- Resolving with the next link
-- ---------------------------------------------------------------------------

/-- Reading a member of an object leaves everything else as it is. -/
theorem Shows.read (h : m.Shows k s) (o : ObjectId) (hs : s.stack = asking p o ++ base) :
    IsAsking p o base (m.read o "then") ∧ ∃ stack c,
      (m.read o "then").Shows k { s with stack, control := c } := by
  unfold Machine.read
  split
  · exact ⟨.datum _ (h.stack.trans hs) rfl, _, _, h.signal _⟩
  · exact ⟨.datum _ (h.stack.trans hs) rfl, _, _, h.signal _⟩
  · rename_i g _
    refine ⟨.getter g ?_ rfl, _, _, (h.push (.hold [.function g])).willCall g (.object o) []⟩
    exact congrArg (Frame.hold [.function g] :: ·) (h.stack.trans hs)

/-- A promise that is resolved with an object asks it for its `then`. -/
theorem Shows.resolveLocked_object (h : m.Shows k s) (home : p.home = k) (native : s.loop.bridge = .native)
    (o : ObjectId) : IsAsking p o s.stack (m.resolveLocked p (.object o)) ∧ ∃ stack c,
      (m.resolveLocked p (.object o)).Shows k
        { s with loop := s.loop.note (.probed (.object o)), stack, control := c } := by
  subst home
  obtain ⟨releases, hl⟩ := h.loop
  rw [Machine.resolveLocked_object (l := { s.loop with releases }) hl native o]
  have set := h.setLoop (l := s.loop.note (.probed (.object o))) h.id_loop releases
  have asks : ({ m.setLoop (Loop.note { s.loop with releases } (.probed (.object o))) with
      stack := asking p o ++ m.stack } : Machine).Shows p.home
      { s with loop := s.loop.note (.probed (.object o)), stack := asking p o ++ m.stack } :=
    ⟨set.placed, set.named, set.loop, set.pairs, set.vars, set.names, rfl, set.control⟩
  rw [← h.stack]
  exact asks.read o rfl

/-- At a time of its run a machine resolves a locked promise. -/
structure ResolvesAt (m : Machine) (k : LoopId) (base : List Frame) (a : Nat) (l : Loop) (stack : List Frame)
    (p : Promise) (v : Value) : Prop where
  does : ∃ (n : Machine) (pairs : List Pair) (vars : Variables) (names : List (String × LoopId)) (c : Control),
    run a m = n.resolveLocked p v ∧ n.Shows k ⟨l, pairs, vars, names, stack, c⟩
  lasts : ∀ i < a, base <:+ (run i m).stack

/-- A promise that is resolved with a value that is no object is fulfilled. -/
theorem ResolvesAt.settled (h : m.ResolvesAt k base a l stack p v) (home : p.home = k)
    (native : l.bridge = .native) (flat : v.IsFlat k) (above : base <:+ stack) :
    ∃ b, a < b ∧ m.MeetsAt k base b (l.settledAs p .fulfill v) stack (.signal .done) := by
  obtain ⟨⟨n, pairs, vars, names, c, resolves, shown⟩, lasts⟩ := h
  have probed := shown.resolveLocked_flat home native flat
  rw [← resolves] at probed
  have meets : m.MeetsAt k base a (l.asked v) (.resolving p v :: stack) (.signal .done) := by
    refine ⟨⟨_, _, probed.pairs ▸ probed⟩, fun i hi => ?_⟩
    rcases Nat.lt_or_eq_of_le hi with before | rfl
    · exact lasts i before
    · rw [probed.stack]
      exact above.trans (List.suffix_cons _ _)
  exact meets.resume above fun n vars names hn => ⟨_, _, _, hn.settle home .fulfilled v _⟩

/-- A promise that is resolved with an object asks it for its `then`, there and then. -/
theorem ResolvesAt.asks {o : ObjectId} (h : m.ResolvesAt k base a l stack p (.object o)) (home : p.home = k)
    (native : l.bridge = .native) (above : base <:+ stack) : IsAsking p o stack (run a m) ∧ ∃ stack' c,
      m.MeetsAt k base a (l.note (.probed (.object o))) stack' c := by
  obtain ⟨⟨n, pairs, vars, names, c, resolves, shown⟩, lasts⟩ := h
  obtain ⟨asks, stack', c', probed⟩ := shown.resolveLocked_object home native o
  rw [← resolves] at asks probed
  refine ⟨asks, stack', c', ⟨_, _, probed.pairs ▸ probed⟩, fun i hi => ?_⟩
  rcases Nat.lt_or_eq_of_le hi with before | rfl
  · exact lasts i before
  · have inside : base <:+ asking p o ++ stack := above.trans (List.suffix_append _ _)
    cases asks with
    | datum v hs hc => exact hs ▸ inside
    | getter g hs hc => exact hs ▸ inside.trans (List.suffix_cons _ _)

/-- A promise that is resolved with a link asks it for its `then`, and then queues its adoption. -/
theorem ResolvesAt.queued (h : m.ResolvesAt k base a l stack p (.object x.object)) (hm : Reachable m)
    (home : p.home = k) (native : l.bridge = .native) {chain : List Thenable} (unwinds : m.Unwinds k p chain v)
    (mem : x ∈ chain) (above : base <:+ stack) : ∃ b, a < b ∧ m.MeetsAt k base b
      ((l.note (.probed (.object x.object))).enqueue (x.adoption p)) stack (.signal .done) := by
  obtain ⟨asks, stack', c', meets⟩ := h.asks home native above
  obtain ⟨d, leaves, hs, hc⟩ := unwinds.answers x mem a stack asks
  have answered := meets.leaves hm leaves (above.trans (List.suffix_append _ _)) hs hc
  -- the answer is a function, which is called in a job of its own
  have still : base <:+ .resolving p (.object x.object) :: stack := above.trans (List.suffix_cons _ _)
  obtain ⟨b₁, later₁, kept⟩ := answered.resume still fun n vars names hn =>
    ⟨_, _, _, hn.signal (.value (.function x.call))⟩
  obtain ⟨b₂, later₂, queued⟩ := kept.resume above fun n vars names hn => by
    have added := hn.modifyLoop (f := fun l => l.enqueue (x.adoption p))
      (l := (l.note (.probed (.object x.object))).enqueue (x.adoption p)) hn.id_loop
      fun releases => ⟨releases, rfl⟩
    rw [← home] at added ⊢
    exact ⟨_, _, _, added.drop_signal [.promise p] .done⟩
  exact ⟨b₂, by omega, queued⟩

/-- A promise that is resolved with what stands at the outer end of a chain settles, or queues an adoption. -/
theorem ResolvesAt.offered (h : m.ResolvesAt k base a l stack p (Thenable.outermost v links)) (hm : Reachable m)
    (home : p.home = k) (native : l.bridge = .native) (flat : v.IsFlat k) {chain : List Thenable}
    (unwinds : m.Unwinds k p chain v) (sub : links ⊆ chain) (above : base <:+ stack) :
    ∃ b, a < b ∧ m.MeetsAt k base b (l.offered p v links) stack (.signal .done) := by
  cases links with
  | nil => exact ResolvesAt.settled h home native flat above
  | cons x links => exact ResolvesAt.queued h hm home native unwinds (sub (List.mem_cons_self ..)) above

-- ---------------------------------------------------------------------------
-- The job of a link
-- ---------------------------------------------------------------------------

/-- A pair that has been used stays used. -/
theorem spent_run (hm : Reachable m) {g : Nat} (used : m.pairs[g]? = some { promise := p, fired := true })
    (d : Nat) : (run d m).pairs[g]? = some { promise := p, fired := true } := by
  have kept {earlier later : List Pair} (found : earlier[g]? = some { promise := p, fired := true })
      (grown : earlier <+: later) : later[g]? = some { promise := p, fired := true } := by
    obtain ⟨more, rfl⟩ := grown
    rw [List.getElem?_append_left (List.getElem?_eq_some_iff.mp found).1, found]
  induction d with
  | zero => exact used
  | succ d ih =>
    rw [run_succ']
    rcases (hm.run d).pairs_step with grown | ⟨guard, -, grown⟩
    · exact kept ih grown
    · refine kept ?_ grown
      cases guard with
      | lock => exact ih
      | flag j => by_cases hj : j = g <;> simp [Guard.spend, hj, ih]

/-- What a `then` gives or throws does not matter when it has resolved before. -/
theorem Shows.resumeAdopting {g : Nat} (h : m.Shows k s) (home : p.home = k)
    (used : s.pairs[g]? = some { promise := p, fired := true }) (f : Callable) (c : Completion) : ∃ pairs,
      (m.resume (.adopting p (.function (p.oneShot g .reject)) (.function f)) c.signal).Shows k { s with
        pairs
        stack := .discard [.function (p.oneShot g .reject), .function f, .promise p] :: s.stack
        control := .signal (.value c.answer) } := by
  let n := m.push (.discard [.function (p.oneShot g .reject), .function f, .promise p])
  have pushed := h.push (.discard [.function (p.oneShot g .reject), .function f, .promise p])
  cases c with
  | returned v => exact ⟨_, pushed.signal (.value v)⟩
  | thrown v =>
    obtain ⟨releases, hl⟩ := pushed.loop
    let n' : Machine := { n with pairs := n.pairs.modify g fun pair => { pair with fired := true } }
    have claimed : n.claim { promise := p, guard := .flag g, side := .reject } = .ok (false, n') := by
      have late : n.pairs[g]? = some { promise := p, fired := true } := by
        rw [pushed.pairs]
        exact used
      unfold Machine.claim
      dsimp only
      rw [late]
      rfl
    have entered : m.resume (.adopting p (.function (p.oneShot g .reject)) (.function f))
        (Completion.signal (.thrown v)) = Machine.drop [v, .undefined] (n'.signal (.value .undefined)) := by
      show n.enterResolver { promise := p, guard := .flag g, side := .reject } .undefined [v] = _
      unfold Machine.enterResolver
      simp only [home, hl, Option.isNone_some, Bool.false_eq_true, if_false, claimed, n]
      rfl
    have shown : n'.Shows k { s with
        pairs := n'.pairs
        stack := .discard [.function (p.oneShot g .reject), .function f, .promise p] :: s.stack } :=
      ⟨pushed.placed, pushed.named, pushed.loop, rfl, pushed.vars, pushed.names, pushed.stack, pushed.control⟩
    exact ⟨_, entered ▸ shown.drop_signal _ _⟩

/-- The only job that waits calls the `then` of its link. -/
theorem MeetsAt.call {t : Signal} (h : m.MeetsAt k (.draining k :: base) a l (.draining k :: base) (.signal t))
    (calm : ∀ f, t ≠ .fault f) (entries : l.microtasks.entries = [x.adoption p]) : ∃ b g, a < b ∧
      m.MeetsAt k (.draining k :: base) b (l.entered p x)
        (.adopting p (.function (p.oneShot g .reject)) (.function x.call) :: .draining k :: base)
        (.call x.call (.object x.object)
          [.function (p.oneShot g .fulfill), .function (p.oneShot g .reject)]) := by
  suffices H : ∃ b, a < b ∧ m.MeetsAt k (.draining k :: base) b (l.entered p x) _ _ from
    H.imp fun b h => ⟨(run a m).pairs.length, h⟩
  refine h.resume (List.suffix_cons _ _) fun n vars names hn => ?_
  obtain ⟨n', resumed, taken⟩ := hn.resumeDraining calm (Loop.dequeue?_of_entries entries)
  rw [resumed]
  exact ⟨_, _, _, taken.startAdoption p (.object x.object) x.call⟩

/-- The `then` of a link resolves the promise with what is next in the chain. -/
theorem MeetsAt.tell {g : Nat} {this : Value} {above rest : List Frame}
    (h : m.MeetsAt k base a l (above ++ rest) (.call (p.oneShot g .fulfill) this [v]))
    (home : p.home = k) (unused : (run a m).pairs[g]? = some { promise := p }) : ∃ b, a < b ∧
      m.ResolvesAt k base b l (.give .undefined [this] :: (above ++ rest)) p v ∧
      (run b m).pairs[g]? = some { promise := p, fired := true } := by
  obtain ⟨b, later, ⟨⟨vars, names, shown⟩, lasts⟩, settled, pairs⟩ := h.cleared
  obtain ⟨n, entered, given⟩ := (shown.signal .done).enter_oneShot home (pairs ▸ unused) .fulfill this v
  have step : run (b + 1) m = n.resolveLocked p v := by
    rw [run_succ', Machine.step, settled, shown.control]
    exact entered
  refine ⟨b + 1, by omega, ⟨⟨n, _, _, _, _, step, given⟩, fun i hi => lasts i (Nat.le_of_lt_succ hi)⟩, ?_⟩
  rw [step, pairs_resolveLocked, given.pairs]
  simp [pairs, unused]

/-- The job of a link, when nothing else waits: the promise is resolved with what is next in the chain. -/
theorem MeetsAt.link {t : Signal} {outer inner : List Thenable}
    (h : m.MeetsAt k (.draining k :: base) a l (.draining k :: base) (.signal t)) (hm : Reachable m)
    (calm : ∀ f, t ≠ .fault f) (entries : l.microtasks.entries = [x.adoption p]) (home : p.home = k)
    (native : l.bridge = .native) (flat : v.IsFlat k) (unwinds : m.Unwinds k p (outer ++ x :: inner) v) :
    ∃ b, a < b ∧ m.MeetsAt k (.draining k :: base) b ((l.entered p x).offered p v inner)
      (.draining k :: base) (.signal .done) := by
  obtain ⟨b₁, g, later₁, called⟩ := h.call calm entries
  obtain ⟨d, above, this, leaves, hc, hs, unused, ends⟩ :=
    unwinds.tells outer x inner rfl b₁ g (.draining k :: base) called.control_eq called.stack_eq
  rw [called.stack_eq] at leaves hs ends
  have told := called.leaves hm leaves (List.suffix_cons _ _) hs hc
  obtain ⟨b₂, later₂, resolves, used⟩ := told.tell home unused
  have beneath : .draining k :: base <:+ above ++
      (.adopting p (.function (p.oneShot g .reject)) (.function x.call) :: .draining k :: base) :=
    (List.suffix_cons _ _).trans (List.suffix_append _ _)
  obtain ⟨b₃, later₃, offered⟩ := resolves.offered hm home (l := l.entered p x) native flat unwinds
    (fun y hy => List.mem_append_right _ (List.mem_cons_of_mem _ hy)) (beneath.trans (List.suffix_cons _ _))
  obtain ⟨b₄, later₄, given⟩ := offered.resume beneath fun n vars names hn =>
    ⟨_, _, _, hn.drop_signal [this] (.value .undefined)⟩
  obtain ⟨e, c, leaves', hs', hc'⟩ := ends b₄ (by omega) given.stack_eq given.control_eq
  have replied := given.leaves hm leaves' (List.suffix_cons _ _) hs' hc'
  have used' : (run (b₄ + e) m).pairs[g]? = some { promise := p, fired := true } := by
    obtain ⟨i, hi⟩ := Nat.exists_eq_add_of_le (show b₂ ≤ b₄ + e by omega)
    rw [hi, run_add]
    exact spent_run (hm.run b₂) used i
  -- whatever it is, the reply is let go
  obtain ⟨b₅, later₅, adopted⟩ := replied.resume (List.suffix_cons _ _) fun n vars names hn => by
    obtain ⟨pairs, resumed⟩ := hn.resumeAdopting home used' x.call c
    exact ⟨_, _, _, resumed⟩
  obtain ⟨b₆, later₆, ended⟩ := adopted.resume List.suffix_rfl fun n vars names hn =>
    ⟨_, _, _, hn.drop_signal _ .done⟩
  exact ⟨b₆, by omega, ended⟩

end Machine
end PromiseLoop

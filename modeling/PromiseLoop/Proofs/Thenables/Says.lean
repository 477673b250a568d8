import PromiseLoop.Proofs.Occasions.Accounts
import PromiseLoop.Proofs.Scenes.Jobs
import PromiseLoop.Proofs.Twins.Runs
import PromiseLoop.Proofs.Warrants.Runs

/-!
# What a promise is told through a pair

A thenable is called with two functions that belong together, and somebody has a *say* when one of them is
called, or when the call that they were made for throws.  Whoever has a say first decides; whatever is said
later is passed over.  Between the two, the pair remembers that it has been used, and the record of the
promise waits for what is said: it is locked and pending.

## Results

* `exists_enterResolver_of_said`: every say comes to a call of a function of the pair.
* `decides_of_said`, `silent_of_said`: what the first say does, and what every other one does.
* `Hears.pair`: after a run, a pair has been used exactly if something has been said.
-/

namespace PromiseLoop.Machine

open Relation

variable {m m' n : Machine} {k : LoopId} {l : Loop} {p : Promise} {i : Nat} {side : Side} {x : Value}
  {told : List (Side × Value)}

-- ---------------------------------------------------------------------------
-- Machines to whose loops nothing happens
-- ---------------------------------------------------------------------------

/-- Nothing has happened to the loops and the variables of a machine, and nothing was traced.  Values that
were let go may have released promises. -/
structure Untouched (m m' : Machine) : Prop where
  loops : ∀ k, OnlyReleases (m.loop? k) (m'.loop? k)
  vars : m'.vars = m.vars
  trace : m'.trace = m.trace

theorem untouched_of_eq (loops : m'.loops = m.loops) (vars : m'.vars = m.vars) (trace : m'.trace = m.trace) :
    m.Untouched m' :=
  ⟨fun k => ⟨[], by rw [loop?, loop?, loops]; simp⟩, vars, trace⟩

theorem Untouched.drop (h : m.Untouched m') (vs : List Value) : m.Untouched (Machine.drop vs m') where
  loops k := by
    obtain ⟨released, before⟩ := h.loops k
    obtain ⟨more, after⟩ := exists_loop?_drop vs m' k
    refine ⟨released ++ more, ?_⟩
    rw [after, before, Option.map_map]
    congr 1
    funext l
    simp
  vars := (vars_drop vs m').trans h.vars
  trace := (trace_drop vs m').trans h.trace

theorem Untouched.found (h : m.Untouched m') (hl : m.loop? k = some l) :
    ∃ releases, m'.loop? k = some { l with releases } := by
  obtain ⟨released, hl'⟩ := h.loops k
  exact ⟨_, by rw [hl', hl]; rfl⟩

-- ---------------------------------------------------------------------------
-- Pairs
-- ---------------------------------------------------------------------------

theorem pairs_read (m : Machine) (o : ObjectId) (key : String) : (m.read o key).pairs = m.pairs := by
  unfold read
  split <;> rfl

theorem pairs_probe (m : Machine) (k : LoopId) (v : Value) : (m.probe k v).pairs = m.pairs := by
  unfold probe askThen
  split
  · rfl
  · split
    · rfl
    · split
      · split
        · exact pairs_read _ _ _
        · rfl
        · rfl
      · rfl

theorem pairs_settle (m : Machine) (p : Promise) (s : State) (v : Value) (spent : List Value) :
    (m.settle p s v spent).pairs = m.pairs := by
  unfold settle
  split <;> exact pairs_drop _ _

theorem pairs_resolveLocked (m : Machine) (p : Promise) (v : Value) :
    (m.resolveLocked p v).pairs = m.pairs := by
  unfold resolveLocked
  split
  · exact pairs_settle _ _ _ _ _
  · exact pairs_probe _ _ _

-- ---------------------------------------------------------------------------
-- Having a say
-- ---------------------------------------------------------------------------

/-- What the next step tells the promise of a pair: a function of the pair is called, or the `then` that
has been called with the pair has thrown. -/
def said? (m : Machine) (i : Nat) : Option (Side × Value) :=
  match m.orphan?, m.control, m.stack with
  | none, .call (.resolver r) _ arguments, _ =>
    if r.guard = .flag i then some (r.side, arguments.headD .undefined) else none
  | none, .signal (.thrown x), .adopting _ (.function (.resolver r)) _ :: _ =>
    if r.guard = .flag i then some (.reject, x) else none
  | _, _, _ => none

/-- A machine in which a function of a pair has been called gives something to its caller.  Where the call
stands for a `then` that has thrown, nobody looks at it. -/
def GivesBack (m n : Machine) : Prop :=
  ((∃ f this arguments, m.control = .call f this arguments) ∧ n.stack = m.stack) ∨
    ((∃ x, m.control = .signal (.thrown x)) ∧ ∃ f vs rest, m.stack = f :: rest ∧ n.stack = .discard vs :: rest)

/-- The machine in which a say comes to a call of a function of the pair: nothing has happened yet. -/
structure Speaks (m n : Machine) : Prop where
  loops : n.loops = m.loops
  pairs : n.pairs = m.pairs
  vars : n.vars = m.vars
  trace : n.trace = m.trace
  stack : m.GivesBack n

/-- Every say comes to a call of a function of the pair, which somebody holds. -/
theorem exists_enterResolver_of_said (hm : Reachable m) (h : m.said? i = some (side, x)) :
    ∃ n q this arguments, m.Speaks n ∧ m.step = n.enterResolver ⟨q, .flag i, side⟩ this arguments ∧
      arguments.headD .undefined = x ∧ .function (.resolver ⟨q, .flag i, side⟩) ∈ m.held := by
  unfold said? at h
  split at h
  · rename_i r this arguments ho hc
    obtain ⟨q, guard, side⟩ := r
    split at h
    · rename_i hg
      cases hg
      obtain ⟨rfl, rfl⟩ := Prod.mk.inj (Option.some.inj h)
      refine ⟨m.signal .done, q, this, arguments, ⟨rfl, rfl, rfl, rfl, .inl ⟨⟨_, _, _, hc⟩, rfl⟩⟩, ?_, rfl, ?_⟩
      · rw [Machine.step, ho, hc]
        rfl
      · exact mem_held.mpr (.inl (by simp [hc, Control.held]))
    · cases h
  · rename_i y q r thenFunction rest ho hc hs
    split at h
    · rename_i hg
      obtain ⟨rfl, rfl⟩ := Prod.mk.inj (Option.some.inj h)
      have waits : .adopting q (.function (.resolver r)) thenFunction ∈ m.stack :=
        hs ▸ List.mem_cons_self ..
      obtain ⟨j, heq⟩ := hm.rejects waits
      cases heq
      cases hg
      let popped : Machine := { m with stack := rest, control := .signal .done }
      refine ⟨popped.push (.discard [.function (.resolver ⟨q, .flag i, .reject⟩), thenFunction, .promise q]), q,
        .undefined, [y], ⟨rfl, rfl, rfl, rfl, .inr ⟨⟨_, hc⟩, _, _, _, hs, rfl⟩⟩, ?_, rfl, ?_⟩
      · rw [step_of_signal ho hc hs]
        rfl
      · refine mem_held.mpr (.inr (.inr (.inl ?_)))
        exact List.mem_flatMap.mpr ⟨_, waits, by simp [Frame.held]⟩
    · cases h
  · cases h

/-- A function belongs to the promise of its pair. -/
theorem Reachable.promise_of_pair (hm : Reachable m) {r : Resolver} {pair : Pair}
    (hr : .function (.resolver r) ∈ m.held) (guard : r.guard = .flag i) (hp : m.pairs[i]? = some pair) :
    r.promise = pair.promise := by
  have mark : ⟨r.promise, some i⟩ ∈ marks m.held :=
    List.mem_filterMap.mpr ⟨_, hr, by rw [Value.mark?, guard]; rfl⟩
  obtain ⟨y, hy, same⟩ := (hm.warranted r.promise.home).fit r.promise i mark
  rw [hp] at hy
  rw [← same, Option.some.inj hy]

/-- The pairs after one of them has been used. -/
def spent (m : Machine) (i : Nat) : List Pair := m.pairs.modify i fun pair => { pair with fired := true }

/-- What the first say does: the resolution goes on with what was said, or the promise is rejected with
it. -/
def hear (m : Machine) (p : Promise) (side : Side) (x : Value) : Machine :=
  match side with
  | .fulfill => m.resolveLocked p x
  | .reject => m.settle p .rejected x []

theorem pairs_hear (m : Machine) (p : Promise) (side : Side) (x : Value) :
    (m.hear p side x).pairs = m.pairs := by
  cases side with
  | fulfill => exact pairs_resolveLocked m p x
  | reject => exact pairs_settle m p _ x []

/-- The first say decides. -/
theorem decides_of_said (hm : Reachable m) (hl : m.loop? p.home = some l)
    (pair : m.pairs[i]? = some { promise := p }) (h : m.said? i = some (side, x)) :
    m.holds (.promise p) = true ∧ ∃ n, m.Untouched n ∧ n.pairs = m.spent i ∧ m.step = n.hear p side x := by
  obtain ⟨n, q, this, arguments, speaks, step, rfl, held⟩ := exists_enterResolver_of_said hm h
  obtain rfl : q = p := hm.promise_of_pair held rfl pair
  refine ⟨holds_of_mem held rfl, ?_⟩
  have alive : n.loop? q.home = some l := by rw [loop?, speaks.loops]; exact hl
  let claimed : Machine := { n with pairs := n.pairs.modify i fun pair => { pair with fired := true } }
  have claim : n.claim ⟨q, .flag i, side⟩ = .ok (true, claimed) := by
    simp [Machine.claim, speaks.pairs, pair, claimed]
  let heard : Machine := drop (arguments.drop 1)
    ((claimed.push (.give .undefined [this])).signal (.value (arguments.headD .undefined)))
  refine ⟨heard.signal .done, ?_, ?_, ?_⟩
  · have begun : m.Untouched ((claimed.push (.give .undefined [this])).signal
        (.value (arguments.headD .undefined))) := untouched_of_eq speaks.loops speaks.vars speaks.trace
    have dropped := begun.drop (arguments.drop 1)
    exact ⟨dropped.loops, dropped.vars, dropped.trace⟩
  · show heard.pairs = _
    rw [pairs_drop]
    show n.pairs.modify i _ = m.spent i
    rw [speaks.pairs]
    rfl
  · rw [step, enterResolver]
    simp only [alive, claim, Option.isNone_some, Bool.false_eq_true, if_false]
    rfl

/-- Every other say is passed over: the call gives nothing, and nothing happens. -/
theorem silent_of_said (hm : Reachable m) (hl : m.loop? p.home = some l)
    (pair : m.pairs[i]? = some { promise := p, fired := true }) (h : m.said? i = some (side, x)) :
    m.Untouched m.step ∧ m.step.pairs = m.pairs ∧ m.step.control = .signal (.value .undefined) ∧
      m.GivesBack m.step := by
  obtain ⟨n, q, this, arguments, speaks, step, -, held⟩ := exists_enterResolver_of_said hm h
  obtain rfl : q = p := hm.promise_of_pair held rfl pair
  have alive : n.loop? q.home = some l := by rw [loop?, speaks.loops]; exact hl
  have same : n.pairs.modify i (fun pair => { pair with fired := true }) = m.pairs := by
    rw [speaks.pairs]
    refine List.ext_getElem? fun j => ?_
    rw [List.getElem?_modify]
    split
    · rename_i hj
      rw [← hj, pair]
      rfl
    · simp
  have claim : n.claim ⟨q, .flag i, side⟩ = .ok (false, { n with pairs := m.pairs }) := by
    unfold Machine.claim
    dsimp only
    rw [same, speaks.pairs, pair]
    rfl
  have entered : m.step = drop (arguments ++ [this]) (({ n with pairs := m.pairs } : Machine).signal
      (.value .undefined)) := by
    rw [step, enterResolver]
    simp only [alive, claim, Option.isNone_some, Bool.false_eq_true, if_false]
  have begun : m.Untouched (({ n with pairs := m.pairs } : Machine).signal (.value .undefined)) :=
    untouched_of_eq speaks.loops speaks.vars speaks.trace
  rw [entered]
  refine ⟨begun.drop _, pairs_drop _ _, control_drop _ _, ?_⟩
  unfold GivesBack
  rw [stack_drop]
  exact speaks.stack

/-- A promise that somebody has a warrant for is locked and pending. -/
theorem Reachable.waits_of_warrant (hm : Reachable m) (hl : m.loop? k = some l)
    (room : l.heap.slots.length < 2 ^ 32) (home : p.home = k) (held : m.holds (.promise p) = true)
    (mem : p ∈ m.warrants l) :
    ∃ r, l.record p = .ok r ∧ r.state = .pending ∧ r.alreadyResolved = true := by
  obtain ⟨r, hr, pending, locked⟩ :=
    ((hm.warranted k).guarded l hl room).pending_of_mem (knows_iff.mpr ⟨home, held⟩) mem
  exact ⟨r, Loop.record_eq_ok.mpr ⟨home.trans (hm.placed k l hl).symm, hr⟩, pending, locked⟩

theorem mem_warrants_of_pair (pair : m.pairs[i]? = some { promise := p }) (l : Loop) : p ∈ m.warrants l :=
  List.mem_append_right _ (List.mem_append_left _
    (List.mem_filterMap.mpr ⟨_, List.mem_of_getElem? pair, rfl⟩))

/-- Settling a promise does to its loop what the loop does, up to releases. -/
theorem exists_loop?_settle (hl : m.loop? p.home = some l) (id : l.id = p.home) (s : State) (v : Value)
    (spent : List Value) : ∃ releases, (m.settle p s v spent).loop? p.home =
      some { (l.settle p.id s v).1 with releases } := by
  have put : (m.setLoop (l.settle p.id s v).1).loop? p.home = some (l.settle p.id s v).1 := by
    rw [← id]
    exact loop?_setLoop_self (by rw [id]; exact hl) (l.id_settle p.id s v)
  unfold settle
  simp only [hl]
  obtain ⟨released, look⟩ := loop?_drop_of (m := (m.setLoop (l.settle p.id s v).1).signal .done)
    ((l.settle p.id s v).2 ++ spent) put
  exact ⟨_, look⟩

/-- A promise that is rejected by the first say has the record of a rejection. -/
theorem rejected_of_hear {r : Record} (hl : m.loop? p.home = some l) (hr : l.record p = .ok r)
    (pending : r.state = .pending) (untouched : m.Untouched n) (x : Value) :
    ∃ l', (n.hear p .reject x).loop? p.home = some l' ∧ l'.heap.get? p.id = some (r.settled .rejected x) := by
  obtain ⟨home, found⟩ := Loop.record_eq_ok.mp hr
  obtain ⟨releases, hn⟩ := untouched.found hl
  obtain ⟨released, look⟩ := exists_loop?_settle (p := p) hn home.symm .rejected x []
  have settles : r.settle .rejected x = some (r.settled .rejected x, r.released .rejected) :=
    Record.settle_eq_some.mpr ⟨pending, by simp, rfl, rfl⟩
  refine ⟨_, look, ?_⟩
  rw [Loop.settle_of_settle (l := { l with releases }) found settles]
  show (l.heap.modify p.id fun _ => r.settled .rejected x).get? p.id = _
  rw [Heap.get?_modify, found]
  rfl

-- ---------------------------------------------------------------------------
-- Over a run
-- ---------------------------------------------------------------------------

/-- Where the next step looks at a pair, something is said. -/
theorem said?_of_guard? (settled : m.orphan? = none) (h : m.guard? = some (.flag i)) :
    (m.said? i).isSome = true := by
  unfold guard? at h
  unfold said?
  rw [settled]
  split at h
  · rename_i f this arguments hc
    rw [hc]
    cases f with
    | resolver r =>
      have guard : r.guard = .flag i := Option.some.inj h
      simp [guard]
    | _ => cases h
  · rename_i x q f thenFunction rest hc hs
    rw [hc, hs]
    cases f with
    | resolver r =>
      have guard : r.guard = .flag i := Option.some.inj h
      simp [guard]
    | _ => cases h
  · cases h

/-- Where nothing is said, a pair stays as it is. -/
theorem Next.pair_of_silent (hm : Reachable m) (next : Next m m') {pair : Pair} (hp : m.pairs[i]? = some pair)
    (silent : m.said? i = none) : m'.pairs[i]? = some pair := by
  have kept {earlier later : List Pair} (found : earlier[i]? = some pair) (grown : earlier <+: later) :
      later[i]? = some pair := by
    obtain ⟨more, rfl⟩ := grown
    rw [List.getElem?_append_left (List.getElem?_eq_some_iff.mp found).1, found]
  cases next with
  | start idle c => exact kept hp (hm.pairs_start idle c)
  | step =>
    cases settled : m.orphan? with
    | some l =>
      have removed : m.step.pairs = m.pairs := by
        rw [Machine.step, settled]
        exact pairs_drop _ _
      rw [removed, hp]
    | none =>
      rcases hm.pairs_step with grown | ⟨g, hg, grown⟩
      · exact kept hp grown
      · refine kept ?_ grown
        cases g with
        | lock => exact hp
        | flag j =>
          -- a function of another pair has been called
          have other : j ≠ i := by
            rintro rfl
            have some := said?_of_guard? settled hg
            simp [silent] at some
          simp [Guard.spend, other, hp]

/-- Where something is said, the pair has been used. -/
theorem pair_of_said (hm : Reachable m) (hl : m.loop? p.home = some l) {fired : Bool}
    (hp : m.pairs[i]? = some { promise := p, fired }) (said : m.said? i = some (side, x)) :
    m.step.pairs[i]? = some { promise := p, fired := true } := by
  cases fired with
  | false =>
    obtain ⟨-, n, -, pairs, step⟩ := decides_of_said hm hl hp said
    rw [step, pairs_hear, pairs]
    simp [spent, hp]
  | true =>
    obtain ⟨-, pairs, -, -⟩ := silent_of_said hm hl hp said
    rw [pairs, hp]

theorem said?_of_isIdle (idle : m.isIdle = true) : m.said? i = none := by
  unfold isIdle at idle
  unfold said?
  split at idle
  · rename_i a hc
    rw [hc]
    split <;> simp_all
  · cases idle

/-- A run in which a promise is told some things through a pair, in their order. -/
inductive Hears (i : Nat) (m : Machine) : List (Side × Value) → Machine → Prop
  | refl : Hears i m [] m
  | tail {told : List (Side × Value)} {m' m'' : Machine} (h : Hears i m told m') (next : Next m' m'') :
    Hears i m (told ++ (m'.said? i).toList) m''

theorem Hears.run (h : Hears i m told m') : Run m m' := by
  induction h with
  | refl => exact .refl
  | tail _ next ih => exact ih.tail next

/-- In every run a promise is told something, or nothing. -/
theorem Run.hears (h : Run m m') (i : Nat) : ∃ told, Hears i m told m' := by
  induction h with
  | refl => exact ⟨[], .refl⟩
  | tail _ next ih =>
    obtain ⟨told, hears⟩ := ih
    exact ⟨_, hears.tail next⟩

/-- After a run, a pair has been used exactly if something has been said. -/
theorem Hears.pair (h : Hears i m told m') (hm : Reachable m) (hl : m.loop? p.home = some l)
    (fresh : m.pairs[i]? = some { promise := p }) {l' : Loop} (hl' : m'.loop? p.home = some l') :
    m'.pairs[i]? = some { promise := p, fired := !told.isEmpty } := by
  induction h generalizing l' with
  | refl => exact fresh
  | @tail told m₁ m₂ h next ih =>
    obtain ⟨x, hx⟩ := h.run.exists_loop? hm hl next hl'
    have before := ih hx
    have reached := hm.runs h.run
    cases said : m₁.said? i with
    | none =>
      rw [Option.toList_none, List.append_nil]
      exact next.pair_of_silent reached before said
    | some e =>
      obtain ⟨side, x⟩ := e
      cases next with
      | start idle c => simp [said?_of_isIdle idle] at said
      | step =>
        rw [pair_of_said reached hx before said]
        simp

end PromiseLoop.Machine

import PromiseLoop.Proofs.Checkpoints
import PromiseLoop.Proofs.Faults.Handles
import PromiseLoop.Proofs.RecordStates
import PromiseLoop.Proofs.Thenables.Says

/-!
# Thenables

A promise that is resolved with an object asks it for its `then` at once, and once.  If a function answers,
an adoption is queued that calls this function with the object and with two functions made for the purpose,
whatever the property has become in the meantime.  What the function makes of them is its own affair: it may
call both, again and again, now or later, and it may throw.  The first of these decides, and nobody else
does.

## Results

* `Loop.answered`: what the loop does when the object has answered.
* `thenable_has_one_say`: a resolution with an object, from its beginning to what is said last.
-/

namespace PromiseLoop

open Relation

-- ---------------------------------------------------------------------------
-- Records and queues
-- ---------------------------------------------------------------------------

/-- The records and the microtasks of a loop are as they were. -/
structure Loop.StandsAs (l l' : Loop) : Prop where
  id : l'.id = l.id
  heap : l'.heap = l.heap
  microtasks : l'.microtasks = l.microtasks

/-- What a resolution with an object comes to when the object has been asked for its `then`. -/
def Loop.answered (l : Loop) (p : Promise) (o : ObjectId) (s : Signal) : Loop :=
  match s with
  | .value (.function c) => l.enqueue (.adoption p (.object o) (.function c))
  | .thrown x => (l.settle p.id .rejected x).1
  | _ => (l.settle p.id .fulfilled (.object o)).1

namespace Loop.StandsAs

variable {l l' l'' : Loop}

theorem trans (h : l.StandsAs l') (h' : l'.StandsAs l'') : l.StandsAs l'' :=
  ⟨h'.id.trans h.id, h'.heap.trans h.heap, h'.microtasks.trans h.microtasks⟩

theorem releases (l : Loop) (releases : List PromiseId) : l.StandsAs { l with releases } := ⟨rfl, rfl, rfl⟩

theorem of_outside (h : ReflTransGen Loop.Outside l l') : l.StandsAs l' where
  id := by
    induction h with
    | refl => rfl
    | tail _ h ih => exact h.id_eq.trans ih
  heap := by
    induction h with
    | refl => rfl
    | tail _ h ih =>
      refine Eq.trans ?_ ih
      cases h with
      | workerReleased =>
        unfold releaseWorker
        split <;> rfl
      | _ => rfl
  microtasks := (jobs_of_outside h).1

theorem settle (h : l.StandsAs l') (id : PromiseId) (s : State) (v : Value) :
    (l.settle id s v).1.StandsAs (l'.settle id s v).1 := by
  have same : l'.heap.get? id = l.heap.get? id := by rw [h.heap]
  cases hr : l.heap.get? id with
  | none => rwa [settle_of_settle_eq_none (by simp [hr]), settle_of_settle_eq_none (by simp [same, hr])]
  | some r =>
    cases hs : r.settle s v with
    | none =>
      rwa [settle_of_settle_eq_none (by simp [hr, hs]), settle_of_settle_eq_none (by simp [same, hr, hs])]
    | some x =>
      rw [settle_of_settle hr hs, settle_of_settle (same.trans hr) hs]
      exact ⟨h.id, by rw [h.heap], by rw [h.microtasks]⟩

theorem answered (h : l.StandsAs l') (p : Promise) (o : ObjectId) (s : Signal) :
    (l.answered p o s).StandsAs (l'.answered p o s) := by
  unfold Loop.answered
  split
  · exact ⟨h.id, h.heap, congrArg (Queue.enqueue · _) h.microtasks⟩
  · exact h.settle _ _ _
  · exact h.settle _ _ _

end Loop.StandsAs

namespace Machine

variable {m m' n : Machine} {k : LoopId} {l l' : Loop} {p : Promise} {o : ObjectId} {s : Signal}
  {f : Frame} {base : List Frame} {c : Callable}

-- ---------------------------------------------------------------------------
-- Asking for a `then`
-- ---------------------------------------------------------------------------

/-- The frames of a resolution that waits to hear of the `then` of an object. -/
def asking (p : Promise) (o : ObjectId) : List Frame := [.functionOnly, .resolving p (.object o)]

/-- An object is asked for its `then` once, as soon as a promise is resolved with it. -/
theorem resolveLocked_object (hl : m.loop? p.home = some l) (native : l.bridge = .native) (o : ObjectId) :
    m.resolveLocked p (.object o) = { m.setLoop (l.note (.probed (.object o))) with
      stack := asking p o ++ m.stack }.read o "then" := by
  have probed : (m.push (.resolving p (.object o))).probe p.home (.object o) =
      ((m.push (.resolving p (.object o))).setLoop (l.note (.probed (.object o)))).askThen (.object o)
        (l.bridge.probePlan (.object o)) := by
    unfold probe
    rw [show (m.push (.resolving p (.object o))).loop? p.home = some l from hl]
    rfl
  rw [resolveLocked, if_neg (by simp), probed, native]
  rfl

/-- A frame goes on in a machine in which its loop is as it was. -/
theorem exists_resume (placed : m.Placed) (kept : m.keepsLoop k = true) (hs : m.stack = f :: base)
    (hc : m.control = .signal s) (hl : m.loop? k = some l) :
    ∃ (j : Nat) (n : Machine) (l' : Loop), run j m = n.resume f s ∧ n.stack = base ∧ n.Placed ∧ n.loop? k = some l' ∧
      l.StandsAs l' := by
  obtain ⟨j, settled, -⟩ := exists_run_settled placed kept
  obtain ⟨l', hl', outside⟩ := settled.aside.stays l hl
  exact ⟨j + 1, _, l', (run_succ' j m).trans (step_of_signal settled.orphan (settled.control.trans hc)
    (settled.stack.trans hs)), rfl, settled.aside.placed placed, hl', .of_outside outside⟩

/-- What the `then` of an object was found to be. -/
def heardOf : Signal → Signal
  | .value (.function c) => .value (.function c)
  | .value _ => .done
  | s => s

theorem exists_functionOnly (m : Machine) (s : Signal) : ∃ vs,
    m.resumeFunctionOnly s = drop vs (m.signal (heardOf s)) := by
  cases s with
  | value v =>
    cases v with
    | function c => exact ⟨[], (drop_nil _).symm⟩
    | _ => exact ⟨_, rfl⟩
  | _ => exact ⟨[], (drop_nil _).symm⟩

/-- A resolution goes on when the object has answered. -/
theorem exists_resumeResolving (hl : m.loop? p.home = some l) (id : l.id = p.home) (o : ObjectId) (s : Signal) :
    (m.resumeResolving p (.object o) (heardOf s)).stack = m.stack ∧
      (m.resumeResolving p (.object o) (heardOf s)).control = .signal .done ∧
      ∃ l', (m.resumeResolving p (.object o) (heardOf s)).loop? p.home = some l' ∧
        (l.answered p o s).StandsAs l' := by
  have settles (t : State) (v : Value) (spent : List Value) :
      (m.settle p t v spent).stack = m.stack ∧ (m.settle p t v spent).control = .signal .done ∧
        ∃ l', (m.settle p t v spent).loop? p.home = some l' ∧ (l.settle p.id t v).1.StandsAs l' := by
    obtain ⟨releases, look⟩ := exists_loop?_settle hl id t v spent
    refine ⟨?_, ?_, _, look, .releases _ _⟩
    · unfold settle
      split <;> simp
    · unfold settle
      split <;> simp
  have adopts (c : Callable) : ∃ l', (m.resumeResolving p (.object o) (.value (.function c))).loop? p.home =
      some l' ∧ (l.enqueue (.adoption p (.object o) (.function c))).StandsAs l' := by
    have put : (m.modifyLoop p.home fun l => l.enqueue (.adoption p (.object o) (.function c))).loop? p.home =
        some (l.enqueue (.adoption p (.object o) (.function c))) := by
      rw [loop?_modifyLoop_self, hl]
      rfl
    obtain ⟨released, look⟩ := loop?_drop_of (m := (m.modifyLoop p.home fun l =>
      l.enqueue (.adoption p (.object o) (.function c))).signal .done) [.promise p] put
    exact ⟨_, look, .releases _ _⟩
  cases s with
  | value v =>
    cases v with
    | function c => exact ⟨stack_drop _ _, control_drop _ _, adopts c⟩
    | _ => exact settles .fulfilled (.object o) _
  | thrown x => exact settles .rejected x _
  | _ => exact settles .fulfilled (.object o) _

/-- A signal that is handed on, while values are let go. -/
theorem exists_handed {f : Frame} (hm : Reachable m) (kept : m.keepsLoop k = true) (hs : m.stack = f :: base)
    (hc : m.control = .signal s) (hl : m.loop? k = some l) {t : Signal}
    (hands : ∀ n : Machine, ∃ vs, n.resume f s = drop vs (n.signal t)) :
    ∃ (j : Nat) (l' : Loop), (run j m).stack = base ∧ (run j m).control = .signal t ∧ (run j m).loop? k = some l' ∧
      l.StandsAs l' := by
  obtain ⟨j, n, l', resumed, stack, -, hl', same⟩ := exists_resume hm.placed kept hs hc hl
  obtain ⟨vs, handed⟩ := hands n
  obtain ⟨released, look⟩ := loop?_drop_of (m := n.signal t) vs hl'
  rw [← handed, ← resumed] at look
  refine ⟨j, _, ?_, ?_, look, same.trans (.releases _ _)⟩
  · rw [resumed, handed, stack_drop]
    exact stack
  · rw [resumed, handed]
    exact control_drop _ _

/-- When an object has answered, the resolution adopts it, or settles the promise, and ends. -/
theorem exists_answered (hm : Reachable m) (hl : m.loop? p.home = some l) {base : List Frame}
    (hs : m.stack = asking p o ++ base ∨ ∃ vs, m.stack = .hold vs :: (asking p o ++ base))
    (hc : m.control = .signal s) :
    ∃ j l', (run j m).stack = base ∧ (run j m).control = .signal .done ∧
      (run j m).loop? p.home = some l' ∧ (l.answered p o s).StandsAs l' := by
  have kept {m : Machine} (h : .resolving p (.object o) ∈ m.stack) : m.keepsLoop p.home = true := by
    simp only [keepsLoop, Bool.or_eq_true, List.any_eq_true, decide_eq_true_eq]
    exact .inr ⟨_, h, rfl⟩
  -- a getter that was called has been held
  obtain ⟨i, x, hs, hc, hx, same⟩ : ∃ i x, (run i m).stack = asking p o ++ base ∧
      (run i m).control = .signal s ∧ (run i m).loop? p.home = some x ∧ l.StandsAs x := by
    rcases hs with hs | ⟨vs, hs⟩
    · exact ⟨0, l, hs, hc, hl, ⟨rfl, rfl, rfl⟩⟩
    · exact exists_handed hm (kept (by simp [hs, asking])) hs hc hl fun n => ⟨vs, rfl⟩
  obtain ⟨j, y, hs, hc, hy, same'⟩ := exists_handed (hm.run i) (kept (by simp [hs, asking])) hs hc hx
    fun n => exists_functionOnly n s
  rw [← run_add] at hs hc hy
  obtain ⟨j', n, z, resumed, stack, placed, hz, same''⟩ := exists_resume (hm.run (i + j)).placed
    (kept (by simp [hs])) hs hc hy
  obtain ⟨stack', control, l', hl', answered⟩ := exists_resumeResolving (p := p) hz (placed _ _ hz) o s
  rw [← run_add] at resumed
  have final : run (i + j + j') m = n.resumeResolving p (.object o) (heardOf s) := resumed
  refine ⟨i + j + j', l', ?_, ?_, ?_, (((same.trans same').trans same'').answered p o s).trans answered⟩
  · rw [final, stack', stack]
    rfl
  · rw [final, control]
  · rw [final, hl']

-- ---------------------------------------------------------------------------
-- Calling it
-- ---------------------------------------------------------------------------

/-- A drain that comes to an adoption of a promise comes to the only one there is. -/
theorem adoption_of_running (hm : Reachable m) (hl : m.loop? k = some l)
    (room : l.heap.slots.length < 2 ^ 32) (home : p.home = k) {v v' t t' : Value}
    (mem : .adoption p v t ∈ l.microtasks.entries) (runs : m.occasion? = some (.running k (.adoption p v' t'))) :
    v' = v ∧ t' = t := by
  obtain ⟨-, head, -⟩ := (Advances.step m).runs_above hm hl runs
  obtain ⟨rest, entries⟩ := List.head?_eq_some_iff.mp head
  have few : l.adoptions.count p ≤ 1 := by
    have warranted := (hm.warranted k).guarded l hl room
    have once := warranted.once p (home.trans (hm.placed k l hl).symm)
    simp only [Option.toList_none, List.nil_append, warrants, List.count_append] at once
    omega
  rw [Loop.adoptions, entries] at few
  have few : (p :: rest.filterMap Job.warrant?).count p ≤ 1 := few
  rw [List.count_cons_self] at few
  rw [entries] at mem
  rcases List.mem_cons.mp mem with same | later
  · cases same
    exact ⟨rfl, rfl⟩
  · have again : p ∈ rest.filterMap Job.warrant? := List.mem_filterMap.mpr ⟨_, later, rfl⟩
    have := List.count_pos_iff.mpr again
    omega

/-- What is queued stays there, until a drain comes to it. -/
theorem Advances.queued_or_runs {e : Option Occasion} (ha : m.Advances e m') (hm : Reachable m)
    (hl : m.loop? k = some l) (hl' : m'.loop? k = some l') {j : Job} (mem : j ∈ l.microtasks.entries) :
    j ∈ l'.microtasks.entries ∨ e = some (.running k j) := by
  obtain ⟨newer, history, -, -, runs, -⟩ := script_runs_as_jobs hm ha hl hl'
  have before := (hm.queueKept hl).fifo
  have after := ((hm.next ha.next).queueKept hl').fifo
  rw [history, enqueued_append, started_append, before, List.append_assoc, List.append_assoc,
    List.append_cancel_left_eq] at after
  have stays : j ∈ started newer ++ l'.microtasks.entries := after ▸ List.mem_append_left _ mem
  rcases List.mem_append.mp stays with runs' | stays
  · exact .inr (runs j runs').1
  · exact .inl stays

/-- An adoption begins with the call of the function that was found. -/
theorem startAdoption_function (m : Machine) (k : LoopId) (p : Promise) (thenable : Value) (c : Callable) :
    (m.startAdoption k p thenable (.function c)).control = .call c thenable
        [.function (p.oneShot m.pairs.length .fulfill), .function (p.oneShot m.pairs.length .reject)] ∧
      (m.startAdoption k p thenable (.function c)).stack =
        .adopting p (.function (p.oneShot m.pairs.length .reject)) (.function c) :: m.stack ∧
      (m.startAdoption k p thenable (.function c)).pairs = m.pairs ++ [{ promise := p }] := by
  unfold startAdoption invoke
  dsimp only
  split
  · cases ‹Value.function c = _›
  · exact ⟨rfl, rfl, rfl⟩

/-- When a drain comes to an adoption, it calls what has answered, with the object and a fresh pair of
functions, whatever the object looks like by now. -/
theorem calls_of_running (hl : m.loop? k = some l)
    (runs : m.occasion? = some (.running k (.adoption p (.object o) (.function c)))) :
    m.step.control = .call c (.object o)
        [.function (p.oneShot m.pairs.length .fulfill), .function (p.oneShot m.pairs.length .reject)] ∧
      m.step.stack = .adopting p (.function (p.oneShot m.pairs.length .reject)) (.function c) :: m.stack ∧
      m.step.pairs = m.pairs ++ [{ promise := p }] := by
  obtain ⟨s, rest, ho, hc, hs, sound, next⟩ := occasion?_eq_running runs
  obtain ⟨⟨j, x⟩, found, heq⟩ := Option.map_eq_some_iff.mp next
  cases heq
  rw [hl] at found
  let popped : Machine := { m with stack := rest, control := .signal .done }
  obtain ⟨released, hn⟩ := loop?_drop_of (m := popped) s.held hl
  have dequeued := Loop.dequeue?_releases found (l.releases ++ released)
  have resumed : m.step = (drop s.held popped).nextMicrotask k := by
    rw [step_of_signal ho hc hs]
    show popped.resumeDraining k s = _
    unfold resumeDraining
    split
    · exact absurd rfl (sound _)
    · rfl
  rw [resumed, nextMicrotask, hn, Option.bind_some, dequeued]
  obtain ⟨called, above, paired⟩ := startAdoption_function
    (((drop s.held popped).setLoop { x with releases := l.releases ++ released }).push (.draining k)) k p
    (.object o) c
  have pairs : (drop s.held popped).pairs = m.pairs := pairs_drop _ _
  have stack : .draining k :: (drop s.held popped).stack = m.stack := by
    rw [stack_drop, hs]
  refine ⟨called.trans ?_, above.trans ?_, paired.trans ?_⟩
  · rw [← pairs]
    rfl
  · rw [← pairs, ← stack]
    rfl
  · rw [← pairs]
    rfl

-- ---------------------------------------------------------------------------
-- One say
-- ---------------------------------------------------------------------------

/-- **A thenable has one say.**  Let a promise of a loop with the native bridge be resolved with an object.

* The object is asked for its `then` once, there and then: a datum is the answer, and a getter is called.
* When it has answered, whatever has happened in the meantime, the promise is still pending.  If the answer
  is a function, one adoption is queued, with that function.  If asking has thrown, the promise is rejected
  with what was thrown, and nothing is queued but its own reactions.
* The adoption stays in the queue until a drain comes to it, and there is no other one for the promise.
* When a drain comes to the adoption, the function that has answered is called with the object as its
  receiver, whatever the object looks like by then, and with a fresh pair of functions.
* Whatever happens from then on, the promise stays pending until something is said through the pair.  What
  is said first decides: the resolution goes on with it, or the promise is rejected with it, as is done with
  what the function throws.  Whatever is said later gives nothing and does nothing.
* As long as its record is there, every attempt of the host on the promise is refused. -/
theorem thenable_has_one_say (hm : Reachable m) (hl : m.loop? k = some l)
    (room : l.heap.slots.length < 2 ^ 32) (home : p.home = k) :
    (∀ (n : Machine) (x : Loop), n.loop? k = some x → x.bridge = .native → n.resolveLocked p (.object o) =
      { n.setLoop (x.note (.probed (.object o))) with stack := asking p o ++ n.stack }.read o "then") ∧
    (∀ s base, (m.stack = asking p o ++ base ∨ ∃ vs, m.stack = .hold vs :: (asking p o ++ base)) →
      m.control = .signal s → ∃ j l' r, (run j m).stack = base ∧ (run j m).control = .signal .done ∧
        (run j m).loop? k = some l' ∧ l.record p = .ok r ∧ r.state = .pending ∧ r.alreadyResolved = true ∧
        (∀ c, s = .value (.function c) → l'.heap = l.heap ∧
          l'.microtasks.entries = l.microtasks.entries ++ [.adoption p (.object o) (.function c)]) ∧
        (∀ x, s = .thrown x → l'.heap.get? p.id = some (r.settled .rejected x) ∧
          l'.microtasks.entries = l.microtasks.entries ++ r.rejectReactions.map (.reaction · x))) ∧
    (∀ c, .adoption p (.object o) (.function c) ∈ l.microtasks.entries →
      (∀ v t, m.occasion? = some (.running k (.adoption p v t)) → v = .object o ∧ t = .function c) ∧
      ∀ e m' l', m.Advances e m' → m'.loop? k = some l' →
        .adoption p (.object o) (.function c) ∈ l'.microtasks.entries ∨
          e = some (.running k (.adoption p (.object o) (.function c)))) ∧
    (∀ c, m.occasion? = some (.running k (.adoption p (.object o) (.function c))) →
      m.step.control = .call c (.object o)
        [.function (p.oneShot m.pairs.length .fulfill), .function (p.oneShot m.pairs.length .reject)] ∧
      m.step.stack = .adopting p (.function (p.oneShot m.pairs.length .reject)) (.function c) :: m.stack ∧
      ∀ told m' l', Hears m.pairs.length m.step told m' → m'.loop? k = some l' →
        l'.heap.slots.length < 2 ^ 32 →
        (told = [] → m'.holds (.promise p) = true →
          ∃ r, l'.record p = .ok r ∧ r.state = .pending ∧ r.alreadyResolved = true) ∧
        ∀ side x, m'.said? m.pairs.length = some (side, x) →
          (told = [] → ∃ n, m'.Untouched n ∧ m'.step = n.hear p side x ∧ (side = .reject →
            ∃ l'' r, m'.step.loop? k = some l'' ∧ l''.heap.get? p.id = some r ∧ r.state = .rejected ∧
              r.value = some x)) ∧
          (told ≠ [] → m'.Untouched m'.step ∧ m'.step.pairs = m'.pairs ∧
            m'.step.control = .signal (.value .undefined) ∧ m'.GivesBack m'.step)) ∧
    (∀ r, l.record p = .ok r → r.alreadyResolved = true → ∀ m' l', Run m m' → m'.loop? k = some l' →
      ∃ newer, l'.history = newer ++ l.history ∧ ((∀ e ∈ newer, e.frees p.id = false) →
        ∀ (n : Machine) (a : Attempt), n.loop? k = some l' → a.IsOn l' p →
          Refused n p (a.landed l') (a.run n p))) := by
  subst home
  refine ⟨fun n x hx native => resolveLocked_object hx native o, fun s base hs hc => ?_,
    fun c mem => ⟨fun v t runs => adoption_of_running hm hl room rfl mem runs,
      fun e m' l' ha hl' => ha.queued_or_runs hm hl hl' mem⟩,
    fun c runs => ?_, fun r hr locked m' l' hrun hl' => ?_⟩
  · obtain ⟨j, l', stack, control, hl', answered⟩ := exists_answered hm hl hs hc
    have waits : .resolving p (.object o) ∈ m.stack := by
      rcases hs with hs | ⟨vs, hs⟩ <;> simp [hs, asking]
    have held : m.holds (.promise p) = true := holds_of_mem (v := .promise p)
      (mem_held.mpr (.inr (.inr (.inl (List.mem_flatMap.mpr ⟨_, waits, by simp [Frame.held]⟩))))) rfl
    obtain ⟨r, hr, pending, locked⟩ := hm.waits_of_warrant hl room rfl held
      (List.mem_append_right _ (List.mem_append_right _ (List.mem_filterMap.mpr ⟨_, waits, rfl⟩)))
    refine ⟨j, l', r, stack, control, hl', hr, pending, locked, fun c hs => ?_, fun x hs => ?_⟩
    · subst hs
      exact ⟨answered.heap, by rw [answered.microtasks]; rfl⟩
    · subst hs
      obtain ⟨-, found⟩ := Loop.record_eq_ok.mp hr
      have settles : r.settle .rejected x = some (r.settled .rejected x, r.released .rejected) :=
        Record.settle_eq_some.mpr ⟨pending, by simp, rfl, rfl⟩
      rw [Loop.answered, Loop.settle_of_settle found settles] at answered
      refine ⟨?_, by rw [answered.microtasks]; rfl⟩
      rw [answered.heap, Heap.get?_modify, found]
      rfl
  · obtain ⟨called, stack, paired⟩ := calls_of_running hl runs
    refine ⟨called, stack, fun told m' l' hears hl' room' => ?_⟩
    -- the drain keeps the loop alive
    have drains : .draining p.home ∈ m.step.stack := by
      obtain ⟨t, base, -, -, hs, -⟩ := occasion?_eq_running runs
      simp [stack, hs]
    obtain ⟨x, hx⟩ := hm.step.alive_of_draining drains
    have fresh : m.step.pairs[m.pairs.length]? = some { promise := p } := by simp [paired]
    have pair := hears.pair hm.step hx fresh hl'
    have reached := hm.step.runs hears.run
    have waits (silent : told = []) (held : m'.holds (.promise p) = true) :
        ∃ r, l'.record p = .ok r ∧ r.state = .pending ∧ r.alreadyResolved = true := by
      subst silent
      exact reached.waits_of_warrant hl' room' rfl held (mem_warrants_of_pair pair l')
    refine ⟨waits, fun side x said => ⟨fun first => ?_, fun late => ?_⟩⟩
    · subst first
      obtain ⟨held, n, untouched, -, step⟩ := decides_of_said reached hl' pair said
      refine ⟨n, untouched, step, fun hside => ?_⟩
      subst hside
      obtain ⟨r, hr, pending, -⟩ := waits rfl held
      obtain ⟨l'', hl'', found⟩ := rejected_of_hear hl' hr pending untouched x
      exact ⟨l'', _, step ▸ hl'', found, rfl, rfl⟩
    · have used : told.isEmpty = false := by simpa using late
      rw [used] at pair
      exact silent_of_said reached hl' pair said
  · obtain ⟨newer, history, stays⟩ :=
      Loop.Acts.advances (Run.acts hm hrun hl hl') (hm.wf hl)
    refine ⟨newer, history, fun alive n a hn on => ?_⟩
    obtain ⟨home, found⟩ := Loop.record_eq_ok.mp hr
    obtain ⟨r', hr', advances⟩ := stays p.id r found alive
    exact refused_run hn (Loop.record_eq_ok.mpr ⟨(hm.runs hrun).placed _ _ hl' ▸ rfl, hr'⟩)
      (advances.locked locked) a on

/-- A machine whose script has resolved a promise with an object.  The `then` of the object calls the
second function it is given, then the first one, and throws. -/
def saysThrice : Machine :=
  let act (s : Step) (store : Option String) : Command := .step s store false
  let say (n : Nat) (v : Value) : Command := act (.invoke (.argument n) (.constant .undefined) [.constant v]) none
  (boot {} .console .native).obey
    [act (.routine "then" [say 1 (.small 7), say 0 (.small 8), .raise (.constant (.small 9))] true) (some "f"),
      act (.object [("then", .variable "f")]) (some "o"), act (.newPromise "main") (some "p"),
      act (.resolve "main" (.variable "p") (.variable "o")) none]

/-- The machine when a drain is about to call it. -/
def saidThrice : Machine := saysThrice.start (.step (.drain "main") none false)

theorem reachable_saidThrice : Reachable saidThrice := .start (.obey (.boot _ _ _) _) (by cbv) _

theorem thenable_has_one_say_saidThrice : ∃ told l, Hears 0 saidThrice.step told (run 11 saidThrice.step) ∧
    saidThrice.step.control = .call (.routine 0 "then") (.object ⟨0⟩)
      [.function (Promise.oneShot ⟨⟨0⟩, 0, ⟨0, 0⟩⟩ 0 .fulfill),
        .function (Promise.oneShot ⟨⟨0⟩, 0, ⟨0, 0⟩⟩ 0 .reject)] ∧
    (run 11 saidThrice.step).said? 0 = some (.reject, .small 9) ∧ told ≠ [] ∧
    (run 11 saidThrice.step).Untouched (run 12 saidThrice.step) ∧
    (run 11 saidThrice.step).loop? ⟨0⟩ = some l ∧
    (l.heap.get? ⟨0, 0⟩).map (fun r => (r.state, r.value)) = some (.rejected, some (.small 7)) := by
  obtain ⟨l, hl⟩ := Option.isSome_iff_exists.mp (by cbv : (saidThrice.loop? ⟨0⟩).isSome = true)
  obtain ⟨l', hl'⟩ := Option.isSome_iff_exists.mp
    (by cbv : ((run 11 saidThrice.step).loop? ⟨0⟩).isSome = true)
  have slots : (saidThrice.loop? ⟨0⟩).map (fun l => l.heap.slots.length) = some 1 := by cbv
  have slots' : ((run 11 saidThrice.step).loop? ⟨0⟩).map (fun l => l.heap.slots.length) = some 1 := by cbv
  have record : ((run 11 saidThrice.step).loop? ⟨0⟩).map (fun l =>
      (l.heap.get? ⟨0, 0⟩).map fun r => (r.state, r.value)) = some (some (.rejected, some (.small 7))) := by cbv
  have pair : (run 11 saidThrice.step).pairs = [⟨⟨⟨0⟩, 0, ⟨0, 0⟩⟩, true⟩] := by cbv
  have pairs : saidThrice.pairs.length = 0 := by cbv
  have fresh : saidThrice.step.pairs = [⟨⟨⟨0⟩, 0, ⟨0, 0⟩⟩, false⟩] := by cbv
  have said : (run 11 saidThrice.step).said? 0 = some (.reject, .small 9) := by cbv
  rw [hl, Option.map_some, Option.some.injEq] at slots
  rw [hl', Option.map_some, Option.some.injEq] at slots' record
  obtain ⟨-, -, -, calling, -⟩ := thenable_has_one_say (p := ⟨⟨0⟩, 0, ⟨0, 0⟩⟩) (o := ⟨0⟩) reachable_saidThrice hl
    (by rw [slots]; decide) rfl
  obtain ⟨called, -, runs⟩ := calling (.routine 0 "then") (by cbv)
  rw [pairs] at called runs
  obtain ⟨x, hx⟩ := Option.isSome_iff_exists.mp (by cbv : (saidThrice.step.loop? ⟨0⟩).isSome = true)
  obtain ⟨told, hears⟩ := Run.hears (runs_run 11 saidThrice.step) 0
  have used := hears.pair (p := ⟨⟨0⟩, 0, ⟨0, 0⟩⟩) reachable_saidThrice.step hx (by rw [fresh]; rfl) hl'
  have some : told ≠ [] := by
    rintro rfl
    rw [pair] at used
    cases used
  obtain ⟨-, hear⟩ := runs told _ l' hears hl' (by rw [slots']; decide)
  obtain ⟨untouched, -⟩ := (hear .reject (.small 9) said).2 some
  refine ⟨told, l', hears, called, said, some, ?_, hl', record⟩
  rw [run_succ' 11]
  exact untouched

end Machine
end PromiseLoop

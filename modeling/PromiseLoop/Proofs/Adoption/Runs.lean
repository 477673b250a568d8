import PromiseLoop.Proofs.Adoption.Pictures
import PromiseLoop.Proofs.Handles.Collections
import PromiseLoop.Proofs.Scenes.Commands

/-!
# Adoption graphs

A host resolves some promises with each other, so that they follow each other along the edges of a graph,
and drains the loop.  Every job of the drain takes one promise one step further in the web of promises, and
no promise takes more than two steps, so that the drain ends.

## Results

* `Embodies.job`: what one job of the drain does to the web.
* `Embodies.drain`: the drain ends with nothing left to run.
* `Machine.adoptions_settle`: how every promise ends, and how many jobs have been run.
-/

namespace PromiseLoop

open Relation

variable {n : Nat}

/-- The job of a promise that waits to be run. -/
def Web.job (w : Web n) (k : LoopId) (p : Fin n → Promise) (fate : Fin n → Fate n) (i : Fin n) : Job :=
  match w.phase i with
  | .told link side v => .reaction (link.reaction (p i) side) v
  | _ =>
    let target : Value := match fate i with
      | .follows j => .promise (p j)
      | _ => .undefined
    .adoption (p i) target (.function (.method k .then_))

/-- A loop embodies a web: it pictures the web, and its queue holds the jobs of the web. -/
structure Embodies (k : LoopId) (p : Fin n → Promise) (fate : Fin n → Fate n) (l : Loop)
    (pairs : List Pair) (w : Web n) : Prop where
  sound : w.Sound fate
  picture : Pictures k p l pairs w fun i => !(w.phase i).isFresh
  queue : l.microtasks.entries = w.queue.map (w.job k p fate)

/-- A job of a drain takes a loop from one web to the next one. -/
structure Advances (k : LoopId) (p : Fin n → Promise) (fate : Fin n → Fate n) (l : Loop)
    (pairs : List Pair) (w : Web n) (l' : Loop) (pairs' : List Pair) (w' : Web n) : Prop where
  leads : ∀ vars names stack t, (∀ f, t ≠ .fault f) →
    Scene.To k ⟨l, pairs, vars, names, .draining k :: stack, .signal t⟩
      ⟨l', pairs', vars, names, .draining k :: stack, .signal .done⟩
  embodies : Embodies k p fate l' pairs' w'
  cost : w'.cost fate = w.cost fate + 1
  ran : (started l'.history).length = (started l.history).length + 1
  draining : l'.draining = l.draining
  fresh : ∀ i, (w'.phase i).isFresh = (w.phase i).isFresh

theorem Web.job_congr {w w' : Web n} {k : LoopId} {p : Fin n → Promise} {fate : Fin n → Fate n} {a : Fin n}
    (h : w'.phase a = w.phase a) : w'.job k p fate a = w.job k p fate a := by
  rw [Web.job, Web.job, h]

/-- When a promise settles, those that wait for it are told in new jobs. -/
theorem Web.Sound.jobs_settle {w : Web n} {k : LoopId} {p : Fin n → Promise} {fate : Fin n → Fate n}
    {i : Fin n} {side : Side} {v : Value} (h : w.Sound fate) (ready : (w.phase i).isWaiting = false) :
    (w.settle i side v).queue.map ((w.settle i side v).job k p fate) =
      (w.queue.erase i).map (w.job k p fate) ++
        (w.waiters i).map fun j => .reaction (w.reaction p side j) v := by
  show (w.queue.erase i ++ w.waiters i).map _ = _
  rw [List.map_append]
  refine congrArg₂ (· ++ ·) (List.map_congr_left fun a ha => Web.job_congr ?_)
    (List.map_congr_left fun a ha => ?_)
  · have queued := h.mem_queue.mp (List.mem_of_mem_erase ha)
    rw [h.phase_settle side v (h.ne_of_mem_erase ha), if_neg fun hw => ?_]
    rw [Phase.isWaiting_of_isQueued queued] at hw
    cases hw.1
  · have waits := h.mem_waiters.mp ha
    have apart : a ≠ i := fun e => by
      rw [e, ready] at waits
      cases waits.1
    cases hp : w.phase a with
    | waiting link' =>
      have now : (w.settle i side v).phase a = .told link' side v := by
        rw [h.phase_settle side v apart, if_pos waits, hp]
        rfl
      simp [Web.job, Web.reaction, now, hp, Phase.link?]
    | _ =>
      rw [hp] at waits
      cases waits.1

namespace Embodies

variable {k : LoopId} {p : Fin n → Promise} {fate : Fin n → Fate n} {l l' : Loop}
  {pairs pairs' : List Pair} {w w' : Web n} {i j : Fin n} {side : Side} {v : Value} {link : Link}

-- ---------------------------------------------------------------------------
-- Jobs
-- ---------------------------------------------------------------------------

/-- What a job appends comes after its start. -/
theorem of_took {j : Job} {rest : List Job} (h : (l.took j rest).Appends l') :
    (started l'.history).length = (started l.history).length + 1 ∧ l'.draining = l.draining := by
  have draining := h.choose_spec.2.2.2
  refine ⟨?_, draining⟩
  rw [h.started]
  show (started (.started j :: l.history)).length = _
  rw [started_cons]
  simp [Event.started?]

/-- A promise asks the one that it follows. -/
theorem adopt (h : Embodies k p fate l pairs w) {rest : List (Fin n)} (queue : w.queue = i :: rest)
    (asking : w.phase i = .asking) : ∃ l' pairs' w', Advances k p fate l pairs w l' pairs' w' := by
  obtain ⟨j, follows, ne⟩ := Fate.isEdge_iff.mp (h.sound.follows i (.inl (by rw [asking]; rfl)))
  have job : w.job k p fate i = .adoption (p i) (.promise (p j)) (.function (.method k .then_)) := by
    rw [Web.job, asking, follows]
  have entries : l.microtasks.entries =
      .adoption (p i) (.promise (p j)) (.function (.method k .then_)) :: rest.map (w.job k p fate) := by
    rw [h.queue, queue, List.map_cons, job]
  obtain ⟨handled, hr⟩ := h.picture.record_eq_ok j
  let taken := l.took (.adoption (p i) (.promise (p j)) (.function (.method k .then_)))
    (rest.map (w.job k p fate))
  have picture : Pictures k p taken pairs w fun i => !(w.phase i).isFresh := h.picture.of_heap rfl rfl rfl
  obtain ⟨pictured, queued⟩ := picture.register h.sound asking follows hr
  let link : Link := { guard := pairs.length, derived := l.newPromise.1 }
  obtain ⟨x, phase, fresh⟩ : ∃ x : Phase,
      (w.register i j link).phase = Function.update w.phase i x ∧ x.isFresh = false := by
    unfold Web.register
    split <;> exact ⟨_, rfl, rfl⟩
  have sameFresh : ∀ a, ((w.register i j link).phase a).isFresh = (w.phase a).isFresh := fun a => by
    by_cases ha : a = i
    · rw [ha, phase, Function.update_self, fresh, asking]
      rfl
    · rw [phase, Function.update_of_ne ha]
  have away := h.sound.not_mem_rest queue
  have others : rest.map ((w.register i j link).job k p fate) = rest.map (w.job k p fate) :=
    List.map_congr_left fun a ha => Web.job_congr (by
      have apart : a ≠ i := fun e => away (e ▸ ha)
      rw [phase, Function.update_of_ne apart])
  obtain ⟨ran, draining⟩ := of_took
    ((Loop.appends_note taken (e := .invoked (.function (.method taken.id .then_))) rfl rfl).trans
      (Loop.appends_chained _ picture.wf hr))
  refine ⟨taken.followed (p j) (p i) pairs.length _, pairs ++ [{ promise := p i }], w.register i j link,
    fun vars names stack t calm => Scene.to_of_adoption h.picture.native calm
      (Loop.dequeue?_of_entries entries) picture.wf hr ?_, ⟨h.sound.register asking follows link, ?_, ?_⟩,
    Web.cost_register asking j link, ran, draining, sameFresh⟩
  · simp [Loop.handledLate, Web.record]
  · simp only [sameFresh]
    exact pictured
  · refine queued.trans ?_
    cases hp : w.phase j with
    | settled side v =>
      have registered : w.register i j link =
          { w with
            phase := Function.update w.phase i (.told link side v)
            queue := w.queue.erase i ++ [i] } := by
        unfold Web.register
        rw [hp]
      rw [registered] at others ⊢
      rw [queue, List.erase_cons_head] at others ⊢
      rw [List.map_append, others]
      simp only [List.map_cons, List.map_nil, Web.job, Function.update_self]
      rfl
    | _ =>
      have registered : (w.register i j link).queue = w.queue.erase i := by
        unfold Web.register
        rw [hp]
      rw [registered, queue, List.erase_cons_head, others]
      exact List.append_nil _

/-- A promise is told of a settlement, and settles in the same way. -/
theorem pass (h : Embodies k p fate l pairs w) (flat : ∀ i v, fate i = .fulfilled v → v.IsFlat k)
    {rest : List (Fin n)} (queue : w.queue = i :: rest) (told : w.phase i = .told link side v) :
    ∃ l' pairs' w', Advances k p fate l pairs w l' pairs' w' := by
  obtain ⟨j, follows, ne⟩ := Fate.isEdge_iff.mp (h.sound.follows i (.inl (by rw [told]; rfl)))
  have leads : Fate.Leads fate i side v :=
    .on follows ne (h.sound.leads j side v (h.sound.heard i j link side v told follows))
  have job : w.job k p fate i = .reaction (link.reaction (p i) side) v := by rw [Web.job, told]
  have entries : l.microtasks.entries =
      .reaction (link.reaction (p i) side) v :: rest.map (w.job k p fate) := by
    rw [h.queue, queue, List.map_cons, job]
  let taken := l.took (.reaction (link.reaction (p i) side) v) (rest.map (w.job k p fate))
  let called := taken.note (.invoked (.function ((p i).oneShot link.guard side)))
  have picture : Pictures k p called pairs w fun i => !(w.phase i).isFresh := h.picture.of_heap rfl rfl rfl
  have linked : (w.phase i).link? = some link := by rw [told]; rfl
  obtain ⟨guard, home, fresh, others⟩ := picture.links i link linked
  have ready : (w.phase i).isWaiting = false := by rw [told]; rfl
  have unsettled : (w.phase i).isSettled = false := by rw [told]; rfl
  -- the pair is used up, and no other one
  let pairs' := pairs.modify link.guard fun pair => { pair with fired := true }
  have kept : ∀ a link', a ≠ i → (w.phase a).link? = some link' →
      pairs'[link'.guard]? = pairs[link'.guard]? := fun a link' ha hl => by
    have guard' := (picture.links a link' hl).1
    have apart : link.guard ≠ link'.guard := fun e => by
      rw [← e, guard] at guard'
      have same : p i = p a := congrArg Pair.promise (Option.some.inj guard')
      exact ha (picture.inj a i (by rw [same]))
    show (pairs.modify link.guard _)[link'.guard]? = _
    rw [List.getElem?_modify]
    simp [apart]
  obtain ⟨settled, queued⟩ := picture.settledAs h.sound ready unsettled side v kept
  obtain ⟨handled, found⟩ := picture.records i
  have pending : (w.record p i (!(w.phase i).isFresh) handled).state = .pending := by
    show (w.phase i).state = _
    rw [told]
    rfl
  have fresh' : (called.settledAs (p i) side v).heap.get? link.derived.id = some .pending := by
    rw [Loop.get?_settledAs found pending, if_neg (Ne.symm (others i)), fresh]
  obtain ⟨resolved, same⟩ := settled.resolved fresh' others fun a link' hl => by
    obtain ⟨ha, hl⟩ := h.sound.of_link?_settle hl
    exact picture.apart a i link' link hl linked ha
  have sameFresh : ∀ a, ((w.settle i side v).phase a).isFresh = (w.phase a).isFresh := fun a => by
    by_cases ha : a = i
    · have self : (w.settle i side v).phase a = .settled side v := if_pos ha
      rw [self, ha, told]
      rfl
    · rw [h.sound.phase_settle side v ha]
      split
      · rw [Phase.isFresh_tell]
      · rfl
  have jobs : rest.map (w.job k p fate) ++ (w.waiters i).map (fun j => .reaction (w.reaction p side j) v) =
      (w.settle i side v).queue.map ((w.settle i side v).job k p fate) := by
    rw [h.sound.jobs_settle ready, queue, List.erase_cons_head]
  obtain ⟨ran, draining⟩ := of_took
    ((Loop.appends_note taken (e := .invoked (.function ((p i).oneShot link.guard side))) rfl rfl).trans
      ((Loop.appends_settledAs _ _ _ _).trans (Loop.appends_resolved _ link.derived .fulfill .undefined)))
  refine ⟨taken.passedOn (p i) link.guard side v link.derived, pairs', w.settle i side v,
    fun vars names stack t calm => Scene.to_of_passing (picture.home i) h.picture.native calm
      (Loop.dequeue?_of_entries entries) guard (fun e => ?_)
      (Loop.record_eq_ok.mpr ⟨home.trans settled.id.symm, fresh'⟩) rfl,
    ⟨h.sound.settle ready unsettled leads, ?_, (same.trans queued).trans jobs⟩,
    Web.cost_settle side v ?_, ran, draining, sameFresh⟩
  · obtain ⟨a, -, own⟩ := Fate.leads_iff.mp leads
    exact flat a v (Fate.eq_fulfilled_of_own? (e ▸ own))
  · simp only [sameFresh]
    exact resolved
  · rw [Fate.isEdge_iff.mpr ⟨j, follows, ne⟩, told]
    rfl

/-- The drain runs the oldest job. -/
theorem job (h : Embodies k p fate l pairs w) (flat : ∀ i v, fate i = .fulfilled v → v.IsFlat k)
    (waits : w.queue ≠ []) : ∃ l' pairs' w', Advances k p fate l pairs w l' pairs' w' := by
  obtain ⟨i, rest, queue⟩ := List.exists_cons_of_ne_nil waits
  have queued := h.sound.mem_queue.mp (queue ▸ List.mem_cons_self ..)
  cases hp : w.phase i with
  | asking => exact h.adopt queue hp
  | told link side v => exact h.pass flat queue hp
  | _ =>
    rw [hp] at queued
    cases queued

-- ---------------------------------------------------------------------------
-- Drains
-- ---------------------------------------------------------------------------

/-- A drain ends, and leaves nothing to run. -/
theorem drain (h : Embodies k p fate l pairs w) (flat : ∀ i v, fate i = .fulfilled v → v.IsFlat k) :
    ∃ l' pairs' w', (∀ vars names stack t, (∀ f, t ≠ .fault f) →
        Scene.To k ⟨l, pairs, vars, names, .draining k :: stack, .signal t⟩
          ⟨l', pairs', vars, names, stack, .signal .done⟩) ∧
      Embodies k p fate l' pairs' w' ∧ w'.queue = [] ∧ l'.draining = false ∧
      (started l'.history).length + w.cost fate = (started l.history).length + w'.cost fate ∧
      ∀ i, (w'.phase i).isFresh = (w.phase i).isFresh := by
  -- every job adds to the cost, which is bounded
  induction hn : 2 * n - w.cost fate using Nat.strongRecOn generalizing l pairs w with
  | ind N ih =>
    by_cases empty : w.queue = []
    · have entries : l.microtasks.entries = [] := by rw [h.queue, empty, List.map_nil]
      have picture : Pictures k p (l.stopDraining.note .drained) pairs w fun i => !(w.phase i).isFresh :=
        h.picture.of_heap rfl rfl rfl
      refine ⟨l.stopDraining.note .drained, pairs, w,
        fun vars names stack t calm => Scene.to_of_drained calm entries,
        ⟨h.sound, picture, h.queue⟩, empty, rfl, ?_, fun _ => rfl⟩
      show (started (.drained :: l.history)).length + _ = _
      rw [started_cons]
      simp [Event.started?]
    · obtain ⟨l₁, pairs₁, w₁, step⟩ := h.job flat empty
      have bound := w₁.cost_le fate
      have cost := step.cost
      obtain ⟨l', pairs', w', leads, embodies, quiet, rests, ran, fresh⟩ :=
        ih _ (by omega) step.embodies rfl
      refine ⟨l', pairs', w', fun vars names stack t calm =>
        (step.leads vars names stack t calm).trans (leads vars names stack .done fun _ => by simp), embodies, quiet,
        rests, ?_, fun i => (fresh i).trans (step.fresh i)⟩
      have := step.ran
      omega

-- ---------------------------------------------------------------------------
-- What the host does
-- ---------------------------------------------------------------------------

end Embodies

/-- The host deals one promise its fate, and no job is run. -/
structure Dealt (k : LoopId) (p : Fin n → Promise) (fate : Fin n → Fate n) (l : Loop) (pairs : List Pair)
    (w : Web n) (i : Fin n) (l' : Loop) (w' : Web n) : Prop where
  embodies : Embodies k p fate l' pairs w'
  cost : w'.cost fate = w.cost fate
  ran : started l'.history = started l.history
  draining : l'.draining = l.draining
  fresh : ∀ j, (w'.phase j).isFresh = ((w.phase j).isFresh && decide (j ≠ i))

namespace Embodies

variable {k : LoopId} {p : Fin n → Promise} {fate : Fin n → Fate n} {l l' : Loop} {pairs : List Pair}
  {w w' : Web n} {i j : Fin n} {side : Side} {v : Value}

theorem not_mem_of_fresh (h : Embodies k p fate l pairs w) (fresh : w.phase i = .fresh) : i ∉ w.queue :=
  fun mem => by
    have queued := h.sound.mem_queue.mp mem
    rw [fresh] at queued
    cases queued

/-- The locks of the records follow the web when the host deals a promise its fate. -/
theorem locks (fresh : ∀ j, (w'.phase j).isFresh = ((w.phase j).isFresh && decide (j ≠ i))) :
    Function.update (fun a => !(w.phase a).isFresh) i true = fun a => !(w'.phase a).isFresh := by
  funext a
  rw [fresh]
  by_cases ha : a = i
  · rw [ha, Function.update_self]
    simp
  · rw [Function.update_of_ne ha]
    simp [ha]

/-- The host settles a promise, directly or by resolving it with itself. -/
theorem settleOwn (h : Embodies k p fate l pairs w) (fresh : w.phase i = .fresh)
    (own : (fate i).own? i = some (side, v)) :
    Dealt k p fate l pairs w i (l.resolved (p i) side v) (w.settle i side v) := by
  have ready : (w.phase i).isWaiting = false := by rw [fresh]; rfl
  have unsettled : (w.phase i).isSettled = false := by rw [fresh]; rfl
  have dealt : ∀ a, ((w.settle i side v).phase a).isFresh = ((w.phase a).isFresh && decide (a ≠ i)) :=
    fun a => by
      by_cases ha : a = i
      · have self : (w.settle i side v).phase a = .settled side v := if_pos ha
        rw [self, ha]
        simp [Phase.isFresh]
      · rw [h.sound.phase_settle side v ha]
        split <;> simp [ha]
  obtain ⟨settled, queued⟩ := (h.picture.lock i).settledAs h.sound ready unsettled side v
    fun _ _ _ _ => rfl
  have appends := l.appends_resolved (p i) side v
  refine ⟨⟨h.sound.settle ready unsettled (.here own), locks dealt ▸ settled, queued.trans ?_⟩,
    Web.cost_settle (c := 0) side v ?_, appends.started, appends.choose_spec.2.2.2, dealt⟩
  · rw [h.sound.jobs_settle ready, List.erase_of_not_mem (h.not_mem_of_fresh fresh)]
    exact congrArg (· ++ _) h.queue
  · rw [Fate.isEdge_of_own? own, fresh]
    rfl

/-- The host resolves a promise with another one. -/
theorem askOther (h : Embodies k p fate l pairs w) (fresh : w.phase i = .fresh)
    (follows : fate i = .follows j) (ne : j ≠ i) :
    Dealt k p fate l pairs w i
      ((Machine.locked l (p i)).enqueue (.adoption (p i) (.promise (p j)) (.function (.method k .then_))))
      (w.ask i) := by
  have dealt : ∀ a, ((w.ask i).phase a).isFresh = ((w.phase a).isFresh && decide (a ≠ i)) := fun a => by
    show (Function.update w.phase i .asking a).isFresh = _
    by_cases ha : a = i
    · rw [ha, Function.update_self]
      simp [Phase.isFresh]
    · rw [Function.update_of_ne ha]
      simp [ha]
  have asked := (h.picture.lock i).ask fresh
  have others : w.queue.map ((w.ask i).job k p fate) = w.queue.map (w.job k p fate) :=
    List.map_congr_left fun a ha => by
      have apart : a ≠ i := fun e => h.not_mem_of_fresh fresh (e ▸ ha)
      exact Web.job_congr (Function.update_of_ne apart ..)
  have self : (w.ask i).job k p fate i =
      .adoption (p i) (.promise (p j)) (.function (.method k .then_)) := by
    have now : (w.ask i).phase i = .asking := Function.update_self ..
    rw [Web.job, now, follows]
  refine ⟨⟨h.sound.ask fresh follows ne, (locks dealt ▸ asked).of_heap rfl rfl rfl, ?_⟩,
    Web.cost_ask fresh, ?_, rfl, dealt⟩
  · show l.microtasks.entries ++ [_] = (w.queue ++ [i]).map _
    rw [List.map_append, others, List.map_cons, self, h.queue]
    rfl
  · show started (.queued _ :: .attempted _ _ :: l.history) = _
    rw [started_cons, started_cons]
    simp [Event.started?]

end Embodies

-- ---------------------------------------------------------------------------
-- Scripts
-- ---------------------------------------------------------------------------

/-- The step by which the host deals a promise its fate.  The promises are in variables. -/
def Fate.step (name : String) (x : Fin n → String) (y : Fin n → Operand) (i : Fin n) : Fate n → Step
  | .rejected _ => .reject name (.variable (x i)) (y i)
  | .follows j => .resolve name (.variable (x i)) (.variable (x j))
  | _ => .resolve name (.variable (x i)) (y i)

/-- The host deals a promise its fate, or drains the loop. -/
def Fate.command (name : String) (x : Fin n → String) (y : Fin n → Operand) (fate : Fin n → Fate n) :
    Option (Fin n) → Command
  | some i => .step ((fate i).step name x y i) none false
  | none => .step (.drain name) none false

/-- What the host has at hand: the loop under a name, the promises in variables, and the values that it
settles some of them with, none of which has a `then`. -/
structure Deals (m : Machine) (k : LoopId) (name : String) (p : Fin n → Promise) (x : Fin n → String)
    (y : Fin n → Operand) (fate : Fin n → Fate n) : Prop where
  rest : m.stack = []
  loop : m.named? name = some k
  held : ∀ i, m.vars.lookup? (x i) = some (.promise (p i))
  value : ∀ i v, fate i = .fulfilled v ∨ fate i = .rejected v → m.evaluate (y i) = v
  flat : ∀ i v, fate i = .fulfilled v → v.IsFlat k

/-- A machine at rest that has the names and variables of another one, and whose loop embodies a web. -/
structure RestsAt (m₀ m : Machine) (k : LoopId) (p : Fin n → Promise) (fate : Fin n → Fate n) (l : Loop)
    (pairs : List Pair) (w : Web n) : Prop where
  shows : ∃ a, m.Shows k ⟨l, pairs, m₀.vars, m₀.names, [], .idle a⟩
  embodies : Embodies k p fate l pairs w
  rests : l.draining = false

namespace Deals

variable {m₀ m m' : Machine} {k : LoopId} {name : String} {p : Fin n → Promise} {x : Fin n → String}
  {y : Fin n → Operand} {fate : Fin n → Fate n} {l l' : Loop} {pairs : List Pair} {w : Web n} {i : Fin n}

/-- The host deals a promise its fate. -/
theorem call (d : Deals m₀ k name p x y fate) (h : RestsAt m₀ m k p fate l pairs w)
    (fresh : w.phase i = .fresh) (touched : fate i ≠ .untouched) : ∃ l' w',
      (m.start (Fate.command name x y fate (some i))).Comes k
        ⟨l', pairs, m₀.vars, m₀.names, [], .idle .done⟩ ∧ Dealt k p fate l pairs w i l' w' := by
  obtain ⟨a, shows⟩ := h.shows
  have handle : ∀ j, m.evaluate (.variable (x j)) = .promise (p j) := fun j => by
    show (m.vars.lookup? (x j)).getD .undefined = _
    rw [shows.vars, d.held j]
    rfl
  have operand : ∀ z, m.evaluate z = m₀.evaluate z :=
    Machine.evaluate_congr shows.vars (shows.stack.trans d.rest.symm)
  obtain ⟨handled, hr⟩ := h.embodies.picture.record_eq_ok i
  have free : (w.record p i (!(w.phase i).isFresh) handled).alreadyResolved = false := by
    show (!(w.phase i).isFresh) = false
    rw [fresh]
    rfl
  cases hf : fate i with
  | untouched => exact absurd hf touched
  | fulfilled v =>
    have value : m.evaluate (y i) = v := (operand _).trans (d.value i v (.inl hf))
    simp only [Fate.command, hf, Fate.step]
    refine ⟨_, _, shows.start_resolve d.loop (handle i) fun n f hn => ?_,
      h.embodies.settleOwn fresh (show (fate i).own? i = some (.fulfill, v) by rw [hf]; rfl)⟩
    rw [value]
    exact hn.resolve hr free h.embodies.picture.native (d.flat i v hf)
  | rejected v =>
    have value : m.evaluate (y i) = v := (operand _).trans (d.value i v (.inr hf))
    simp only [Fate.command, hf, Fate.step]
    refine ⟨_, _, shows.start_reject d.loop (handle i) fun n f hn => ?_,
      h.embodies.settleOwn fresh (show (fate i).own? i = some (.reject, v) by rw [hf]; rfl)⟩
    rw [value]
    exact hn.reject hr free v
  | follows j =>
    simp only [Fate.command, hf, Fate.step]
    by_cases ne : j = i
    · subst ne
      refine ⟨_, _, shows.start_resolve d.loop (handle j) fun n f hn => ?_,
        h.embodies.settleOwn fresh
          (show (fate j).own? j = some (.reject, Machine.cycleError) by rw [hf]; exact if_pos rfl)⟩
      rw [handle]
      exact hn.resolve_self hr free
    · refine ⟨_, _, shows.start_resolve d.loop (handle i) fun n f hn => ?_,
        h.embodies.askOther fresh hf ne⟩
      rw [handle]
      exact hn.resolve_promise hr free (h.embodies.picture.home j) fun e =>
        ne (h.embodies.picture.inj j i (by rw [e]))

/-- The host drains the loop. -/
theorem drain (d : Deals m₀ k name p x y fate) (h : RestsAt m₀ m k p fate l pairs w) :
    ∃ l' pairs' w', (m.start (Fate.command name x y fate none)).Comes k
        ⟨l', pairs', m₀.vars, m₀.names, [], .idle .done⟩ ∧
      Embodies k p fate l' pairs' w' ∧ w'.queue = [] ∧ l'.draining = false ∧
      (started l'.history).length + w.cost fate = (started l.history).length + w'.cost fate ∧
      ∀ i, (w'.phase i).isFresh = (w.phase i).isFresh := by
  obtain ⟨a, shows⟩ := h.shows
  have begun : Embodies k p fate l.startDraining pairs w :=
    ⟨h.embodies.sound, h.embodies.picture.of_heap rfl rfl rfl, h.embodies.queue⟩
  obtain ⟨l', pairs', w', leads, embodies, quiet, rests, ran, fresh⟩ := begun.drain d.flat
  exact ⟨l', pairs', w', shows.start_drain d.loop h.rests fun f => leads _ _ [f] .done nofun, embodies,
    quiet, rests, ran, fresh⟩

/-- The host deals some promises their fates, one after the other, and drains the loop now and then. -/
theorem script (d : Deals m₀ k name p x y fate) (h : RestsAt m₀ m k p fate l pairs w)
    (script : List (Option (Fin n))) (fresh : ∀ i, some i ∈ script → w.phase i = .fresh)
    (touched : ∀ i, some i ∈ script → fate i ≠ .untouched) (once : (script.filterMap id).Nodup) :
    ∃ m' l' pairs' w', m.Performs (script.map (Fate.command name x y fate)) m' ∧
      RestsAt m₀ m' k p fate l' pairs' w' ∧
      (started l'.history).length + w.cost fate = (started l.history).length + w'.cost fate ∧
      ∀ i, (w'.phase i).isFresh = ((w.phase i).isFresh && decide (some i ∉ script)) := by
  induction script generalizing m l pairs w with
  | nil => exact ⟨m, l, pairs, w, .nil m, h, rfl, by simp⟩
  | cons c script ih =>
    have later : ∀ i, some i ∈ script → some i ∈ c :: script := fun i => List.mem_cons_of_mem c
    cases c with
    | none =>
      obtain ⟨l₁, pairs₁, w₁, comes, embodies, -, rests, ran, kept⟩ := d.drain h
      obtain ⟨steps, shown, idle⟩ := comes.idle rfl
      obtain ⟨m', l', pairs', w', performs, at_end, ran', dealt⟩ := ih ⟨⟨_, shown⟩, embodies, rests⟩
        (fun i hi => (Phase.isFresh_iff.mp ((kept i).trans (Phase.isFresh_iff.mpr (fresh i (later i hi))))))
        (fun i hi => touched i (later i hi)) once
      refine ⟨m', l', pairs', w', .cons steps idle performs, at_end, by omega, fun i => ?_⟩
      rw [dealt, kept]
      simp
    | some i =>
      have nodup : i ∉ script.filterMap id ∧ (script.filterMap id).Nodup := List.nodup_cons.mp once
      have absent : some i ∉ script := fun hi => nodup.1 (List.mem_filterMap.mpr ⟨some i, hi, rfl⟩)
      obtain ⟨l₁, w₁, comes, dealt⟩ :=
        d.call h (fresh i (List.mem_cons_self ..)) (touched i (List.mem_cons_self ..))
      obtain ⟨steps, shown, idle⟩ := comes.idle rfl
      have still : ∀ j, some j ∈ script → w₁.phase j = .fresh := fun j hj => by
        have ne : j ≠ i := fun e => absent (e ▸ hj)
        have now := dealt.fresh j
        rw [fresh j (later j hj)] at now
        exact Phase.isFresh_iff.mp (now.trans (by simp [Phase.isFresh, ne]))
      obtain ⟨m', l', pairs', w', performs, at_end, ran', rest⟩ :=
        ih ⟨⟨_, shown⟩, dealt.embodies, dealt.draining.trans h.rests⟩ still
          (fun j hj => touched j (later j hj)) nodup.2
      have cost := dealt.cost
      rw [dealt.ran] at ran'
      refine ⟨m', l', pairs', w', .cons steps idle performs, at_end, by omega, fun j => ?_⟩
      rw [rest, dealt.fresh]
      by_cases hj : j = i <;> simp [hj, Bool.and_comm]

end Deals

-- ---------------------------------------------------------------------------
-- Adoption graphs
-- ---------------------------------------------------------------------------

/-- The state of a promise and what it was settled with. -/
def Loop.standing (l : Loop) (p : Promise) : Option (State × Option Value) :=
  (l.heap.get? p.id).map fun r => (r.state, r.value)

namespace Machine

variable {m : Machine} {k : LoopId} {l : Loop} {name : String} {p : Fin n → Promise}
  {x : Fin n → String} {y : Fin n → Operand} {fate : Fin n → Fate n}

/-- Promises that are held by variables have ids of their own. -/
theorem eq_of_id_eq (hm : Reachable m) (hl : m.loop? k = some l) (rest : m.stack = [])
    (room : l.heap.slots.length < 2 ^ 32) {a b : String} {q q' : Promise}
    (ha : m.vars.lookup? a = some (.promise q)) (hb : m.vars.lookup? b = some (.promise q'))
    (home : q.home = k) (home' : q'.home = k) (hid : q.id = q'.id) : q = q' := by
  obtain ⟨answer, hc⟩ := (hm.balanced ⟨0⟩).2.idle rest
  have ledger := hm.ledger hl room (by rw [hc]; rfl) (by rw [Machine.pendingOf, rest]; rfl)
  have rooted : ∀ {c : String} {z : Promise}, m.vars.lookup? c = some (.promise z) → z.home = k →
      z ∈ m.rooted k := fun hz home => by
    exact mem_rooted.mpr ⟨home, .inl (mem_kept_of_lookup? hz rfl)⟩
  exact ledger.distinct q q' (rooted ha home) (rooted hb home') hid

/-- A machine at rest whose loop has nothing to run and some fresh promises. -/
theorem restsAt_new (hm : Reachable m) (d : Deals m k name p x y fate)
    (hl : m.loop? k = some l) (native : l.bridge = .native) (quiet : l.microtasks.entries = [])
    (fresh : ∀ i, l.record (p i) = .ok .pending) (distinct : Function.Injective p)
    (room : l.heap.slots.length + n ≤ 2 ^ 32) :
    RestsAt m m k p fate l m.pairs (Web.new n) := by
  obtain ⟨shows, rests⟩ := hm.shows_rest d.rest d.loop hl
  have id : l.id = k := hm.placed k l hl
  refine ⟨shows, ⟨Web.sound_new fate, ⟨id, native, hm.wf hl,
    fun i => (Loop.record_eq_ok.mp (fresh i)).1.trans id, fun i j e => ?_, ?_,
    fun i => ⟨false, (Loop.record_eq_ok.mp (fresh i)).2⟩, nofun, nofun⟩, quiet⟩, rests⟩
  · have slots : l.heap.slots.length < 2 ^ 32 := by
      have := i.isLt
      omega
    exact distinct (eq_of_id_eq hm hl d.rest slots (d.held i) (d.held j)
      ((Loop.record_eq_ok.mp (fresh i)).1.trans id) ((Loop.record_eq_ok.mp (fresh j)).1.trans id) e)
  · have all : (Finset.univ.filter fun i => ((Web.new n).phase i).isUnlinked) = Finset.univ := by
      simp [Web.new, Phase.isUnlinked]
    rw [all, Finset.card_univ, Fintype.card_fin]
    exact room

end Machine

/-- The promises of a web with nothing left to run, of which the untouched ones only are fresh. -/
structure Rested (k : LoopId) (p : Fin n → Promise) (fate : Fin n → Fate n) (l : Loop)
    (pairs : List Pair) (w : Web n) : Prop where
  embodies : Embodies k p fate l pairs w
  idle : w.queue = []
  begun : ∀ i, w.phase i = .fresh → fate i = .untouched

namespace Rested

variable {k : LoopId} {p : Fin n → Promise} {fate : Fin n → Fate n} {l : Loop} {pairs : List Pair}
  {w : Web n} {i j : Fin n} {side : Side} {v : Value}

theorem standing (h : Rested k p fate l pairs w) (i : Fin n) :
    l.standing (p i) = some ((w.phase i).state, (w.phase i).value?) := by
  obtain ⟨handled, hr⟩ := h.embodies.picture.records i
  rw [Loop.standing, hr]
  rfl

theorem isSettled_iff (h : Rested k p fate l pairs w) (i : Fin n) :
    (w.phase i).isSettled = true ↔ l.standing (p i) ≠ some (.pending, none) := by
  rw [h.standing]
  cases w.phase i <;> simp [Phase.isSettled, Phase.state, Phase.value?]

/-- A promise settles as the one does to which its edges lead. -/
theorem settled (h : Rested k p fate l pairs w) (side : Side) (reaches : Fate.Reaches fate i j)
    (own : (fate j).own? j = some (side, v)) : l.standing (p i) = some (side.state, some v) := by
  have leads : Fate.Leads fate i side v := Fate.leads_iff.mpr ⟨j, reaches, own⟩
  rw [h.standing, (h.embodies.sound.settled_iff h.idle h.begun).mpr leads]
  rfl

/-- A promise that leads to no settlement is left pending. -/
theorem pending (h : Rested k p fate l pairs w) (never : ∀ side v, ¬ Fate.Leads fate i side v) :
    l.standing (p i) = some (.pending, none) := by
  by_contra settled
  cases hp : w.phase i with
  | settled side v => exact never side v (h.embodies.sound.leads i side v hp)
  | _ =>
    rw [h.standing, hp] at settled
    exact settled rfl

theorem cost (h : Rested k p fate l pairs w) : w.cost fate =
    (Finset.univ.filter fun i => ∃ j, fate i = .follows j ∧ j ≠ i).card +
      (Finset.univ.filter fun i => ∃ j, fate i = .follows j ∧ j ≠ i ∧
        l.standing (p j) ≠ some (.pending, none)).card := by
  have cost := h.embodies.sound.cost_of_idle h.idle h.begun
  simpa only [Fate.isEdge_iff, h.isSettled_iff] using cost

end Rested

namespace Machine

variable {m : Machine} {k : LoopId} {l : Loop} {name : String} {p : Fin n → Promise}
  {x : Fin n → String} {y : Fin n → Operand} {fate : Fin n → Fate n}

/-- The host leaves some of `n` fresh promises alone, fulfills or rejects some, and resolves the others with
one of them, in any order and with drains in between.  Then a last drain ends, and every promise has
settled as the one has to which the edges lead; those that lead to an untouched promise or to a cycle of two
or more are left pending.  One job has been run for every edge between two promises, and one more for every
such edge whose target has settled. -/
theorem adoptions_settle (hm : Reachable m) (d : Deals m k name p x y fate)
    (hl : m.loop? k = some l) (native : l.bridge = .native) (quiet : l.microtasks.entries = [])
    (fresh : ∀ i, l.record (p i) = .ok .pending) (distinct : Function.Injective p)
    (room : l.heap.slots.length + n ≤ 2 ^ 32) (script : List (Option (Fin n)))
    (once : (script.filterMap id).Nodup) (dealt : ∀ i, some i ∈ script ↔ fate i ≠ .untouched) :
    ∃ m' l', m.Performs ((script ++ [none]).map (Fate.command name x y fate)) m' ∧
      m'.control = .idle .done ∧ m'.loop? k = some l' ∧ l'.microtasks.entries = [] ∧
      (∀ i j v, Fate.Reaches fate i j → fate j = .fulfilled v →
        l'.standing (p i) = some (.fulfilled, some v)) ∧
      (∀ i j v, Fate.Reaches fate i j → fate j = .rejected v →
        l'.standing (p i) = some (.rejected, some v)) ∧
      (∀ i j, Fate.Reaches fate i j → fate j = .follows j →
        l'.standing (p i) = some (.rejected, some cycleError)) ∧
      (∀ i j, Fate.Reaches fate i j → fate j = .untouched → l'.standing (p i) = some (.pending, none)) ∧
      (∀ i j c, Fate.Reaches fate i j → fate j = .follows c → c ≠ j → Fate.Reaches fate c j →
        l'.standing (p i) = some (.pending, none)) ∧
      (started l'.history).length = (started l.history).length +
        (Finset.univ.filter fun i => ∃ j, fate i = .follows j ∧ j ≠ i).card +
        (Finset.univ.filter fun i => ∃ j, fate i = .follows j ∧ j ≠ i ∧
          l'.standing (p j) ≠ some (.pending, none)).card := by
  obtain ⟨m₁, l₁, pairs₁, w₁, performs, rests, ran₁, fresh₁⟩ :=
    d.script (restsAt_new hm d hl native quiet fresh distinct room) script (fun _ _ => rfl)
      (fun i hi => (dealt i).mp hi) once
  obtain ⟨l', pairs', w, comes, embodies, done, -, ran₂, fresh₂⟩ := d.drain rests
  obtain ⟨steps, shown, ended⟩ := comes.idle rfl
  obtain ⟨releases, hl'⟩ := shown.loop
  have begun : ∀ i, w.phase i = .fresh → fate i = .untouched := fun i hi => by
    have absent := (fresh₂ i).symm.trans (Phase.isFresh_iff.mpr hi)
    rw [fresh₁] at absent
    by_contra touched
    simp [(dealt i).mpr touched] at absent
  have rested : Rested k p fate { l' with releases } pairs' w :=
    ⟨⟨embodies.sound, embodies.picture.of_heap rfl rfl rfl, embodies.queue⟩, done, begun⟩
  refine ⟨_, { l' with releases }, ?_, shown.control, hl', rested.embodies.queue.trans (by rw [done]; rfl),
    fun i j v reaches h => rested.settled .fulfill reaches (by rw [h]; rfl),
    fun i j v reaches h => rested.settled .reject reaches (by rw [h]; rfl),
    fun i j reaches h => rested.settled .reject reaches (by rw [h]; exact if_pos rfl),
    fun i j reaches h => rested.pending fun _ _ => Fate.not_leads_of_untouched reaches h,
    fun i j c reaches h ne back => rested.pending fun _ _ => Fate.not_leads_of_cycle reaches h ne back, ?_⟩
  · rw [List.map_append]
    exact performs.append (.cons steps ended (.nil _))
  · have cost := rested.cost
    have nothing : (Web.new n).cost fate = 0 := by simp [Web.cost, Web.new, Phase.cost]
    show (started l'.history).length = _
    omega

/-- A machine whose script has put four new promises in variables. -/
def fourFresh : Machine :=
  let new (name : String) : Command := .step (.newPromise "main") (some name) false
  (boot {} .log .native).obey [new "p", new "q", new "r", new "s"]

/-- The promises of `fourFresh`. -/
def fourPromises (i : Fin 4) : Promise :=
  { home := ⟨0⟩, serial := i.val, id := ⟨UInt32.ofNat i.val, 0⟩ }

/-- One promise follows one that is fulfilled, one follows itself, and one follows the first one. -/
def fourFates : Fin 4 → Fate 4 := ![.follows 1, .fulfilled (.small 7), .follows 2, .follows 0]

theorem eq_of_fourFates {i : Fin 4} {v : Value}
    (h : fourFates i = .fulfilled v ∨ fourFates i = .rejected v) : v = .small 7 := by
  match i with
  | 1 => simpa [fourFates, eq_comm] using h
  | 0 | 2 | 3 => simp [fourFates] at h

theorem deals_fourFresh : Deals fourFresh ⟨0⟩ "main" fourPromises ![ "p", "q", "r", "s"]
    (fun _ => .constant (.small 7)) fourFates where
  rest := by cbv
  loop := by cbv
  held
    | 0 | 1 | 2 | 3 => by cbv
  value i v h := by
    obtain rfl := eq_of_fourFates h
    rfl
  flat i v h := by
    obtain rfl := eq_of_fourFates (.inl h)
    trivial

theorem adoptions_settle_fourFresh : ∃ m' l',
    fourFresh.Performs ([some 3, some 0, none, some 2, some 1, none].map
      (Fate.command "main" ![ "p", "q", "r", "s"] (fun _ => .constant (.small 7)) fourFates)) m' ∧
      m'.loop? ⟨0⟩ = some l' ∧ l'.standing (fourPromises 3) = some (.fulfilled, some (.small 7)) ∧
      l'.standing (fourPromises 2) = some (.rejected, some cycleError) := by
  obtain ⟨l, hl⟩ := Option.isSome_iff_exists.mp (by cbv : (fourFresh.loop? ⟨0⟩).isSome = true)
  have native : (fourFresh.loop? ⟨0⟩).map Loop.bridge = some .native := by cbv
  have quiet : (fourFresh.loop? ⟨0⟩).map (fun l => l.microtasks.entries) = some [] := by cbv
  have slots : (fourFresh.loop? ⟨0⟩).map (fun l => l.heap.slots.length) = some 4 := by cbv
  have fresh : ∀ i, (fourFresh.loop? ⟨0⟩).map (fun l => l.record (fourPromises i)) =
      some (.ok .pending) := by
    intro i
    fin_cases i <;> cbv
  simp only [hl, Option.map_some, Option.some.injEq] at native quiet slots fresh
  obtain ⟨m', l', performs, -, hl', -, fulfilled, -, cyclic, -⟩ :=
    adoptions_settle (.obey (.boot _ _ _) _) deals_fourFresh hl native quiet fresh
      (fun i j h => by simpa [fourPromises, Fin.ext_iff] using congrArg Promise.serial h)
      (by rw [slots]; decide) [some 3, some 0, none, some 2, some 1] (by decide) (by decide)
  exact ⟨m', l', performs, hl', fulfilled 3 1 _ (.head rfl (.head rfl .refl)) rfl, cyclic 2 2 .refl rfl⟩

end Machine
end PromiseLoop

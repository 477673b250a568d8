import PromiseLoop.Proofs.Drains
import PromiseLoop.Proofs.Scenes.Jobs

/-!
# Commands of the host in a scene

What the commands make of a scene by which a host resolves and rejects promises and drains a loop, given
to a machine that is at rest.

## Results

* `Machine.Performs`: what becomes of a machine that is given some commands.
* `Machine.Shows.start_withPromise`, `Machine.Shows.start_drain`: how such a command is carried out.
-/

namespace PromiseLoop

namespace Machine

variable {m m' m'' : Machine} {k : LoopId} {s s' : Scene}

/-- Some commands are given to a machine one after the other, each when it is idle again, and all of them
come to an end. -/
inductive Performs : Machine → List Command → Machine → Prop
  | nil (m : Machine) : Performs m [] m
  | cons {m m' : Machine} {c : Command} {cs : List Command} (n : Nat)
      (idle : (run n (m.start c)).isIdle = true) (rest : Performs (run n (m.start c)) cs m') :
      Performs m (c :: cs) m'

theorem Performs.append {cs cs' : List Command} (h : Performs m cs m') (h' : Performs m' cs' m'') :
    Performs m (cs ++ cs') m'' := by
  induction h with
  | nil => exact h'
  | cons n idle _ ih => exact .cons n idle (ih h')

/-- A drain of a loop that rests begins with its frame. -/
theorem drain_of_rests {l : Loop} (hl : m.loop? k = some l) (rests : l.draining = false) :
    m.drain k = ((m.setLoop l.startDraining).push (.draining k)).signal .done := by
  unfold drain
  rw [hl]
  simp only [rests, Bool.false_eq_true, if_false]

/-- Outside of any activity the value of an operand depends on the variables only. -/
theorem evaluate_congr (vars : m'.vars = m.vars) (stack : m'.stack = m.stack) (x : Operand) :
    m'.evaluate x = m.evaluate x := by
  have scope : m'.scope = m.scope := by rw [Machine.scope, Machine.scope, stack]
  have round : m'.round = m.round := by rw [Machine.round, Machine.round, stack]
  cases x <;> simp [evaluate, evaluateIn, scope, round, vars]

namespace Shows

variable {name : String}

theorem named? (h : m.Shows k s) (name : String) :
    m.named? name = (s.names.find? fun e => e.1 = name).map Prod.snd := by
  rw [Machine.named?, h.names]

end Shows

/-- A command of the host that has done its work ends with no answer. -/
theorem endCommand_done (info : CommandInfo) (operands : List Value) (hs : m.stack = []) :
    m.endCommand info operands (.signal .done) =
      { drop operands (m.signal .done) with control := .idle .done } := by
  have stored : (drop operands (m.signal .done)).storeValue info .done = drop operands (m.signal .done) := by
    unfold storeValue
    rfl
  unfold endCommand
  dsimp only
  rw [stored, showAnswer, stack_drop, show (m.signal .done).stack = [] from hs]
  exact drop_nil _

/-- A machine that comes to show that a command has ended is idle then. -/
theorem Comes.idle (h : m.Comes k s) {a : Answer} (hc : s.control = .idle a) :
    ∃ n, (run n m).Shows k s ∧ (run n m).isIdle = true := by
  obtain ⟨i, shown⟩ := h
  obtain ⟨j, shown, settled⟩ := shown.exists_settled
  rw [← run_add] at shown settled
  refine ⟨i + j, shown, ?_⟩
  unfold Machine.isIdle
  rw [shown.control, hc, settled]
  rfl

end Machine

namespace Scene

variable {k : LoopId} {l : Loop} {pairs : List Pair} {vars : Variables}
  {names : List (String × LoopId)}

/-- A command of the host ends, and the machine is idle. -/
theorem to_of_command (info : CommandInfo) (operands : List Value) :
    To k ⟨l, pairs, vars, names, [.command info operands], .signal .done⟩
      ⟨l, pairs, vars, names, [], .idle .done⟩ :=
  to_of_resume fun m hm => by
    show (m.endCommand info operands (.signal .done)).Comes k _
    rw [Machine.endCommand_done info operands hm.stack]
    exact (hm.drop_signal operands .done).spend.comes

end Scene

namespace Machine.Shows

variable {m : Machine} {k : LoopId} {name : String} {l l' : Loop} {pairs pairs' : List Pair}
  {vars vars' : Variables} {names names' : List (String × LoopId)} {a : Answer} {p : Promise}
  {x y : Operand} {store : Option String} {catches : Bool}

/-- A command that works on a loop runs above its own frame, and then the machine is idle again. -/
theorem withLoop {info : CommandInfo} {operands : List Value} {act : Machine → LoopId → Machine}
    (h : m.Shows k ⟨l, pairs, vars, names, [], .idle a⟩)
    (hk : (names.find? fun e => e.1 = name).map Prod.snd = some k)
    (done : ∀ (n : Machine) (f : Frame), n.Shows k ⟨l, pairs, vars, names, [f], .idle a⟩ →
      (act n k).Comes k ⟨l', pairs', vars', names', [f], .signal .done⟩) :
    (m.withLoop info name operands act).Comes k ⟨l', pairs', vars', names', [], .idle .done⟩ := by
  have found : m.named? name = some k := (h.named? name).trans hk
  rw [Machine.withLoop, found]
  exact (done _ _ (h.push _)).to (Scene.to_of_command _ _)

theorem spendTrace (h : m.Shows k ⟨l, pairs, vars, names, [], .idle a⟩) :
    ({ m with trace := [] } : Machine).Shows k ⟨l, pairs, vars, names, [], .idle a⟩ :=
  ⟨h.placed, h.named, h.loop, h.pairs, h.vars, h.names, h.stack, h.control⟩

theorem start_resolve (h : m.Shows k ⟨l, pairs, vars, names, [], .idle a⟩)
    (hk : (names.find? fun e => e.1 = name).map Prod.snd = some k) (hx : m.evaluate x = .promise p)
    (done : ∀ (n : Machine) (f : Frame), n.Shows k ⟨l, pairs, vars, names, [f], .idle a⟩ →
      (n.resolve k p (m.evaluate y)).Comes k ⟨l', pairs', vars', names', [f], .signal .done⟩) :
    (m.start (.step (.resolve name x y) store catches)).Comes k
      ⟨l', pairs', vars', names', [], .idle .done⟩ := by
  have same (z : Operand) : ({ m with trace := [] } : Machine).evaluate z = m.evaluate z :=
    evaluate_congr rfl rfl z
  unfold Machine.start Machine.beginStep
  simp only [Machine.withPromise, same, hx, Value.asPromise?]
  exact h.spendTrace.withLoop hk done

theorem start_reject (h : m.Shows k ⟨l, pairs, vars, names, [], .idle a⟩)
    (hk : (names.find? fun e => e.1 = name).map Prod.snd = some k) (hx : m.evaluate x = .promise p)
    (done : ∀ (n : Machine) (f : Frame), n.Shows k ⟨l, pairs, vars, names, [f], .idle a⟩ →
      (n.reject k p (m.evaluate y)).Comes k ⟨l', pairs', vars', names', [f], .signal .done⟩) :
    (m.start (.step (.reject name x y) store catches)).Comes k
      ⟨l', pairs', vars', names', [], .idle .done⟩ := by
  have same (z : Operand) : ({ m with trace := [] } : Machine).evaluate z = m.evaluate z :=
    evaluate_congr rfl rfl z
  unfold Machine.start Machine.beginStep
  simp only [Machine.withPromise, same, hx, Value.asPromise?]
  exact h.spendTrace.withLoop hk done

/-- A drain that is asked for at rest runs until its frame is resumed for the last time. -/
theorem start_drain (h : m.Shows k ⟨l, pairs, vars, names, [], .idle a⟩)
    (hk : (names.find? fun e => e.1 = name).map Prod.snd = some k) (rests : l.draining = false)
    (done : ∀ f, Scene.To k ⟨l.startDraining, pairs, vars, names, [.draining k, f], .signal .done⟩
      ⟨l', pairs', vars', names', [f], .signal .done⟩) :
    (m.start (.step (.drain name) store catches)).Comes k
      ⟨l', pairs', vars', names', [], .idle .done⟩ := by
  unfold Machine.start Machine.beginStep
  refine h.spendTrace.withLoop hk fun n f hn => ?_
  obtain ⟨releases, hl⟩ := hn.loop
  rw [drain_of_rests hl rests]
  exact (((hn.setLoop (l := l.startDraining) hn.id_loop releases).push (.draining k)).signal .done).comes.to
    (done f)

end Machine.Shows

/-- A machine at rest shows what it has of a named loop, and the loop does not drain. -/
theorem Machine.Reachable.shows_rest {m : Machine} {k : LoopId} {name : String} {l : Loop}
    (hm : Reachable m) (rest : m.stack = []) (loop : m.named? name = some k) (hl : m.loop? k = some l) :
    (∃ a, m.Shows k ⟨l, m.pairs, m.vars, m.names, [], .idle a⟩) ∧ l.draining = false := by
  obtain ⟨answer, hc⟩ := (hm.balanced ⟨0⟩).2.idle rest
  have named : (m.names.any fun e => e.2 = k) = true := by
    obtain ⟨e, found, rfl⟩ := Option.map_eq_some_iff.mp loop
    exact List.any_eq_true.mpr ⟨e, List.mem_of_find?_eq_some found, by simp⟩
  refine ⟨⟨answer, hm.placed, named, ⟨l.releases, hl⟩, rfl, rfl, rfl, rest, hc⟩, ?_⟩
  cases hd : l.draining with
  | false => rfl
  | true =>
    have mem := (hm.draining_iff hl).mp hd
    rw [rest] at mem
    cases mem

end PromiseLoop

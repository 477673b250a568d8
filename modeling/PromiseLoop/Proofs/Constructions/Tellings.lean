import PromiseLoop.Proofs.Constructions.Initializers
import PromiseLoop.Proofs.RecordStates

/-!
# What a constructed promise is told

A promise that has been constructed is told something when one of the two functions of its construction is
called, or when its initializer throws.  Both take the lock of its record, as does whoever resolves or
rejects the promise itself.  Whoever comes first decides; everybody else is refused.

## Results

* `Tells.exists_attempt`: everything that the promise is told is an attempt on it.
* `Tells.decides`: what is told first decides, and whatever is told later is refused.
-/

namespace PromiseLoop.Machine

open Relation

variable {m m' n : Machine} {k : LoopId} {l : Loop} {p : Promise} {r : Record} {side : Side} {x : Value}
  {told : List (Side × Value)}

/-- A move that tells a promise something: one of the two functions of its construction is called, its
initializer has thrown, or somebody resolves or rejects the promise itself. -/
inductive Tells (p : Promise) (m : Machine) : Side → Value → Machine → Prop
  | call {this : Value} {arguments : List Value} (side : Side) (settled : m.orphan? = none)
      (control : m.control = .call (p.settling side) this arguments) :
      Tells p m side (arguments.headD .undefined) m.step
  | thrown {x : Value} {base : List Frame} (settled : m.orphan? = none)
      (stack : m.stack = .constructing p :: base) (control : m.control = .signal (.thrown x)) :
      Tells p m .reject x m.step
  | resolve {name : String} {y x : Operand} {info : CommandInfo} {scene m' : Machine}
      (issues : m.Issues (.resolve name y x) info scene m') (named : scene.named? name = some p.home)
      (value : scene.evaluate y = .promise p) : Tells p m .fulfill (scene.evaluate x) m'
  | reject {name : String} {y x : Operand} {info : CommandInfo} {scene m' : Machine}
      (issues : m.Issues (.reject name y x) info scene m') (named : scene.named? name = some p.home)
      (value : scene.evaluate y = .promise p) : Tells p m .reject (scene.evaluate x) m'

/-- A run during which somebody has a handle on a promise, and what the promise is told meanwhile. -/
inductive Told (p : Promise) (m : Machine) : List (Side × Value) → Machine → Prop
  | nothing : Told p m [] m
  | quiet {n n' : Machine} {told : List (Side × Value)} (before : Told p m told n)
      (held : n.holds (.promise p) = true) (next : Next n n') (quiet : ∀ side x, ¬ n.Tells p side x n') :
      Told p m told n'
  | tells {n n' : Machine} {told : List (Side × Value)} {side : Side} {x : Value} (before : Told p m told n)
      (tells : n.Tells p side x n') : Told p m (told ++ [(side, x)]) n'

theorem Tells.next (h : m.Tells p side x m') : Next m m' := by
  cases h with
  | call side settled control => exact .step m
  | thrown settled stack control => exact .step m
  | resolve issues named value => exact issues.next
  | reject issues named value => exact issues.next

/-- Whoever tells a promise something has a handle on it. -/
theorem Tells.holds (h : m.Tells p side x m') : m.holds (.promise p) = true := by
  cases h with
  | call side settled control =>
    exact holds_of_mem (v := .function (p.settling side)) (mem_held.mpr (.inl (by simp [control, Control.held]))) rfl
  | @thrown x base settled stack control =>
    refine holds_of_mem (v := .promise p) (mem_held.mpr (.inr (.inr (.inl ?_)))) rfl
    exact List.mem_flatMap.mpr ⟨_, stack ▸ List.mem_cons_self .., by simp [Frame.held]⟩
  | resolve issues named value => exact issues.holds value
  | reject issues named value => exact issues.holds value

theorem Told.run (h : m.Told p told m') : Run m m' := by
  induction h with
  | nothing => exact .refl
  | quiet before held next quiet ih => exact ih.tail next
  | tells before tells ih => exact ih.tail tells.next

/-- Whether the next move of a machine may tell a promise something. -/
def mayTell (m : Machine) (p : Promise) : Bool :=
  match m.control, m.stack with
  | .idle _, _ => true
  | .call (.resolver r) _ _, _ => r.promise = p
  | .signal (.thrown _), .constructing q :: _ => q = p
  | .signal .done, .block (.step (.resolve ..) _ _ :: _) :: _ => true
  | .signal .done, .block (.step (.reject ..) _ _ :: _) :: _ => true
  | _, _ => false

theorem Tells.mayTell (h : m.Tells p side x m') : m.mayTell p = true := by
  have idles (idle : m.isIdle = true) : m.mayTell p = true := by
    unfold isIdle at idle
    split at idle
    · rename_i hc
      simp [Machine.mayTell, hc]
    · cases idle
  cases h with
  | call side settled control => simp [Machine.mayTell, control, Promise.settling]
  | thrown settled stack control => simp [Machine.mayTell, stack, control]
  | resolve issues named value =>
    cases issues with
    | given idle _ _ => exact idles idle
    | met settled stack control => simp [Machine.mayTell, stack, control]
  | reject issues named value =>
    cases issues with
    | given idle _ _ => exact idles idle
    | met settled stack control => simp [Machine.mayTell, stack, control]

/-- A run that has been followed while nothing could be told. -/
theorem Told.run_quiet (ran : m.Told p told n) {d : Nat} (quiet : ((List.range d).all fun i =>
    (Machine.run i n).holds (.promise p) && !(Machine.run i n).mayTell p) = true) : m.Told p told (Machine.run d n) := by
  induction d with
  | zero => exact ran
  | succ d ih =>
    rw [List.range_succ, List.all_append, Bool.and_eq_true] at quiet
    obtain ⟨held, silent⟩ : (Machine.run d n).holds (.promise p) = true ∧ (Machine.run d n).mayTell p = false := by
      simpa using quiet.2
    rw [run_succ']
    refine .quiet (ih quiet.1) held (.step _) fun side x tells => ?_
    rw [tells.mayTell] at silent
    cases silent

/-- A machine that has taken the lock of a promise, and to which nothing else has happened.  Values that were
let go may have released promises. -/
structure Locks (m : Machine) (p : Promise) (l : Loop) (m' : Machine) : Prop where
  own : ∃ releases, m'.loop? p.home = some { locked l p with releases }
  others : ∀ k, k ≠ p.home → OnlyReleases (m.loop? k) (m'.loop? k)
  vars : m'.vars = m.vars

theorem locks_of_eq (hl : m.loop? p.home = some l) (hid : l.id = p.home) {n : Machine}
    (loops : n.loops = (m.setLoop (locked l p)).loops) (vars : n.vars = m.vars) : m.Locks p l n where
  own := by
    have put : (m.setLoop (locked l p)).loop? p.home = some (locked l p) := by
      rw [← hid]
      exact loop?_setLoop_self (by rw [hid]; exact hl) rfl
    exact ⟨l.releases, by rw [loop?, loops]; exact put⟩
  others k hk := ⟨[], by
    have put : (m.setLoop (locked l p)).loop? k = m.loop? k :=
      loop?_modifyLoop_of_ne m (show l.id ≠ k from hid ▸ Ne.symm hk) _
    rw [loop?, loops]
    exact put.trans (by simp)⟩
  vars := vars

theorem Locks.drop (h : m.Locks p l m') (vs : List Value) : m.Locks p l (Machine.drop vs m') where
  own := by
    obtain ⟨releases, own⟩ := h.own
    obtain ⟨released, look⟩ := loop?_drop_of vs own
    exact ⟨_, look⟩
  others k hk := by
    obtain ⟨released, before⟩ := h.others k hk
    obtain ⟨more, after⟩ := exists_loop?_drop vs m' k
    refine ⟨released ++ more, ?_⟩
    rw [after, before, Option.map_map]
    congr 1
    funext l
    simp
  vars := (vars_drop vs m').trans h.vars

/-- A call of one of the functions, with the lock free: the promise is resolved or rejected. -/
theorem exists_hear_of_free (hl : m.loop? p.home = some l) (hr : l.record p = .ok r)
    (free : r.alreadyResolved = false) (this : Value) (arguments : List Value) :
    ∃ n, m.Locks p l n ∧ m.enter (p.settling side) this arguments = n.hear p side (arguments.headD .undefined) := by
  have hid : l.id = p.home := (Loop.record_eq_ok.mp hr).1.symm
  let claimed := (m.setLoop (locked l p)).push (.give .undefined [this])
  let heard := Machine.drop (arguments.drop 1) (claimed.signal (.value (arguments.headD .undefined)))
  have begun : m.Locks p l (claimed.signal (.value (arguments.headD .undefined))) :=
    locks_of_eq hl hid rfl rfl
  have locks : m.Locks p l heard := begun.drop _
  refine ⟨heard.signal .done, ⟨locks.own, locks.others, locks.vars⟩, ?_⟩
  show m.enterResolver { promise := p, guard := .lock, side } this arguments = _
  unfold enterResolver claim
  simp only [hl, lock_of_free hr free, Except.map, Option.isNone_some, Bool.false_eq_true, if_false]
  cases side <;> rfl

/-- An initializer that has thrown, with the lock free: the promise is rejected. -/
theorem exists_hear_of_thrown (hl : m.loop? p.home = some l) (hr : l.record p = .ok r)
    (free : r.alreadyResolved = false) (x : Value) :
    ∃ n, m.Locks p l n ∧ m.resumeConstructing p (.thrown x) = n.hear p .reject x := by
  have hid : l.id = p.home := (Loop.record_eq_ok.mp hr).1.symm
  let waiting := (m.push (.surface [])).push (.give (.promise p) [])
  refine ⟨waiting.setLoop (locked l p), locks_of_eq hl hid rfl rfl, ?_⟩
  show waiting.reject p.home p x = _
  unfold reject withLock
  simp only [show waiting.loop? p.home = some l from hl, lock_of_free hr free]
  rfl

/-- With the lock free, a promise that is resolved or rejected goes on from there. -/
theorem exists_hear_of_host (hl : m.loop? p.home = some l) (hr : l.record p = .ok r)
    (free : r.alreadyResolved = false) (side : Side) (x : Value) :
    ∃ n, m.Locks p l n ∧ (Attempt.host side x).run m p = n.hear p side x := by
  have hid : l.id = p.home := (Loop.record_eq_ok.mp hr).1.symm
  refine ⟨m.setLoop (locked l p), locks_of_eq hl hid rfl rfl, ?_⟩
  have begun (act : Machine → Machine) : m.withLock p.home p x act = act (m.setLoop (locked l p)) := by
    unfold withLock
    simp only [hl, lock_of_free hr free]
  cases side with
  | fulfill => exact begun fun n => n.resolveLocked p x
  | reject => exact begun fun n => n.settle p .rejected x []

/-- Every telling is an attempt on the promise. -/
theorem Tells.exists_attempt (h : m.Tells p side x m') : ∃ (n : Machine) (a : Attempt), n.loops = m.loops ∧
    n.vars = m.vars ∧ n.trace <:+ m.trace ∧ m' = a.run n p ∧ (∀ l, a.IsOn l p) ∧ (∀ l, a.landed l = l) ∧
    ∀ l r, n.loop? p.home = some l → l.record p = .ok r → r.alreadyResolved = false →
      ∃ n', n.Locks p l n' ∧ a.run n p = n'.hear p side x := by
  cases h with
  | @call this arguments side settled control =>
    refine ⟨m.signal .done, .call side this arguments, rfl, rfl, List.suffix_rfl, ?_, fun _ => trivial, fun _ => rfl,
      fun l r hl hr free => exists_hear_of_free hl hr free this arguments⟩
    rw [Machine.step, settled, control]
    rfl
  | @thrown x base settled stack control =>
    exact ⟨{ m with stack := base, control := .signal .done }, .thrown x, rfl, rfl, List.suffix_rfl,
      step_of_signal settled control stack, fun _ => trivial, fun _ => rfl,
      fun l r hl hr free => exists_hear_of_thrown hl hr free x⟩
  | @resolve name y x info scene m' issues named value =>
    refine ⟨scene.push (.command { info with loop := some p.home } [.promise p]), .host .fulfill (scene.evaluate x),
      issues.loops, ?_, ?_, ?_, fun _ => trivial, fun _ => rfl, fun l r hl hr free => exists_hear_of_host hl hr free _ _⟩
    · cases issues <;> rfl
    · cases issues
      · exact List.nil_suffix
      · exact List.suffix_rfl
    · rw [issues.begins]
      exact withPromise_eq named value _
  | @reject name y x info scene m' issues named value =>
    refine ⟨scene.push (.command { info with loop := some p.home } [.promise p]), .host .reject (scene.evaluate x),
      issues.loops, ?_, ?_, ?_, fun _ => trivial, fun _ => rfl, fun l r hl hr free => exists_hear_of_host hl hr free _ _⟩
    · cases issues <;> rfl
    · cases issues
      · exact List.nil_suffix
      · exact List.suffix_rfl
    · rw [issues.begins]
      exact withPromise_eq named value _

/-- What the promise is told first decides: it takes the lock, and the promise is resolved or rejected.
Whatever is told later is refused. -/
theorem Tells.decides (hm : Reachable m) (hl : m.loop? p.home = some l) (room : l.heap.slots.length < 2 ^ 32)
    (h : m.Tells p side x m') : ∃ r n, l.record p = .ok r ∧ n.loops = m.loops ∧ n.vars = m.vars ∧ n.trace <:+ m.trace ∧
      (r.alreadyResolved = false → ∃ n', n.Locks p l n' ∧ m' = n'.hear p side x) ∧
      (r.alreadyResolved = true → Refused n p l m') := by
  obtain ⟨n, a, loops, vars, trace, step, on, landed, hears⟩ := h.exists_attempt
  obtain ⟨r, hr⟩ := hm.record_of_held hl room rfl ((has_control_held _).mpr h.holds)
  have hn : n.loop? p.home = some l := by rwa [loop?, loops]
  refine ⟨r, n, hr, loops, vars, trace, fun free => step ▸ hears l r hn hr free, fun taken => ?_⟩
  have refused := refused_run hn hr taken a (on l)
  rwa [landed, ← step] at refused

end PromiseLoop.Machine

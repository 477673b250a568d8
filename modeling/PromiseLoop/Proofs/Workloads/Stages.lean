import PromiseLoop.Proofs.Background.Idling
import PromiseLoop.Proofs.Reports
import PromiseLoop.Proofs.Workloads.Bodies

/-!
# How far a run until done has come

A run until done is in one of its runs until idle, and that in one of its cycles: in a task, in the drain of the
checkpoint that follows, or in the reports of that checkpoint.  An entry that fails breaks off its drain, its
checkpoint, its cycle and both runs with its fault, and whatever is left stays in the queues.  `Stage` says where
a run is, whether an entry is running, and which fault is on its way.

## Results

* `Stage.step`: how a step goes on from a stage, which entry begins with it, and which ends.
* `Stage.run`: what a run until done hands back, and how its entries have ended.
-/

namespace PromiseLoop

open Relation

-- ---------------------------------------------------------------------------
-- How entries end
-- ---------------------------------------------------------------------------

/-- The fault of a signal. -/
def Signal.fault? : Signal → Option Fault
  | .fault f => some f
  | _ => none

/-- The fault with which an entry fails, if its body ends with the given signal. -/
def Signal.failure? : Signal → Option Fault
  | .fault f => some f
  | .thrown v => some (.task v.display)
  | _ => none

/-- Whether the entries of a loop are begun above a frame. -/
def Frame.hosts (k : LoopId) : Frame → Bool
  | .draining l | .cycling l => l = k
  | _ => false

theorem Frame.turns_of_hosts {k : LoopId} {f : Frame} (h : f.hosts k = true) : f.turns k = true := by
  cases f <;> first | exact h | cases h

theorem Loop.awaiting_of_outside {l l' : Loop} (h : ReflTransGen Outside l l') : l'.awaiting = l.awaiting := by
  induction h with
  | refl => rfl
  | tail _ h ih => exact h.awaiting.trans ih

namespace Machine

variable {k : LoopId} {m m' : Machine} {base fs above : List Frame} {f : Frame} {l l' : Loop}
  {s : Signal} {n : Nat}

/-- How an entry of the loop ends with the next step, if one does: with a fault, or without. -/
def entryEnd? (k : LoopId) (m : Machine) : Option (Option Fault) :=
  match m.orphan?, m.control, m.stack with
  | none, .signal s, .work _ :: f :: _ => if f.hosts k then some s.failure? else none
  | _, _, _ => none

/-- How the entries of the loop end that end in the next steps. -/
def outcomes (k : LoopId) : Nat → Machine → List (Option Fault)
  | 0, _ => []
  | n + 1, m => (m.entryEnd? k).toList ++ outcomes k n m.step

theorem entryEnd?_of_orphan (h : m.orphan? = some l) : m.entryEnd? k = none := by
  simp [entryEnd?, h]

theorem entryEnd?_of_stack (hs : m.stack = f :: fs) (other : f.isWork = false) : m.entryEnd? k = none := by
  unfold entryEnd?
  split
  · rename_i work
    rw [hs] at work
    rw [(List.cons.inj work).1] at other
    cases other
  · rfl

theorem entryEnd?_of_control (hc : ∀ s, m.control ≠ .signal s) : m.entryEnd? k = none := by
  unfold entryEnd?
  split
  · rename_i signal _
    exact absurd signal (hc _)
  · rfl

/-- Above frames that wait, no entry of the loop ends. -/
theorem entryEnd?_of_busy (hs : m.stack = above ++ base) (ordinary : Ordinary k above) (busy : ¬ IsBackAt base m) :
    m.entryEnd? k = none := by
  match above with
  | [] => exact entryEnd?_of_control fun s hc => busy ⟨hs, s, hc⟩
  | [f] => exact entryEnd?_of_stack hs (by simpa using ordinary.idle)
  | f :: g :: above =>
    unfold entryEnd?
    split
    · rename_i work
      rw [hs] at work
      obtain ⟨rfl, -⟩ := List.cons.inj (List.cons.inj work).2
      have unturned := ordinary.unturned g (by simp)
      rw [if_neg fun hosts => ?_]
      rw [Frame.turns_of_hosts hosts] at unturned
      cases unturned
    · rfl

theorem entryEnd?_of_work {q : Bool} (ho : m.orphan? = none) (hc : m.control = .signal s)
    (hs : m.stack = .work q :: f :: fs) (hosts : f.hosts k = true) : m.entryEnd? k = some s.failure? := by
  simp [entryEnd?, ho, hc, hs, hosts]

/-- A step only removes a loop, and no entry ends with it, or there is nothing to remove. -/
theorem still_or_settled (hp : m.Placed) (kept : m.keepsLoop k = true) :
    (m.entryEnd? k = none ∧ m.step.stack = m.stack ∧ m.step.control = m.control ∧ Aside k m m.step) ∨
      m.orphan? = none := by
  cases ho : m.orphan? with
  | none => exact .inr rfl
  | some l =>
    rcases step_removes_or m hp kept with removed | settled
    · exact .inl ⟨entryEnd?_of_orphan ho, removed⟩
    · rw [ho] at settled
      cases settled

-- ---------------------------------------------------------------------------
-- Stages
-- ---------------------------------------------------------------------------

/-- The frames of a run until done that is in one of its runs until idle. -/
abbrev idlingOn (k : LoopId) (base : List Frame) : List Frame := .idling k :: .finishing k :: base

/-- The frames of such a run in the drain of a checkpoint. -/
abbrev drainingOn (k : LoopId) (base : List Frame) : List Frame := .draining k :: .checkpoint k :: idlingOn k base

/-- The loop is alive, and no promise is on its list of rejections. -/
def HasReported (k : LoopId) (m : Machine) : Prop := ∃ l, m.loop? k = some l ∧ l.awaiting = []

/-- The loop has nothing left to do, and no promise is on its list of rejections. -/
def HasFinished (k : LoopId) (m : Machine) : Prop :=
  ∃ l, m.loop? k = some l ∧ l.isIdle = true ∧ l.workers = [] ∧ l.awaiting = []

/-- A fault that has come to the frames of a turn goes on to those beneath it. -/
inductive Falls (k : LoopId) (base : List Frame) : List Frame → List Frame → Prop
  | draining : Falls k base (drainingOn k base) (.checkpoint k :: idlingOn k base)
  | checkpoint : Falls k base (.checkpoint k :: idlingOn k base) (idlingOn k base)
  | cycling : Falls k base (.cycling k :: idlingOn k base) (idlingOn k base)
  | idling : Falls k base (idlingOn k base) (.finishing k :: base)
  | finishing : Falls k base (.finishing k :: base) base

/-- How far a run until done has come for which `base` waits, whether an entry is running, and which fault is on
its way to `base`. -/
inductive Stage (k : LoopId) (base : List Frame) (m : Machine) : Bool → Option Fault → Prop
  /-- An entry runs, as a task or in a drain. -/
  | entry (above : List Frame) {fs : List Frame} {q : Bool}
      (host : fs = .cycling k :: idlingOn k base ∨ fs = drainingOn k base)
      (hs : m.stack = above ++ .work q :: fs) (ordinary : Ordinary k above) : Stage k base m true none
  /-- A job of a promise or of background work runs, or the next job is about to be taken. -/
  | job (above : List Frame) (hs : m.stack = above ++ drainingOn k base) (ordinary : Ordinary k above)
      (shut : Sealed (drainingOn k base) m) : Stage k base m false none
  /-- A task has ended. -/
  | rested (hs : m.stack = .cycling k :: idlingOn k base) (hc : m.control = .signal .done) :
      Stage k base m false none
  /-- A drain has ended. -/
  | drained (hs : m.stack = .checkpoint k :: idlingOn k base) (hc : m.control = .signal .done) :
      Stage k base m false none
  /-- The tracker hears of a rejection. -/
  | telling (above : List Frame) {f : Frame} (closes : f.closes = true) (own : f.tells k = true)
      (hs : m.stack = above ++ f :: idlingOn k base) (ordinary : Ordinary k above) (reported : HasReported k m) :
      Stage k base m false none
  /-- The collection of a checkpoint looks at the next record. -/
  | sweeping {s : Sweep} (hs : m.stack = idlingOn k base) (hc : m.control = .collect k s)
      (closes : s.closes = true) (reported : HasReported k m) : Stage k base m false none
  /-- A checkpoint has ended. -/
  | checked (hs : m.stack = idlingOn k base) (hc : m.control = .signal .done) (reported : HasReported k m) :
      Stage k base m false none
  /-- A run until idle has ended. -/
  | rests {l : Loop} (hs : m.stack = .finishing k :: base) (hc : m.control = .signal .done)
      (hl : m.loop? k = some l) (idle : l.isIdle = true) (reported : l.awaiting = []) : Stage k base m false none
  /-- A fault is on its way. -/
  | failing {fs next : List Frame} {f : Fault} (hs : m.stack = fs) (falls : Falls k base fs next)
      (hc : m.control = .signal (.fault f)) : Stage k base m false (some f)
  /-- The run has ended. -/
  | back {s : Signal} (hs : m.stack = base) (hc : m.control = .signal s)
      (finished : s.fault? = none → s = .done ∧ HasFinished k m) : Stage k base m false s.fault?

/-- A step leads from a stage to another one.  The entries that have begun with it are added to the history, and
the fault of an entry that has ended with it is on its way. -/
def Proceeds (k : LoopId) (base : List Frame) (m : Machine) (l : Loop) (running : Bool) (broken : Option Fault) :
    Prop :=
  ∃ running' broken' l' ws, Stage k base m.step running' broken' ∧ m.step.loop? k = some l' ∧
    entries l'.history = entries l.history ++ ws ∧
    ws.length + running.toNat = (m.entryEnd? k).toList.length + running'.toNat ∧
    broken'.toList = broken.toList ++ (m.entryEnd? k).toList.filterMap id

variable {running : Bool} {broken : Option Fault}

/-- No entry begins or ends. -/
theorem Stage.goesOn (h : Stage k base m.step running broken) (quiet : m.entryEnd? k = none)
    (hl' : m.step.loop? k = some l') (bides : l.Bides l') : Proceeds k base m l running broken :=
  ⟨running, broken, l', [], h, hl', by rw [bides.entries, List.append_nil], by simp [quiet], by simp [quiet]⟩

/-- Nothing but a removal of another loop. -/
theorem Stage.still (h : Stage k base m.step running broken) (quiet : m.entryEnd? k = none)
    (hl : m.loop? k = some l) (aside : Aside k m m.step) : Proceeds k base m l running broken := by
  obtain ⟨l', hl', outside⟩ := aside.stays l hl
  exact h.goesOn quiet hl' (Loop.bides_of_outside outside)

theorem HasReported.aside (h : HasReported k m) (aside : Aside k m m') : HasReported k m' := by
  obtain ⟨l, hl, awaiting⟩ := h
  obtain ⟨l', hl', outside⟩ := aside.stays l hl
  exact ⟨l', hl', (Loop.awaiting_of_outside outside).trans awaiting⟩

-- ---------------------------------------------------------------------------
-- Beginning cycles
-- ---------------------------------------------------------------------------

theorem control_checkpoint (m : Machine) (k : LoopId) : (m.checkpoint k).control = .signal .done := by
  unfold checkpoint drain
  split
  · rfl
  · split <;> rfl

theorem bides_checkpoint (hl : m.loop? k = some l) (id : l.id = k) :
    ∃ x, (m.checkpoint k).loop? k = some x ∧ l.Bides x := by
  have delivered : ((m.modifyLoop k Loop.deliver).push (.checkpoint k)).loop? k = some l.deliver :=
    loop?_deliver hl
  cases hd : l.deliver.draining with
  | true =>
    refine ⟨l.deliver, ?_, l.bides_deliver⟩
    rw [checkpoint, drain_of_draining delivered hd]
    exact delivered
  | false =>
    refine ⟨l.deliver.startDraining, ?_, l.bides_deliver.trans (Loop.bides_of_eq rfl rfl)⟩
    subst id
    simp only [checkpoint, drain, delivered, hd]
    let pushed : Machine := (m.modifyLoop l.id Loop.deliver).push (.checkpoint l.id)
    have found : pushed.loop? l.deliver.id = some l.deliver := by
      rw [Loop.id_deliver]
      exact delivered
    have set : (pushed.setLoop l.deliver.startDraining).loop? l.deliver.id = _ := loop?_setLoop_self found rfl
    rw [Loop.id_deliver] at set
    exact set

/-- A checkpoint begins with its drain. -/
theorem stage_checkpoint (hs : m.stack = idlingOn k base) (hl : m.loop? k = some l) (idle : l.draining = false) :
    Stage k base (m.checkpoint k) false none := by
  have stack : (m.checkpoint k).stack = drainingOn k base := (stack_checkpoint hl idle).trans (by rw [hs])
  exact .job [] stack (.nil k) ⟨[], stack, by rw [control_checkpoint]; rfl⟩

/-- Where no task waits, a cycle is a checkpoint. -/
theorem cycle_of_empty (hl : m.loop? k = some l) (empty : l.tasks.entries = []) :
    m.cycle k = (m.modifyLoop k Loop.deliver).checkpoint k := by
  have none : l.deliver.dequeueTask? = none := by
    rw [Loop.dequeueTask?, (Queue.dequeue?_eq_none_iff _).mpr (by simp [Queue.isEmpty, empty])]
    rfl
  simp only [cycle, loop?_deliver hl, Option.bind_some, none]

/-- A cycle begins with a task, or with its checkpoint. -/
theorem stage_cycle (hs : m.stack = idlingOn k base) (hl : m.loop? k = some l) (id : l.id = k)
    (idle : l.draining = false) : ∃ running l' ws, Stage k base (m.cycle k) running none ∧
      (m.cycle k).loop? k = some l' ∧ entries l'.history = entries l.history ++ ws ∧
      ws.length = running.toNat := by
  cases ht : l.tasks.entries with
  | cons w ws =>
    obtain ⟨hl', stack⟩ := cycle_of_waits hl id ht
    rw [hs] at stack
    have ordinary : Ordinary k [.block w.body] := .singleton rfl rfl
    refine ⟨true, _, [w], .entry [.block w.body] (.inl rfl) stack ordinary, hl', ?_, rfl⟩
    show entries (.taskStarted w :: l.deliver.history) = _
    rw [entries_cons, l.bides_deliver.entries]
    rfl
  | nil =>
    have delivered := loop?_deliver hl
    have begun := cycle_of_empty hl ht
    obtain ⟨x, hx, bides⟩ := bides_checkpoint delivered (l.id_deliver.trans id)
    have stage : Stage k base (m.cycle k) false none :=
      begun ▸ stage_checkpoint hs delivered (l.draining_deliver.trans idle)
    refine ⟨false, x, [], stage, begun ▸ hx, ?_, rfl⟩
    rw [(l.bides_deliver.trans bides).entries, List.append_nil]

/-- A run until done begins with a cycle. -/
theorem stage_finish (hl : m.loop? k = some l) (id : l.id = k) (idle : l.draining = false) :
    ∃ running l' ws, Stage k m.stack (m.finish k) running none ∧ (m.finish k).loop? k = some l' ∧
      entries l'.history = entries l.history ++ ws ∧ ws.length = running.toNat :=
  stage_cycle (m := (m.push (.finishing k)).push (.idling k)) rfl hl id idle

end Machine
end PromiseLoop

import Mathlib
import PromiseLoop.Machine.Step

/-!
# A machine as one of its loops sees it

Most of what a machine does is no business of a given loop: bodies run, variables change, frames
come and go.  The *view* of a loop keeps what is: its own state, the turns that have been begun for
it, and whether it is being collected.  `Loop.Outside`, `View.Plain`, `View.Final`, `View.Resume`
and `View.Sweeping` list everything that can happen to a view.  Script may call anything at any time,
so most of it may happen at any time.

An operation of the machine is `Aside` if it only touches the loop from outside, `Quiet` if it goes
through light moves, and it `Goes` if it ends with at most one move after which either the tracker is
being told something or a collection is under way.

## Results

* `Machine.Goes.quiet_trans`, `Machine.Goes.trans_aside`: how operations follow each other.
* `Machine.aside_drop`: letting values go happens outside of the loop.
-/

namespace PromiseLoop

open Relation

-- ---------------------------------------------------------------------------
-- Views
-- ---------------------------------------------------------------------------

/-- Whether a frame is a turn of a loop that the loop has to remember. -/
def Frame.isTurnOf (loop : LoopId) : Frame → Bool
  | .attaching derived _ => derived.home = loop
  | .draining l => l = loop
  | .reporting l _ => l = loop
  | .collecting l _ _ => l = loop
  | _ => false

/-- The collection of a loop that a control is busy with. -/
def Control.sweepOf (loop : LoopId) : Control → Option Sweep
  | .collect l s => if l = loop then some s else none
  | _ => none

/-- What a loop sees of a machine. -/
structure View where
  loop : Loop
  /-- The turns that have been begun for the loop, innermost first. -/
  turns : List Frame
  /-- The collection of the loop that the machine is busy with. -/
  sweep : Option Sweep

/-- The view of a loop that has just been created. -/
def View.fresh (id : LoopId) (config : Config) (tracker : Tracker) (bridge : Bridge) : View :=
  { loop := { id, config, tracker, bridge }, turns := [], sweep := none }

namespace Machine

def turnsOf (m : Machine) (loop : LoopId) : List Frame := m.stack.filter (Frame.isTurnOf loop)

def sweepOf (m : Machine) (loop : LoopId) : Option Sweep := m.control.sweepOf loop

/-- Every loop has the number of its place. -/
def Placed (m : Machine) : Prop := ∀ id l, m.loop? id = some l → l.id = id

end Machine

-- ---------------------------------------------------------------------------
-- What can happen to a view
-- ---------------------------------------------------------------------------

/-- Whether an event is a question to the bridge. -/
def Event.isQuestion : Event → Bool
  | .invoked _ => true
  | .probed _ => true
  | _ => false

/-- Whether a job runs a reaction. -/
def Job.isReaction : Job → Bool
  | .reaction _ _ => true
  | _ => false

/-- What happens to a loop without any of its operations being called. -/
inductive Loop.Outside : Loop → Loop → Prop
  | released (l : Loop) (id : PromiseId) : Outside l (l.release id)
  | posted (l : Loop) (r : Report) : Outside l (l.post r)
  | workerReleased (l : Loop) : Outside l l.releaseWorker.2

/-- What the operations of a loop do to the loop alone. -/
inductive Loop.Called : Loop → Loop → Prop
  | asked (l : Loop) {e : Event} (h : e.isQuestion = true) : Called l (l.note e)
  | created (l : Loop) : Called l l.newPromise.2
  | attempted {l l' : Loop} {p : Promise} {accepted : Bool} (h : l.lock p = .ok (accepted, l')) :
      Called l l'
  | settled (l : Loop) (id : PromiseId) (s : State) (v : Value) : Called l (l.settle id s v).1
  | attached {l : Loop} {p : Promise} {f r : Option Value} {a : Loop.Attached}
      (h : l.attach p f r = .ok a) (prompt : a.late = false) :
      Called l (a.loop.endAttach a.derived a.job)
  | queued (l : Loop) {j : Job} (h : j.isReaction = false) : Called l (l.enqueue j)
  | delivered (l : Loop) : Called l l.deliver
  | received {l l' : Loop} (h : l.receive? = some l') : Called l l'
  | taskQueued (l : Loop) (w : Work) : Called l (l.enqueueTask w)
  | taskTaken {l l' : Loop} {w : Work} (h : l.dequeueTask? = some (w, l')) : Called l l'
  | flown (l : Loop) : Called l l.openFlight.2
  | workerAdded (l : Loop) (p : Promise) : Called l (l.addWorker p)
  | workerWaits (l : Loop) (r : Report) : Called l (l.addWaiting r)
  | landed (l : Loop) (id : PromiseId) : Called l (l.land id).2

namespace View

/-- Moves that neither take a microtask nor end a drain, and after which neither the tracker is being
told anything new nor a collection begins. -/
inductive Light : View → View → Prop
  | outside {l l' : Loop} {turns : List Frame} {sweep : Option Sweep} (h : l.Outside l') :
      Light ⟨l, turns, sweep⟩ ⟨l', turns, sweep⟩
  | called {l l' : Loop} {turns : List Frame} (h : l.Called l') :
      Light ⟨l, turns, none⟩ ⟨l', turns, none⟩
  | drainBegun {l : Loop} {turns : List Frame} (h : l.draining = false) :
      Light ⟨l, turns, none⟩ ⟨l.startDraining, .draining l.id :: turns, none⟩

/-- Moves after which neither the tracker is being told anything new nor a collection begins. -/
inductive Plain : View → View → Prop
  | light {v v' : View} (h : v.Light v') : Plain v v'
  | taken {l l' : Loop} {j : Job} {turns : List Frame} (h : l.dequeue? = some (j, l')) :
      Plain ⟨l, .draining l.id :: turns, none⟩ ⟨l', .draining l.id :: turns, none⟩
  | drainEnded {l : Loop} {turns : List Frame} (h : l.dequeue? = none) :
      Plain ⟨l, .draining l.id :: turns, none⟩ ⟨l.stopDraining.note .drained, turns, none⟩
  | drainBroken {l : Loop} {turns : List Frame} :
      Plain ⟨l, .draining l.id :: turns, none⟩ ⟨l.stopDraining, turns, none⟩

/-- Moves after which the tracker is being told something, or a collection is under way. -/
inductive Final : View → View → Prop
  | attachedLate {l : Loop} {turns : List Frame} {p : Promise} {f r : Option Value} {a : Loop.Attached}
      (h : l.attach p f r = .ok a) (late : a.late = true) :
      Final ⟨l, turns, none⟩ ⟨a.loop, .attaching a.derived a.job :: turns, none⟩
  | selected (l : Loop) (turns : List Frame) :
      Final ⟨l, turns, none⟩
        ⟨l.takeReports.2, .reporting l.id l.takeReports.1 :: turns, none⟩
  | swept (l : Loop) (turns : List Frame) :
      Final ⟨l, turns, none⟩ ⟨l, turns, some { closes := false }⟩

/-- What happens when the tracker has been told something. -/
inductive Resume : View → View → Prop
  | attachEnded {l : Loop} {turns : List Frame} {derived : Promise} {job : Option Job} :
      Resume ⟨l, .attaching derived job :: turns, none⟩ ⟨l.endAttach derived job, turns, none⟩
  | reported {l : Loop} {turns : List Frame} {id : PromiseId} {reason : Value}
      {rest : List (PromiseId × Value)} :
      Resume ⟨l, .reporting l.id ((id, reason) :: rest) :: turns, none⟩
        ⟨l.report id reason, .reporting l.id rest :: turns, none⟩
  | reportsSwept {l : Loop} {turns : List Frame} :
      Resume ⟨l, .reporting l.id [] :: turns, none⟩ ⟨l, turns, some { closes := true }⟩
  | reportsChecked {l : Loop} {turns : List Frame} :
      Resume ⟨l, .reporting l.id [] :: turns, none⟩ ⟨l.note .checked, turns, none⟩
  | sweptOn {l : Loop} {turns : List Frame} {s : Sweep} {r : Record} :
      Resume ⟨l, .collecting l.id s r :: turns, none⟩ ⟨l, turns, some s⟩

/-- What a collection does. -/
inductive Sweeping : View → View → Prop
  | taken {l : Loop} {turns : List Frame} {s : Sweep} (h : s.pending = []) (more : l.releases ≠ []) :
      Sweeping ⟨l, turns, some s⟩ ⟨l.takeReleases.2, turns, some { s with pending := l.releases }⟩
  | skipped {l : Loop} {turns : List Frame} {s : Sweep} {id : PromiseId} {rest : List PromiseId}
      (h : s.pending = id :: rest) (stale : l.free? id = none) :
      Sweeping ⟨l, turns, some s⟩ ⟨l, turns, some { s with pending := rest }⟩
  | freed {l l' : Loop} {turns : List Frame} {s : Sweep} {id : PromiseId} {rest : List PromiseId}
      {r : Record} (h : s.pending = id :: rest) (found : l.free? id = some (r, l'))
      (silent : l.reportsOnFree r = false) :
      Sweeping ⟨l, turns, some s⟩
        ⟨l', turns, some { s with pending := rest, count := s.count + 1 }⟩
  | reported {l l' : Loop} {turns : List Frame} {s : Sweep} {id : PromiseId}
      {rest : List PromiseId} {r : Record} (h : s.pending = id :: rest)
      (found : l.free? id = some (r, l')) (reports : l.reportsOnFree r = true) :
      Sweeping ⟨l, turns, some s⟩
        ⟨l', .collecting l.id { s with pending := rest, count := s.count + 1 } r :: turns, none⟩
  | ended {l : Loop} {turns : List Frame} {s : Sweep} (h : s.pending = []) (empty : l.releases = []) :
      Sweeping ⟨l, turns, some s⟩ ⟨if s.closes then l.note .checked else l, turns, none⟩

/-- Everything that can happen to a view. -/
inductive Move : View → View → Prop
  | plain {v v' : View} (h : v.Plain v') : Move v v'
  | final {v v' : View} (h : v.Final v') : Move v v'
  | resume {v v' : View} (h : v.Resume v') : Move v v'
  | sweeping {v v' : View} (h : v.Sweeping v') : Move v v'

/-- Only the loop has been touched, and only from outside. -/
def Aside (v v' : View) : Prop :=
  ReflTransGen Loop.Outside v.loop v'.loop ∧ v'.turns = v.turns ∧ v'.sweep = v.sweep

/-- Any number of light moves. -/
def Quiet : View → View → Prop := ReflTransGen Light

/-- Light moves, then at most one final one. -/
def Goes (v v' : View) : Prop :=
  ∃ a b, v.Quiet a ∧ (a = b ∨ a.Final b) ∧ b.Aside v'

end View

-- ---------------------------------------------------------------------------
-- Relations on views
-- ---------------------------------------------------------------------------

namespace View

theorem Aside.refl (v : View) : v.Aside v := ⟨.refl, rfl, rfl⟩

theorem Aside.trans {u v w : View} (h : u.Aside v) (h' : v.Aside w) : u.Aside w :=
  ⟨h.1.trans h'.1, h'.2.1.trans h.2.1, h'.2.2.trans h.2.2⟩

theorem Aside.quiet {v v' : View} (h : v.Aside v') : v.Quiet v' := by
  obtain ⟨l, turns, sweep⟩ := v
  obtain ⟨l', turns', sweep'⟩ := v'
  obtain ⟨hl, rfl, rfl⟩ := h
  exact ReflTransGen.lift (View.mk · turns' sweep') (fun _ _ h => .outside h) _ _ hl

/-- No collection begins in a light move. -/
theorem Light.sweep_eq_none {v v' : View} (h : v.Light v') (hs : v.sweep = none) :
    v'.sweep = none := by
  cases h with
  | outside h => exact hs
  | _ => rfl

theorem Quiet.trans {u v w : View} (h : u.Quiet v) (h' : v.Quiet w) : u.Quiet w :=
  ReflTransGen.trans h h'

theorem Quiet.sweep_eq_none {v v' : View} (h : v.Quiet v') (hs : v.sweep = none) :
    v'.sweep = none := by
  induction h with
  | refl => exact hs
  | tail _ h ih => exact h.sweep_eq_none ih

theorem Quiet.goes {v v' : View} (h : v.Quiet v') : v.Goes v' := ⟨v', v', h, .inl rfl, .refl v'⟩

theorem Quiet.trans_goes {u v w : View} (h : u.Quiet v) (h' : v.Goes w) : u.Goes w := by
  obtain ⟨a, b, hv, hab, hb⟩ := h'
  exact ⟨a, b, h.trans hv, hab, hb⟩

theorem Goes.trans_aside {u v w : View} (h : u.Goes v) (h' : v.Aside w) : u.Goes w := by
  obtain ⟨a, b, hu, hab, hb⟩ := h
  exact ⟨a, b, hu, hab, hb.trans h'⟩

theorem Quiet.moves {v v' : View} (h : v.Quiet v') : ReflTransGen Move v v' :=
  ReflTransGen.mono (fun _ _ h => .plain (.light h)) _ _ h

theorem Goes.moves {v v' : View} (h : v.Goes v') : ReflTransGen Move v v' := by
  obtain ⟨a, b, hv, hab, hb⟩ := h
  refine hv.moves.trans (.trans ?_ hb.quiet.moves)
  rcases hab with rfl | hab
  · exact .refl
  · exact .single (.final hab)

end View

-- ---------------------------------------------------------------------------
-- Relations on machines
-- ---------------------------------------------------------------------------

namespace Machine

/-- What a loop sees of a machine, if the loop is alive. -/
def sees (m : Machine) (loop : LoopId) : Option View :=
  (m.loop? loop).map fun l => ⟨l, m.turnsOf loop, m.sweepOf loop⟩

/-- Nothing in the machine belongs to the loop. -/
structure Absent (m : Machine) (loop : LoopId) : Prop where
  gone : m.loop? loop = none
  turns : m.turnsOf loop = []
  sweep : m.sweepOf loop = none

/-- A later machine in which a loop has only been touched from outside. -/
structure Aside (loop : LoopId) (m m' : Machine) : Prop where
  placed : m.Placed → m'.Placed
  size : m.loops.length ≤ m'.loops.length
  stays : ∀ l, m.loop? loop = some l →
    ∃ l', m'.loop? loop = some l' ∧ ReflTransGen Loop.Outside l l'
  gone : m.loop? loop = none → m'.loop? loop = none
  turns : m'.turnsOf loop = m.turnsOf loop
  sweep : m'.sweepOf loop = m.sweepOf loop

/-- A later machine whose view of a loop is related to the earlier one, if no collection of the loop
was under way.  A loop may have been opened in between. -/
structure Relates (R : View → View → Prop) (loop : LoopId) (m m' : Machine) : Prop where
  placed : m.Placed → m'.Placed
  size : m.loops.length ≤ m'.loops.length
  stays : m.Placed → ∀ v, m.sees loop = some v → v.sweep = none →
    ∃ v', m'.sees loop = some v' ∧ R v v'
  gone : m.Placed → m.Absent loop → m'.Absent loop ∨
    m.loops.length ≤ loop.number ∧ ∃ config tracker bridge v', m'.sees loop = some v' ∧
      R (View.fresh loop config tracker bridge) v'

/-- A later machine, reached by operations that go through light moves. -/
abbrev Quiet (loop : LoopId) (m m' : Machine) : Prop := Relates View.Quiet loop m m'

/-- A later machine, reached by operations that end with at most one final move. -/
abbrev Goes (loop : LoopId) (m m' : Machine) : Prop := Relates View.Goes loop m m'

variable {loop : LoopId} {m m' m'' : Machine}

theorem sees_eq_some {v : View} :
    m.sees loop = some v ↔
      m.loop? loop = some v.loop ∧ m.turnsOf loop = v.turns ∧ m.sweepOf loop = v.sweep := by
  obtain ⟨l, turns, sweep⟩ := v
  simp only [sees, Option.map_eq_some_iff, View.mk.injEq]
  constructor
  · rintro ⟨_, hl, rfl, ht, hs⟩
    exact ⟨hl, ht, hs⟩
  · rintro ⟨hl, ht, hs⟩
    exact ⟨l, hl, rfl, ht, hs⟩

theorem Relates.trans {R S T : View → View → Prop}
    (sweep : ∀ u v, R u v → u.sweep = none → v.sweep = none)
    (comp : ∀ u v w, R u v → S v w → T u w) (weaker : ∀ u v, S u v → T u v)
    (h : Relates R loop m m') (h' : Relates S loop m' m'') : Relates T loop m m'' where
  placed hp := h'.placed (h.placed hp)
  size := Nat.le_trans h.size h'.size
  stays hp v hv hs := by
    obtain ⟨v', hv', hR⟩ := h.stays hp v hv hs
    obtain ⟨v'', hv'', hS⟩ := h'.stays (h.placed hp) v' hv' (sweep _ _ hR hs)
    exact ⟨v'', hv'', comp _ _ _ hR hS⟩
  gone hp ha := by
    rcases h.gone hp ha with ha' | ⟨new, config, tracker, bridge, v', hv', hR⟩
    · rcases h'.gone (h.placed hp) ha' with ha'' | ⟨new, config, tracker, bridge, v'', hv'', hS⟩
      · exact .inl ha''
      · exact .inr ⟨Nat.le_trans h.size new, config, tracker, bridge, v'', hv'', weaker _ _ hS⟩
    · obtain ⟨v'', hv'', hS⟩ := h'.stays (h.placed hp) v' hv' (sweep _ _ hR rfl)
      exact .inr ⟨new, config, tracker, bridge, v'', hv'', comp _ _ _ hR hS⟩

theorem Relates.mono {R S : View → View → Prop} (h : Relates R loop m m')
    (weaker : ∀ u v, R u v → S u v) : Relates S loop m m' where
  placed := h.placed
  size := h.size
  stays hp v hv hs := by
    obtain ⟨v', hv', hR⟩ := h.stays hp v hv hs
    exact ⟨v', hv', weaker _ _ hR⟩
  gone hp ha := (h.gone hp ha).imp_right
    fun ⟨new, config, tracker, bridge, v', hv', hR⟩ =>
      ⟨new, config, tracker, bridge, v', hv', weaker _ _ hR⟩

theorem Quiet.trans (h : Quiet loop m m') (h' : Quiet loop m' m'') : Quiet loop m m'' :=
  Relates.trans (fun _ _ h hs => View.Quiet.sweep_eq_none h hs) (fun _ _ _ h h' => h.trans h')
    (fun _ _ h => h) h h'

theorem Quiet.goes (h : Quiet loop m m') : Goes loop m m' := h.mono fun _ _ h => h.goes

theorem Goes.quiet_trans (h : Quiet loop m m') (h' : Goes loop m' m'') : Goes loop m m'' :=
  Relates.trans (fun _ _ h hs => View.Quiet.sweep_eq_none h hs) (fun _ _ _ h h' => h.trans_goes h')
    (fun _ _ h => h) h h'

-- ---------------------------------------------------------------------------
-- Operations beside a loop
-- ---------------------------------------------------------------------------

theorem Aside.refl (m : Machine) : Aside loop m m where
  placed := id
  size := Nat.le_refl _
  stays l hl := ⟨l, hl, .refl⟩
  gone := id
  turns := rfl
  sweep := rfl

theorem Aside.trans (h : Aside loop m m') (h' : Aside loop m' m'') : Aside loop m m'' where
  placed hp := h'.placed (h.placed hp)
  size := Nat.le_trans h.size h'.size
  stays l hl := by
    obtain ⟨l', hl', ho⟩ := h.stays l hl
    obtain ⟨l'', hl'', ho'⟩ := h'.stays l' hl'
    exact ⟨l'', hl'', ho.trans ho'⟩
  gone hg := h'.gone (h.gone hg)
  turns := h'.turns.trans h.turns
  sweep := h'.sweep.trans h.sweep

theorem Aside.absent (h : Aside loop m m') (ha : m.Absent loop) : m'.Absent loop :=
  ⟨h.gone ha.gone, h.turns.trans ha.turns, h.sweep.trans ha.sweep⟩

theorem Aside.view (h : Aside loop m m') {v : View} (hv : m.sees loop = some v) :
    ∃ v', m'.sees loop = some v' ∧ v.Aside v' := by
  rw [sees_eq_some] at hv
  obtain ⟨l', hl', ho⟩ := h.stays _ hv.1
  exact ⟨⟨l', v.turns, v.sweep⟩, by simp [sees, hl', h.turns, h.sweep, hv.2], ho, rfl, rfl⟩

theorem Aside.quiet (h : Aside loop m m') : Quiet loop m m' where
  placed := h.placed
  size := h.size
  stays _ v hv _ := by
    obtain ⟨v', hv', ha⟩ := h.view hv
    exact ⟨v', hv', ha.quiet⟩
  gone _ ha := .inl (h.absent ha)

theorem Goes.trans_aside (h : Goes loop m m') (h' : Aside loop m' m'') : Goes loop m m'' where
  placed hp := h'.placed (h.placed hp)
  size := Nat.le_trans h.size h'.size
  stays hp v hv hs := by
    obtain ⟨v', hv', hg⟩ := h.stays hp v hv hs
    obtain ⟨v'', hv'', ha⟩ := h'.view hv'
    exact ⟨v'', hv'', hg.trans_aside ha⟩
  gone hp ha := by
    rcases h.gone hp ha with ha' | ⟨new, config, tracker, bridge, v', hv', hg⟩
    · exact .inl (h'.absent ha')
    · obtain ⟨v'', hv'', ha⟩ := h'.view hv'
      exact .inr ⟨new, config, tracker, bridge, v'', hv'', hg.trans_aside ha⟩

/-- Operations that leave the loops alone and begin no turn and no collection are quiet. -/
theorem quiet_of_eq (hl : m'.loops = m.loops) (ht : m'.turnsOf loop = m.turnsOf loop)
    (hs : m.sweepOf loop = none → m'.sweepOf loop = none) : Quiet loop m m' where
  placed hp id l h := hp id l (by rw [← h, loop?, loop?, hl])
  size := Nat.le_of_eq (by rw [hl])
  stays _ v hv hv' := by
    rw [sees_eq_some] at hv
    refine ⟨v, sees_eq_some.mpr ⟨?_, ht.trans hv.2.1, ?_⟩, .refl⟩
    · rw [loop?, hl]
      exact hv.1
    · rw [hv', hs (hv.2.2.trans hv')]
  gone _ ha := .inl ⟨by rw [loop?, hl]; exact ha.gone, ht.trans ha.turns, hs ha.sweep⟩

end Machine
end PromiseLoop

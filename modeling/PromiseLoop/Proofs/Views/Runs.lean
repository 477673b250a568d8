import PromiseLoop.Proofs.Views.Commands

/-!
# Runs in a view

One step of a machine, and the runs that steps and commands make up.  While a loop is alive, whatever
happens to a machine takes the view of the loop from one state to the next; a loop that nothing
keeps alive disappears from view and never comes back.

A loop is *being told* when the tracker is hearing of a rejection of it: one of its telling frames
lies beneath whatever happens next.

## Results

* `view_step`: what one step does to a view.
* `Reachable.view`: every view in a run comes from a fresh one by moves.
* `Placed.view`, `Run.view`: so does every later view from an earlier one.
-/

namespace PromiseLoop

open Relation

/-- Whether a frame waits for the tracker of a loop to hear of something. -/
def Frame.tells (loop : LoopId) : Frame → Bool
  | .attaching derived _ => derived.home = loop
  | .reporting l _ => l = loop
  | .collecting l _ _ => l = loop
  | _ => false

namespace Machine

variable {loop : LoopId} {m m' : Machine}

-- ---------------------------------------------------------------------------
-- Resuming
-- ---------------------------------------------------------------------------

theorem quiet_resumeCall (m : Machine) (this : Value) (arguments : List Value) (s : Signal) :
    Quiet loop m (m.resumeCall this arguments s) :=
  quiet_drop_signal _ m _

theorem quiet_resumeWork (m : Machine) (s : Signal) : Quiet loop m (m.resumeWork s) := by
  unfold resumeWork
  split
  · exact quiet_signal m _
  · exact quiet_drop_signal _ m _
  · exact quiet_drop_signal _ m _

theorem quiet_resumeFunctionOnly (m : Machine) (s : Signal) :
    Quiet loop m (m.resumeFunctionOnly s) := by
  unfold resumeFunctionOnly
  split
  · exact quiet_signal m _
  · exact quiet_drop_signal _ m _
  · exact quiet_signal m _

theorem quiet_resumeSubstitute (m : Machine) (this : Value) (arguments : List Value)
    (s : Signal) : Quiet loop m (m.resumeSubstitute this arguments s) := by
  unfold resumeSubstitute
  split
  · exact (quiet_push m rfl).trans (quiet_callValue _ _ _ _)
  · exact quiet_drop_signal _ m _

theorem quiet_resumeResolving (m : Machine) (p : Promise) (v : Value) (s : Signal) :
    Quiet loop m (m.resumeResolving p v s) := by
  unfold resumeResolving
  split
  · rename_i t
    have adopted : Quiet loop m (m.modifyLoop p.home fun l => l.enqueue (.adoption p v t)) :=
      quiet_modifyLoop m p.home (fun _ => rfl) fun l => .queued l rfl
    exact adopted.trans (quiet_drop_signal _ _ _)
  · exact quiet_settle m p _ _ _
  · exact quiet_settle m p _ _ _

theorem quiet_resumeReacting (m : Machine) (handler : Value) (derived : Promise) (s : Signal) :
    Quiet loop m (m.resumeReacting handler derived s) := by
  unfold resumeReacting
  dsimp only
  split
  · exact (quiet_push m rfl).trans (quiet_resolve _ _ _ _)
  · exact (quiet_push m rfl).trans (quiet_reject _ _ _ _)
  · exact (quiet_push m rfl).trans (quiet_signal _ _)

theorem quiet_resumeAdopting (m : Machine) (p : Promise) (resolver thenFunction : Value)
    (s : Signal) : Quiet loop m (m.resumeAdopting p resolver thenFunction s) := by
  unfold resumeAdopting
  dsimp only
  split
  · exact (quiet_push m rfl).trans (quiet_enterResolver _ _ _ _)
  · exact (quiet_push m rfl).trans (quiet_signal _ _)

theorem goes_under {f : Frame} {s : Signal} (hc : m.control = .signal .done)
    (hf : f.isTurnOf loop = false) (h : Quiet loop m m') : Goes loop (m.under f s) m' :=
  relates_under_of_not_turn hc hf h.goes

/-- Where neither a telling frame nor a drain of a loop is resumed, the loop goes on in light moves. -/
theorem goes_resume (m : Machine) (f : Frame) (s : Signal) (hc : m.control = .signal .done)
    (hf : f.tells loop = false) (hd : f ≠ .draining loop) : Goes loop (m.under f s) (m.resume f s) := by
  cases f with
  | block rest => exact relates_under_of_not_turn hc rfl (goes_resumeBlock m rest s)
  | rounds body round remaining quiet =>
    exact goes_under hc rfl (quiet_resumeRounds m _ _ _ _ s)
  | command info operands =>
    exact goes_under hc rfl (quiet_endCommand m info operands (.signal s))
  | call this arguments quiet =>
    exact goes_under hc rfl (quiet_resumeCall m _ _ s)
  | work quiet => exact goes_under hc rfl (quiet_resumeWork m s)
  | hold values => exact goes_under hc rfl (quiet_drop_signal _ m s)
  | discard values => exact goes_under hc rfl (quiet_drop_signal _ m .done)
  | give v values =>
    refine goes_under hc rfl ?_
    unfold resume
    dsimp only
    split
    · exact quiet_drop_signal _ m _
    · exact quiet_drop_signal _ m _
  | surface values =>
    refine goes_under hc rfl ?_
    unfold resume
    dsimp only
    split
    · exact quiet_drop_signal _ m _
    · exact quiet_drop_signal _ m _
  | functionOnly => exact goes_under hc rfl (quiet_resumeFunctionOnly m s)
  | substitute this arguments =>
    exact goes_under hc rfl (quiet_resumeSubstitute m _ _ s)
  | resolving p v => exact goes_under hc rfl (quiet_resumeResolving m p v s)
  | reacting handler derived =>
    exact goes_under hc rfl (quiet_resumeReacting m _ _ s)
  | adopting p resolver thenFunction =>
    exact goes_under hc rfl (quiet_resumeAdopting m _ _ _ s)
  | constructing p =>
    exact goes_under hc rfl (quiet_resumeConstructing m p s)
  | attaching derived job =>
    have hne : loop ≠ derived.home := fun e => by simp [Frame.tells, e] at hf
    exact goes_under hc hf (quiet_resumeAttaching_of_ne m _ job s hne)
  | draining id =>
    have hne : loop ≠ id := fun e => hd (by rw [e])
    exact goes_under hc (by simp [Frame.isTurnOf, Ne.symm hne]) (quiet_resumeDraining_of_ne m s hne)
  | checkpoint id => exact relates_under_of_not_turn hc rfl (goes_resumeCheckpoint m id s hc)
  | reporting id reports =>
    have hne : loop ≠ id := fun e => by simp [Frame.tells, e] at hf
    exact goes_under hc hf (quiet_resumeReporting_of_ne m _ s hc hne)
  | collecting id sweep r =>
    have hne : loop ≠ id := fun e => by simp [Frame.tells, e] at hf
    exact goes_under hc hf (quiet_resumeCollecting_of_ne m _ r s hne)
  | cycling id => exact goes_under hc rfl (quiet_resumeCycling m id s)
  | idling id => exact goes_under hc rfl (quiet_resumeIdling m id s)
  | finishing id => exact goes_under hc rfl (quiet_resumeFinishing m id s)
  | concluding id => exact goes_under hc rfl (quiet_resumeConcluding m id s)

/-- Where a telling frame of a loop is resumed, the tracker has been told. -/
theorem resumes_resume (m : Machine) (f : Frame) (s : Signal) (hc : m.control = .signal .done)
    (hf : f.tells loop = true) : Relates View.Resumes loop (m.under f s) (m.resume f s) := by
  cases f with
  | attaching derived job =>
    obtain rfl : derived.home = loop := by simpa [Frame.tells] using hf
    exact resumes_resumeAttaching m derived job s hc
  | reporting id reports =>
    obtain rfl : id = loop := by simpa [Frame.tells] using hf
    exact resumes_resumeReporting m reports s hc
  | collecting id sweep r =>
    obtain rfl : id = loop := by simpa [Frame.tells] using hf
    exact resumes_resumeCollecting m sweep r s hc
  | _ => exact absurd hf (by simp [Frame.tells])

-- ---------------------------------------------------------------------------
-- Steps
-- ---------------------------------------------------------------------------

/-- The frames beneath what happens next. -/
def beneath (m : Machine) : List Frame :=
  match m.control with
  | .signal _ => m.stack.tail
  | _ => m.stack

/-- Whether the tracker is hearing of a rejection of a loop. -/
def IsTelling (m : Machine) (loop : LoopId) : Prop := ∃ f ∈ m.beneath, f.tells loop = true

/-- What a step does to the view of a loop.  Where the tracker is not being told anything, it is
known as well that no frame is there that tells it. -/
inductive Shift (m : Machine) (loop : LoopId) (v v' : View) : Prop
  | aside (h : v.Aside v')
  | goes (h : v.Goes v') (silent : ¬ m.IsTelling loop → ∀ f ∈ v.turns, f.tells loop = false)
  | resumes (h : v.Resumes v')
      (silent : ¬ m.IsTelling loop → ∀ f ∈ v.turns.tail, f.tells loop = false)
  | drains (top : ∃ rest s, m.stack = .draining loop :: rest ∧ m.control = .signal s) (h : v.Drains v')
    (silent : ¬ m.IsTelling loop → ∀ f ∈ v.turns, f.tells loop = false)
  | sweeps (h : v.Sweeps v') (silent : ¬ m.IsTelling loop → ∀ f ∈ v.turns, f.tells loop = false)

theorem Shift.moves {v v' : View} (h : m.Shift loop v v') : ReflTransGen View.Move v v' := by
  cases h with
  | aside h => exact h.quiet.moves
  | goes h _ => exact h.moves
  | resumes h _ => exact h.moves
  | drains _ h _ => exact h.moves
  | sweeps h _ => exact h.moves

/-- What is known of a machine after something has happened to it. -/
structure Follows (loop : LoopId) (m m' : Machine) : Prop where
  placed : m.Placed → m'.Placed
  size : m.loops.length ≤ m'.loops.length
  stays : m.Placed → ∀ v, m.sees loop = some v →
    m'.Absent loop ∨ ∃ v', m'.sees loop = some v' ∧ m.Shift loop v v'
  gone : m.Placed → m.Absent loop → m'.Absent loop ∨
    m.loops.length ≤ loop.number ∧ ∃ config tracker bridge v', m'.sees loop = some v' ∧
      (View.fresh loop config tracker bridge).Goes v'

theorem Relates.follows {R : View → View → Prop} (h : Relates R loop m m')
    (idle : m.sweepOf loop = none) (shift : ∀ v v', m.turnsOf loop = v.turns → R v v' →
      m.Shift loop v v') (goes : ∀ v v', v.turns = [] → R v v' → v.Goes v') :
    Follows loop m m' where
  placed := h.placed
  size := h.size
  stays hp v hv := by
    have hs := sees_eq_some.mp hv
    obtain ⟨v', hv', hR⟩ := h.stays hp v hv (hs.2.2.symm.trans idle)
    exact .inr ⟨v', hv', shift v v' hs.2.1 hR⟩
  gone hp ha := (h.gone hp ha).imp_right
    fun ⟨new, config, tracker, bridge, v', hv', hR⟩ =>
      ⟨new, config, tracker, bridge, v', hv', goes _ _ rfl hR⟩

theorem Aside.follows (h : Aside loop m m') : Follows loop m m' where
  placed := h.placed
  size := h.size
  stays _ v hv := by
    obtain ⟨v', hv', ha⟩ := h.view hv
    exact .inr ⟨v', hv', .aside ha⟩
  gone _ ha := .inl (h.absent ha)

/-- Where nothing is being told, no frame tells that is a turn of the loop. -/
theorem silent_of_not_isTelling (h : ¬ m.IsTelling loop) (hb : m.beneath = m.stack) :
    ∀ f ∈ m.turnsOf loop, f.tells loop = false := by
  intro f hf
  cases ht : f.tells loop with
  | false => rfl
  | true => exact absurd ⟨f, hb ▸ (List.mem_filter.mp hf).1, ht⟩ h

theorem Goes.follows (h : Goes loop m m') (idle : m.sweepOf loop = none)
    (hb : m.beneath = m.stack) : Follows loop m m' :=
  Relates.follows h idle
    (fun _ _ hv hg => .goes hg fun ht => hv ▸ silent_of_not_isTelling ht hb) fun _ _ _ hg => hg

-- Removing a loop

theorem eq_none_of_isTurnOf {f : Frame} (h : f.loop? ≠ some loop) : f.isTurnOf loop = false := by
  cases f <;> simp_all [Frame.loop?, Frame.isTurnOf]

theorem orphan?_eq_some {l : Loop} (hp : m.Placed) (h : m.orphan? = some l) :
    m.loop? l.id = some l ∧ m.keepsLoop l.id = false := by
  unfold orphan? at h
  have hmem := List.mem_of_find?_eq_some h
  rw [List.mem_filterMap] at hmem
  obtain ⟨x, hx, rfl⟩ := hmem
  obtain ⟨i, hi⟩ := List.mem_iff_getElem?.mp hx
  have hl : m.loop? ⟨i⟩ = some l := by simp [loop?, hi]
  have hid := hp _ l hl
  exact ⟨by rw [hid, hl], by simpa using List.find?_some h⟩

/-- The machine without a loop. -/
theorem loop?_modify_none (m : Machine) (id k : LoopId) :
    ({ m with loops := m.loops.modify id.number fun _ => none } : Machine).loop? k =
      if k = id then none else m.loop? k := by
  unfold loop?
  simp only [List.getElem?_modify]
  by_cases hk : k = id
  · subst hk
    cases m.loops[k.number]? <;> simp
  · have hn : id.number ≠ k.number := fun e => hk (by cases id; cases k; simp_all)
    simp [hk, hn]

/-- A loop that nothing keeps alive disappears from view, and leaves the other ones as they are. -/
theorem follows_removeLoop {l : Loop} (hp : m.Placed) (h : m.orphan? = some l) :
    Follows loop m (m.removeLoop l) := by
  obtain ⟨hl, hk⟩ := orphan?_eq_some hp h
  generalize hcut : ({ m with loops := m.loops.modify l.id.number fun _ => none } : Machine) = cut
  have look (k : LoopId) : cut.loop? k = if k = l.id then none else m.loop? k := by
    rw [← hcut, loop?_modify_none]
  have dropped : Aside loop cut (m.removeLoop l) := by
    rw [removeLoop, hcut]
    exact aside_drop l.held cut
  have turns : cut.turnsOf loop = m.turnsOf loop := by rw [← hcut]; rfl
  have sweep : cut.sweepOf loop = m.sweepOf loop := by rw [← hcut]; rfl
  have placed : cut.Placed := by
    intro k x hx
    rw [look] at hx
    split at hx
    · cases hx
    · exact hp k x hx
  refine ⟨fun _ => dropped.placed placed, ?_, fun _ v hv => ?_, fun _ ha => .inl ?_⟩
  · refine Nat.le_trans (Nat.le_of_eq ?_) dropped.size
    rw [← hcut]
    exact (List.length_modify ..).symm
  · by_cases hid : loop = l.id
    · -- nothing of the loop can be left in the machine
      subst hid
      simp only [keepsLoop, Bool.or_eq_false_iff, decide_eq_false_iff_not] at hk
      refine .inl (dropped.absent ⟨by rw [look, if_pos rfl], ?_, ?_⟩)
      · rw [turns, turnsOf, List.filter_eq_nil_iff]
        intro f hf
        have := List.any_eq_false.mp hk.2 f hf
        simp [eq_none_of_isTurnOf (by simpa using this)]
      · rw [sweep, sweepOf]
        cases hc : m.control with
        | collect k s =>
          have hne : k ≠ l.id := by simpa [hc, Control.loop?] using hk.1.2
          simp [Control.sweepOf, hne]
        | _ => rfl
    · have other : cut.sees loop = some v := by
        rw [sees_eq_some] at hv ⊢
        rw [look, if_neg hid, turns, sweep]
        exact hv
      obtain ⟨v', hv', ha⟩ := dropped.view other
      exact .inr ⟨v', hv', .aside ha⟩
  · refine dropped.absent ⟨?_, turns.trans ha.turns, sweep.trans ha.sweep⟩
    rw [look, ha.gone, ite_self]

-- Any step

/-- Calling a function. -/
theorem follows_call {f : Callable} {this : Value} {arguments : List Value}
    (hc : m.control = .call f this arguments) :
    Follows loop m ((m.signal .done).enter f this arguments) := by
  have entered : Goes loop m ((m.signal .done).enter f this arguments) :=
    .quiet_trans (quiet_signal m .done) (goes_enter _ _ _ _)
  exact entered.follows (by simp [sweepOf, hc, Control.sweepOf]) (by simp [beneath, hc])

/-- Going on with a collection. -/
theorem follows_collect {id : LoopId} {s : Sweep} (hc : m.control = .collect id s) :
    Follows loop m ((m.signal .done).collectNext id s) := by
  have other (k : LoopId) (hk : k ≠ id) : Quiet k m ((m.signal .done).collectNext id s) :=
    (quiet_signal m .done).trans (quiet_collectNext_of_ne _ s hk)
  have beneath : m.beneath = m.stack := by simp [beneath, hc]
  by_cases hk : loop = id
  · subst hk
    have next := other ⟨loop.number + 1⟩ fun e => by simpa using congrArg LoopId.number e
    refine ⟨next.placed, next.size, fun hp v hv => .inr ?_, fun _ ha => ?_⟩
    · obtain ⟨l, turns, sweep⟩ := v
      obtain ⟨hl, rfl, rfl⟩ := sees_eq_some.mp hv
      obtain ⟨v', hv', hs⟩ := sweeps_collectNext (m := m.signal .done) hp rfl hl s
      have busy : m.sweepOf loop = some s := by simp [sweepOf, hc, Control.sweepOf]
      rw [busy]
      exact ⟨v', hv', .sweeps hs fun ht => silent_of_not_isTelling ht beneath⟩
    · have := ha.sweep
      simp [sweepOf, hc, Control.sweepOf] at this
  · exact (other loop hk).goes.follows (by simp [sweepOf, hc, Control.sweepOf, Ne.symm hk]) beneath

theorem isTurnOf_of_tells {f : Frame} (h : f.tells loop = true) : f.isTurnOf loop = true := by
  cases f <;> simp_all [Frame.tells, Frame.isTurnOf]

/-- Resuming a frame. -/
theorem follows_resume (m : Machine) (f : Frame) (s : Signal) (hc : m.control = .signal .done) :
    Follows loop (m.under f s) (m.resume f s) := by
  have silent (ht : ¬ (m.under f s).IsTelling loop) : ∀ g ∈ m.turnsOf loop, g.tells loop = false := by
    intro g hg
    cases htells : g.tells loop with
    | false => rfl
    | true => exact absurd ⟨g, (List.mem_filter.mp hg).1, htells⟩ ht
  cases hf : f.tells loop with
  | false =>
    by_cases hd : f = .draining loop
    · subst hd
      refine Relates.follows (drains_resumeDraining m s hc) rfl
        (fun v v' hv h => .drains ⟨_, _, rfl, rfl⟩ h fun ht => ?_) fun v v' hv h => h.goes hv
      rw [← hv, turnsOf_under_of_turn s (by simp [Frame.isTurnOf])]
      exact List.forall_mem_cons.mpr ⟨hf, silent ht⟩
    refine Relates.follows (goes_resume m f s hc hf hd) rfl
      (fun v v' hv hg => .goes hg fun ht => ?_) fun _ _ _ h => h
    rw [← hv]
    cases turn : f.isTurnOf loop with
    | false => rw [turnsOf_under_of_not_turn s turn]; exact silent ht
    | true =>
      rw [turnsOf_under_of_turn s turn]
      exact List.forall_mem_cons.mpr ⟨hf, silent ht⟩
  | true =>
    refine Relates.follows (resumes_resume m f s hc hf) rfl
      (fun v v' hv hr => .resumes hr fun ht => ?_) fun v v' hv hr => absurd hv hr.turns_ne_nil
    rw [← hv, turnsOf_under_of_turn s (isTurnOf_of_tells hf)]
    exact silent ht

/-- What one step does to a view. -/
theorem follows_step (hp : m.Placed) : Follows loop m m.step := by
  unfold step
  split
  · rename_i l h
    exact follows_removeLoop hp h
  · split
    · exact (Aside.refl m).follows
    · rename_i f this arguments hc
      exact follows_call hc
    · rename_i id s hc
      exact follows_collect hc
    · rename_i s hc
      split
      · rename_i hs
        have idle : Quiet loop m { m with control := .idle .done } := quiet_of_eq rfl rfl fun _ => rfl
        exact idle.goes.follows (sweepOf_of_signal hc) (by simp [beneath, hc, hs])
      · rename_i f rest hs
        rw [eq_under hs hc]
        exact follows_resume _ f s rfl

/-- What giving an idle machine a command does to a view. -/
theorem follows_start (h : m.isIdle = true) (c : Command) : Follows loop m (m.start c) := by
  have idle : ∃ a, m.control = .idle a := by
    unfold isIdle at h
    split at h
    · rename_i a hc
      exact ⟨a, hc⟩
    · cases h
  obtain ⟨a, hc⟩ := idle
  have cleared : Quiet loop m { m with trace := [] } := quiet_of_eq rfl rfl fun h => h
  have started : Goes loop m (m.start c) := by
    unfold start
    dsimp only
    split
    · exact .quiet_trans cleared (goes_beginStep _ _ _)
    · exact .quiet_trans (cleared.trans (quiet_push _ rfl)) (goes_beginCommand _ _)
  exact started.follows (by simp [sweepOf, hc, Control.sweepOf]) (by simp [beneath, hc])

-- ---------------------------------------------------------------------------
-- Runs
-- ---------------------------------------------------------------------------

/-- What can happen to a machine: it takes a step, or it is idle and given a command. -/
inductive Next : Machine → Machine → Prop
  | start {m : Machine} (idle : m.isIdle = true) (c : Command) : Next m (m.start c)
  | step (m : Machine) : Next m m.step

/-- Any number of steps and commands. -/
abbrev Run : Machine → Machine → Prop := ReflTransGen Next

theorem Next.follows (hp : m.Placed) (h : Next m m') : Follows loop m m' := by
  cases h with
  | start idle c => exact follows_start idle c
  | step => exact follows_step hp

theorem Reachable.next (h : Reachable m) (hn : Next m m') : Reachable m' := by
  cases hn with
  | start idle c => exact h.start idle c
  | step => exact h.step

theorem Reachable.runs (h : Reachable m) (hr : Run m m') : Reachable m' := by
  induction hr with
  | refl => exact h
  | tail _ hn ih => exact ih.next hn

/-- A machine is reachable exactly if a run leads to it from one that has just been booted. -/
theorem reachable_iff : Reachable m ↔ ∃ config tracker bridge, Run (boot config tracker bridge) m := by
  constructor
  · intro h
    induction h with
    | boot config tracker bridge => exact ⟨config, tracker, bridge, .refl⟩
    | start _ idle c ih =>
      obtain ⟨config, tracker, bridge, hr⟩ := ih
      exact ⟨config, tracker, bridge, hr.tail (.start idle c)⟩
    | step _ ih =>
      obtain ⟨config, tracker, bridge, hr⟩ := ih
      exact ⟨config, tracker, bridge, hr.tail (.step _)⟩
  · rintro ⟨config, tracker, bridge, hr⟩
    exact (Reachable.boot config tracker bridge).runs hr

theorem placed_empty : ({} : Machine).Placed := by
  intro k l hl
  simp [loop?] at hl

theorem Next.placed (hp : m.Placed) (h : Next m m') : m'.Placed := by
  have any : Follows ⟨0⟩ m m' := h.follows hp
  exact any.placed hp

theorem Reachable.placed (h : Reachable m) : m.Placed := by
  induction h with
  | boot config tracker bridge =>
    have opened : Quiet ⟨0⟩ {} (Machine.boot config tracker bridge) := quiet_openLoop {} "main" _ _ _
    exact opened.placed placed_empty
  | start _ idle c ih => exact Next.placed ih (.start idle c)
  | step _ ih => exact Next.placed ih (.step _)

/-- The view of a loop that is alive comes from a fresh one by moves, and nothing of any other loop
is in the machine. -/
theorem Reachable.view (h : Reachable m) (loop : LoopId) :
    m.Absent loop ∨ ∃ config tracker bridge v, m.sees loop = some v ∧
      ReflTransGen View.Move (View.fresh loop config tracker bridge) v := by
  have next {m m' : Machine} (hp : m.Placed) (hn : Next m m')
      (ih : m.Absent loop ∨ ∃ config tracker bridge v, m.sees loop = some v ∧
        ReflTransGen View.Move (View.fresh loop config tracker bridge) v) :
      m'.Absent loop ∨ ∃ config tracker bridge v, m'.sees loop = some v ∧
        ReflTransGen View.Move (View.fresh loop config tracker bridge) v := by
    rcases ih with ha | ⟨config, tracker, bridge, v, hv, hm⟩
    · refine ((hn.follows hp).gone hp ha).imp_right ?_
      rintro ⟨-, config, tracker, bridge, v, hv, hg⟩
      exact ⟨config, tracker, bridge, v, hv, hg.moves⟩
    · refine ((hn.follows hp).stays hp v hv).imp_right ?_
      rintro ⟨v', hv', hs⟩
      exact ⟨config, tracker, bridge, v', hv', hm.trans hs.moves⟩
  induction h with
  | boot config tracker bridge =>
    have opened : Quiet loop {} (Machine.boot config tracker bridge) := quiet_openLoop {} "main" _ _ _
    have absent : ({} : Machine).Absent loop := ⟨by simp [loop?], rfl, rfl⟩
    refine (opened.gone placed_empty absent).imp_right ?_
    rintro ⟨-, config, tracker, bridge, v, hv, hq⟩
    exact ⟨config, tracker, bridge, v, hv, hq.moves⟩
  | start h idle c ih => exact next h.placed (.start idle c) ih
  | step h ih => exact next h.placed (.step _) ih

theorem Placed.run (h : m.Placed) (hr : Run m m') : m'.Placed := by
  induction hr with
  | refl => exact h
  | tail _ hn ih => exact Next.placed ih hn

/-- Later views come from earlier ones by moves. -/
theorem Placed.view (h : m.Placed) (hr : Run m m') {v v' : View} (hv : m.sees loop = some v)
    (hv' : m'.sees loop = some v') : ReflTransGen View.Move v v' := by
  -- a loop that is gone stays gone, since its number is never given again
  have later : ∀ {m' : Machine}, Run m m' → loop.number < m'.loops.length ∧
      (m'.Absent loop ∨ ∃ v', m'.sees loop = some v' ∧ ReflTransGen View.Move v v') := by
    intro m' hr
    induction hr with
    | refl => exact ⟨number_lt_of_loop? (sees_eq_some.mp hv).1, .inr ⟨v, hv, .refl⟩⟩
    | tail hr hn ih =>
      have hp := h.run hr
      have next : Follows loop _ _ := hn.follows hp
      refine ⟨Nat.lt_of_lt_of_le ih.1 next.size, ?_⟩
      rcases ih.2 with ha | ⟨v', hv', hmoves⟩
      · rcases next.gone hp ha with ha' | ⟨new, -⟩
        · exact .inl ha'
        · exact absurd ih.1 (Nat.not_lt_of_le new)
      · exact (next.stays hp v' hv').imp_right fun ⟨v'', hv'', hs⟩ => ⟨v'', hv'', hmoves.trans hs.moves⟩
  rcases (later hr).2 with ha | ⟨w, hw, hmoves⟩
  · rw [sees, ha.gone] at hv'
    cases hv'
  · rw [hw] at hv'
    exact Option.some.inj hv' ▸ hmoves

theorem Run.view (hm : Reachable m) (hr : Run m m') {v v' : View} (hv : m.sees loop = some v)
    (hv' : m'.sees loop = some v') : ReflTransGen View.Move v v' := hm.placed.view hr hv hv'

/-- Gives a machine some commands and a few steps for each of them.  A machine that is still busy
ignores them. -/
def obey (m : Machine) (cs : List Command) : Machine :=
  cs.foldl (fun m c => if m.isIdle then run 9 (m.start c) else m) m

theorem Reachable.obey (h : Reachable m) (cs : List Command) : Reachable (m.obey cs) := by
  unfold Machine.obey
  induction cs generalizing m with
  | nil => exact h
  | cons c cs ih =>
    refine ih ?_
    dsimp only
    split
    · rename_i idle
      exact (h.start idle c).run 9
    · exact h

end Machine
end PromiseLoop

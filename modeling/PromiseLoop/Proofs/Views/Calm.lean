import PromiseLoop.Proofs.Views.Runs

/-!
# Runs whose tracker leaves the loop alone

While the tracker of a loop is being told something, its callbacks may run any script.  A run is
*calm* for the loop if that script does not re-enter it: as long as the tracker is being told, the loop
is only touched from outside, as handles are let go and background work posts.  In a calm run the
tracker is told one thing at a time, and nothing else happens to the loop in between.

## Results

* `CalmlyReachable.view`: every view in a calm run comes from a fresh one by calm moves.
-/

namespace PromiseLoop

open Relation

/-- Whether a frame waits for a tracker to hear of something. -/
def Frame.isTelling : Frame → Bool
  | .attaching .. | .reporting .. | .collecting .. => true
  | _ => false

theorem Frame.isTelling_of_isTurnOf {loop : LoopId} {f : Frame} (h : f.isTurnOf loop = true) :
    f.isTelling = f.tells loop := by
  cases f <;> simp_all [isTurnOf, isTelling, tells]

-- ---------------------------------------------------------------------------
-- Calm moves
-- ---------------------------------------------------------------------------

namespace View

/-- The tracker is not being told anything. -/
def Silent (v : View) : Prop := ∀ f ∈ v.turns, f.isTelling = false

/-- What can happen to a view in a calm run. -/
inductive CalmMove : View → View → Prop
  | outside {l l' : Loop} {turns : List Frame} {sweep : Option Sweep} (h : l.Outside l') :
      CalmMove ⟨l, turns, sweep⟩ ⟨l', turns, sweep⟩
  | plain {v v' : View} (h : v.Plain v') (silent : v.Silent) : CalmMove v v'
  | final {v v' : View} (h : v.Final v') (silent : v.Silent) : CalmMove v v'
  | resume {v v' : View} (h : v.Resume v') (silent : ∀ f ∈ v.turns.tail, f.isTelling = false) :
      CalmMove v v'
  | sweeping {v v' : View} (h : v.Sweeping v') (silent : v.Silent) : CalmMove v v'

variable {v v' : View}

theorem CalmMove.move (h : v.CalmMove v') : v.Move v' := by
  cases h with
  | outside h => exact .plain (.light (.outside h))
  | plain h _ => exact .plain h
  | final h _ => exact .final h
  | resume h _ => exact .resume h
  | sweeping h _ => exact .sweeping h

/-- Plain moves tell the tracker nothing. -/
theorem Plain.silent (h : v.Plain v') (hs : v.Silent) : v'.Silent := by
  cases h with
  | light h =>
    cases h with
    | outside _ => exact hs
    | called _ => exact hs
    | drainBegun _ => exact List.forall_mem_cons.mpr ⟨rfl, hs⟩
  | taken _ => exact hs
  | drainEnded _ => exact (List.forall_mem_cons.mp hs).2
  | drainBroken => exact (List.forall_mem_cons.mp hs).2

theorem Aside.calm (h : v.Aside v') : ReflTransGen CalmMove v v' := by
  obtain ⟨l, turns, sweep⟩ := v
  obtain ⟨l', turns', sweep'⟩ := v'
  obtain ⟨hl, rfl, rfl⟩ := h
  exact ReflTransGen.lift (View.mk · turns' sweep') (fun _ _ h => .outside h) _ _ hl

theorem Quiet.calm (h : v.Quiet v') (hs : v.Silent) :
    ReflTransGen CalmMove v v' ∧ v'.Silent := by
  induction h with
  | refl => exact ⟨.refl, hs⟩
  | tail _ h ih => exact ⟨ih.1.tail (.plain (.light h) ih.2), (Plain.light h).silent ih.2⟩

theorem Goes.calm (h : v.Goes v') (hs : v.Silent) : ReflTransGen CalmMove v v' := by
  obtain ⟨a, b, ha, hab, hb⟩ := h
  obtain ⟨before, silent⟩ := ha.calm hs
  rcases hab with rfl | hab
  · exact before.trans hb.calm
  · exact (before.tail (.final hab silent)).trans hb.calm

theorem Drains.calm (h : v.Drains v') (hs : v.Silent) : ReflTransGen CalmMove v v' := by
  obtain ⟨a, b, ha, hab, hb⟩ := h
  have silent : a.Silent := by
    unfold Silent
    rw [ha.2.1]
    exact hs
  exact (ha.calm.tail (.plain hab silent)).trans (hb.calm (hab.silent silent)).1

theorem Resumes.calm (h : v.Resumes v') (hs : ∀ f ∈ v.turns.tail, f.isTelling = false) :
    ReflTransGen CalmMove v v' := by
  obtain ⟨a, b, ha, hab, hb⟩ := h
  exact (ha.calm.tail (.resume hab (by rw [ha.2.1]; exact hs))).trans hb.calm

theorem Sweeps.calm (h : v.Sweeps v') (hs : v.Silent) : ReflTransGen CalmMove v v' := by
  obtain ⟨a, ha, hb⟩ := h
  exact .head (.sweeping ha hs) hb.calm

end View

-- ---------------------------------------------------------------------------
-- Calm runs
-- ---------------------------------------------------------------------------

namespace Machine

variable {k : LoopId} {m m' : Machine}

/-- The machines that occur in runs in which the tracker of a loop leaves the loop alone: whatever
happens while it is being told something, touches the loop from outside only. -/
inductive CalmlyReachable (k : LoopId) : Machine → Prop
  | boot (config : Config) (tracker : Tracker) (bridge : Bridge) :
      CalmlyReachable k (boot config tracker bridge)
  | next {m m' : Machine} (h : CalmlyReachable k m) (hn : Next m m')
      (calm : m.IsTelling k → Aside k m m') : CalmlyReachable k m'

theorem CalmlyReachable.reachable (h : CalmlyReachable k m) : Reachable m := by
  induction h with
  | boot config tracker bridge => exact .boot config tracker bridge
  | next _ hn _ ih => exact ih.next hn

/-- Where none of the loop's turns tells its tracker anything, the view is silent. -/
theorem isTelling_of_sees {v : View} (hv : m.sees k = some v) {f : Frame} (hf : f ∈ v.turns)
    (silent : f.tells k = false) : f.isTelling = false := by
  rw [← (sees_eq_some.mp hv).2.1] at hf
  rw [Frame.isTelling_of_isTurnOf (List.mem_filter.mp hf).2, silent]

theorem Shift.calm {v v' : View} (h : m.Shift k v v') (hv : m.sees k = some v)
    (quiet : ¬ m.IsTelling k) : ReflTransGen View.CalmMove v v' := by
  cases h with
  | aside h => exact h.calm
  | goes h silent => exact h.calm fun f hf => isTelling_of_sees hv hf (silent quiet f hf)
  | resumes h silent =>
    exact h.calm fun f hf => isTelling_of_sees hv (List.mem_of_mem_tail hf) (silent quiet f hf)
  | drains _ h silent => exact h.calm fun f hf => isTelling_of_sees hv hf (silent quiet f hf)
  | sweeps h silent => exact h.calm fun f hf => isTelling_of_sees hv hf (silent quiet f hf)

/-- In a calm run, the view of a loop that is alive comes from a fresh one by calm moves. -/
theorem CalmlyReachable.view (h : CalmlyReachable k m) :
    m.Absent k ∨ ∃ config tracker bridge v, m.sees k = some v ∧
      ReflTransGen View.CalmMove (View.fresh k config tracker bridge) v := by
  have fresh_silent (config : Config) (tracker : Tracker) (bridge : Bridge) :
      (View.fresh k config tracker bridge).Silent := by simp [View.Silent, View.fresh]
  induction h with
  | boot config tracker bridge =>
    have opened : Quiet k {} (Machine.boot config tracker bridge) := quiet_openLoop {} "main" _ _ _
    have absent : ({} : Machine).Absent k := ⟨by simp [loop?], rfl, rfl⟩
    refine (opened.gone placed_empty absent).imp_right ?_
    rintro ⟨-, config, tracker, bridge, v, hv, hq⟩
    exact ⟨config, tracker, bridge, v, hv, (hq.calm (fresh_silent _ _ _)).1⟩
  | @next m m' h hn calm ih =>
    have hp := h.reachable.placed
    have follows : Follows k m m' := hn.follows hp
    rcases ih with ha | ⟨config, tracker, bridge, v, hv, hm⟩
    · refine (follows.gone hp ha).imp_right ?_
      rintro ⟨-, config, tracker, bridge, v, hv, hg⟩
      exact ⟨config, tracker, bridge, v, hv, hg.calm (fresh_silent _ _ _)⟩
    · by_cases telling : m.IsTelling k
      · obtain ⟨v', hv', ha⟩ := (calm telling).view hv
        exact .inr ⟨config, tracker, bridge, v', hv', hm.trans ha.calm⟩
      · refine (follows.stays hp v hv).imp_right ?_
        rintro ⟨v', hv', hs⟩
        exact ⟨config, tracker, bridge, v', hv', hm.trans (hs.calm hv telling)⟩

/-- What is true of the view of a new loop, and kept by every calm move, is true in every calm run. -/
theorem CalmlyReachable.keepsView {l : Loop} (h : CalmlyReachable k m) (hl : m.loop? k = some l)
    {P : View → Prop} (new : ∀ config tracker bridge, P (View.fresh k config tracker bridge))
    (keep : ∀ {v v' : View}, v.CalmMove v' → P v → P v') : P ⟨l, m.turnsOf k, m.sweepOf k⟩ := by
  rcases h.view with ha | ⟨config, tracker, bridge, v, hv, hm⟩
  · rw [ha.gone] at hl
    cases hl
  · rw [sees, hl] at hv
    rw [show (⟨l, m.turnsOf k, m.sweepOf k⟩ : View) = v from Option.some.inj hv]
    clear hv
    induction hm with
    | refl => exact new config tracker bridge
    | tail _ hm ih => exact keep hm ih

-- ---------------------------------------------------------------------------
-- Trackers without callbacks
-- ---------------------------------------------------------------------------

/-- Whether the next step lets values go and does nothing else, or tells the tracker nothing. -/
def isCalm (k : LoopId) (m : Machine) : Bool :=
  !m.beneath.any (Frame.tells k) ||
    match m.orphan?, m.control, m.stack with
    | none, .signal _, .hold _ :: _ => true
    | _, _, _ => false

/-- Whether this holds for some steps. -/
def isCalmFor (k : LoopId) : Nat → Machine → Bool
  | 0, _ => true
  | n + 1, m => m.isCalm k && isCalmFor k n m.step

/-- Letting values go touches a loop from outside only. -/
theorem aside_step_of_isCalm (h : m.isCalm k = true) (telling : m.IsTelling k) :
    Aside k m m.step := by
  obtain ⟨f, hf, ht⟩ := telling
  rw [isCalm, Bool.or_eq_true, Bool.not_eq_true'] at h
  rcases h with h | h
  · exact absurd ht (by simpa using List.any_eq_false.mp h f hf)
  · split at h
    · rename_i s vs rest ho hc hs
      unfold step
      simp only [ho, hc, hs, resume]
      have turns : turnsOf { m with stack := rest, control := .signal s } k = m.turnsOf k := by
        rw [turnsOf, turnsOf, hs]
        exact (List.filter_cons_of_neg (by simp [Frame.isTurnOf])).symm
      have popped : Aside k m { m with stack := rest, control := .signal s } :=
        ⟨fun hp => hp, Nat.le_refl _, fun l hl => ⟨l, hl, .refl⟩, fun hg => hg, turns,
          by simp [sweepOf, hc, Control.sweepOf]⟩
      exact popped.trans (aside_drop vs _)
    · cases h

/-- While the tracker is not being told anything, any command may be given. -/
theorem CalmlyReachable.start (h : CalmlyReachable k m) (idle : m.isIdle = true) (c : Command)
    (quiet : m.beneath.any (Frame.tells k) = false) : CalmlyReachable k (m.start c) :=
  h.next (.start idle c) fun ⟨_, hf, ht⟩ => absurd ht (by simpa using List.any_eq_false.mp quiet _ hf)

theorem CalmlyReachable.run (h : CalmlyReachable k m) (n : Nat) (calm : isCalmFor k n m = true) :
    CalmlyReachable k (run n m) := by
  induction n generalizing m with
  | zero => exact h
  | succ n ih =>
    rw [isCalmFor, Bool.and_eq_true] at calm
    rw [run_succ]
    exact ih (h.next (.step m) (aside_step_of_isCalm calm.1)) calm.2

end Machine
end PromiseLoop

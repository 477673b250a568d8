import PromiseLoop.Proofs.Constructions.Sparing
import PromiseLoop.Proofs.Constructions.Tellings
import PromiseLoop.Proofs.Background.Settlements

/-!
# Promises that no loop works on

Derived promises are settled by the reactions they were derived from, and promises of background work by its
reports.  A promise that is neither stays so, since what is derived or goes in flight later is new.  Nobody but
those who have a handle can attempt to resolve or to reject such a promise, so what it is told is all that is
attempted.

## Results

* `Run.stranger`: no loop begins to work on a promise later.
* `Tells.spares`, `Stranger.spares`: each telling is one attempt, and nothing else is.
-/

namespace PromiseLoop

open Relation

-- ---------------------------------------------------------------------------
-- Derived promises
-- ---------------------------------------------------------------------------

namespace Loop

variable {l l' l'' : Loop}

/-- A later loop: what has been derived since has been created since. -/
def DerivesLater (l l' : Loop) : Prop :=
  l.nextSerial ≤ l'.nextSerial ∧
    ∀ d ∈ allDerived l'.history, d ∈ allDerived l.history ∨ l.nextSerial ≤ d.serial

theorem DerivesLater.refl (l : Loop) : l.DerivesLater l := ⟨Nat.le_refl _, fun _ => .inl⟩

theorem DerivesLater.trans (h : l.DerivesLater l') (h' : l'.DerivesLater l'') : l.DerivesLater l'' :=
  ⟨Nat.le_trans h.1 h'.1, fun d hd => (h'.2 d hd).elim (h.2 d) fun new => .inr (Nat.le_trans h.1 new)⟩

theorem Deed.serial_le (h : l.Deed l') : l.nextSerial ≤ l'.nextSerial := by
  cases h with
  | chore h =>
    cases h with
    | silent newer heap serial _ _ _ _ _ _ => exact Nat.le_of_eq serial.symm
    | created => exact Nat.le_succ _
    | attempted h =>
      obtain ⟨r, -, -, rfl⟩ := lock_eq_ok.mp h
      exact Nat.le_refl _
    | settled id s v =>
      rcases settle_cases l id s v with h | ⟨r, -, -, -, h⟩ <;> rw [h]
  | selected =>
    obtain ⟨heap, heq, -, -⟩ := takeReports_spec l
    rw [heq]
  | reported id reason =>
    rw [report_eq]
  | freed h =>
    obtain ⟨-, rfl⟩ := free?_eq_some.mp h
    refine Nat.le_of_eq ?_
    show l.nextSerial = Loop.nextSerial (if _ then _ else _)
    split
    · rw [report_eq]
    · rfl
  | checked => exact Nat.le_refl _

theorem Deeds.derivesLater (h : l.Deeds l') : l.DerivesLater l' := by
  induction h with
  | refl => exact .refl l
  | tail _ h ih => exact ih.trans ⟨h.serial_le, fun d hd => .inl (h.allDerived ▸ hd)⟩

theorem derivesLater_attach (wf : l.heap.Wf) {p : Promise} {f g : Option Value} {a : Attached}
    (h : l.attach p f g = .ok a) : l.DerivesLater a.loop := by
  have derived := allDerived_attach wf h
  obtain ⟨r, -, rfl⟩ := (attach_eq_ok wf).mp h
  refine ⟨Nat.le_succ _, fun d hd => ?_⟩
  rw [derived, List.mem_append, List.mem_singleton] at hd
  exact hd.imp_right fun new => by rw [new]; exact Nat.le_refl _

theorem derivesLater_endAttach (l : Loop) (derived : Promise) (job : Option Job) :
    l.DerivesLater (l.endAttach derived job) :=
  ⟨Nat.le_of_eq (by cases job <;> rfl), fun d hd => .inl (allDerived_endAttach l derived job ▸ hd)⟩

end Loop

theorem View.Move.derivesLater {v v' : View} (h : v.Move v') (wf : v.loop.heap.Wf) :
    v.loop.DerivesLater v'.loop := by
  rcases h.deeds with ⟨deeds, -⟩ | ⟨p, f, g, a, ha, -, heq, -⟩ | ⟨p, f, g, a, ha, -, heq, -⟩ |
    ⟨derived, job, heq, -⟩
  · exact deeds.derivesLater
  · rw [heq]
    exact (Loop.derivesLater_attach wf ha).trans (Loop.derivesLater_endAttach _ _ _)
  · rw [heq]
    exact Loop.derivesLater_attach wf ha
  · rw [heq]
    exact Loop.derivesLater_endAttach _ _ _

namespace Machine

variable {m m' n : Machine} {p q : Promise} {k : LoopId} {l l' : Loop} {c : Prop} {side : Side} {x : Value}

/-- What is derived during a run is new. -/
theorem Run.derivesLater (hm : Reachable m) (hr : Run m m') (hl : m.loop? k = some l)
    (hl' : m'.loop? k = some l') : l.DerivesLater l' := by
  have moves := hr.view hm (sees_of_loop? hl) (sees_of_loop? hl')
  have later : ∀ {v}, ReflTransGen View.Move ⟨l, m.turnsOf k, m.sweepOf k⟩ v →
      v.loop.heap.Wf ∧ l.DerivesLater v.loop := by
    intro v moves
    induction moves with
    | refl => exact ⟨hm.wf hl, .refl l⟩
    | tail _ hm ih => exact ⟨hm.acts.wf ih.1, ih.2.trans (hm.derivesLater ih.1)⟩
  exact (later moves).2

-- ---------------------------------------------------------------------------
-- Strangers
-- ---------------------------------------------------------------------------

/-- A promise that its loop does not work on: it has not been derived, and no background work is to settle
it. -/
structure Stranger (m : Machine) (p : Promise) (l : Loop) : Prop where
  found : m.loop? p.home = some l
  young : p.serial < l.nextSerial
  underived : p ∉ allDerived l.history
  grounded : p ∉ l.inFlight

/-- No loop begins to work on a promise later. -/
theorem Run.stranger (hm : Reachable m) (hr : Run m m') (h : m.Stranger p l) (hl' : m'.loop? p.home = some l') :
    m'.Stranger p l' := by
  obtain ⟨serial, derives⟩ := hr.derivesLater hm h.found hl'
  obtain ⟨opened, applied, perm, new, -, -, -⟩ := hr.lands hm h.found hl'
  refine ⟨hl', Nat.lt_of_lt_of_le h.young serial, fun hd => ?_, fun flies => ?_⟩
  · exact (derives p hd).elim h.underived (Nat.not_le_of_lt h.young)
  · have before := perm.mem_iff.mpr (List.mem_append_left _ flies)
    exact (List.mem_append.mp before).elim h.grounded fun hp => Nat.not_le_of_lt h.young (new p hp)

/-- Promises that somebody has handles on have different records. -/
theorem Reachable.apart (hm : Reachable m) (hl : m.loop? p.home = some l) (room : l.heap.slots.length < 2 ^ 32)
    (hp : m.holds (.promise p) = true) (hq : m.holds (.promise q) = true) (ne : q ≠ p) : p.Apart q :=
  fun home same => ne (((hm.warranted p.home).guarded l hl room).distinct q p (knows_iff.mpr ⟨home, hq⟩)
    (knows_iff.mpr ⟨rfl, hp⟩) same)

theorem Issues.spares {t : Step} {info : CommandInfo} {scene m' : Machine} (h : m.Issues t info scene m')
    (spares : m.Spares p c) : scene.Spares p c := by
  cases h with
  | given idle store catches => exact spares.of_eq rfl rfl
  | @met store catches rest base settled stack control =>
    have reacts := spares.reacts
    rw [stack, List.forall_mem_cons] at reacts
    exact ⟨spares.placed, spares.tries, List.forall_mem_cons.mpr ⟨rfl, reacts.2⟩⟩

namespace Stranger

variable (hm : Reachable m) (h : m.Stranger p l) (room : l.heap.slots.length < 2 ^ 32)
  (held : m.holds (.promise p) = true)
include hm h room held

/-- Whatever the loops are to settle is other promises. -/
theorem clear (k : LoopId) (x : Loop) (hx : m.loop? k = some x) : x.Clear p := by
  have holds {q : Promise} (hq : .promise q ∈ handles x.held) : m.holds (.promise q) = true :=
    (has_control_held _).mp (.inl (mem_kept_of_loop hx hq))
  have own (home : k = p.home) : l = x := Option.some.inj (h.found.symm.trans (home ▸ hx))
  refine ⟨fun q hq same => ?_, fun j hj d hd same => ?_⟩
  · have home : q.home = k := ((hm.staffed.2 k x hx).own q hq).trans (hm.placed k x hx)
    obtain rfl := own (home.symm.trans same)
    refine hm.apart h.found room held (holds ?_) (fun e => h.grounded (e ▸ hq)) same
    exact Loop.mem_handles_held.mpr (.inr (.inr (.inl (List.mem_map_of_mem hq))))
  · have kept := hm.reactionsKept hx
    have queued : j ∈ enqueued x.history := by
      rw [show enqueued x.history = _ from (hm.queueKept hx).fifo]
      exact List.mem_append_right _ hj
    have derived : d ∈ allDerived x.history := kept.registered.ended d (kept.owned j queued d hd)
    obtain rfl := own ((hm.native_derived hx d derived).symm.trans same)
    refine hm.apart h.found room held (holds ?_) (fun e => h.underived (e ▸ derived)) same
    refine Loop.mem_handles_held.mpr (.inr (.inr (.inr ?_)))
    rw [handles_flatMap]
    refine List.mem_flatMap.mpr ⟨j, hj, ?_⟩
    cases j with
    | reaction r argument =>
      cases hd
      simp [Job.held, Reaction.held]
    | _ => cases hd

/-- A new promise gets another record. -/
theorem fresh (x : Loop) (hx : m.loop? p.home = some x) : x.newPromise.1.id ≠ p.id := fun same => by
  obtain rfl := Option.some.inj (h.found.symm.trans hx)
  obtain ⟨r, hr⟩ := hm.record_of_held h.found room rfl ((has_control_held _).mpr held)
  have vacant := (Heap.get?_allocate_self (hm.wf hx) .pending
    (Nat.le_trans (Heap.slots_allocate_le _ _) room)).1
  have found := (Loop.record_eq_ok.mp hr).2
  rw [← same] at found
  exact absurd (found.symm.trans vacant) (by simp)

/-- A move that tells the promise nothing makes no attempt on it. -/
theorem spares_next {m' : Machine} (spares : m.Spares p c) (next : Next m m')
    (alive : ∃ x, m'.loop? p.home = some x) (quiet : ∀ side x, ¬ m.Tells p side x m') : m'.Spares p c := by
  have fresh := h.fresh hm room held
  have clear := h.clear hm room held
  have apart {q : Promise} (hq : m.holds (.promise q) = true) (ne : q ≠ p) : p.Apart q :=
    hm.apart h.found room held hq ne
  have begins {t : Step} {info : CommandInfo} {scene : Machine} (issues : m.Issues t info scene m') (name : String)
      (y : Operand) (q : Promise) (x : Operand) (which : t = .resolve name y x ∨ t = .reject name y x)
      (named : scene.named? name = some q.home) (value : scene.evaluate y = .promise q) : p.Apart q := by
    refine apart (issues.holds value) ?_
    rintro rfl
    rcases which with rfl | rfl
    · exact quiet _ _ (.resolve issues named value)
    · exact quiet _ _ (.reject issues named value)
  cases next with
  | start idle e =>
    have cleared : ({ m with trace := [] } : Machine).Spares p c := spares.of_eq rfl rfl
    have other (e : Command) (he : e.step? = none) :
        ((({ m with trace := [] } : Machine).push (.command .control [])).beginCommand e).Spares p c :=
      (cleared.push rfl).beginCommand fresh fun t name y q x ht => by
        rw [he] at ht
        cases ht
    cases e with
    | step t store catches => exact cleared.beginStep fresh _ (begins (.given idle store catches))
    | ret x => exact other (.ret x) rfl
    | raise x => exact other (.raise x) rfl
    | fail message => exact other (.fail message) rfl
    | branch condition yes no => exact other (.branch condition yes no) rfl
    | loop count body silent => exact other (.loop count body silent) rfl
  | step =>
    unfold step at alive ⊢
    cases ho : m.orphan? with
    | some o =>
      rw [ho] at alive
      refine spares.removeLoop o fun own => ?_
      obtain ⟨x, hx⟩ := alive
      obtain ⟨released, look⟩ := exists_loop?_drop o.held
        { m with loops := m.loops.modify o.id.number fun _ => none } p.home
      rw [show (m.removeLoop o).loop? p.home = _ from look, loop?_modify_none, if_pos own] at hx
      cases hx
    | none =>
      dsimp only
      cases hc : m.control with
      | idle a => exact spares
      | collect k s =>
        refine (spares.signal .done).collectNext s ?_
        rintro rfl pending
        -- what is about to be freed has no handle
        have queued : p.id ∈ m.control.pendingOf p.home := by simpa [hc, Control.pendingOf] using pending
        have loose := ((hm.balanced p.home).1.books.ledger l h.found room).loose p.id (List.mem_append_left _ queued)
        exact loose.2 p ⟨rfl, (has_control_held _).mpr held⟩ rfl
      | call f this arguments =>
        refine (spares.signal .done).enter (fun r hf guard => ?_) this arguments
        refine apart (holds_of_mem (v := .function f) (mem_held.mpr (.inl (by simp [hc, Control.held]))) ?_) ?_
        · rw [hf]
          rfl
        · rintro rfl
          have own : f = r.promise.settling r.side := by rw [hf, Promise.settling, ← guard]
          exact quiet r.side _ (.call r.side ho (own ▸ hc))
      | signal s =>
        cases hs : m.stack with
        | nil =>
          show ({ m with stack := [], control := .idle .done } : Machine).Spares p c
          exact spares.of_eq rfl hs.symm
        | cons f base =>
          have reacts := spares.reacts
          rw [hs, List.forall_mem_cons] at reacts
          have popped : ({ m with stack := base, control := .signal .done } : Machine).Spares p c :=
            ⟨spares.placed, spares.tries, reacts.2⟩
          have top {v : Value} (hv : v ∈ f.held) {a : Handle} (ha : v.handle? = some a) : m.holds a = true :=
            holds_of_stack (hs ▸ List.mem_cons_self ..) hv ha
          refine popped.resume fresh clear ?_ ?_ ?_ ?_
          · rintro t store catches more rfl rfl name y q x which named value
            exact begins (.met ho hs hc) name y q x which named value
          · rintro q v rfl rfl
            refine apart (top (v := .promise q) (by simp [Frame.held]) rfl) ?_
            rintro rfl
            exact quiet _ _ (.thrown ho hs hc)
          · rintro handler d rfl
            refine apart (top (v := .promise d) (by simp [Frame.held]) rfl) ?_
            rintro rfl
            simp [Frame.reactsFor] at reacts
          · rintro q resolver t rfl r rfl guard
            obtain ⟨j, flagged⟩ := hm.rejects (hs ▸ List.mem_cons_self ..)
            cases flagged
            cases guard

/-- A move that tells the promise something makes one attempt on it. -/
theorem spares_of_tells {m' : Machine} (spares : m.Spares p c) (tells : m.Tells p side x m') :
    m'.Spares p True := by
  obtain ⟨r, hr⟩ := hm.record_of_held h.found room rfl ((has_control_held _).mpr held)
  cases tells with
  | @call this arguments side settled control =>
    rw [Machine.step, settled, control]
    exact (spares.signal .done).call_self h.found hr side this arguments
  | @thrown x base settled stack control =>
    rw [step_of_signal settled control stack]
    have below := spares.reacts
    rw [stack, List.forall_mem_cons] at below
    have popped : ({ m with stack := base, control := .signal .done } : Machine).Spares p c :=
      ⟨spares.placed, spares.tries, below.2⟩
    exact popped.thrown_self h.found hr x
  | @resolve name y x info scene m' issues named value =>
    rw [issues.begins, show scene.beginStep info (.resolve name y x) = _ from withPromise_eq named value _]
    exact ((issues.spares spares).push rfl).resolve_self (by rw [loop?, ← h.found, loop?, ← issues.loops]; rfl) hr _
  | @reject name y x info scene m' issues named value =>
    rw [issues.begins, show scene.beginStep info (.reject name y x) = _ from withPromise_eq named value _]
    exact ((issues.spares spares).push rfl).reject_self (by rw [loop?, ← h.found, loop?, ← issues.loops]; rfl) hr _

end Stranger

end Machine
end PromiseLoop

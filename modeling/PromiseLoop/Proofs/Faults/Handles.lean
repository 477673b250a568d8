import PromiseLoop.Proofs.Background.Runs
import PromiseLoop.Proofs.Faults.Sealed
import PromiseLoop.Proofs.Warrants.Runs

/-!
# Handles that find a record

Whoever has a handle on a promise keeps its record alive, be it a script, a reaction that waits, a
captured function or the loop itself on behalf of background work.  So a loop that is shown a handle has
a record for it, unless the handle is one of another loop; and the promises that a loop deals with on
its own account are all its own.

## Results

* `Reachable.record_eq_error_iff`: a record is refused exactly to handles of other loops.
* `Reachable.record_of_queued`, `Reachable.record_of_inFlight`: the promises that queued jobs and reports
  will settle have records in their loop.
* `Reachable.claim_eq_ok`: calling a resolving function never fails for want of a record.
-/

namespace PromiseLoop

open Relation

theorem allDerived_append_of_none {newer older : List Event} (h : ∀ e ∈ newer, e.derived? = none) :
    allDerived (newer ++ older) = allDerived older := by
  rw [allDerived, List.filterMap_append, List.filterMap_eq_nil_iff.mpr h]
  rfl

theorem allDerived_cons_of_none {e : Event} (h : e.derived? = none) (older : List Event) :
    allDerived (e :: older) = allDerived older := by
  rw [allDerived_cons, h]
  exact List.append_nil _

namespace Loop

variable {l l' : Loop}

-- ---------------------------------------------------------------------------
-- Derived promises
-- ---------------------------------------------------------------------------

/-- Only registrations make derived promises. -/
theorem Chore.allDerived (h : l.Chore l') : allDerived l'.history = allDerived l.history := by
  cases h with
  | silent newer _ _ _ _ _ _ history silent =>
    rw [history, allDerived_append fun e he => Event.isBystander_of_isSilent (silent e he)]
  | created => rfl
  | attempted h =>
    obtain ⟨r, -, -, rfl⟩ := lock_eq_ok.mp h
    exact allDerived_cons_of_none rfl _
  | settled id s v =>
    rcases settle_cases l id s v with h | ⟨r, -, -, -, h⟩
    · rw [h]
    · rw [h]
      refine (allDerived_append_of_none fun e he => ?_).trans
        (allDerived_cons_of_none rfl _)
      obtain ⟨x, -, rfl⟩ := List.mem_map.mp (List.mem_reverse.mp he)
      rfl

theorem Deed.allDerived (h : l.Deed l') : allDerived l'.history = allDerived l.history := by
  cases h with
  | chore h => exact h.allDerived
  | selected =>
    obtain ⟨heap, heq, -, -⟩ := takeReports_spec l
    rw [heq]
  | reported id reason =>
    rw [report_eq]
    exact allDerived_cons_of_none rfl _
  | freed h =>
    rw [history_free? h]
    refine (allDerived_cons_of_none rfl _).trans ?_
    split
    · exact allDerived_cons_of_none rfl _
    · rfl
  | checked => exact allDerived_cons_of_none rfl _

theorem Deeds.allDerived (h : l.Deeds l') : allDerived l'.history = allDerived l.history := by
  induction h with
  | refl => rfl
  | tail _ h ih => exact h.allDerived.trans ih

theorem allDerived_endAttach (l : Loop) (derived : Promise) (job : Option Job) :
    PromiseLoop.allDerived (l.endAttach derived job).history = PromiseLoop.allDerived l.history := by
  rw [history_endAttach]
  refine (allDerived_cons_of_none rfl _).trans ?_
  cases job with
  | none => rfl
  | some j => exact allDerived_cons_of_none rfl _

theorem allDerived_attach (wf : l.heap.Wf) {p : Promise} {f g : Option Value} {a : Attached}
    (h : l.attach p f g = .ok a) :
    PromiseLoop.allDerived a.loop.history = PromiseLoop.allDerived l.history ++ [a.derived] := by
  obtain ⟨r, -, rfl⟩ := (attach_eq_ok wf).mp h
  refine (allDerived_append_of_none fun e he => ?_).trans (allDerived_cons _)
  split at he
  · rw [List.mem_singleton.mp he]
    rfl
  · cases he

-- ---------------------------------------------------------------------------
-- Numbers
-- ---------------------------------------------------------------------------

theorem Outside.id_eq (h : l.Outside l') : l'.id = l.id := by
  cases h <;> simp

theorem Called.id_eq (h : l.Called l') : l'.id = l.id := by
  cases h with
  | attempted h =>
    obtain ⟨r, -, -, rfl⟩ := lock_eq_ok.mp h
    rfl
  | attached h _ => rw [id_endAttach, id_attach h]
  | received h => exact id_receive? h
  | taskTaken h => exact id_dequeueTask? h
  | _ => simp

end Loop

namespace View

variable {v v' : View}

/-- A loop keeps its number. -/
theorem Move.id_loop (h : v.Move v') : v'.loop.id = v.loop.id := by
  cases h with
  | plain h =>
    cases h with
    | light h =>
      cases h with
      | outside h => exact h.id_eq
      | called h => exact h.id_eq
      | drainBegun _ => rfl
    | taken h => exact Loop.id_dequeue? h
    | drainEnded _ => rfl
    | drainBroken => rfl
  | final h =>
    cases h with
    | attachedLate h _ => exact Loop.id_attach h
    | selected => exact Loop.id_takeReports _
    | swept => rfl
  | resume h =>
    cases h with
    | attachEnded => exact Loop.id_endAttach ..
    | reported => exact Loop.id_report ..
    | reportsSwept => rfl
    | reportsChecked => rfl
    | sweptOn => rfl
  | sweeping h =>
    cases h with
    | taken _ _ => rfl
    | skipped _ _ => rfl
    | freed _ found _ => exact Loop.id_free? found
    | reported _ found _ => exact Loop.id_free? found
    | ended _ _ => dsimp only; split <;> rfl

/-- Every derived promise is one of the loop in which it was made. -/
def Native (v : View) : Prop := ∀ d ∈ allDerived v.loop.history, d.home = v.loop.id

theorem Move.native (h : v.Move v') (wf : v.loop.heap.Wf) (hv : v.Native) : v'.Native := by
  have attached {p : Promise} {f g : Option Value} {a : Loop.Attached} (ha : v.loop.attach p f g = .ok a) :
      ∀ d ∈ allDerived a.loop.history, d.home = v.loop.id := fun d hd => by
    rw [Loop.allDerived_attach wf ha, List.mem_append, List.mem_singleton] at hd
    rcases hd with hd | rfl
    · exact hv d hd
    · exact Machine.home_derived_of_attach ha
  rw [Native, h.id_loop]
  rcases h.deeds with ⟨deeds, -⟩ | ⟨p, f, g, a, ha, -, heq, -⟩ | ⟨p, f, g, a, ha, -, heq, -⟩ |
    ⟨derived, job, heq, -⟩
  · rw [deeds.allDerived]
    exact hv
  · rw [heq, Loop.allDerived_endAttach]
    exact attached ha
  · rw [heq]
    exact attached ha
  · rw [heq, Loop.allDerived_endAttach]
    exact hv

end View

namespace Machine

variable {m : Machine} {k : LoopId} {l : Loop} {p : Promise}

theorem Reachable.native_derived (hm : Reachable m) (hl : m.loop? k = some l) :
    ∀ d ∈ allDerived l.history, d.home = k := by
  have kept := hm.keepsView hl (P := fun v => v.loop.heap.Wf ∧ v.Native)
    (fun config tracker bridge => ⟨.empty_heap, fun d hd => by cases hd⟩)
    fun hm hv => ⟨hm.acts.wf hv.1, hm.native hv.1 hv.2⟩
  exact hm.placed k l hl ▸ kept.2

-- ---------------------------------------------------------------------------
-- Records
-- ---------------------------------------------------------------------------

/-- As long as slots have indices, a loop has a record for every handle on one of its promises. -/
theorem Reachable.record_of_held (hm : Reachable m) (hl : m.loop? k = some l)
    (room : l.heap.slots.length < 2 ^ 32) (home : p.home = k) (held : m.Has m.control.held (.promise p)) :
    ∃ r, l.record p = .ok r := by
  obtain ⟨r, hr⟩ := ((hm.balanced k).1.books.ledger l hl room).live p ⟨home, held⟩
  exact ⟨r, Loop.record_eq_ok.mpr ⟨home.trans (hm.placed k l hl).symm, hr⟩⟩

/-- A record is refused exactly to handles of other loops. -/
theorem Reachable.record_eq_error_iff (hm : Reachable m) (hl : m.loop? k = some l)
    (room : l.heap.slots.length < 2 ^ 32) (held : m.holds (.promise p) = true) (f : Fault) :
    l.record p = .error f ↔ p.home ≠ k ∧ f = .foreignPromise p.id := by
  by_cases home : p.home = k
  · obtain ⟨r, hr⟩ := hm.record_of_held hl room home ((has_control_held _).mpr held)
    simp [hr, home]
  · have foreign : l.owns p = false := by simp [Loop.owns, hm.placed k l hl, home]
    simp [Loop.record, foreign, home, eq_comm]

/-- A reaction that waits in the queue of a loop derives a promise of that loop. -/
theorem Reachable.record_of_queued (hm : Reachable m) (hl : m.loop? k = some l)
    (room : l.heap.slots.length < 2 ^ 32) {j : Job} (hj : j ∈ l.microtasks.entries)
    (hd : j.derived? = some p) : p.home = k ∧ ∃ r, l.record p = .ok r := by
  have kept := hm.reactionsKept hl
  have queued : j ∈ enqueued l.history := by
    rw [show enqueued l.history = _ from (hm.queueKept hl).fifo]
    exact List.mem_append_right _ hj
  have home := hm.native_derived hl p (kept.registered.ended p (kept.owned j queued p hd))
  have held : .promise p ∈ handles l.held := Loop.mem_handles_held.mpr <| .inr <| .inr <| .inr <| by
    rw [handles_flatMap]
    refine List.mem_flatMap.mpr ⟨j, hj, ?_⟩
    cases j with
    | reaction r argument =>
      cases hd
      simp [Job.held, Reaction.held]
    | _ => cases hd
  exact ⟨home, hm.record_of_held hl room home (.inl (mem_kept_of_loop hl held))⟩

/-- A promise whose background work has not been applied is one of the loop that waits for it. -/
theorem Reachable.record_of_inFlight (hm : Reachable m) (hl : m.loop? k = some l)
    (room : l.heap.slots.length < 2 ^ 32) (hp : p ∈ l.inFlight) : ∃ r, l.record p = .ok r := by
  have home : p.home = k := ((hm.staffed.2 k l hl).own p hp).trans (hm.placed k l hl)
  have held : .promise p ∈ handles l.held :=
    Loop.mem_handles_held.mpr (.inr (.inr (.inl (List.mem_map_of_mem hp))))
  exact hm.record_of_held hl room home (.inl (mem_kept_of_loop hl held))

/-- A resolving function finds the record of its promise, as long as the loop of that is alive. -/
theorem Reachable.claim_eq_ok (hm : Reachable m) {r : Resolver} (hr : .function (.resolver r) ∈ m.held)
    (room : ∀ l, m.loop? r.promise.home = some l → l.heap.slots.length < 2 ^ 32) :
    ∃ accepted m', m.claim r = .ok (accepted, m') := by
  unfold claim
  split
  · exact ⟨_, _, rfl⟩
  · split
    · exact ⟨_, _, rfl⟩
    · rename_i l hl
      have held := holds_of_mem hr rfl
      obtain ⟨x, hx⟩ := hm.record_of_held hl (room l hl) rfl ((has_control_held _).mpr held)
      exact ⟨_, _, by rw [Loop.lock, hx]; rfl⟩

end Machine
end PromiseLoop

import PromiseLoop.Proofs.Occasions.Marks
import PromiseLoop.Proofs.Reactions

/-!
# Script runs as jobs

A loop calls script only to construct promises and as the first thing that a job does, and a job is queued
only for one reason: a promise is settled that has registrations, or has been settled when a registration on
it ends, a resolution has found a `then`, a report is delivered, or the host hands a microtask over.

## Results

* `Loop.ReactionsKept.queued`: the reactions that are queued between two moments, promise by promise.
* `script_runs_as_jobs`: what a move calls and queues.
* `Trail.accounts`: what a run calls and queues.
-/

namespace PromiseLoop

open Relation

-- ---------------------------------------------------------------------------
-- Registrations in a longer history
-- ---------------------------------------------------------------------------

section

variable {id : PromiseId} {n : Nat} {newer history : List Event}

theorem registrations_later (id : PromiseId) (n : Nat) (newer history : List Event) : ∃ new,
    registrations id n (newer ++ history) = registrations id n history ++ new := by
  induction newer with
  | nil => exact ⟨[], by simp⟩
  | cons e newer ih =>
    obtain ⟨new, later⟩ := ih
    exact ⟨_, by rw [List.cons_append, registrations_cons, later, List.append_assoc]⟩

theorem settlement?_later {x : State × Value} (h : settlement? id n history = some x) (newer : List Event) :
    settlement? id n (newer ++ history) = some x := by
  induction newer with
  | nil => exact h
  | cons e newer ih => rw [List.cons_append, settlement?_cons, ih, Option.some_or]

variable (id n) (nodup : (allDerived (newer ++ history)).Nodup)
include nodup

/-- No later registration has the derived promise of an earlier one. -/
theorem find?_registrations_later {d : Promise} (hd : d ∈ allDerived history) :
    ((registrations id n (newer ++ history)).find? fun x => x.derived = d) =
      (registrations id n history).find? fun x => x.derived = d := by
  obtain ⟨new, later⟩ := registrations_later id n newer history
  rw [later, List.find?_append]
  cases hf : (registrations id n history).find? fun x => x.derived = d with
  | some x => rfl
  | none =>
    rw [Option.none_or, List.find?_eq_none]
    intro x hx
    have mem : x ∈ registrations id n (newer ++ history) := later ▸ List.mem_append_right _ hx
    obtain ⟨id', n', y, hy, rfl⟩ := exists_registration hd
    obtain ⟨new', later'⟩ := registrations_later id' n' newer history
    have mem' : y ∈ registrations id' n' (newer ++ history) := later' ▸ List.mem_append_left _ hy
    intro same
    obtain ⟨rfl, rfl, rfl⟩ := registration_unique nodup mem mem' (by simpa using same)
    exact List.find?_eq_none.mp hf x hy same

/-- The registrations that have ended go on to be those that have. -/
theorem returns_later (ended : ∀ d ∈ returned history, d ∈ allDerived history) : ∃ more,
    returns id n (newer ++ history) = returns id n history ++ more := by
  refine ⟨(returned newer).filterMap fun d =>
    (registrations id n (newer ++ history)).find? fun x => x.derived = d, ?_⟩
  have split : returned (newer ++ history) = returned history ++ returned newer := by simp [returned]
  rw [returns, split, List.filterMap_append]
  congr 1
  exact List.filterMap_congr fun d hd => find?_registrations_later id n nodup (ended d hd)

/-- The jobs that have been queued for a promise go on to be its jobs. -/
theorem reactionJobs_later
    (owned : ∀ j ∈ enqueued history, ∀ d, j.derived? = some d → d ∈ allDerived history) :
    reactionJobs id n (newer ++ history) = reactionJobs id n history ++
      (enqueued newer).filter (Job.isOf (registrations id n (newer ++ history))) := by
  rw [reactionJobs, enqueued_append, List.filter_append]
  congr 1
  refine List.filter_congr fun j hj => ?_
  unfold Job.isOf
  cases hd : j.derived? with
  | none => rfl
  | some d =>
    have same := find?_registrations_later id n nodup (owned j hj d hd)
    simp only [Option.any_some]
    rw [Bool.eq_iff_iff, List.any_eq_true, List.any_eq_true, ← List.find?_isSome, ← List.find?_isSome, same]

end

-- ---------------------------------------------------------------------------
-- Reactions
-- ---------------------------------------------------------------------------

/-- All registrations on a promise that has not been settled have ended. -/
theorem Loop.ReactionsKept.all_returned {l : Loop} {waiting : List (Promise × Option Job)}
    (h : l.ReactionsKept waiting) {id : PromiseId} {n : Nat} (unsettled : settlement? id n l.history = none) :
    (returns id n l.history).Perm (registrations id n l.history) := by
  have nodup := h.registered.nodup
  refine (List.perm_ext_iff_of_nodup (nodup_returns h.registered.endedOnce).of_map
    ((derived_sublist id n _).nodup nodup).of_map).mpr fun x => ⟨fun hx => ?_, fun hx => ?_⟩
  · obtain ⟨d, -, hf⟩ := List.mem_filterMap.mp hx
    exact List.mem_of_find?_eq_some hf
  · rcases h.registered.complete _ (derived_mem hx) with ended | waits
    · exact mem_returns nodup hx ended
    · -- a registration that waits is one on a promise that has been settled
      obtain ⟨w, hw, hwx⟩ := List.mem_map.mp waits
      obtain ⟨id', n', y, s, v, hy, hyw, settled, -⟩ := h.kept w hw
      obtain ⟨rfl, rfl, rfl⟩ := registration_unique nodup hx hy (hwx.symm.trans hyw.symm)
      rw [unsettled] at settled
      cases settled

/-- The reactions that are queued between two moments: none for a promise that stays pending, one for each
registration on a promise that is settled, and one for each registration that ends on a promise that has
been settled. -/
theorem Loop.ReactionsKept.queued {l l' : Loop} {waiting waiting' : List (Promise × Option Job)}
    (h : l.ReactionsKept waiting) (h' : l'.ReactionsKept waiting') {newer : List Event}
    (history : l'.history = newer ++ l.history) (id : PromiseId) (n : Nat) : ∃ more,
      returns id n l'.history = returns id n l.history ++ more ∧
      (enqueued newer).filter (Job.isOf (registrations id n l'.history)) =
        match settlement? id n l.history, settlement? id n l'.history with
        | none, none => []
        | none, some (s, v) => (returns id n l.history ++ more).map fun x => x.job s v
        | some (s, v), _ => more.map fun x => x.job s v := by
  have nodup := h'.registered.nodup
  rw [history] at nodup
  obtain ⟨more, returned⟩ := returns_later id n nodup h.registered.ended
  have jobs := reactionJobs_later id n nodup
    fun j hj d hd => h.registered.ended d (h.owned j hj d hd)
  rw [← history] at returned jobs
  refine ⟨more, returned, ?_⟩
  rw [h.jobs id n, h'.jobs id n, owedJobs, owedJobs, returned] at jobs
  cases before : settlement? id n l.history with
  | none =>
    rw [before] at jobs
    cases after : settlement? id n l'.history with
    | none =>
      rw [after] at jobs
      exact jobs.symm
    | some x =>
      rw [after] at jobs
      exact jobs.symm
  | some x =>
    have settled : settlement? id n l'.history = some x := by
      rw [history]
      exact settlement?_later before newer
    rw [before, settled] at jobs
    dsimp only at jobs ⊢
    rw [List.map_append] at jobs
    exact (List.append_cancel_left jobs).symm

namespace Machine

variable {m m' : Machine} {k : LoopId} {l l' : Loop} {o : Option Occasion}

/-- The reports that have been posted have been queued, in their order, or wait in the channel. -/
theorem Reachable.posted_eq (hm : Reachable m) (hl : m.loop? k = some l) :
    posted l.history = reports (enqueued l.history) ++ l.channel := by
  have split : reports (enqueued l.history) = reports (started l.history) ++ reports l.microtasks.entries := by
    rw [← reports_append]
    exact congrArg reports (hm.queueKept hl).fifo
  rw [split, List.append_assoc]
  exact (hm.staffed.2 k l hl).order

/-- Whatever is posted between two moments, or waited in the channel, has been queued or waits there. -/
theorem Reachable.posted_newer (hm : Reachable m) (hm' : Reachable m') (hl : m.loop? k = some l)
    (hl' : m'.loop? k = some l') {newer : List Event} (history : l'.history = newer ++ l.history) :
    l.channel ++ posted newer = reports (enqueued newer) ++ l'.channel := by
  have before := hm.posted_eq hl
  have after := hm'.posted_eq hl'
  have more : posted (newer ++ l.history) = posted l.history ++ posted newer := by simp [posted]
  rw [history, more, before, enqueued_append, reports_append, List.append_assoc, List.append_assoc] at after
  exact List.append_cancel_left after

/-- **Script runs as jobs.**  Whatever a machine does, what it adds to the history of a loop says that

* the bridge was asked to call the initializer of a promise that the move constructs, or what the job that
  the move starts has to call, and nothing else;
* a job was started only by a drain that came to it, as the first one of the queue, and it is run above the
  frame of that drain;
* reactions were queued for the registrations on a promise: none while it stays pending, one for each when
  it is settled, and from then on one for each that ends; all registrations on a promise that has not been
  settled have ended;
* reports were queued in the order in which they were posted, each once as it left the channel;
* any other job was the one microtask that the host handed over, or the one adoption for a resolution whose
  value has answered with a `then`. -/
theorem script_runs_as_jobs (hm : Reachable m) (ha : m.Advances o m') (hl : m.loop? k = some l)
    (hl' : m'.loop? k = some l') : ∃ newer, l'.history = newer ++ l.history ∧
      called newer = o.toList.flatMap (Occasion.calls k) ∧
      started newer = o.toList.flatMap (Occasion.starts k) ∧
      (∀ j ∈ started newer, o = some (.running k j) ∧ l.draining = true ∧
        l.microtasks.entries.head? = some j ∧
        ∃ above rest, m.stack = .draining k :: rest ∧ m'.stack = above ++ .draining k :: rest) ∧
      (∀ id n, (settlement? id n l.history = none →
          (returns id n l.history).Perm (registrations id n l.history)) ∧
        ∃ more, returns id n l'.history = returns id n l.history ++ more ∧
          (enqueued newer).filter (Job.isOf (registrations id n l'.history)) =
            match settlement? id n l.history, settlement? id n l'.history with
            | none, none => []
            | none, some (s, v) => (returns id n l.history ++ more).map fun x => x.job s v
            | some (s, v), _ => more.map fun x => x.job s v) ∧
      (∀ j ∈ enqueued newer, j.isReaction = true → ∃ id n, j.isOf (registrations id n l'.history) = true) ∧
      l.channel ++ posted newer = reports (enqueued newer) ++ l'.channel ∧
      othersOf (enqueued newer) = o.toList.flatMap (Occasion.queues k) := by
  obtain ⟨newer, history, marks⟩ := ha.newer hm hl hl'
  have hm' := hm.next ha.next
  have kept := hm.reactionsKept hl
  have kept' := hm'.reactionsKept hl'
  have starts : started newer = o.toList.flatMap (Occasion.starts k) := by
    rw [← started_filter, marks]
    cases o with
    | none => rfl
    | some o => simpa using o.started_marks k
  refine ⟨newer, history, ?_, starts, fun j hj => ?_, fun id n => ⟨kept.all_returned, kept.queued kept' history id n⟩,
    fun j hj hr => ?_, hm.posted_newer hm' hl hl' history, ?_⟩
  · rw [← called_filter, marks]
    cases o with
    | none => rfl
    | some o => simpa using o.called_marks k
  · have runs : o = some (.running k j) := by
      rw [starts] at hj
      obtain ⟨o', ho', hj⟩ := List.mem_flatMap.mp hj
      rw [Option.mem_toList.mp ho']
      cases o' with
      | running i x =>
        by_cases hi : i = k
        · simp only [Occasion.starts, hi, if_true, List.mem_singleton] at hj
          rw [hj, hi]
        · simp [Occasion.starts, hi] at hj
      | _ => cases hj
    exact ⟨runs, ha.runs_above hm hl runs⟩
  · cases j with
    | reaction r v =>
      have hj' : .reaction r v ∈ enqueued l'.history := by
        rw [history, enqueued_append]
        exact List.mem_append_right _ hj
      have ended := kept'.owned _ hj' r.derived rfl
      obtain ⟨id, n, x, hx, hd⟩ := exists_registration (kept'.registered.ended _ ended)
      exact ⟨id, n, Job.isOf_iff.mpr ⟨x, hx, hd ▸ rfl⟩⟩
    | _ => cases hr
  · rw [← enqueued_filter, marks]
    cases o with
    | none => rfl
    | some o => simpa using o.enqueued_marks k

/-- A machine whose script has registered a handler on a promise and fulfilled it. -/
def catchQueued : Machine :=
  let act (s : Step) (store : Option String) : Command := .step s store false
  (boot {} .console .native).obey
    [act (.routine "f" [] false) (some "f"), act (.newPromise "main") (some "p"),
      act (.attach .then_ "main" (.variable "p") (some (.variable "f")) none) none,
      act (.resolve "main" (.variable "p") (.constant .null)) none]

/-- The machine when a drain is about to run the handler. -/
def catchDrained : Machine := catchQueued.start (.step (.drain "main") none false)

theorem reachable_catchDrained : Reachable catchDrained :=
  .start (.obey (.boot _ _ _) _) (by cbv) _

theorem script_runs_as_jobs_catchDrained :
    ∃ l l' newer, catchDrained.loop? ⟨0⟩ = some l ∧ catchDrained.step.loop? ⟨0⟩ = some l' ∧
      l'.history = newer ++ l.history ∧ called newer = [.function (.routine 0 "f")] ∧
      started newer = [.reaction ⟨.fulfill, some (.function (.routine 0 "f")), ⟨⟨0⟩, 1, ⟨1, 0⟩⟩⟩ .null] ∧
      l.draining = true ∧ othersOf (enqueued newer) = [] := by
  obtain ⟨l, hl⟩ := Option.isSome_iff_exists.mp (by cbv : (catchDrained.loop? ⟨0⟩).isSome = true)
  obtain ⟨l', hl'⟩ := Option.isSome_iff_exists.mp (by cbv : (catchDrained.step.loop? ⟨0⟩).isSome = true)
  have runs : catchDrained.occasion? = some (.running ⟨0⟩
      (.reaction ⟨.fulfill, some (.function (.routine 0 "f")), ⟨⟨0⟩, 1, ⟨1, 0⟩⟩⟩ .null)) := by cbv
  obtain ⟨newer, history, calls, starts, drained, -, -, -, others⟩ :=
    script_runs_as_jobs reachable_catchDrained (.step catchDrained) hl hl'
  rw [runs] at calls starts others
  have one : started newer =
      [.reaction ⟨.fulfill, some (.function (.routine 0 "f")), ⟨⟨0⟩, 1, ⟨1, 0⟩⟩⟩ .null] := starts
  exact ⟨l, l', newer, hl, hl', history, calls, one,
    (drained _ (one ▸ List.mem_singleton_self _)).2.1, others⟩

-- ---------------------------------------------------------------------------
-- Over a run
-- ---------------------------------------------------------------------------

/-- A run, with the occasions of its moves in their order. -/
inductive Trail (m : Machine) : List Occasion → Machine → Prop
  | refl : Trail m [] m
  | tail {m' m'' : Machine} {os : List Occasion} {o : Option Occasion} (h : Trail m os m')
      (ha : Advances m' o m'') : Trail m (os ++ o.toList) m''

theorem Run.trail (hr : Run m m') : ∃ os, Trail m os m' := by
  induction hr with
  | refl => exact ⟨[], .refl⟩
  | tail _ hn ih =>
    obtain ⟨os, h⟩ := ih
    obtain ⟨o, ha⟩ := hn.advances
    exact ⟨_, h.tail ha⟩

theorem Trail.run {os : List Occasion} (h : Trail m os m') : Run m m' := by
  induction h with
  | refl => exact .refl
  | tail _ ha ih => exact ih.tail ha.next

/-- A loop that was alive and still is has been alive all the time. -/
theorem Run.exists_loop? (hr : Run m m') (hm : Reachable m) (hl : m.loop? k = some l) {m'' : Machine}
    (hn : Next m' m'') {x : Loop} (hx : m''.loop? k = some x) : ∃ l', m'.loop? k = some l' := by
  have reached := hm.runs hr
  obtain ⟨staffed, accounted⟩ := reached.staffed
  obtain ⟨w, ⟨y, hy, -⟩ | ⟨new, -⟩, -⟩ := (hn.leads reached staffed accounted).loops k x hx
  · exact ⟨y, hy⟩
  · exact absurd (Nat.lt_of_lt_of_le (number_lt_of_loop? hl) (hr.leads hm).size) (Nat.not_lt_of_le new)

/-- What a loop calls, starts, and queues apart from reactions and reports over a run, is what it does on
the occasions of the run, one after another. -/
theorem Trail.accounts {os : List Occasion} (h : Trail m os m') (hm : Reachable m) (hl : m.loop? k = some l)
    (hl' : m'.loop? k = some l') : ∃ newer, l'.history = newer ++ l.history ∧
      called newer = os.flatMap (Occasion.calls k) ∧ started newer = os.flatMap (Occasion.starts k) ∧
      othersOf (enqueued newer) = os.flatMap (Occasion.queues k) := by
  induction h generalizing l' with
  | refl =>
    obtain rfl : l = l' := Option.some.inj (hl.symm.trans hl')
    exact ⟨[], rfl, rfl, rfl, rfl⟩
  | @tail m' m'' os o h ha ih =>
    obtain ⟨x, hx⟩ := h.run.exists_loop? hm hl ha.next hl'
    obtain ⟨earlier, history, calls, starts, others⟩ := ih hx
    obtain ⟨newer, history', marks⟩ := ha.newer (hm.runs h.run) hx hl'
    refine ⟨newer ++ earlier, by rw [history', history, List.append_assoc], ?_, ?_, ?_⟩
    · rw [called_append, calls, List.flatMap_append, ← called_filter newer, marks]
      cases o with
      | none => rfl
      | some o => simpa using o.called_marks k
    · rw [started_append, starts, List.flatMap_append, ← started_filter newer, marks]
      cases o with
      | none => rfl
      | some o => simpa using o.started_marks k
    · rw [enqueued_append, othersOf, List.filter_append, ← othersOf, ← othersOf, others, List.flatMap_append,
        ← enqueued_filter newer, marks]
      cases o with
      | none => rfl
      | some o => simpa using o.enqueued_marks k

end Machine
end PromiseLoop

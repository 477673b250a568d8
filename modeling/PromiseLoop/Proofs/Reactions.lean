import PromiseLoop.Proofs.Registrations

/-!
# Reactions run once, on the right side, in the order of registration

As long as a promise is pending, its record collects the reactions of both sides.  Settling it
enqueues the jobs of one side in their order, and from then on every registration enqueues its own
job before it ends.  Where the tracker is told of a late handler, other registrations may begin and
end in between, so it is the order in which registrations *end* that counts.

## Results

* `Machine.Reachable.reactionsKept`: what runs keep of reactions.
* `Machine.reactions_run_once`: which reaction jobs are enqueued, and when they have run.
-/

namespace PromiseLoop

open Relation

/-- The jobs that a promise owes to the registrations on it that have ended. -/
def owedJobs (id : PromiseId) (n : Nat) (history : List Event) : List Job :=
  match settlement? id n history with
  | none => []
  | some (s, v) => (returns id n history).map fun x => x.job s v

section

variable {id : PromiseId} {n : Nat} {history history' : List Event}

theorem owedJobs_of_pending (h : settlement? id n history = none) : owedJobs id n history = [] := by
  rw [owedJobs, h]

theorem owedJobs_of_settled {s : State} {v : Value} (h : settlement? id n history = some (s, v)) :
    owedJobs id n history = (returns id n history).map fun x => x.job s v := by
  rw [owedJobs, h]

theorem owedJobs_congr (settlement : settlement? id n history' = settlement? id n history)
    (returns : returns id n history' = returns id n history) :
    owedJobs id n history' = owedJobs id n history := by
  rw [owedJobs, owedJobs, settlement, returns]

end

-- ---------------------------------------------------------------------------
-- Records and their history
-- ---------------------------------------------------------------------------

/-- The part of a record that reactions depend on. -/
def Record.core (r : Record) : State × Option Value × List Reaction × List Reaction :=
  (r.state, r.value, r.fulfillReactions, r.rejectReactions)

/-- What is found under an id agrees with what has happened since the id was last freed. -/
inductive Recorded (id : PromiseId) (history : List Event) : Option Record → Prop
  | unborn (registrations : registrations id (ends id history) history = [])
      (settlement : settlement? id (ends id history) history = none) : Recorded id history none
  | pending {r : Record} (state : r.state = .pending)
      (settlement : settlement? id (ends id history) history = none)
      (returns : returns id (ends id history) history =
        registrations id (ends id history) history)
      (fulfill : r.fulfillReactions = (PromiseLoop.registrations id (ends id history) history).map
        (Registration.reaction · .fulfill))
      (reject : r.rejectReactions = (PromiseLoop.registrations id (ends id history) history).map
        (Registration.reaction · .reject)) : Recorded id history (some r)
  | settled {r : Record} (state : r.state ≠ .pending)
      (settlement : settlement? id (ends id history) history = some (r.state, r.reason)) :
      Recorded id history (some r)

namespace Recorded

variable {id : PromiseId} {history history' : List Event} {o o' : Option Record}

/-- Nothing changes where neither the record nor what the history says about it does. -/
theorem congr (h : Recorded id history o) (core : o'.map Record.core = o.map Record.core)
    (hends : ends id history' = ends id history)
    (hregistrations : registrations id (ends id history) history' =
      registrations id (ends id history) history)
    (hsettlement : settlement? id (ends id history) history' =
      settlement? id (ends id history) history)
    (hreturns : returns id (ends id history) history' = returns id (ends id history) history) :
    Recorded id history' o' := by
  cases o' with
  | none =>
    cases h with
    | unborn registrations settlement =>
      exact .unborn (by rw [hends, hregistrations, registrations])
        (by rw [hends, hsettlement, settlement])
    | _ => simp at core
  | some r' =>
    cases h with
    | unborn _ _ => simp at core
    | @pending r state settlement returns fulfill reject =>
      obtain ⟨hs, hv, hf, hg⟩ := by simpa [Record.core] using core
      exact .pending (by rw [hs, state]) (by rw [hends, hsettlement, settlement])
        (by rw [hends, hreturns, hregistrations, returns])
        (by rw [hends, hregistrations, hf, fulfill]) (by rw [hends, hregistrations, hg, reject])
    | @settled r state settlement =>
      obtain ⟨hs, hv, hf, hg⟩ := by simpa [Record.core] using core
      exact .settled (by rw [hs]; exact state)
        (by rw [hends, hsettlement, settlement, hs, Record.reason, Record.reason, hv])

/-- A new record has no reactions, as nothing has been registered on it. -/
theorem created (h : Recorded id history none) : Recorded id history (some .pending) := by
  cases h with
  | unborn registrations settlement =>
    have none_returned : returns id (ends id history) history = [] := by
      simp [PromiseLoop.returns, registrations]
    exact .pending rfl settlement (by rw [none_returned, registrations])
      (by rw [registrations]; rfl) (by rw [registrations]; rfl)

/-- What is found under an id says how its promise was settled. -/
theorem settlement? {r : Record} (h : Recorded id history (some r)) :
    PromiseLoop.settlement? id (ends id history) history =
      if r.state = .pending then none else some (r.state, r.reason) := by
  cases h with
  | pending state settlement _ _ _ => rw [settlement, if_pos state]
  | settled state settlement => rw [settlement, if_neg state]

end Recorded

-- ---------------------------------------------------------------------------
-- What runs keep
-- ---------------------------------------------------------------------------

/-- What is known of registrations, where those with the given derived promises have not ended and
`serial` promises have been created. -/
structure Registered (history : List Event) (serial : Nat) (waiting : List Promise) : Prop where
  /-- The derived promises are those of promises that have been created. -/
  fresh : ∀ d ∈ allDerived history, d.serial < serial
  nodup : (allDerived history).Nodup
  /-- Only registrations end, and each of them once. -/
  ended : ∀ d ∈ returned history, d ∈ allDerived history
  endedOnce : (returned history).Nodup
  /-- A registration that waits has begun and not ended. -/
  begun : ∀ d ∈ waiting, d ∈ allDerived history ∧ d ∉ returned history
  begunOnce : waiting.Nodup
  complete : ∀ d ∈ allDerived history, d ∈ returned history ∨ d ∈ waiting

/-- What is known of reactions, where some registrations are still waiting to end. -/
structure Loop.ReactionsKept (l : Loop) (waiting : List (Promise × Option Job)) : Prop where
  registered : Registered l.history l.nextSerial (waiting.map Prod.fst)
  /-- A registration that has not ended keeps the job that it owes. -/
  kept : ∀ w ∈ waiting, ∃ id n x s v, x ∈ registrations id n l.history ∧ x.derived = w.1 ∧
    settlement? id n l.history = some (s, v) ∧ w.2 = some (x.job s v)
  record : ∀ id, Recorded id l.history (l.heap.get? id)
  /-- Every reaction job belongs to a registration that has ended. -/
  owned : ∀ j ∈ enqueued l.history, ∀ d, j.derived? = some d → d ∈ returned l.history
  jobs : ∀ id n, reactionJobs id n l.history = owedJobs id n l.history

namespace Registered

variable {history history' : List Event} {serial serial' : Nat} {waiting : List Promise} {d : Promise}

theorem of_same (h : Registered history serial waiting) (hs : serial ≤ serial')
    (derived : allDerived history' = allDerived history)
    (ended : returned history' = returned history) : Registered history' serial' waiting where
  fresh d hd := Nat.lt_of_lt_of_le (h.fresh d (derived ▸ hd)) hs
  nodup := by rw [derived]; exact h.nodup
  ended := by rw [derived, ended]; exact h.ended
  endedOnce := by rw [ended]; exact h.endedOnce
  begun := by rw [derived, ended]; exact h.begun
  begunOnce := h.begunOnce
  complete := by rw [derived, ended]; exact h.complete

/-- A promise that is created now is no derived promise yet. -/
theorem not_mem (h : Registered history serial waiting) (new : d.serial = serial) :
    d ∉ allDerived history := fun hd =>
  absurd (h.fresh d hd) (new ▸ Nat.lt_irrefl _)

/-- A registration begins with a new derived promise. -/
theorem begin_ (h : Registered history serial waiting) (new : d.serial = serial)
    (derived : allDerived history' = allDerived history ++ [d])
    (ended : returned history' = returned history) :
    Registered history' (serial + 1) (d :: waiting) where
  fresh d' hd := by
    rw [derived, List.mem_append] at hd
    rcases hd with hd | hd
    · exact Nat.lt_succ_of_lt (h.fresh d' hd)
    · rw [List.mem_singleton.mp hd, new]
      exact Nat.lt_succ_self _
  nodup := by
    rw [derived]
    refine List.nodup_append.mpr ⟨h.nodup, List.nodup_singleton _, fun a ha b hb e => ?_⟩
    rw [e, List.mem_singleton.mp hb] at ha
    exact h.not_mem new ha
  ended d' hd := by
    rw [ended] at hd
    rw [derived]
    exact List.mem_append_left _ (h.ended d' hd)
  endedOnce := by rw [ended]; exact h.endedOnce
  begun d' hd := by
    rw [derived, ended]
    rcases List.mem_cons.mp hd with rfl | hd
    · exact ⟨List.mem_append_right _ (List.mem_singleton_self _), fun hr =>
        h.not_mem new (h.ended d' hr)⟩
    · exact ⟨List.mem_append_left _ (h.begun d' hd).1, (h.begun d' hd).2⟩
  begunOnce := List.nodup_cons.mpr ⟨fun hd => h.not_mem new (h.begun d hd).1, h.begunOnce⟩
  complete d' hd := by
    rw [derived, List.mem_append] at hd
    rw [ended]
    rcases hd with hd | hd
    · exact (h.complete d' hd).imp_right (List.mem_cons_of_mem _)
    · rw [List.mem_singleton.mp hd]
      exact .inr (List.mem_cons_self ..)

/-- A registration that waits ends. -/
theorem end_ (h : Registered history serial (d :: waiting))
    (derived : allDerived history' = allDerived history)
    (ended : returned history' = returned history ++ [d]) : Registered history' serial waiting where
  fresh := by rw [derived]; exact h.fresh
  nodup := by rw [derived]; exact h.nodup
  ended d' hd := by
    rw [ended, List.mem_append] at hd
    rw [derived]
    rcases hd with hd | hd
    · exact h.ended d' hd
    · rw [List.mem_singleton.mp hd]
      exact (h.begun d (List.mem_cons_self ..)).1
  endedOnce := by
    rw [ended]
    refine List.nodup_append.mpr ⟨h.endedOnce, List.nodup_singleton _, fun a ha b hb e => ?_⟩
    rw [e, List.mem_singleton.mp hb] at ha
    exact (h.begun d (List.mem_cons_self ..)).2 ha
  begun d' hd := by
    have before := h.begun d' (List.mem_cons_of_mem _ hd)
    rw [derived, ended, List.mem_append]
    refine ⟨before.1, fun hr => ?_⟩
    rcases hr with hr | hr
    · exact before.2 hr
    · rw [List.mem_singleton.mp hr] at hd
      exact (List.nodup_cons.mp h.begunOnce).1 hd
  begunOnce := (List.nodup_cons.mp h.begunOnce).2
  complete d' hd := by
    rw [derived] at hd
    rw [ended, List.mem_append]
    rcases h.complete d' hd with hr | hw
    · exact .inl (.inl hr)
    · rcases List.mem_cons.mp hw with rfl | hw
      · exact .inl (.inr (List.mem_singleton_self _))
      · exact .inr hw

end Registered

namespace Loop

variable {l l' : Loop} {waiting : List (Promise × Option Job)}

/-- Bystanders enqueue no reaction, so what they enqueue belongs to no registration. -/
theorem filter_isOf_of_none {jobs : List Job} (h : ∀ j ∈ jobs, j.derived? = none)
    (xs : List Registration) : jobs.filter (Job.isOf xs) = [] := by
  rw [List.filter_eq_nil_iff]
  intro j hj
  simp [Job.isOf, h j hj]

/-- Where no registration begins or ends, what is known of them stays as it is. -/
theorem ReactionsKept.of_same (h : l.ReactionsKept waiting) (serial : l.nextSerial ≤ l'.nextSerial)
    (hregistrations : ∀ k i, registrations k i l'.history = registrations k i l.history)
    (hderived : allDerived l'.history = allDerived l.history)
    (hreturned : returned l'.history = returned l.history)
    (hsettlement : ∀ k i x, settlement? k i l.history = some x → settlement? k i l'.history = some x)
    (record : ∀ k, Recorded k l'.history (l'.heap.get? k))
    (owned : ∀ j ∈ enqueued l'.history, ∀ d, j.derived? = some d → d ∈ returned l.history)
    (jobs : ∀ k i, reactionJobs k i l'.history = owedJobs k i l'.history) :
    l'.ReactionsKept waiting where
  registered := h.registered.of_same serial hderived hreturned
  kept w hw := by
    obtain ⟨k, i, x, s, v, hx, hxd, hs, hj⟩ := h.kept w hw
    exact ⟨k, i, x, s, v, by rw [hregistrations]; exact hx, hxd, hsettlement k i _ hs, hj⟩
  record := record
  owned j hj d hd := by rw [hreturned]; exact owned j hj d hd
  jobs := jobs

/-- Changes that have no part in reactions. -/
theorem ReactionsKept.of_bystanders (h : l.ReactionsKept waiting) (newer : List Event)
    (history : l'.history = newer ++ l.history) (bystanders : ∀ e ∈ newer, e.isBystander = true)
    (jobs : ∀ j ∈ enqueued newer, j.derived? = none)
    (record : ∀ k, Recorded k l.history (l.heap.get? k) → Recorded k l.history (l'.heap.get? k))
    (serial : l.nextSerial ≤ l'.nextSerial) : l'.ReactionsKept waiting := by
  have hregistrations (k : PromiseId) (i : Nat) :
      registrations k i l'.history = registrations k i l.history := by
    rw [history, registrations_append bystanders]
  have hsettlement (k : PromiseId) (i : Nat) :
      settlement? k i l'.history = settlement? k i l.history := by
    rw [history, settlement?_append bystanders]
  have hreturns (k : PromiseId) (i : Nat) : returns k i l'.history = returns k i l.history := by
    rw [history, returns_append bystanders]
  refine h.of_same serial hregistrations (by rw [history, allDerived_append bystanders])
    (by rw [history, returned_append bystanders]) (fun k i x hx => by rw [hsettlement, hx])
    (fun k => ?_) (fun j hj d hd => ?_) (fun k i => ?_)
  · exact (record k (h.record k)).congr rfl
      (by rw [history, ends_append_of_bystanders k _ bystanders]) (hregistrations _ _)
      (hsettlement _ _) (hreturns _ _)
  · rw [history, enqueued_append, List.mem_append] at hj
    rcases hj with hj | hj
    · exact h.owned j hj d hd
    · rw [jobs j hj] at hd
      cases hd
  · rw [owedJobs_congr (hsettlement k i) (hreturns k i), ← h.jobs, history,
      reactionJobs_append bystanders, filter_isOf_of_none jobs, List.append_nil]

/-- A record that is changed in nothing that reactions depend on agrees with the history as before. -/
theorem recorded_modify {heap : Heap} {id k : PromiseId} {history : List Event} {r : Record}
    (f : Record → Record) (hr : heap.get? id = some r) (core : (f r).core = r.core)
    (h : Recorded k history (heap.get? k)) : Recorded k history ((heap.modify id f).get? k) := by
  refine h.congr ?_ rfl rfl rfl rfl
  rw [Heap.get?_modify_ite]
  split
  · rename_i hk
    rw [hk, hr]
    exact congrArg some core
  · rfl

/-- The jobs that settling a record enqueues are those of all registrations on it. -/
theorem fire_of_recorded {id : PromiseId} {history : List Event} {r : Record} {s : State}
    (fulfill : r.fulfillReactions = (registrations id (ends id history) history).map
      (Registration.reaction · .fulfill))
    (reject : r.rejectReactions = (registrations id (ends id history) history).map
      (Registration.reaction · .reject)) (v : Value) :
    (r.released s).fire.map (Job.reaction · v) =
      (registrations id (ends id history) history).map fun x => x.job s v := by
  cases s <;> simp [Record.released, State.side, Registration.job, fulfill, reject]

/-- Settling a pending record enqueues the jobs that it owes from then on. -/
theorem ReactionsKept.settled (h : l.ReactionsKept waiting) {id : PromiseId} {r : Record} {s : State}
    {v : Value} (hr : l.heap.get? id = some r) (hp : r.state = .pending) (hs : s ≠ .pending)
    (heap : l'.heap = l.heap.modify id fun _ => r.settled s v) (serial : l'.nextSerial = l.nextSerial)
    (history : l'.history = ((r.released s).fire.map fun y => Event.queued (.reaction y v)).reverse
      ++ .settled id s v :: l.history) : l'.ReactionsKept waiting := by
  have recorded := h.record id
  rw [hr] at recorded
  cases recorded with
  | settled state _ => exact absurd hp state
  | pending _ unsettled ended fulfill reject =>
    have fired := fire_of_recorded (s := s) fulfill reject v
    generalize hnewer : ((r.released s).fire.map fun y => Event.queued (.reaction y v)).reverse = newer
      at history
    have told : enqueued newer =
        (registrations id (ends id l.history) l.history).map fun x => x.job s v := by
      rw [← fired, ← hnewer]
      simp [enqueued, Event.queued?, List.filterMap_reverse, List.filterMap_map, Function.comp_def]
    have bystanders : ∀ e ∈ newer, e.isBystander = true := by
      intro e he
      rw [← hnewer, List.mem_reverse] at he
      obtain ⟨y, -, rfl⟩ := List.mem_map.mp he
      rfl
    have hends (k : PromiseId) : ends k l'.history = ends k l.history := by
      rw [history, ends_append_of_bystanders k _ bystanders, ends_cons]
      rfl
    have hregistrations (k : PromiseId) (i : Nat) :
        registrations k i l'.history = registrations k i l.history := by
      rw [history, registrations_append bystanders, registrations_cons_of_none rfl]
    have hsettlement (k : PromiseId) (i : Nat) : settlement? k i l'.history =
        (settlement? k i l.history).or
          (if k = id ∧ i = ends id l.history then some (s, v) else none) := by
      rw [history, settlement?_append bystanders, settlement?_settled]
    have hderived : allDerived l'.history = allDerived l.history := by
      rw [history, allDerived_append bystanders, allDerived_cons]
      exact List.append_nil _
    have hreturned : returned l'.history = returned l.history := by
      rw [history, returned_append bystanders, returned_cons]
      exact List.append_nil _
    have hreturns (k : PromiseId) (i : Nat) : returns k i l'.history = returns k i l.history := by
      rw [returns, hreturned, hregistrations, returns]
    have hqueued : enqueued l'.history = enqueued l.history ++ enqueued newer := by
      rw [history, enqueued_append, enqueued_cons]
      exact congrArg (· ++ _) (List.append_nil _)
    -- what is settled is this promise and no other
    have others {k : PromiseId} {i : Nat} (hk : ¬ (k = id ∧ i = ends id l.history)) :
        settlement? k i l'.history = settlement? k i l.history := by
      rw [hsettlement, if_neg hk, Option.or_none]
    refine h.of_same (Nat.le_of_eq serial.symm) hregistrations hderived hreturned
      (fun k i x hx => by rw [hsettlement, hx]; rfl) (fun k => ?_) (fun j hj d hd => ?_)
      (fun k i => ?_)
    · rw [heap, Heap.get?_modify_ite]
      by_cases hk : k = id
      · subst hk
        rw [if_pos rfl, hr]
        refine .settled hs ?_
        rw [hends, hsettlement, unsettled, if_pos ⟨rfl, rfl⟩]
        rfl
      · rw [if_neg hk]
        exact (h.record k).congr rfl (hends k) (hregistrations _ _)
          (others fun e => hk e.1) (hreturns _ _)
    · rw [hqueued, told, List.mem_append] at hj
      rcases hj with hj | hj
      · exact h.owned j hj d hd
      · obtain ⟨x, hx, rfl⟩ := List.mem_map.mp hj
        rw [x.derived?_job] at hd
        rw [← ended] at hx
        exact Option.some.inj hd ▸ derived_mem_returned hx
    · have before := h.jobs k i
      rw [reactionJobs, hregistrations, hqueued, List.filter_append, told,
        filter_jobs h.registered.nodup (fun x hx => hx) s v k i, ← reactionJobs, before]
      by_cases hk : k = id ∧ i = ends id l.history
      · rw [if_pos hk]
        obtain ⟨rfl, rfl⟩ := hk
        have settled : settlement? k (ends k l.history) l'.history = some (s, v) := by
          rw [hsettlement, unsettled, if_pos ⟨rfl, rfl⟩]
          rfl
        rw [owedJobs_of_pending unsettled, owedJobs_of_settled settled, hreturns, ended]
        rfl
      · rw [if_neg hk, List.append_nil, owedJobs_congr (others hk) (hreturns k i)]

/-- Freeing a record ends its life, after which its id is unborn again. -/
theorem ReactionsKept.freed (h : l.ReactionsKept waiting) {id : PromiseId} {r : Record}
    (hr : l.heap.get? id = some r) (heap : l'.heap = l.heap.vacated id)
    (serial : l'.nextSerial = l.nextSerial) (history : l'.history = .freed id r :: l.history) :
    l'.ReactionsKept waiting := by
  have hends (k : PromiseId) (hk : k ≠ id) : ends k l'.history = ends k l.history := by
    rw [history, ends_cons]
    simp [Event.frees, Ne.symm hk]
  have hregistrations (k : PromiseId) (i : Nat) :
      registrations k i l'.history = registrations k i l.history := by
    rw [history, registrations_cons_of_none rfl]
  have hsettlement (k : PromiseId) (i : Nat) :
      settlement? k i l'.history = settlement? k i l.history := by
    rw [history, settlement?_cons_of_none rfl]
  have hderived : allDerived l'.history = allDerived l.history := by
    rw [history, allDerived_cons]
    exact List.append_nil _
  have hreturned : returned l'.history = returned l.history := by
    rw [history, returned_cons]
    exact List.append_nil _
  have hreturns (k : PromiseId) (i : Nat) : returns k i l'.history = returns k i l.history := by
    rw [returns, hreturned, hregistrations, returns]
  have hqueued : enqueued l'.history = enqueued l.history := by
    rw [history, enqueued_cons]
    exact List.append_nil _
  refine h.of_same (Nat.le_of_eq serial.symm) hregistrations hderived hreturned
    (fun k i x hx => by rw [hsettlement, hx]) (fun k => ?_) (by rw [hqueued]; exact h.owned)
    (fun k i => ?_)
  · rw [heap, Heap.get?_vacated_of_get? hr]
    split
    · rename_i hk
      subst hk
      have later : ends k l.history < ends k l'.history := by
        rw [history, ends_cons]
        simp [Event.frees]
      exact .unborn (by rw [hregistrations, registrations_eq_nil later])
        (by rw [hsettlement, settlement?_eq_none later])
    · rename_i hk
      exact (h.record k).congr rfl (hends k hk) (hregistrations _ _) (hsettlement _ _) (hreturns _ _)
  · rw [reactionJobs, hqueued, hregistrations, ← reactionJobs, h.jobs,
      owedJobs_congr (hsettlement k i) (hreturns k i)]

theorem Chore.reactionsKept (h : l.Chore l') (hl : l.ReactionsKept waiting) (wf : l.heap.Wf) :
    l'.ReactionsKept waiting := by
  cases h with
  | silent newer heap serial _ _ _ _ history silent =>
    refine hl.of_bystanders newer history (fun e he => Event.isBystander_of_isSilent (silent e he))
      (fun j hj => ?_) (fun k hk => by rw [heap]; exact hk) (Nat.le_of_eq serial.symm)
    obtain ⟨e, he, hq⟩ := List.mem_filterMap.mp (List.mem_reverse.mp hj)
    have := silent e he
    cases e <;> cases hq
    exact Job.derived?_of_not_isReaction (by simpa [Event.isSilent] using this)
  | created =>
    refine hl.of_bystanders [] rfl (by simp) (by simp [enqueued]) (fun k hk => ?_) (Nat.le_succ _)
    show Recorded k _ ((l.heap.allocate .pending).2.get? k)
    rcases Heap.get?_allocate wf .pending k with heq | ⟨-, hn, heq⟩
    · rw [heq]
      exact hk
    · rw [heq]
      rw [hn] at hk
      exact hk.created
  | attempted h =>
    obtain ⟨r, hr, -, rfl⟩ := lock_eq_ok.mp h
    exact hl.of_bystanders [_] rfl (by simp [Event.isBystander]) (by simp [enqueued, Event.queued?])
      (fun k hk => recorded_modify _ (record_eq_ok.mp hr).2 rfl hk) (Nat.le_refl _)
  | settled id s v =>
    rcases settle_cases l id s v with h | ⟨r, hr, hp, hs, h⟩
    · rw [h]
      exact hl
    · rw [h]
      exact hl.settled hr hp hs rfl rfl rfl

theorem Deed.reactionsKept (h : l.Deed l') (hl : l.ReactionsKept waiting) (wf : l.heap.Wf) :
    l'.ReactionsKept waiting := by
  cases h with
  | chore h => exact h.reactionsKept hl wf
  | selected =>
    obtain ⟨heap, heq, sel, -⟩ := takeReports_spec l
    refine hl.of_bystanders [] (by rw [heq]; rfl) (by simp) (by simp [enqueued]) (fun k hk => ?_)
      (Nat.le_of_eq (by rw [heq]))
    rw [heq]
    refine hk.congr ?_ rfl rfl rfl rfl
    rw [sel.find k]
    cases l.heap.get? k with
    | none => rfl
    | some r => simp only [Option.map_some]; split <;> rfl
  | reported id reason =>
    rw [report_eq]
    exact hl.of_bystanders [.reported id reason] rfl (by simp [Event.isBystander])
      (by simp [enqueued, Event.queued?]) (fun k hk => hk) (Nat.le_refl _)
  | freed h =>
    rename_i id r
    have hr := (free?_eq_some.mp h).1
    -- the report, if there is one, has no part in reactions
    have reported : ({ l with
        history := (if l.reportsOnFree r then [.reported id r.reason] else []) ++ l.history } :
        Loop).ReactionsKept waiting := by
      refine hl.of_bystanders _ rfl (fun e he => ?_) (fun j hj => ?_) (fun k hk => hk) (Nat.le_refl _)
      · split at he
        · rw [List.mem_singleton.mp he]
          rfl
        · cases he
      · split at hj <;> simp [enqueued, Event.queued?] at hj
    have vacated : l'.heap = l.heap.vacated id := heap_free? h
    refine reported.freed hr vacated ?_ (history_free? h)
    obtain ⟨-, rfl⟩ := free?_eq_some.mp h
    split
    · rw [report_eq]
      rfl
    · rfl
  | checked =>
    exact hl.of_bystanders [.checked] rfl (by simp [Event.isBystander])
      (by simp [enqueued, Event.queued?]) (fun k hk => hk) (Nat.le_refl _)

-- ---------------------------------------------------------------------------
-- Registrations that begin and end
-- ---------------------------------------------------------------------------

/-- What a new registration on the present record of an id changes in what the history says. -/
structure Begins (id : PromiseId) (x : Registration) (history history' : List Event) : Prop where
  ends : ∀ k, ends k history' = ends k history
  registrations : ∀ k i, registrations k i history' =
    registrations k i history ++ if k = id ∧ i = PromiseLoop.ends id history then [x] else []
  settlement : ∀ k i, settlement? k i history' = settlement? k i history
  derived : allDerived history' = allDerived history ++ [x.derived]
  returned : returned history' = returned history
  returns : ∀ k i, returns k i history' = returns k i history
  enqueued : enqueued history' = enqueued history
  jobs : ∀ k i, reactionJobs k i history' = reactionJobs k i history

theorem begins_attached {id : PromiseId} {d : Promise} {f g : Option Value} {newer history : List Event}
    (unended : d ∉ returned history) (unqueued : ∀ j ∈ enqueued history, j.derived? ≠ some d)
    (h : ∀ e ∈ newer, e.isBystander = true) (silent : enqueued newer = []) :
    Begins id ⟨d, f, g⟩ history (newer ++ .attached id d f g :: history) where
  ends k := by
    rw [ends_append_of_bystanders k _ h, ends_cons]
    rfl
  registrations k i := by rw [registrations_append h, registrations_attached]
  settlement k i := by rw [settlement?_append h, settlement?_cons_of_none rfl]
  derived := by
    rw [allDerived_append h, allDerived_cons]
    rfl
  returned := by
    rw [returned_append h, returned_cons]
    exact List.append_nil _
  returns k i := by rw [returns_append h, returns_of_new rfl unended]
  enqueued := by
    rw [enqueued_append, enqueued_cons, silent, List.append_nil]
    exact List.append_nil _
  jobs k i := by
    rw [reactionJobs_append h, silent, reactionJobs_of_new rfl unqueued]
    exact List.append_nil _

/-- What the end of a registration changes in what the history says. -/
structure Ends (id : PromiseId) (n : Nat) (x : Registration) (history history' : List Event) :
    Prop where
  ends : ∀ k, ends k history' = ends k history
  registrations : ∀ k i, registrations k i history' = registrations k i history
  settlement : ∀ k i, settlement? k i history' = settlement? k i history
  derived : allDerived history' = allDerived history
  returned : returned history' = returned history ++ [x.derived]
  returns : ∀ k i, returns k i history' =
    returns k i history ++ if k = id ∧ i = n then [x] else []
  enqueued : enqueued history' = enqueued history
  jobs : ∀ k i, reactionJobs k i history' = reactionJobs k i history

theorem ends_returned {history : List Event} (nodup : (allDerived history).Nodup) {id : PromiseId}
    {n : Nat} {x : Registration} (hx : x ∈ PromiseLoop.registrations id n history) :
    Ends id n x history (.returned x.derived :: history) where
  ends k := by
    rw [ends_cons]
    rfl
  registrations k i := registrations_cons_of_none rfl
  settlement k i := settlement?_cons_of_none rfl
  derived := by
    rw [allDerived_cons]
    exact List.append_nil _
  returned := by
    rw [returned_cons]
    rfl
  returns := returns_returned nodup hx
  enqueued := by
    rw [enqueued_cons]
    exact List.append_nil _
  jobs k i := by
    rw [reactionJobs, reactionJobs, enqueued_cons, registrations_cons_of_none rfl]
    exact congrArg (List.filter _) (List.append_nil _)

variable {p : Promise} {f g : Option Value} {r : Record}

/-- No registration with the next derived promise has ended. -/
theorem ReactionsKept.unended (h : l.ReactionsKept waiting) :
    l.newPromise.1 ∉ returned l.history := fun hd =>
  h.registered.not_mem rfl (h.registered.ended _ hd)

theorem ReactionsKept.begins (h : l.ReactionsKept waiting) (p : Promise) (f g : Option Value)
    (r : Record) :
    Begins p.id ⟨l.newPromise.1, f, g⟩ l.history (l.registered p f g r).history := by
  refine begins_attached h.unended (fun j hj hd => h.unended (h.owned j hj _ hd)) (fun e he => ?_) ?_
  · split at he
    · rw [List.mem_singleton.mp he]
      rfl
    · cases he
  · split <;> rfl

/-- A registration says nothing about other promises; the derived one is new. -/
theorem ReactionsKept.recorded_other (h : l.ReactionsKept waiting) (wf : l.heap.Wf)
    {x : Registration} {history : List Event} (hb : Begins p.id x l.history history) {k : PromiseId}
    (hk : k ≠ p.id) : Recorded k history ((l.heap.allocate .pending).2.get? k) := by
  have same (o : Option Record) (ho : Recorded k l.history o) : Recorded k history o := by
    refine ho.congr rfl (hb.ends k) ?_ (hb.settlement _ _) (hb.returns _ _)
    rw [hb.registrations, if_neg fun e => hk e.1, List.append_nil]
  have recorded := h.record k
  rcases Heap.get?_allocate wf .pending k with heq | ⟨-, hn, heq⟩
  · rw [heq]
    exact same _ recorded
  · rw [hn] at recorded
    rw [heq]
    exact same _ recorded.created

/-- A registration on a settled promise begins, and keeps the job that it owes. -/
theorem ReactionsKept.begun (h : l.ReactionsKept waiting) (wf : l.heap.Wf)
    (hr : l.heap.get? p.id = some r) (hs : r.state ≠ .pending) :
    (l.registered p f g r).ReactionsKept
      ((l.newPromise.1, r.reactionJob f g l.newPromise.1) :: waiting) := by
  have hb := h.begins p f g r
  have recorded := h.record p.id
  rw [hr] at recorded
  cases recorded with
  | pending state _ _ _ _ => exact absurd state hs
  | settled _ settlement =>
    have job : r.reactionJob f g l.newPromise.1 =
        some ((⟨l.newPromise.1, f, g⟩ : Registration).job r.state r.reason) := by
      cases hstate : r.state <;>
        simp_all [Record.reactionJob, Registration.job, Registration.reaction, State.side]
    refine ⟨h.registered.begin_ rfl hb.derived hb.returned, fun w hw => ?_, fun k => ?_, ?_,
      fun k i => ?_⟩
    · rcases List.mem_cons.mp hw with rfl | hw
      · refine ⟨p.id, ends p.id l.history, _, _, _, ?_, rfl, by rw [hb.settlement, settlement], job⟩
        rw [hb.registrations, if_pos ⟨rfl, rfl⟩]
        exact List.mem_append_right _ (List.mem_singleton_self _)
      · obtain ⟨k, i, x, s, v, hx, hxd, hset, hj⟩ := h.kept w hw
        exact ⟨k, i, x, s, v, by rw [hb.registrations]; exact List.mem_append_left _ hx, hxd,
          by rw [hb.settlement, hset], hj⟩
    · rw [get?_registered wf hr]
      split
      · rename_i hk
        rw [hk]
        refine .settled (by simpa using hs) ?_
        rw [hb.ends, hb.settlement, settlement, Record.reason, Record.reason, Record.state_registered,
          Record.value_registered]
      · rename_i hk
        exact h.recorded_other wf hb hk
    · rw [hb.enqueued, hb.returned]
      exact h.owned
    · rw [hb.jobs, h.jobs, owedJobs_congr (hb.settlement k i) (hb.returns k i)]

/-- A registration on a pending promise begins and ends at once.  Its reactions are the last ones. -/
theorem ReactionsKept.collected (h : l.ReactionsKept waiting) (wf : l.heap.Wf)
    (hr : l.heap.get? p.id = some r) (hp : r.state = .pending) :
    ((l.registered p f g r).endAttach l.newPromise.1 none).ReactionsKept waiting := by
  have hb := h.begins p f g r
  have begun := h.registered.begin_ (d := l.newPromise.1) rfl hb.derived hb.returned
  have mem : (⟨l.newPromise.1, f, g⟩ : Registration) ∈
      registrations p.id (ends p.id l.history) (l.registered p f g r).history := by
    rw [hb.registrations, if_pos ⟨rfl, rfl⟩]
    exact List.mem_append_right _ (List.mem_singleton_self _)
  have he := ends_returned begun.nodup mem
  have recorded := h.record p.id
  rw [hr] at recorded
  cases recorded with
  | settled state _ => exact absurd hp state
  | pending _ settlement ended fulfill reject =>
    refine ⟨begun.end_ he.derived he.returned, fun w hw => ?_, fun k => ?_, fun j hj d hd => ?_,
      fun k i => ?_⟩
    · obtain ⟨k, i, x, s, v, hx, hxd, hset, hj⟩ := h.kept w hw
      refine ⟨k, i, x, s, v, ?_, hxd, (he.settlement k i).trans ((hb.settlement k i).trans hset), hj⟩
      exact he.registrations k i ▸ hb.registrations k i ▸ List.mem_append_left _ hx
    · show Recorded k _ ((l.registered p f g r).heap.get? k)
      rw [get?_registered wf hr]
      split
      · rename_i hk
        subst hk
        have all : registrations p.id (ends p.id l.history)
            ((l.registered p f g r).endAttach l.newPromise.1 none).history =
              registrations p.id (ends p.id l.history) l.history ++ [⟨l.newPromise.1, f, g⟩] := by
          refine (he.registrations _ _).trans ?_
          rw [hb.registrations, if_pos ⟨rfl, rfl⟩]
        have hends : ends p.id ((l.registered p f g r).endAttach l.newPromise.1 none).history =
            ends p.id l.history := (he.ends _).trans (hb.ends _)
        refine .pending (by simpa using hp) ?_ ?_ ?_ ?_
        · rw [hends]
          exact (he.settlement _ _).trans ((hb.settlement _ _).trans settlement)
        · rw [hends, all, ← ended]
          refine (he.returns _ _).trans ?_
          rw [hb.returns, if_pos ⟨rfl, rfl⟩]
        · rw [hends, all, List.map_append, ← fulfill]
          simp [Record.registered, Record.isPending, hp, Record.addReaction, Registration.reaction]
        · rw [hends, all, List.map_append, ← reject]
          simp [Record.registered, Record.isPending, hp, Record.addReaction, Registration.reaction]
      · rename_i hk
        refine (h.recorded_other wf hb hk).congr rfl (he.ends k) (he.registrations _ _)
          (he.settlement _ _) ((he.returns _ _).trans ?_)
        rw [if_neg fun e => hk e.1, List.append_nil]
    · have before := h.owned j (hb.enqueued ▸ he.enqueued ▸ hj) d hd
      rw [← hb.returned] at before
      exact he.returned ▸ List.mem_append_left _ before
    · refine (he.jobs k i).trans ((hb.jobs k i).trans ((h.jobs k i).trans ?_))
      have hsettlement := (he.settlement k i).trans (hb.settlement k i)
      by_cases hk : k = p.id ∧ i = ends p.id l.history
      · -- a pending promise owes nothing
        obtain ⟨rfl, rfl⟩ := hk
        rw [owedJobs_of_pending settlement]
        exact (owedJobs_of_pending (hsettlement.trans settlement)).symm
      · refine (owedJobs_congr hsettlement ?_).symm
        refine (he.returns k i).trans ?_
        rw [if_neg hk, List.append_nil, hb.returns]

/-- A registration that waits ends, and enqueues the job that it owes. -/
theorem ReactionsKept.returned {derived : Promise} {job : Option Job}
    (h : l.ReactionsKept ((derived, job) :: waiting)) :
    (l.endAttach derived job).ReactionsKept waiting := by
  obtain ⟨id, n, x, s, v, hx, rfl, hset, rfl⟩ := h.kept _ (List.mem_cons_self ..)
  -- the job is enqueued first, while the registration has not ended
  have queued : ∀ e ∈ [Event.queued (x.job s v)], e.isBystander = true := by simp [Event.isBystander]
  have told : enqueued [Event.queued (x.job s v)] = [x].map fun x => x.job s v := rfl
  have mem : x ∈ registrations id n ([.queued (x.job s v)] ++ l.history) := by
    rw [registrations_append queued]
    exact hx
  have nodup := h.registered.nodup
  have nodup' : (allDerived ([.queued (x.job s v)] ++ l.history)).Nodup := by
    rw [allDerived_append queued]
    exact nodup
  have he := ends_returned nodup' mem
  have hregistrations (k : PromiseId) (i : Nat) := (he.registrations k i).trans
    (registrations_append queued : _ = registrations k i l.history)
  have hsettlement (k : PromiseId) (i : Nat) := (he.settlement k i).trans
    (settlement?_append queued : _ = settlement? k i l.history)
  have hreturned := he.returned.trans
    (congrArg (· ++ _) (returned_append queued : _ = PromiseLoop.returned l.history))
  have hreturns (k : PromiseId) (i : Nat) := (he.returns k i).trans
    (congrArg (· ++ _) (returns_append queued : _ = returns k i l.history))
  have hends (k : PromiseId) := (he.ends k).trans (ends_append_of_bystanders k l.history queued)
  have hqueued := he.enqueued.trans (enqueued_append [.queued (x.job s v)] l.history)
  refine ⟨h.registered.end_ (he.derived.trans (allDerived_append queued)) hreturned,
    fun w hw => ?_, fun k => ?_, fun j hj d hd => ?_, fun k i => ?_⟩
  · obtain ⟨k, i, y, t, u, hy, hyd, hs, hj⟩ := h.kept w (List.mem_cons_of_mem _ hw)
    exact ⟨k, i, y, t, u, hregistrations k i ▸ hy, hyd, (hsettlement k i).trans hs, hj⟩
  · have recorded := h.record k
    show Recorded k _ (l.heap.get? k)
    by_cases hk : k = id ∧ ends k l.history = n
    · -- a promise that owes a job is settled
      obtain ⟨rfl, rfl⟩ := hk
      generalize l.heap.get? k = o at recorded ⊢
      cases recorded with
      | unborn _ unsettled => rw [unsettled] at hset; cases hset
      | pending _ unsettled _ _ _ => rw [unsettled] at hset; cases hset
      | settled state settlement =>
        exact .settled state ((hends k).symm ▸ (hsettlement _ _).trans settlement)
    · refine recorded.congr rfl (hends k) (hregistrations _ _) (hsettlement _ _)
        ((hreturns _ _).trans ?_)
      rw [if_neg hk, List.append_nil]
  · rw [show enqueued (l.endAttach x.derived (some (x.job s v))).history = _ from hqueued,
      List.mem_append] at hj
    rw [show PromiseLoop.returned (l.endAttach x.derived (some (x.job s v))).history = _ from hreturned]
    rcases hj with hj | hj
    · exact List.mem_append_left _ (h.owned j hj d hd)
    · rw [told] at hj
      obtain rfl := List.mem_singleton.mp hj
      rw [x.derived?_job] at hd
      exact List.mem_append_right _ (by simp [Option.some.inj hd])
  · refine (he.jobs k i).trans ?_
    rw [reactionJobs_append queued, told, filter_jobs nodup (by simpa using hx), h.jobs]
    have settled := hsettlement k i
    have rets := hreturns k i
    by_cases hk : k = id ∧ i = n
    · obtain ⟨rfl, rfl⟩ := hk
      rw [if_pos ⟨rfl, rfl⟩] at rets ⊢
      rw [owedJobs_of_settled hset]
      refine .trans ?_ (owedJobs_of_settled (settled.trans hset)).symm
      rw [rets, List.map_append]
    · rw [if_neg hk, List.append_nil] at rets ⊢
      exact (owedJobs_congr settled rets).symm

theorem Deeds.reactionsKept (h : l.Deeds l') (hl : l.ReactionsKept waiting) (wf : l.heap.Wf) :
    l'.ReactionsKept waiting := by
  induction h with
  | refl => exact hl
  | tail hs h ih => exact h.reactionsKept ih (Acts.wf (Deeds.acts hs) wf)

theorem reactionsKept_new (id : LoopId) (config : Config) (tracker : Tracker) (bridge : Bridge) :
    ReactionsKept { id, config, tracker, bridge } [] where
  registered := ⟨by simp [allDerived], List.nodup_nil, by simp [PromiseLoop.returned],
    List.nodup_nil, by simp, List.nodup_nil, by simp [allDerived]⟩
  kept := by simp
  record k := .unborn rfl rfl
  owned := by simp [enqueued]
  jobs k i := rfl

end Loop

/-- Every move keeps what is known of reactions. -/
theorem View.Move.reactionsKept {v v' : View} (hm : v.Move v') (wf : v.loop.heap.Wf)
    (h : v.loop.ReactionsKept v.waiting) : v'.loop.ReactionsKept v'.waiting := by
  rcases hm.deeds with ⟨hd, hw⟩ | ⟨p, f, g, a, ha, prompt, heq, hw⟩ | ⟨p, f, g, a, ha, late, heq, hw⟩ |
    ⟨derived, job, heq, hw⟩
  · rw [hw]
    exact Loop.Deeds.reactionsKept hd h wf
  · obtain ⟨r, hr, rfl⟩ := (Loop.attach_eq_ok wf).mp ha
    obtain ⟨-, hr⟩ := Loop.record_eq_ok.mp hr
    rw [hw, heq]
    by_cases hs : r.state = .pending
    · have none_owed : r.reactionJob f g v.loop.newPromise.1 = none := by
        simp [Record.reactionJob, hs]
      show ((v.loop.registered p f g r).endAttach _ (r.reactionJob f g _)).ReactionsKept _
      rw [none_owed]
      exact h.collected wf hr hs
    · exact (h.begun wf hr hs).returned
  · obtain ⟨r, hr, rfl⟩ := (Loop.attach_eq_ok wf).mp ha
    obtain ⟨-, hr⟩ := Loop.record_eq_ok.mp hr
    -- only the handler of a rejection can come late
    have hs : r.state ≠ .pending := by
      intro hs
      simp [Loop.handledLate, hs] at late
    rw [hw, heq]
    exact h.begun wf hr hs
  · rw [hw] at h
    rw [heq]
    exact h.returned

namespace Machine

variable {m : Machine} {k : LoopId} {l : Loop}

/-- What is known of reactions in every run. -/
theorem Reachable.reactionsKept (h : Reachable m) (hl : m.loop? k = some l) :
    l.ReactionsKept (View.waiting ⟨l, m.turnsOf k, m.sweepOf k⟩) := by
  have kept := h.keepsView hl (P := fun v => v.loop.heap.Wf ∧ v.loop.ReactionsKept v.waiting)
    (fun config tracker bridge => ⟨.empty_heap, Loop.reactionsKept_new k config tracker bridge⟩)
    fun hm hv => ⟨hm.acts.wf hv.1, hm.reactionsKept hv.1 hv.2⟩
  exact kept.2

/-- **Reactions run once, on the right side, in the order of registration.**  For every promise, told
apart by its id and the number of records that the id has had before, and at every moment of a run:

* each of the registrations on it has ended once, or is kept by its frame on the stack;
* the reaction jobs that have been enqueued for it are none while it is pending, and once it is settled
  to `s` with `v`, exactly one for every registration that has ended, in the order in which they ended,
  with the handler of that side and the argument `v`; and no other reaction jobs exist;
* its record, while it lives, is settled exactly if the history says so, and in the same way;
* jobs are started in the order in which they were enqueued, each of them once, and drains do not nest;
* when a drain has ended without a fault, exactly the jobs that the promise owes have been started. -/
theorem reactions_run_once (h : Reachable m) (hl : m.loop? k = some l) :
    (∀ id n, ((registrations id n l.history).map Registration.derived).Nodup ∧
      ((returns id n l.history).map Registration.derived).Nodup ∧
      ∀ x ∈ registrations id n l.history, x ∈ returns id n l.history ∨
        ∃ job, .attaching x.derived job ∈ m.stack) ∧
    (∀ id n, reactionJobs id n l.history =
      match settlement? id n l.history with
      | none => []
      | some (s, v) => (returns id n l.history).map fun x => x.job s v) ∧
    (∀ j ∈ enqueued l.history, j.isReaction = true → ∃ id n, j ∈ reactionJobs id n l.history) ∧
    (∀ id r, l.heap.get? id = some r → settlement? id (ends id l.history) l.history =
      if r.state = .pending then none else some (r.state, r.reason)) ∧
    enqueued l.history = started l.history ++ l.microtasks.entries ∧
    (m.stack.countP fun f => f.isDraining && f.isTurnOf k) = (if l.draining then 1 else 0) ∧
    (∀ s rest, m.control = .signal s → m.stack = .draining k :: rest → m.step.stack = rest →
      m.step.control = .signal .done → ∃ l', m.step.loop? k = some l' ∧ l'.draining = false ∧
        started l'.history = enqueued l'.history ∧
        ∀ id n, (started l'.history).filter (Job.isOf (registrations id n l'.history)) =
          owedJobs id n l'.history) := by
  have kept := h.reactionsKept hl
  have queue := h.queueKept hl
  have nodup := kept.registered.nodup
  refine ⟨fun id n => ⟨(derived_sublist id n _).nodup nodup, nodup_returns kept.registered.endedOnce,
    fun x hx => ?_⟩, kept.jobs, fun j hj hr => ?_, fun id r hr => ?_, queue.fifo, ?_,
    fun s rest hc hs popped done => ?_⟩
  · rcases kept.registered.complete _ (derived_mem hx) with hd | hw
    · exact .inl (mem_returns nodup hx hd)
    · obtain ⟨⟨d, job⟩, hw, rfl⟩ := List.mem_map.mp hw
      obtain ⟨f, hf, ha⟩ := List.mem_filterMap.mp hw
      cases f <;> cases ha
      exact .inr ⟨job, (List.mem_filter.mp hf).1⟩
  · cases j with
    | reaction r v =>
      have ended := kept.owned _ hj r.derived rfl
      obtain ⟨id, n, x, hx, hd⟩ := exists_registration (kept.registered.ended _ ended)
      exact ⟨id, n, List.mem_filter.mpr ⟨hj, Job.isOf_iff.mpr ⟨x, hx, hd ▸ rfl⟩⟩⟩
    | _ => cases hr
  · have recorded := kept.record id
    rw [show l.heap.get? id = some r from hr] at recorded
    exact recorded.settlement?
  · have draining := queue.draining
    rw [turnsOf, List.countP_filter] at draining
    exact draining
  · obtain ⟨l', hl', history, draining⟩ := drained_of_step hl hc hs popped done
    have all : started l'.history = enqueued l'.history := by
      have drained := (h.step.queueKept hl').drained [] _ _ history rfl
      rw [history, started_cons, enqueued_cons, drained]
      rfl
    exact ⟨l', hl', draining, all, fun id n => all ▸ (h.step.reactionsKept hl').jobs id n⟩

/-- A machine whose script has registered handlers on a promise before and after it was fulfilled, at
the end of a drain. -/
def chainedTwice : Machine :=
  let chain : Step := .attach .then_ "main" (.variable "p") none none
  run 6 (((boot {} .log .native).obey
    [.step (.newPromise "main") (some "p") false, .step chain (some "d") false,
      .step (.resolve "main" (.variable "p") (.constant .null)) none false,
      .step chain (some "e") false]).start (.step (.drain "main") none false))

theorem reachable_chainedTwice : Reachable chainedTwice :=
  .run (.start (.obey (.boot _ _ _) _) (by cbv) _) 6

theorem reactions_run_once_chainedTwice :
    ∃ l l', chainedTwice.loop? ⟨0⟩ = some l ∧ chainedTwice.step.loop? ⟨0⟩ = some l' ∧
      (registrations ⟨0, 0⟩ 0 l.history).length = 2 ∧
      reactionJobs ⟨0, 0⟩ 0 l.history =
        (returns ⟨0, 0⟩ 0 l.history).map (fun x => x.job .fulfilled .null) ∧
      l'.draining = false ∧ started l'.history = enqueued l'.history := by
  obtain ⟨l, hl⟩ := Option.isSome_iff_exists.mp
    (by cbv : (chainedTwice.loop? ⟨0⟩).isSome = true)
  have two : (chainedTwice.loop? ⟨0⟩).map
      (fun l => (registrations ⟨0, 0⟩ 0 l.history).length) = some 2 := by cbv
  have settled : (chainedTwice.loop? ⟨0⟩).bind (fun l => settlement? ⟨0, 0⟩ 0 l.history) =
      some (.fulfilled, .null) := by cbv
  rw [hl] at two settled
  obtain ⟨-, jobs, -, -, -, -, ends⟩ := reactions_run_once reachable_chainedTwice hl
  obtain ⟨l', hl', draining, all, -⟩ := ends .done chainedTwice.stack.tail (by cbv) (by cbv) (by cbv)
    (by cbv)
  have owed := jobs ⟨0, 0⟩ 0
  rw [show settlement? ⟨0, 0⟩ 0 l.history = some (.fulfilled, .null) from settled] at owed
  exact ⟨l, l', hl, hl', Option.some.inj two, owed, draining, all⟩

end Machine
end PromiseLoop

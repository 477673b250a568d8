import PromiseLoop.Proofs.Background.Settlements
import PromiseLoop.Proofs.Drains

/-!
# Workers and their reports

The completer of a worker never leaves it: as long as the promise of a worker is in flight, its report waits
with the worker, or has been posted and is still to be applied.  And whatever report has been taken out of the
queue has been applied to its promise at once.

## Results

* `Reachable.manned`: where the reports of workers are.
* `Reachable.landed`: which promise each applied report was about.
* `Reachable.attemptsAfterReports`: an applied report resolves or rejects its promise before anything else
  happens.
-/

namespace PromiseLoop

open Relation

namespace Loop

variable {l l' : Loop}

-- ---------------------------------------------------------------------------
-- Where the reports of workers are
-- ---------------------------------------------------------------------------

/-- The reports that workers wait to post, and those that have been posted and not been applied. -/
def outstanding (l : Loop) : List Report := l.waiting ++ l.underway

/-- Every promise in flight for which a worker was started has its report with the worker or under way, as long
as slots have indices. -/
def Manned (l : Loop) : Prop :=
  l.heap.slots.length < 2 ^ 32 → ∀ p ∈ l.inFlight, p ∈ spawned l.history →
    p.id ∈ l.outstanding.map Report.promise

theorem SparesWork.manned (h : l.SparesWork l') (hm : l.Manned) : l'.Manned := by
  obtain ⟨newer, history, quiet⟩ := h.history
  intro room p hp hs
  rw [history, (of_not_isOfWork quiet l.history).2.1] at hs
  rw [outstanding, h.waiting, h.underway]
  exact hm (Nat.lt_of_le_of_lt h.slots room) p (h.inFlight ▸ hp) hs

theorem outstanding_post (l : Loop) (r : Report) : (l.post r).outstanding = l.outstanding ++ [r] := by
  simp [outstanding, underway, post, note]

theorem Manned.post (h : l.Manned) (r : Report) : (l.post r).Manned := fun room p hp hs => by
  rw [outstanding_post, List.map_append]
  exact List.mem_append_left _ (h room p hp hs)

/-- A promise that goes in flight has no worker yet. -/
theorem Manned.openFlight (h : l.Manned) (old : ∀ p ∈ spawned l.history, p.serial < l.nextSerial) :
    l.openFlight.2.Manned := by
  intro room p hp hs
  rcases List.mem_append.mp hp with hp | hp
  · exact h (Nat.lt_of_le_of_lt (Heap.slots_allocate ..) room) p hp hs
  · obtain rfl : p = l.openFlight.1 := List.mem_singleton.mp hp
    exact absurd (old _ hs) (Nat.lt_irrefl _)

/-- A worker is started together with its report, which it posts now or later. -/
theorem Manned.addWorker (h : l.Manned) (p : Promise) (result : WorkResult) (now : Bool) :
    (if now then (l.addWorker p).post ⟨p.id, result⟩ else (l.addWorker p).addWaiting ⟨p.id, result⟩).Manned := by
  generalize hafter : (if now then (l.addWorker p).post ⟨p.id, result⟩
    else (l.addWorker p).addWaiting ⟨p.id, result⟩) = after
  have perm : after.outstanding.Perm (l.outstanding ++ [⟨p.id, result⟩]) := by
    rw [← hafter]
    cases now with
    | true => exact .of_eq (outstanding_post ..)
    | false =>
      show (l.waiting ++ [(⟨p.id, result⟩ : Report)] ++ l.underway).Perm (l.waiting ++ l.underway ++ [_])
      rw [List.append_assoc, List.append_assoc]
      exact .append_left _ List.perm_append_comm
  have same : after.inFlight = l.inFlight ∧ after.heap = l.heap ∧
      spawned after.history = p :: spawned l.history := by
    rw [← hafter]
    cases now <;> exact ⟨rfl, rfl, rfl⟩
  intro room q hq hs
  rw [same.1] at hq
  rw [same.2.1] at room
  rw [same.2.2] at hs
  rw [(perm.map Report.promise).mem_iff, List.map_append]
  rcases List.mem_cons.mp hs with rfl | hs
  · exact List.mem_append_right _ (List.mem_singleton_self _)
  · exact List.mem_append_left _ (h room q hq hs)

theorem Manned.releaseWorker (h : l.Manned) : l.releaseWorker.2.Manned := by
  unfold Loop.releaseWorker
  split
  · exact h
  · rename_i r rest waits
    intro room p hp hs
    refine List.map_subset _ (fun x hx => ?_) (h room p hp hs)
    rw [outstanding_post]
    simp only [outstanding, waits, List.cons_append, List.mem_cons, List.mem_append] at hx ⊢
    tauto

/-- A report is applied: the promise that it is about is not in flight any more. -/
theorem Manned.applied {r : Report} (h : l.Manned) (next : l.dequeue? = some (.settlement r, l'))
    (distinct : l.heap.slots.length < 2 ^ 32 → (l.inFlight.map Promise.id).Nodup) :
    (l'.land r.promise).2.Manned := by
  obtain ⟨⟨i, q⟩, hq, heq⟩ := Option.map_eq_some_iff.mp next
  obtain ⟨rfl, rfl⟩ := Prod.mk.inj heq
  have entries := (Queue.dequeue?_eq_some_iff _ _ _).mp hq
  intro room p hp hs
  -- what is still in flight has another id than what has landed
  have other : p.id ≠ r.promise := fun same => by
    have nodup := distinct room
    replace hp : p ∈ l.inFlight.eraseP fun p => p.id = r.promise := hp
    obtain ⟨a, before, after, first, hid, split, rest⟩ :=
      List.exists_of_eraseP (p := fun p : Promise => p.id = r.promise) (List.eraseP_subset hp) (by simpa using same)
    rw [rest] at hp
    rw [split, List.map_append, List.map_cons] at nodup
    refine (List.nodup_cons.mp (List.nodup_middle.mp nodup)).1 ?_
    rw [← List.map_append, show a.id = r.promise by simpa using hid, ← same]
    exact List.mem_map_of_mem hp
  have before := h room p (List.eraseP_subset hp) hs
  have underway : l.underway = r :: (reports q.entries ++ l.channel) := by
    rw [Loop.underway, entries]
    rfl
  simp only [outstanding, underway, List.map_append, List.map_cons, List.mem_append, List.mem_cons, other,
    false_or] at before
  simpa only [outstanding, Loop.underway, land, note, List.map_append, List.mem_append] using before

/-- Every report that has been applied was about one promise, which is not in flight any more; and a worker's
promise is in flight or was one of these. -/
structure Landed (l : Loop) (applied : List (Promise × Report)) : Prop where
  reports : applied.map Prod.snd = PromiseLoop.reports (started l.history)
  ids : ∀ x ∈ applied, x.1.id = x.2.promise
  old : ∀ x ∈ applied, x.1.serial < l.nextSerial
  apart : (applied.map Prod.fst ++ l.inFlight).Nodup
  spawned : ∀ p ∈ PromiseLoop.spawned l.history, p ∈ l.inFlight ∨ p ∈ applied.map Prod.fst

end Loop

namespace Workload

variable {w w' : Workload}

theorem Move.landed {applied : List (Promise × Report)} (hm : Move w w') (h : w.Kept)
    (hl : w.loop.Landed applied) : ∃ applied, w'.loop.Landed applied := by
  have opened (l : Loop) (old : ∀ p ∈ l.inFlight, p.serial < l.nextSerial) (hl : l.Landed applied) :
      l.openFlight.2.Landed applied := by
    refine ⟨hl.reports, hl.ids, fun x hx => Nat.lt_succ_of_lt (hl.old x hx), ?_, fun p hp => ?_⟩
    · show (applied.map Prod.fst ++ (l.inFlight ++ [l.openFlight.1])).Nodup
      rw [← List.append_assoc]
      refine hl.apart.append (List.nodup_singleton _) ?_
      rintro p hp hs
      rw [List.mem_singleton.mp hs] at hp
      rcases List.mem_append.mp hp with hp | hp
      · obtain ⟨x, hx, he⟩ := List.mem_map.mp hp
        exact Nat.lt_irrefl _ (he ▸ hl.old x hx)
      · exact Nat.lt_irrefl _ (old _ hp)
    · exact (hl.spawned p hp).imp_left (List.mem_append_left _)
  have noted (l : Loop) {e : Event} (he : reports e.started?.toList = []) (hs : e.spawned? = none)
      (hl : l.Landed applied) : (l.note e).Landed applied := by
    refine ⟨hl.reports.trans ?_, hl.ids, hl.old, hl.apart, ?_⟩
    · show _ = PromiseLoop.reports (started (e :: l.history))
      rw [started_cons, reports_append, he, List.append_nil]
    · show ∀ p ∈ PromiseLoop.spawned (e :: l.history), _
      rw [spawned_cons, hs]
      exact hl.spawned
  cases hm with
  | @spared cs l l' hs =>
    obtain ⟨newer, history, quiet⟩ := hs.history
    obtain ⟨-, spawned, applied'⟩ := of_not_isOfWork quiet l.history
    rw [← history] at spawned applied'
    exact ⟨applied, hl.reports.trans applied'.symm, hl.ids,
      fun x hx => Nat.lt_of_lt_of_le (hl.old x hx) hs.serial, hs.inFlight ▸ hl.apart,
      by rw [spawned, hs.inFlight]; exact hl.spawned⟩
  | handedOut cs l => exact ⟨applied, opened l h.old hl⟩
  | spawned cs l =>
    have begun := opened l h.old hl
    refine ⟨applied, begun.reports.trans ?_, begun.ids, begun.old, begun.apart, ?_⟩
    · show _ = reports (started (Event.spawned l.openFlight.1 :: l.history))
      rw [started_cons]
      exact (congrArg reports (List.append_nil _)).symm
    · refine List.forall_mem_cons.mpr ⟨.inl ?_, begun.spawned⟩
      exact List.mem_append_right _ (List.mem_singleton_self _)
  | used l hc result => exact ⟨applied, noted _ rfl rfl ⟨hl.reports, hl.ids, hl.old, hl.apart, hl.spawned⟩⟩
  | waits l hc result => exact ⟨applied, hl.reports, hl.ids, hl.old, hl.apart, hl.spawned⟩
  | letGo cs l =>
    show ∃ applied, l.releaseWorker.2.Landed applied
    unfold Loop.releaseWorker
    split
    · exact ⟨applied, hl⟩
    · exact ⟨applied, noted _ rfl rfl ⟨hl.reports, hl.ids, hl.old, hl.apart, hl.spawned⟩⟩
  | @applied cs l l' r next distinct =>
    obtain ⟨p, before, after, split, hid, -, -, rest⟩ := h.flying next
    obtain ⟨⟨i, q⟩, -, heq⟩ := Option.map_eq_some_iff.mp next
    obtain ⟨rfl, rfl⟩ := Prod.mk.inj heq
    have mem : p ∈ l.inFlight := split ▸ List.mem_append_right _ List.mem_cons_self
    refine ⟨applied ++ [(p, r)], ?_, ?_, ?_, ?_, fun x hx => ?_⟩
    · show _ = reports (started (.started (.settlement r) :: l.history))
      rw [started_cons, reports_append, List.map_append, hl.reports]
      rfl
    · exact List.forall_mem_append.mpr ⟨hl.ids, by simpa using hid⟩
    · exact List.forall_mem_append.mpr ⟨hl.old, List.forall_mem_singleton.mpr (h.old p mem)⟩
    · have apart := hl.apart
      rw [split] at apart
      rw [rest, List.map_append]
      refine apart.perm (List.Perm.symm ?_)
      simp only [List.map_cons, List.map_nil, List.append_assoc, List.singleton_append]
      exact List.Perm.append_left _ List.perm_middle.symm
    · rw [rest, List.map_append]
      rcases hl.spawned x hx with flying | landed
      · rw [split] at flying
        simp only [List.mem_append, List.mem_cons, List.map_cons, List.map_nil, List.not_mem_nil, or_false] at flying ⊢
        tauto
      · exact .inr (List.mem_append_left _ landed)

theorem Move.slots (hm : Move w w') : w.loop.heap.slots.length ≤ w'.loop.heap.slots.length := by
  cases hm with
  | spared hs => exact hs.slots
  | handedOut cs l => exact Heap.slots_allocate ..
  | spawned cs l => exact Heap.slots_allocate ..
  | used l hc result => exact Nat.le_refl _
  | waits l hc result => exact Nat.le_refl _
  | letGo cs l =>
    show l.heap.slots.length ≤ l.releaseWorker.2.heap.slots.length
    unfold Loop.releaseWorker
    split <;> exact Nat.le_refl _
  | applied cs next distinct =>
    obtain ⟨⟨i, q⟩, -, heq⟩ := Option.map_eq_some_iff.mp next
    obtain ⟨rfl, rfl⟩ := Prod.mk.inj heq
    exact Nat.le_refl _

theorem slots_of_moves (hm : ReflTransGen Move w w') : w.loop.heap.slots.length ≤ w'.loop.heap.slots.length := by
  induction hm with
  | refl => exact Nat.le_refl _
  | tail _ hs ih => exact Nat.le_trans ih hs.slots

theorem landed_of_moves (hm : ReflTransGen Move w w') (h : w.Kept) (hl : ∃ applied, w.loop.Landed applied) :
    ∃ applied, w'.loop.Landed applied := by
  induction hm with
  | refl => exact hl
  | tail hm hs ih =>
    obtain ⟨applied, hl⟩ := ih
    exact hs.landed (kept_of_moves hm h) hl

end Workload

namespace Machine

variable {m m' : Machine} {k : LoopId} {l l' : Loop}

-- ---------------------------------------------------------------------------
-- In every run
-- ---------------------------------------------------------------------------

/-- In every loop, the reports of workers are where they belong. -/
def Manned (m : Machine) : Prop := ∀ k l, m.loop? k = some l → l.Manned

theorem Leads.manned (h : Leads Spared m m') (hm : m.Manned) : m'.Manned := by
  intro k l' hl'
  obtain ⟨w, ⟨l, hl, rfl⟩ | ⟨-, config, tracker, bridge, rfl⟩, -, spared⟩ := h.loops k l' hl'
  · exact spared.manned (hm k l hl)
  · exact spared.manned fun _ p hp => nomatch hp

theorem Manned.setLoop (h : m.Manned) (found : m.loop? l.id = some l) (id : l'.id = l.id) (hl' : l'.Manned) :
    (m.setLoop l').Manned := by
  intro k x hx
  rw [loop?_setLoop_ite found id] at hx
  split at hx
  · rw [← Option.some.inj hx]
    exact hl'
  · exact h k x hx

theorem Manned.useCompleter (h : m.Manned) (name : String) (result : WorkResult) :
    (m.useCompleter name result).Manned := by
  rcases useCompleter_cases m name result with ⟨same, -⟩ | ⟨c, -, used⟩
  · rwa [same]
  · intro k x hx
    rw [used] at hx
    by_cases hk : c.loop = k
    · subst hk
      rw [loop?_modifyLoop_self] at hx
      obtain ⟨l, hl, rfl⟩ := Option.map_eq_some_iff.mp hx
      exact (h c.loop l hl).post _
    · rw [loop?_modifyLoop_of_ne _ hk] at hx
      exact h k x hx

/-- What deals with background work leaves the reports of workers where they belong. -/
theorem Works.manned {o : Option Occasion} (hw : Works o m m') (hs : m.Staffed) (ha : m.Accounted)
    (distinct : ∀ k l, m.loop? k = some l → l.heap.slots.length < 2 ^ 32 →
      (l.inFlight.map Promise.id).Nodup) (h : m.Manned) : m'.Manned := by
  have hp := hs.placed
  cases hw with
  | @handedOut _ k l found name =>
    obtain rfl := hp k l found
    have opened := (h l.id l found).openFlight (ha l.id l found).spawnedOld
    exact (h.setLoop found (Loop.id_openFlight l) opened).useCompleter name .abandoned
  | used _ name result => exact h.useCompleter name result
  | @spawned _ k l found result now =>
    obtain rfl := hp k l found
    have opened := (h l.id l found).openFlight (ha l.id l found).spawnedOld
    exact h.setLoop found (by cases now <;> rfl) (opened.addWorker l.openFlight.1 result now)
  | @letGo _ k l found =>
    obtain rfl := hp k l found
    exact h.setLoop found (Loop.id_releaseWorker l) (h l.id l found).releaseWorker
  | called found f => exact (Works.spared (.called found f) hs (by simp)).manned h
  | hosted found w => exact (Works.spared (.hosted found w) hs (by simp)).manned h
  | adopted found v t => exact (Works.spared (.adopted found v t) hs (by simp)).manned h
  | run found next other =>
    refine (Works.spared (.run found next other) hs ?_).manned h
    rintro k r heq
    cases heq
    cases other
  | @applied _ k l l' r found next =>
    obtain rfl := hp k l found
    have hid : l'.id = l.id := Loop.id_dequeue? next
    exact h.setLoop found (show (l'.land r.promise).2.id = l.id from hid)
      ((h l.id l found).applied next (distinct l.id l found))

theorem Next.manned (hm : Reachable m) (h : m.Manned) (hn : Next m m') : m'.Manned := by
  obtain ⟨staffed, accounted⟩ := hm.staffed
  obtain ⟨o, advances⟩ := hn.advances
  obtain ⟨a, b, changes, works, changes'⟩ := advances.does hm
  have before := changes.leads staffed
  rcases works with ⟨-, rfl⟩ | works
  · exact (changes'.leads before.staffed).manned (before.manned h)
  · have distinct := changes.distinct_inFlight hm staffed accounted
    have accounts : a.Accounted := (before.mono fun _ _ => Spared.moves).accounted accounted
    exact (changes'.leads (works.leads before.staffed distinct).staffed).manned
      (works.manned before.staffed accounts distinct (before.manned h))

/-- In every run, the report of a worker whose promise is in flight waits with the worker, or has been posted
and is still to be applied. -/
theorem Reachable.manned (hm : Reachable m) : m.Manned := by
  induction hm with
  | boot config tracker bridge =>
    exact (leads_boot config tracker bridge).manned fun k l hl => by simp [loop?] at hl
  | start hm idle c ih => exact Next.manned hm ih (.start idle c)
  | step hm ih => exact Next.manned hm ih (.step _)

/-- In every run, each report that has been applied was about one promise. -/
theorem Reachable.landed (hm : Reachable m) (hl : m.loop? k = some l) : ∃ applied, l.Landed applied := by
  obtain ⟨config, tracker, bridge, moves⟩ := hm.moves hl
  exact Workload.landed_of_moves moves (Workload.kept_new k config tracker bridge)
    ⟨[], rfl, by simp, by simp, List.nodup_nil, by simp [spawned]⟩

-- ---------------------------------------------------------------------------
-- Applying a report is an attempt
-- ---------------------------------------------------------------------------

/-- The job of a report attempts to resolve or reject the promise that the report is about, before anything
else is noted. -/
theorem attempts_of_report (hm : Reachable m) (hl : m.loop? k = some l) (room : l.heap.slots.length < 2 ^ 32)
    {n : Machine} (hp : n.Placed) (hc : n.control = .signal .done) {r : Report} {y x : Loop}
    (next : l.dequeue? = some (.settlement r, y)) (hn : n.loop? k = some x) (heap : x.heap = l.heap)
    (flight : x.inFlight = l.inFlight) :
    ∃ accepted z newest, (n.startSettlement k r).loop? k = some z ∧
      z.history = newest ++ .attempted r.promise accepted :: x.history := by
  obtain ⟨staffed, accounted⟩ := hm.staffed
  have kept := accounted k l hl
  obtain ⟨p, before, after, flying, hid, first, found, -⟩ := kept.flying next
  have mem : p ∈ l.inFlight := flying ▸ List.mem_append_right _ List.mem_cons_self
  have own : p.home = k := (kept.own p mem).trans (hm.placed k l hl)
  obtain ⟨r₀, hr₀⟩ := (hm.distinct_inFlight accounted hl room).2 p mem
  have record : x.record p = .ok r₀ :=
    Loop.record_eq_ok.mpr ⟨own.trans (hp k x hn).symm, by rw [heap]; exact hr₀⟩
  subst own
  have on : Attempt.IsOn x p (.report r) := by
    show (x.inFlight.find? fun q => q.id = r.promise) = some p
    rw [flight, flying, List.find?_append, List.find?_eq_none.mpr (by simpa using first)]
    simp [hid]
  obtain ⟨z, newest, hz, history⟩ := noted_run hp hc hn record (.report r) on
  exact ⟨_, z, newest, hz, hid ▸ history⟩

/-- What spares background work applies no report. -/
theorem Leads.reports_started (h : Leads Spared m m') (hl : m.loop? k = some l)
    (hl' : m'.loop? k = some l') : reports (started l'.history) = reports (started l.history) := by
  obtain ⟨w, ⟨x, hx, rfl⟩ | ⟨new, -⟩, -, spared⟩ := h.loops k l' hl'
  · obtain rfl : l = x := Option.some.inj (hl.symm.trans hx)
    obtain ⟨newer, history, quiet⟩ := spared.history
    rw [history]
    exact (of_not_isOfWork quiet l.history).2.2
  · exact absurd (number_lt_of_loop? hl) (Nat.not_lt_of_le new)

/-- A drain that does not come to a report spares background work. -/
theorem leads_resumeDraining (h : m.Staffed) (s : Signal)
    (other : (∀ f, s ≠ .fault f) → ∀ l j l', m.loop? k = some l → l.dequeue? = some (j, l') →
      j.report? = none) : Leads Spared m (m.resumeDraining k s) := by
  have dropped := (changes_drop s.held m).leads h
  unfold resumeDraining
  split
  · have broken : Changes m (m.modifyLoop k Loop.stopDraining) :=
      changes_modifyLoop m k (fun _ => rfl) .drainBroken
    exact Changes.leads (broken.trans (changes_signal _ _)) h
  · rename_i _ sound
    unfold nextMicrotask
    split
    · have ended : Changes (drop s.held m)
          ((drop s.held m).modifyLoop k fun l => l.stopDraining.note .drained) :=
        changes_modifyLoop _ k (fun _ => rfl) .drainEnded
      exact Changes.leads ((changes_drop s.held m).trans (ended.trans (changes_signal _ _))) h
    · rename_i j y next
      obtain ⟨x, hx, hd⟩ := Option.bind_eq_some_iff.mp next
      obtain ⟨released, same⟩ := exists_loop?_drop s.held m k
      rw [hx] at same
      obtain ⟨l, hl, rfl⟩ := Option.map_eq_some_iff.mp same.symm
      obtain ⟨⟨i, q⟩, hq, heq⟩ := Option.map_eq_some_iff.mp hd
      have none : j.report? = none := other sound l j _ hl (Option.map_eq_some_iff.mpr ⟨(i, q), hq, by
        rw [← (Prod.mk.inj heq).1]⟩)
      have run := (does_startJob dropped.staffed.placed hx hd none (.draining k)).spared dropped.staffed
        (by rintro k r heq; cases heq; cases none)
      exact dropped.trans run .refl fun _ _ _ => Spared.trans

/-- A step that starts the job of a report attempts to resolve or reject the promise that the report is
about. -/
theorem step_attempts_after_report (hm : Reachable m) (hl : m.loop? k = some l)
    (hl' : m.step.loop? k = some l') (room : l.heap.slots.length < 2 ^ 32) :
    reports (started l'.history) = reports (started l.history) ∨
      ∃ newest r accepted,
        l'.history = newest ++ .attempted r.promise accepted :: .started (.settlement r) :: l.history ∧
        reports (started l'.history) = reports (started l.history) ++ [r] := by
  rcases Next.started hm (.step m) hl hl' with still | ⟨⟨rest, s, hs, hc⟩, j, one⟩
  · exact .inl (congrArg reports still)
  rcases step_removes_or m hm.placed (keepsLoop_of_stack hs rfl) with ⟨-, -, aside⟩ | settled
  · obtain ⟨x, hx, outside⟩ := aside.stays l hl
    obtain rfl : x = l' := Option.some.inj (hx.symm.trans hl')
    refine .inl (congrArg reports ?_)
    clear hx hl' one
    induction outside with
    | refl => rfl
    | tail _ h ih => exact h.appends.started.trans ih
  let popped : Machine := { m with stack := rest, control := .signal .done }
  obtain ⟨released, hl₀⟩ := loop?_drop_of (m := popped) s.held hl
  have stepped : m.step = popped.resumeDraining k s := step_of_signal settled hc hs
  by_cases report : (∀ f, s ≠ .fault f) ∧ ∃ r y, l.dequeue? = some (.settlement r, y)
  · -- the drain comes to a report
    obtain ⟨sound, r, y, next⟩ := report
    have aside : Aside k popped (drop s.held popped) := aside_drop s.held popped
    have dequeued := Loop.dequeue?_releases next (l.releases ++ released)
    obtain ⟨⟨i, q⟩, -, heq⟩ := Option.map_eq_some_iff.mp next
    obtain ⟨rfl, rfl⟩ := Prod.mk.inj heq
    generalize hy : ({ { l with microtasks := q }.note (.started (.settlement r)) with
      releases := l.releases ++ released } : Loop) = y at dequeued
    obtain rfl : l.id = k := hm.placed k l hl
    have id : y.id = l.id := hy ▸ rfl
    let n : Machine := ((drop s.held popped).setLoop y).push (.draining l.id)
    have placed : n.Placed :=
      (aside.placed hm.placed).setLoop (l := { l with releases := l.releases ++ released }) hl₀ id
    have hn : n.loop? l.id = some y :=
      loop?_setLoop_self (l := { l with releases := l.releases ++ released }) hl₀ id
    have begun : m.step = n.startSettlement l.id r := by
      have resumed : popped.resumeDraining l.id s = (drop s.held popped).nextMicrotask l.id := by
        unfold resumeDraining
        split
        · exact absurd rfl (sound _)
        · rfl
      rw [stepped, resumed, nextMicrotask, hl₀, Option.bind_some, dequeued]
      rfl
    obtain ⟨accepted, z, newest, hz, history⟩ :=
      attempts_of_report hm hl room placed (control_drop s.held popped) next hn (hy ▸ rfl) (hy ▸ rfl)
    rw [← begun, hl'] at hz
    replace history : l'.history =
        newest ++ .attempted r.promise accepted :: .started (.settlement r) :: l.history := by
      rw [Option.some.inj hz, history, ← hy]
      rfl
    refine .inr ⟨newest, r, accepted, history, ?_⟩
    -- no more than one job is started in a step
    have first : started l'.history = started l.history ++ .settlement r :: started newest := by
      rw [history, started_append, started_cons, started_cons]
      simp [Event.started?]
    rw [one] at first
    obtain ⟨rfl, -⟩ := List.cons.inj (List.append_cancel_left first)
    rw [one, reports_append]
    rfl
  · have popping : Changes m popped := changes_of_eq rfl rfl
    have before := popping.leads hm.staffed.1
    suffices leads : Leads Spared m m.step from .inl (leads.reports_started hl hl')
    rw [stepped]
    refine before.trans (leads_resumeDraining before.staffed s fun sound x j y hx next => ?_) .refl
      fun _ _ _ => Spared.trans
    obtain rfl : l = x := Option.some.inj (hl.symm.trans hx)
    cases j with
    | settlement r => exact absurd ⟨sound, r, _, next⟩ report
    | _ => rfl

end Machine

/-- Whenever a report was applied, the promise that it is about was to be resolved or rejected. -/
def Loop.Attempts (l : Loop) : Prop := ∀ r ∈ reports (started l.history), ∃ newest accepted older,
  l.history = newest ++ .attempted r.promise accepted :: .started (.settlement r) :: older

namespace Machine

theorem Next.attempts (hm : Reachable m) (hn : Next m m') (hl : m.loop? k = some l)
    (hl' : m'.loop? k = some l') (room : l.heap.slots.length < 2 ^ 32) (h : l.Attempts) : l'.Attempts := by
  obtain ⟨since, history⟩ := (Run.acts hm (.single hn) hl hl').history
  have old (r : Report) (hr : r ∈ reports (PromiseLoop.started l.history)) : ∃ newest accepted older, l'.history =
      newest ++ .attempted r.promise accepted :: .started (.settlement r) :: older := by
    obtain ⟨newest, accepted, older, before⟩ := h r hr
    exact ⟨since ++ newest, accepted, older, by rw [history, before, List.append_assoc]⟩
  cases hn with
  | start idle c =>
    rcases Next.started hm (.start idle c) hl hl' with same | ⟨⟨-, s, -, hc⟩, -⟩
    · exact fun r hr => old r (same ▸ hr)
    · rw [isIdle, hc] at idle
      cases idle
  | step =>
    rcases step_attempts_after_report hm hl hl' room with same | ⟨newest, r, accepted, now, more⟩
    · exact fun r hr => old r (same ▸ hr)
    · intro x hx
      rw [more] at hx
      rcases List.mem_append.mp hx with hx | hx
      · exact old x hx
      · rw [List.mem_singleton.mp hx]
        exact ⟨newest, accepted, l.history, now⟩

/-- In every run, applying a report is an attempt to resolve or reject its promise. -/
theorem Reachable.attempts (hm : Reachable m) (hl : m.loop? k = some l)
    (room : l.heap.slots.length < 2 ^ 32) : l.Attempts := by
  have next {m m' : Machine} (hm : Reachable m) (hn : Next m m')
      (ih : ∀ l, m.loop? k = some l → l.heap.slots.length < 2 ^ 32 → l.Attempts) (l' : Loop)
      (hl' : m'.loop? k = some l') (room : l'.heap.slots.length < 2 ^ 32) : l'.Attempts := by
    rcases hm.view k with absent | ⟨-, -, -, v, hv, -⟩
    · rcases (hn.follows hm.placed).gone hm.placed absent with gone | ⟨-, config, tracker, bridge, v, hv, goes⟩
      · rw [gone.gone] at hl'
        cases hl'
      · -- a loop that has just been opened has started nothing
        obtain rfl : v.loop = l' := Option.some.inj ((sees_eq_some.mp hv).1.symm.trans hl')
        intro r hr
        rw [goes.started] at hr
        cases hr
    · have hl := (sees_eq_some.mp hv).1
      obtain ⟨staffed, accounted⟩ := hm.staffed
      obtain ⟨w, ⟨x, hx, rfl⟩ | ⟨new, -⟩, moves⟩ := (hn.leads hm staffed accounted).loops k l' hl'
      · have room' := Nat.lt_of_le_of_lt (Workload.slots_of_moves moves) room
        exact hn.attempts hm hx hl' room' (ih x hx room')
      · exact absurd (number_lt_of_loop? hl) (Nat.not_lt_of_le new)
  induction hm generalizing l with
  | boot config tracker bridge =>
    have spared := (leads_boot config tracker bridge).loops k l hl
    obtain ⟨w, ⟨x, hx, -⟩ | ⟨-, _, _, _, rfl⟩, -, spared⟩ := spared
    · simp [loop?] at hx
    · obtain ⟨newer, history, quiet⟩ := spared.history
      intro r hr
      rw [history, (of_not_isOfWork quiet _).2.2] at hr
      cases hr
  | start hm idle c ih => exact next hm (.start idle c) (fun l => ih) l hl room
  | step hm ih => exact next hm (.step _) (fun l => ih) l hl room

end Machine
end PromiseLoop

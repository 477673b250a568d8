import PromiseLoop.Proofs.Registrations
import PromiseLoop.Proofs.Reports

/-!
# Trackers that re-enter their loop

A checkpoint marks all the rejections that it is going to report, and then makes the reports one by one.
While a tracker is being told of one of them it may do anything to the loop, and so to the promises whose
reports have still to be made: it may register handlers on them, which is told at once as a late handler, or
let them go.  What can be said of every tracker is how often it is told something about a promise, and that
no handler is late before the report of its promise has been selected.

## Results

* `View.Move.told`: what every move keeps, whatever the tracker does.
* `Machine.tracker_told_once`: what a tracker is told of a promise in every run.
* `Machine.late_handler_precedes_report`: a run in which a late handler is told of before the report.
-/

namespace PromiseLoop

open Relation

/-- Whether an event tells the tracker of a late handler on a promise of an id. -/
def Event.tellsLate (id : PromiseId) : Event → Bool
  | .handledLate i => i = id
  | _ => false

theorem Event.tellsLate_of_not_isTracked {e : Event} (h : e.isTracked = false) (id : PromiseId) :
    e.tellsLate id = false := by
  cases e <;> first | rfl | cases h

/-- What can be seen of a record by its two marks does not change without registrations and reports. -/
theorem Retained.any {o o' : Option Record} (h : Retained o o') {P : Bool → Bool → Bool}
    (hP : P false false = false) : o'.any (fun r => P r.isHandled r.rejectionReported) =
      o.any fun r => P r.isHandled r.rejectionReported := by
  cases h with
  | absent => rfl
  | created handled reported => simp [handled, reported, hP]
  | kept handled reported _ => simp [handled, reported]

namespace Loop

variable {l l' : Loop} {selected : List PromiseId} {id : PromiseId} {r : Record}

/-- Whether a rejection with an id has been selected for a report. -/
def isMarked (l : Loop) (id : PromiseId) : Bool := (l.heap.get? id).any Record.rejectionReported

/-- Whether handlers have been registered on a promise whose rejection has been selected for a report. -/
def isMarkedHandled (l : Loop) (id : PromiseId) : Bool :=
  (l.heap.get? id).any fun r => r.isHandled && r.rejectionReported

/-- What is known of the events that a tracker is told of, where the reports of `selected` have still to be
made. -/
structure Told (l : Loop) (selected : List PromiseId) : Prop where
  handled : l.HandledKept
  /-- Every life of a record takes one report at most. -/
  reports : ∀ id, l.history.countP (Event.reports id) + selected.count id ≤
    ends id l.history + (l.isMarked id).toNat
  late : ∀ id, l.history.countP (Event.tellsLate id) ≤ ends id l.history + (l.isMarkedHandled id).toNat
  marked : ∀ id, l.isMarked id = true → Reported id l.history ∨ id ∈ selected
  lateMarked : ∀ id, Within id (Event.tellsLate id) l.history → l.isMarked id = true
  first : EveryEvent (fun e older => ∀ id, e = .handledLate id →
    ∃ d f g before, older = .attached id d f g :: before ∧ ¬ Handled id before) l.history

theorem told_new (id : LoopId) (config : Config) (tracker : Tracker) (bridge : Bridge) :
    Told { id, config, tracker, bridge } [] where
  handled k := by simp [Handled, Within, life]
  reports k := by simp
  late k := by simp
  marked k h := by simp [isMarked] at h
  lateMarked k h := by simp [Within, life] at h
  first := everyEvent_nil _

theorem Told.of_retains (h : l.Told selected) (hr : l.Retains l') : l'.Told selected := by
  have handled : l'.HandledKept := h.handled.of_retains hr
  obtain ⟨retained, ⟨newer, history, untracked⟩, -⟩ := hr
  have none (P : PromiseId → Event → Bool) (hP : ∀ e : Event, e.isTracked = false → ∀ k, P k e = false)
      (k : PromiseId) : l'.history.countP (P k) = l.history.countP (P k) := by
    rw [history, List.countP_append, List.countP_eq_zero.mpr fun e he => by simp [hP e (untracked e he) k],
      Nat.zero_add]
  have ended (k : PromiseId) : ends k l'.history = ends k l.history :=
    none Event.frees (fun e he => Event.frees_of_not_isTracked he) k
  have marked (k : PromiseId) : l'.isMarked k = l.isMarked k :=
    (retained k).any (P := fun _ reported => reported) rfl
  have markedHandled (k : PromiseId) : l'.isMarkedHandled k = l.isMarkedHandled k :=
    (retained k).any (P := fun handled reported => handled && reported) rfl
  refine ⟨handled, fun k => ?_, fun k => ?_, fun k hk => ?_, fun k hk => ?_, ?_⟩
  · rw [none _ (fun e he => Event.reports_of_not_isTracked he), ended, marked]
    exact h.reports k
  · rw [none _ (fun e he => Event.tellsLate_of_not_isTracked he), ended, markedHandled]
    exact h.late k
  · rw [history, reported_append untracked]
    exact h.marked k (marked k ▸ hk)
  · rw [history] at hk
    rw [marked]
    exact h.lateMarked k ((within_append fun e he => ⟨Event.frees_of_not_isTracked (untracked e he) k,
      Event.tellsLate_of_not_isTracked (untracked e he) k⟩).mp hk)
  · rw [history]
    exact h.first.append fun e he older k heq => by
      rw [heq] at he
      exact nomatch untracked _ he

theorem Chores.told (hc : l.Chores l') (wf : l.heap.Wf) (h : l.Told selected) : l'.Told selected :=
  h.of_retains (Chores.retains hc wf)

/-- A late handler is the first one on a promise that has been marked. -/
theorem handledLate_spec (h : handledLate r = true) : r.isHandled = false ∧ r.rejectionReported = true := by
  simp only [handledLate, Bool.and_eq_true, Bool.not_eq_true'] at h
  exact ⟨h.1.2, h.2⟩

/-- Registering handlers tells the tracker of a late handler, if the report has been selected. -/
theorem Told.registered (h : l.Told selected) (wf : l.heap.Wf) {p : Promise} {f g : Option Value}
    (hr : l.heap.get? p.id = some r) : (l.registered p f g r).Told selected := by
  have created (k : PromiseId) : Retained (l.heap.get? k) ((l.heap.allocate .pending).2.get? k) := by
    rcases Heap.get?_allocate wf .pending k with hc | ⟨-, hn, hc⟩
    · rw [hc]
      exact .refl _
    · rw [hn, hc]
      exact .created rfl rfl
  have marked (k : PromiseId) : (l.registered p f g r).isMarked k = l.isMarked k := by
    unfold isMarked
    rw [get?_registered wf hr]
    split
    · rename_i hk
      rw [hk, hr]
      exact Record.rejectionReported_registered ..
    · exact (created k).any (P := fun _ reported => reported) rfl
  have history := l.history_registered p f g r
  refine ⟨h.handled.registered wf hr, fun k => ?_, fun k => ?_, fun k hk => ?_, fun k hk => ?_, ?_⟩
  · have before := h.reports k
    rw [marked, history]
    split <;> simpa [ends_cons, Event.frees, Event.reports] using before
  · -- the first late handler is told when the promise is handled for the first time
    have before := h.late k
    have markedHandled : (l.registered p f g r).isMarkedHandled k =
        if k = p.id then r.rejectionReported else l.isMarkedHandled k := by
      unfold isMarkedHandled
      rw [get?_registered wf hr]
      split
      · simp
      · exact (created k).any (P := fun handled reported => handled && reported) rfl
    rw [markedHandled, history]
    by_cases hk : k = p.id
    · subst hk
      have once : (l.isMarkedHandled p.id) = (r.isHandled && r.rejectionReported) := by
        unfold isMarkedHandled
        rw [hr]
        rfl
      rw [once] at before
      cases hl : handledLate r with
      | true =>
        obtain ⟨unhandled, marked⟩ := handledLate_spec hl
        simp [unhandled, marked, ends_cons, Event.frees, Event.tellsLate] at before ⊢
        exact before
      | false =>
        have weaker : (r.isHandled && r.rejectionReported).toNat ≤ r.rejectionReported.toNat := by
          cases r.isHandled <;> simp
        simp [ends_cons, Event.frees, Event.tellsLate]
        omega
    · have ne : p.id ≠ k := Ne.symm hk
      split <;> simpa [ends_cons, Event.frees, Event.tellsLate, hk, ne] using before
  · rw [marked] at hk
    refine (h.marked k hk).imp_left fun reported => ?_
    rw [history]
    unfold Reported at reported ⊢
    split <;> simpa [within_cons, Event.frees, Event.reports] using reported
  · rw [marked]
    rw [history] at hk
    cases hl : handledLate r with
    | true =>
      simp only [hl, if_true, List.singleton_append, within_cons, Event.frees, Event.tellsLate, true_and,
        decide_eq_true_eq, Bool.false_eq_true, false_or] at hk
      rcases hk with rfl | hk
      · unfold isMarked
        rw [hr]
        exact (handledLate_spec hl).2
      · exact h.lateMarked k hk
    | false =>
      simp only [hl, Bool.false_eq_true, if_false, List.nil_append, within_cons, Event.frees,
        Event.tellsLate, true_and, false_or] at hk
      exact h.lateMarked k hk
  · rw [history]
    have begun : EveryEvent (fun e older => ∀ id, e = .handledLate id →
        ∃ d f g before, older = .attached id d f g :: before ∧ ¬ Handled id before)
        (.attached p.id l.newPromise.1 f g :: l.history) :=
      everyEvent_cons.mpr ⟨fun _ he => (by cases he), h.first⟩
    cases hl : handledLate r with
    | true =>
      refine everyEvent_cons.mpr ⟨fun id he => ?_, begun⟩
      obtain rfl := Event.handledLate.inj he
      refine ⟨_, _, _, _, rfl, fun handled => ?_⟩
      have before := (h.handled p.id).mpr handled
      rw [hr] at before
      exact absurd before (by simp [(handledLate_spec hl).1])
    | false => exact begun

/-- A checkpoint marks the rejections that it selects. -/
theorem Told.selects (h : l.Told selected) :
    l.takeReports.2.Told (l.takeReports.1.map Prod.fst ++ selected) := by
  have handled := h.handled.selects
  obtain ⟨heap, heq, sel, -⟩ := takeReports_spec l
  rw [heq] at handled ⊢
  have listed {k : PromiseId} (hk : k ∈ l.takeReports.1.map Prod.fst) : ∃ x, l.heap.get? k = some x ∧
      x.isHandled = false ∧ x.rejectionReported = false ∧
        heap.get? k = some { x with rejectionReported := true } := by
    obtain ⟨e, he, rfl⟩ := List.mem_map.mp hk
    obtain ⟨x, hx, awaits, -⟩ := sel.awaited e he
    obtain ⟨-, unhandled, unmarked⟩ := (awaitsReport_iff x).mp awaits
    refine ⟨x, hx, unhandled, unmarked, (sel.find e.1).trans ?_⟩
    rw [hx, Option.map_some, if_pos (List.mem_map_of_mem he)]
  have unlisted {k : PromiseId} (hk : k ∉ l.takeReports.1.map Prod.fst) : heap.get? k = l.heap.get? k := by
    have found := sel.find k
    simp only [hk, if_false, Option.map_id'] at found
    exact found
  refine ⟨handled, fun k => ?_, fun k => ?_, fun k hk => ?_, fun k hk => ?_, h.first⟩
  · have before := h.reports k
    by_cases hk : k ∈ l.takeReports.1.map Prod.fst
    · obtain ⟨x, hx, -, unmarked, found⟩ := listed hk
      have once : (l.takeReports.1.map Prod.fst).count k = 1 := List.count_eq_one_of_mem sel.nodup hk
      simp only [isMarked, hx, found, Option.any_some, unmarked, List.count_append, once, Bool.toNat_false,
        Bool.toNat_true] at before ⊢
      omega
    · simp only [isMarked, unlisted hk, List.count_append, List.count_eq_zero.mpr hk] at before ⊢
      omega
  · have before := h.late k
    by_cases hk : k ∈ l.takeReports.1.map Prod.fst
    · obtain ⟨x, hx, unhandled, -, found⟩ := listed hk
      simpa [isMarkedHandled, hx, found, unhandled] using before
    · simpa only [isMarkedHandled, unlisted hk] using before
  · by_cases listed : k ∈ l.takeReports.1.map Prod.fst
    · exact .inr (List.mem_append_left _ listed)
    · have hk : l.isMarked k = true := by simpa only [isMarked, unlisted listed] using hk
      exact (h.marked k hk).imp_right (List.mem_append_right _)
  · have before := h.lateMarked k hk
    by_cases hk : k ∈ l.takeReports.1.map Prod.fst
    · obtain ⟨x, -, -, -, found⟩ := listed hk
      simp [isMarked, found]
    · simpa only [isMarked, unlisted hk] using before

/-- A report that has been selected is made. -/
theorem Told.reported (h : l.Told (id :: selected)) (reason : Value) : (l.report id reason).Told selected := by
  have handled := h.handled.reported id reason
  rw [report_eq] at handled ⊢
  have told (k : PromiseId) :
      Reported k (.reported id reason :: l.history) ↔ k = id ∨ Reported k l.history := by
    unfold Reported
    simp [within_cons, Event.frees, Event.reports, eq_comm]
  refine ⟨handled, fun k => ?_, h.late, fun k hk => ?_, fun k hk => ?_, ?_⟩
  · have before := h.reports k
    show List.countP _ (_ :: l.history) + _ ≤ ends k (_ :: l.history) + (l.isMarked k).toNat
    rw [ends_cons, List.countP_cons]
    rw [List.count_cons] at before
    by_cases hk : id = k <;> simp [Event.frees, Event.reports, hk] at before ⊢ <;> omega
  · rcases h.marked k hk with reported | mem
    · exact .inl ((told k).mpr (.inr reported))
    · exact (List.mem_cons.mp mem).imp (fun e => (told k).mpr (.inl e)) fun mem => mem
  · exact h.lateMarked k (by simpa [within_cons, Event.frees, Event.tellsLate] using hk)
  · exact everyEvent_cons.mpr ⟨fun _ he => (by cases he), h.first⟩

/-- The end of a record is the end of its marks, and may be told as a report. -/
theorem Told.freed (h : l.Told selected) (hf : l.free? id = some (r, l')) : l'.Told selected := by
  have hr := (free?_eq_some.mp hf).1
  have gone : l'.isMarked id = false ∧ l'.isMarkedHandled id = false := by
    simp [isMarked, isMarkedHandled, get?_free? hf]
  have others {k : PromiseId} (hk : k ≠ id) :
      l'.isMarked k = l.isMarked k ∧ l'.isMarkedHandled k = l.isMarkedHandled k := by
    simp [isMarked, isMarkedHandled, get?_free? hf, hk]
  -- what is reported now has not been marked before
  have unmarked : l.reportsOnFree r = true → l.isMarked id = false := fun reports => by
    have awaits := (Bool.and_eq_true_iff.mp reports).2
    simp [isMarked, hr, ((awaitsReport_iff r).mp awaits).2.2]
  have history := history_free? hf
  refine ⟨h.handled.freed hf, fun k => ?_, fun k => ?_, fun k hk => ?_, fun k hk => ?_, ?_⟩
  · have before := h.reports k
    rw [history]
    by_cases hk : k = id
    · subst hk
      rw [gone.1]
      cases reports : l.reportsOnFree r with
      | true =>
        rw [unmarked reports] at before
        simp [ends_cons, Event.frees, Event.reports] at before ⊢
        omega
      | false =>
        have le := Bool.toNat_le (l.isMarked k)
        simp [ends_cons, Event.frees, Event.reports]
        omega
    · rw [(others hk).1]
      split <;> simpa [ends_cons, Event.frees, Event.reports, Ne.symm hk] using before
  · have before := h.late k
    rw [history]
    by_cases hk : k = id
    · subst hk
      have le := Bool.toNat_le (l.isMarkedHandled k)
      rw [gone.2]
      split <;> simp [ends_cons, Event.frees, Event.tellsLate] <;> omega
    · rw [(others hk).2]
      split <;> simpa [ends_cons, Event.frees, Event.tellsLate, Ne.symm hk] using before
  · have ne : k ≠ id := fun e => by
      rw [e, gone.1] at hk
      cases hk
    refine (h.marked k ((others ne).1 ▸ hk)).imp_left fun reported => ?_
    rw [history]
    unfold Reported at reported ⊢
    split <;> simpa [within_cons, Event.frees, Event.reports, Ne.symm ne] using reported
  · have ne : k ≠ id := fun e => not_within_free? hf _ (e ▸ hk)
    rw [(others ne).1]
    rw [history] at hk
    refine h.lateMarked k ?_
    split at hk <;> simpa [within_cons, Event.frees, Event.tellsLate, Ne.symm ne] using hk
  · rw [history]
    refine everyEvent_cons.mpr ⟨fun _ he => (by cases he), ?_⟩
    split
    · exact everyEvent_cons.mpr ⟨fun _ he => (by cases he), h.first⟩
    · exact h.first

end Loop

namespace View

variable {v v' : View}

/-- The ids of the rejections that have been selected and not been reported. -/
def selected (v : View) : List PromiseId := (v.turns.flatMap Frame.reports).map Prod.fst

/-- Every move keeps what is known of the events of a tracker. -/
theorem Move.told (hm : v.Move v') (wf : v.loop.heap.Wf) (h : v.loop.Told v.selected) :
    v'.loop.Told v'.selected := by
  cases hm with
  | plain hm =>
    have selected : v'.selected = v.selected := by
      cases hm with
      | light hm => cases hm <;> rfl
      | _ => rfl
    rw [selected]
    rcases hm.chores.2 with hc | ⟨p, f, g, a, ha, -, heq⟩
    · exact Loop.Chores.told hc wf h
    · obtain ⟨r, hr, rfl⟩ := (Loop.attach_eq_ok wf).mp ha
      rw [heq]
      exact (h.registered wf (Loop.record_eq_ok.mp hr).2).of_retains (Loop.retains_endAttach _ _ _)
  | final hm =>
    cases hm with
    | attachedLate ha late =>
      obtain ⟨r, hr, rfl⟩ := (Loop.attach_eq_ok wf).mp ha
      exact h.registered wf (Loop.record_eq_ok.mp hr).2
    | selected l turns =>
      have selects := h.selects
      simpa [View.selected, Frame.reports] using selects
    | swept l turns => exact h
  | resume hm =>
    cases hm with
    | attachEnded => exact Loop.Told.of_retains h (Loop.retains_endAttach _ _ _)
    | reported => exact Loop.Told.reported h _
    | reportsSwept => exact h
    | reportsChecked => exact Loop.Told.of_retains h (Loop.retains_checked _)
    | sweptOn => exact h
  | sweeping hm =>
    cases hm with
    | taken _ _ => exact Loop.Told.of_retains h (Loop.retains_of_eq [] rfl rfl (by simp) rfl)
    | skipped _ _ => exact h
    | freed _ found _ => exact Loop.Told.freed h found
    | reported _ found _ => exact Loop.Told.freed h found
    | ended _ _ =>
      dsimp only
      split
      · exact Loop.Told.of_retains h (Loop.retains_checked _)
      · exact h

end View

namespace Machine

variable {m : Machine} {k : LoopId} {l : Loop}

/-- The ids of the rejections of a loop that have been selected for a report and not been reported. -/
def selectedOf (m : Machine) (k : LoopId) : List PromiseId := ((m.turnsOf k).flatMap Frame.reports).map Prod.fst

/-- What is known of the events of a tracker in every run. -/
theorem Reachable.told (h : Reachable m) (hl : m.loop? k = some l) : l.Told (m.selectedOf k) := by
  have kept := h.keepsView hl (P := fun v => v.loop.heap.Wf ∧ v.loop.Told v.selected)
    (fun config tracker bridge => ⟨.empty_heap, Loop.told_new k config tracker bridge⟩)
    fun hm ⟨wf, hv⟩ => ⟨hm.acts.wf wf, hm.told wf hv⟩
  exact kept.2

/-- What the tracker of a loop is told of the promises with an id, whatever it does while it is being told
something:

* there is no more than one report, made or selected, for every record of the id that has been freed and for
  the one that is alive, if it has been selected;
* there is no more than one late handler for each of them, and it is the first one;
* as long as the record is alive, a late handler is told of only when the report has been made or has at least
  been selected.

In a run in which the tracker leaves the loop alone while it is being told something, the report comes first,
and nobody has handled the promise by then. -/
theorem tracker_told_once (hm : Reachable m) (hl : m.loop? k = some l) :
    (∀ id, l.history.countP (Event.reports id) + (m.selectedOf k).count id ≤
      ends id l.history + (l.isMarked id).toNat) ∧
    (∀ id, l.history.countP (Event.tellsLate id) ≤ ends id l.history + (l.isMarkedHandled id).toNat) ∧
    (∀ newer id older, l.history = newer ++ .handledLate id :: older →
      ∃ d f g before, older = .attached id d f g :: before ∧ ¬ Handled id before) ∧
    (∀ id, Within id (Event.tellsLate id) l.history → Reported id l.history ∨ id ∈ m.selectedOf k) ∧
    (CalmlyReachable k m →
      (∀ newer id older, l.history = newer ++ .handledLate id :: older → Reported id older) ∧
      ∀ newer id reason older, l.history = newer ++ .reported id reason :: older → ¬ Handled id older) := by
  have told := hm.told hl
  refine ⟨told.reports, told.late, fun newer id older heq => told.first newer _ older heq id rfl,
    fun id late => told.marked id (told.lateMarked id late), fun calm => ?_⟩
  have made : ReportsKept l.config.trackUnhandledRejections l.history := (calm.trackKept hl).tracked.made
  refine ⟨fun newer id older heq => ?_, fun newer id reason older heq =>
    (made.reports newer _ older heq id reason rfl).2.1⟩
  obtain ⟨d, f, g, before, rfl⟩ := made.preceded newer _ older heq id rfl
  have due := (made.late (newer ++ [.handledLate id]) before id d f g (by simpa using heq)).mp (by simp)
  exact within_cons.mpr ⟨rfl, .inr due.1⟩

/-- A machine whose script has rejected two promises, and registers a handler on the second one when it is
told of the first one. -/
def interrupted : Machine :=
  let act (s : Step) (store : Option String) : Command := .step s store false
  run 40 (((boot {} (.callbacks true) .native).obey
    [act (.promiseReject "main" (.constant (.text "a"))) (some "p"),
      act (.promiseReject "main" (.constant (.text "b"))) (some "q"),
      act (.routine "onUnhandled" [act (.attach .catch_ "main" (.variable "q") none none) none] true)
        (some "onUnhandled"),
      act (.routine "onHandled" [] true) (some "onHandled")]).start (act (.checkpoint "main") none))

theorem reachable_interrupted : Reachable interrupted := .run (.start (.obey (.boot _ _ _) _) (by cbv) _) 40

/-- Without the promise to leave the loop alone, a tracker may be told of a late handler before it is told of
the rejection. -/
theorem late_handler_precedes_report : ¬ ∀ (m : Machine) (k : LoopId) (l : Loop), Reachable m →
    m.loop? k = some l → ∀ newer id older, l.history = newer ++ .handledLate id :: older → Reported id older := by
  intro claim
  obtain ⟨l, hl⟩ := Option.isSome_iff_exists.mp (by cbv : (interrupted.loop? ⟨0⟩).isSome = true)
  have late : (interrupted.loop? ⟨0⟩).map (fun l => l.history[7]?) = some (some (.handledLate ⟨1, 0⟩)) := by
    cbv
  have unreported : (interrupted.loop? ⟨0⟩).map (fun l =>
      (life ⟨1, 0⟩ (l.history.drop 8)).any (Event.reports ⟨1, 0⟩)) = some false := by cbv
  rw [hl] at late unreported
  obtain ⟨bound, late⟩ := List.getElem?_eq_some_iff.mp (Option.some.inj late)
  have split : l.history = l.history.take 7 ++ .handledLate ⟨1, 0⟩ :: l.history.drop 8 := by
    rw [← late, ← List.drop_eq_getElem_cons, List.take_append_drop]
  obtain ⟨e, he, reports⟩ := claim interrupted ⟨0⟩ l reachable_interrupted hl _ _ _ split
  exact List.any_eq_false.mp (Option.some.inj unreported) e he reports

theorem tracker_told_once_interrupted : ∃ l, interrupted.loop? ⟨0⟩ = some l ∧
    rejectionLog l.history =
      [.unhandled ⟨0, 0⟩ (.text "a"), .handled ⟨1, 0⟩, .unhandled ⟨1, 0⟩ (.text "b")] ∧
    l.history.countP (Event.reports ⟨1, 0⟩) + (interrupted.selectedOf ⟨0⟩).count ⟨1, 0⟩ ≤ 1 ∧
    l.history.countP (Event.tellsLate ⟨1, 0⟩) ≤ 1 := by
  obtain ⟨l, hl⟩ := Option.isSome_iff_exists.mp (by cbv : (interrupted.loop? ⟨0⟩).isSome = true)
  have told : (interrupted.loop? ⟨0⟩).map (fun l => (rejectionLog l.history, ends ⟨1, 0⟩ l.history)) =
      some ([.unhandled ⟨0, 0⟩ (.text "a"), .handled ⟨1, 0⟩, .unhandled ⟨1, 0⟩ (.text "b")], 0) := by cbv
  rw [hl] at told
  obtain ⟨told, alive⟩ := Prod.mk.inj (Option.some.inj told)
  obtain ⟨reports, late, -⟩ := tracker_told_once reachable_interrupted hl
  have reports := reports ⟨1, 0⟩
  have late := late ⟨1, 0⟩
  rw [alive] at reports late
  exact ⟨l, hl, told, by have := Bool.toNat_le (l.isMarked ⟨1, 0⟩); omega,
    by have := Bool.toNat_le (l.isMarkedHandled ⟨1, 0⟩); omega⟩

end Machine
end PromiseLoop

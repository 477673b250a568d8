import PromiseLoop.Proofs.Queues
import PromiseLoop.Proofs.Rejections

/-!
# What a tracker is told

The tracker of a loop is told of every report, and of every first handler that comes after one.  A
rejection log records what it is told, in that order.  A loop that does not track rejections tells
nothing.

## Results

* `Loop.Act.logs`: a rejection log records exactly what the history tells.
* `View.Move.untold`: without tracking nothing is told.
* `Machine.rejections_reported_once`: which reports are made in a calm run, and when.
-/

namespace PromiseLoop

open Relation

-- ---------------------------------------------------------------------------
-- Rejection logs
-- ---------------------------------------------------------------------------

/-- What a rejection log records of an event. -/
def Event.logged? : Event → Option RejectionEvent
  | .reported id reason => some (.unhandled id reason)
  | .handledLate id => some (.handled id)
  | _ => none

/-- What a rejection log records of a history, oldest first. -/
def rejectionLog (history : List Event) : List RejectionEvent :=
  (history.filterMap Event.logged?).reverse

theorem rejectionLog_append (newer older : List Event) :
    rejectionLog (newer ++ older) = rejectionLog older ++ rejectionLog newer := by
  simp [rejectionLog]

theorem rejectionLog_of_silent {newer : List Event} (h : ∀ e ∈ newer, e.isSilent = true) :
    rejectionLog newer = [] := by
  refine List.reverse_eq_nil_iff.mpr (List.filterMap_eq_nil_iff.mpr fun e he => ?_)
  have := h e he
  cases e <;> first | rfl | exact absurd this (by simp [Event.isSilent])

namespace Loop

variable {l l' : Loop}

/-- Whatever a loop adds to its history, its log records. -/
structure Logs (l l' : Loop) : Prop where
  config : l'.config = l.config
  tracker : l'.tracker = l.tracker
  log : l.tracker = .log → l.log = rejectionLog l.history → l'.log = rejectionLog l'.history

/-- What a loop adds to its history and to its log. -/
theorem logs_of_newer (newer : List Event) (config : l'.config = l.config)
    (tracker : l'.tracker = l.tracker) (history : l'.history = newer ++ l.history)
    (log : l.tracker = .log → l'.log = l.log ++ rejectionLog newer) : Logs l l' where
  config := config
  tracker := tracker
  log ht hl := by rw [log ht, history, rejectionLog_append, hl]

theorem Chore.logs (h : l.Chore l') : l.Logs l' := by
  cases h with
  | silent newer _ _ _ log config tracker history silent =>
    exact logs_of_newer newer config tracker history fun _ => by
      rw [log, rejectionLog_of_silent silent, List.append_nil]
  | created => exact logs_of_newer [] rfl rfl rfl fun _ => (List.append_nil _).symm
  | attempted h =>
    obtain ⟨r, -, -, rfl⟩ := lock_eq_ok.mp h
    exact logs_of_newer [_] rfl rfl rfl fun _ => (List.append_nil _).symm
  | settled id s v =>
    rcases settle_cases l id s v with h | ⟨r, -, -, -, h⟩
    · rw [h]
      exact logs_of_newer [] rfl rfl rfl fun _ => (List.append_nil _).symm
    · rw [h]
      refine logs_of_newer (_ ++ [.settled id s v]) rfl rfl (by rw [List.append_assoc]; rfl) fun _ => ?_
      have unlogged : rejectionLog (((r.released s).fire.map
          fun y => Event.queued (.reaction y v)).reverse ++ [.settled id s v]) = [] := by
        simp [rejectionLog, Event.logged?, List.filterMap_map, Function.comp_def]
      rw [unlogged, List.append_nil]

theorem Deed.logs (h : l.Deed l') : l.Logs l' := by
  cases h with
  | chore h => exact h.logs
  | selected =>
    obtain ⟨heap, heq, -, -⟩ := takeReports_spec l
    rw [heq]
    exact logs_of_newer [] rfl rfl rfl fun _ => (List.append_nil _).symm
  | reported id reason =>
    rw [report_eq]
    exact logs_of_newer [.reported id reason] rfl rfl rfl fun ht => if_pos ht
  | @freed _ id r h =>
    obtain ⟨-, rfl⟩ := free?_eq_some.mp h
    split
    · rw [report_eq]
      exact logs_of_newer [.freed id r, .reported id r.reason] rfl rfl rfl fun ht => if_pos ht
    · exact logs_of_newer [.freed id r] rfl rfl rfl fun _ => (List.append_nil _).symm
  | checked => exact logs_of_newer [.checked] rfl rfl rfl fun _ => (List.append_nil _).symm

/-- A rejection log records exactly what the history tells. -/
theorem Act.logs (h : l.Act l') (wf : l.heap.Wf) : l.Logs l' := by
  cases h with
  | deed h => exact h.logs
  | @attached p f g _ h =>
    obtain ⟨r, -, rfl⟩ := (attach_eq_ok wf).mp h
    refine logs_of_newer (_ ++ [.attached p.id l.newPromise.1 f g]) rfl rfl
      (by rw [List.append_assoc]; rfl) fun ht => ?_
    show (if handledLate r && l.tracker = .log then l.log ++ [.handled p.id] else l.log) = _
    cases handledLate r <;> simp [ht, rejectionLog, Event.logged?]
  | ended derived job =>
    refine logs_of_newer (.returned derived :: (job.map Event.queued).toList) ?_ ?_
      (history_endAttach l derived job) fun _ => ?_
    · cases job <;> rfl
    · cases job <;> rfl
    · cases job <;> simp [endAttach, note, enqueue, rejectionLog, Event.logged?]

theorem Acts.logs (h : l.Acts l') (wf : l.heap.Wf) : l.Logs l' := by
  induction h with
  | refl => exact ⟨rfl, rfl, fun _ hl => hl⟩
  | @tail a b hs h ih =>
    have next := h.logs (Acts.wf hs wf)
    exact ⟨next.config.trans ih.config, next.tracker.trans ih.tracker,
      fun ht hl => next.log (ih.tracker ▸ ht) (ih.log ht hl)⟩

end Loop

-- ---------------------------------------------------------------------------
-- Loops that do not track rejections
-- ---------------------------------------------------------------------------

/-- The reports that a frame has still to make. -/
def Frame.reports : Frame → List (PromiseId × Value)
  | .reporting _ reports => reports
  | _ => []

namespace View

/-- Nothing has been told, and nothing is going to be. -/
structure Untold (v : View) : Prop where
  unmarked : ∀ id r, v.loop.heap.get? id = some r → r.rejectionReported = false
  undue : ∀ f ∈ v.turns, f.reports = []
  silent : rejectionLog v.loop.history = []

variable {v v' : View}

theorem Untold.of_retains (h : v.Untold) (hr : v.loop.Retains v'.loop) (turns : ∀ f ∈ v'.turns,
    f ∈ v.turns ∨ f.reports = []) : v'.Untold where
  unmarked k r hk := by
    have before := h.unmarked k
    have same := hr.records k
    rw [hk] at same
    generalize v.loop.heap.get? k = o at same before
    cases same with
    | created _ reported => exact reported
    | kept _ reported _ => exact reported.trans (before _ rfl)
  undue f hf := (turns f hf).elim (h.undue f) fun hf => hf
  silent := by
    obtain ⟨newer, history, untracked⟩ := hr.history
    rw [history, rejectionLog_append, h.silent, List.nil_append]
    refine List.reverse_eq_nil_iff.mpr (List.filterMap_eq_nil_iff.mpr fun e he => ?_)
    have := untracked e he
    cases e <;> first | rfl | cases this

/-- Where nothing has been marked, no handler comes late. -/
theorem Untold.registered (h : v.Untold) (wf : v.loop.heap.Wf) {p : Promise} {f g : Option Value}
    {r : Record} (hr : v.loop.heap.get? p.id = some r) :
    View.Untold ⟨v.loop.registered p f g r, v.turns, v.sweep⟩ := by
  have unmarked := h.unmarked p.id r hr
  have prompt : Loop.handledLate r = false := by simp [Loop.handledLate, unmarked]
  refine ⟨fun k x hx => ?_, h.undue, ?_⟩
  · have found := Loop.get?_registered (f := f) (g := g) wf hr k
    rw [found] at hx
    split at hx
    · rw [← Option.some.inj hx, Record.rejectionReported_registered, unmarked]
    · rcases Heap.get?_allocate wf .pending k with hc | ⟨-, -, hc⟩
      · exact h.unmarked k x (hc.symm.trans hx)
      · rw [← Option.some.inj (hc.symm.trans hx)]
        rfl
  · show rejectionLog ((if Loop.handledLate r then [.handledLate p.id] else []) ++ _) = []
    rw [prompt]
    exact h.silent

/-- Where a record is freed without a report, nothing is told. -/
theorem Untold.freed (h : v.Untold) {id : PromiseId} {r : Record}
    (found : v.loop.free? id = some (r, v'.loop)) (quiet : v.loop.reportsOnFree r = false)
    (turns : ∀ f ∈ v'.turns, f ∈ v.turns ∨ f.reports = []) : v'.Untold where
  unmarked k x hx := by
    rw [Loop.heap_free? found, Heap.get?_vacated_of_get? (Loop.free?_eq_some.mp found).1] at hx
    split at hx
    · cases hx
    · exact h.unmarked k x hx
  undue f hf := (turns f hf).elim (h.undue f) fun hf => hf
  silent := by
    rw [Loop.history_free? found, quiet]
    exact h.silent

/-- Without tracking nothing is told. -/
theorem Move.untold (hm : v.Move v') (wf : v.loop.heap.Wf)
    (off : v.loop.config.trackUnhandledRejections = false) (h : v.Untold) : v'.Untold := by
  cases hm with
  | plain hm =>
    have turns : ∀ f ∈ v'.turns, f ∈ v.turns ∨ f.reports = [] := by
      cases hm with
      | light hm =>
        cases hm with
        | outside _ => exact fun f hf => .inl hf
        | called _ => exact fun f hf => .inl hf
        | drainBegun _ => exact List.forall_mem_cons.mpr ⟨.inr rfl, fun f hf => .inl hf⟩
      | taken _ => exact fun f hf => .inl hf
      | drainEnded _ => exact fun f hf => .inl (List.mem_cons_of_mem _ hf)
      | drainBroken => exact fun f hf => .inl (List.mem_cons_of_mem _ hf)
    rcases hm.chores.2 with hc | ⟨p, f, g, a, ha, -, heq⟩
    · exact h.of_retains (Loop.Chores.retains hc wf) turns
    · obtain ⟨r, hr, rfl⟩ := (Loop.attach_eq_ok wf).mp ha
      obtain ⟨-, hr⟩ := Loop.record_eq_ok.mp hr
      refine (h.registered (f := f) (g := g) wf hr).of_retains ?_ turns
      rw [heq]
      exact Loop.retains_endAttach _ _ _
  | final hm =>
    cases hm with
    | attachedLate ha late =>
      obtain ⟨r, hr, rfl⟩ := (Loop.attach_eq_ok wf).mp ha
      obtain ⟨-, hr⟩ := Loop.record_eq_ok.mp hr
      have late : Loop.handledLate r = true := late
      simp [Loop.handledLate, h.unmarked _ r hr] at late
    | selected l turns =>
      obtain ⟨heap, heq, sel, quiet⟩ := Loop.takeReports_spec l
      have nothing : l.takeReports.1 = [] := quiet off
      refine ⟨fun k r hk => ?_, List.forall_mem_cons.mpr ⟨nothing, h.undue⟩, ?_⟩
      · rw [heq] at hk
        have found := sel.find k
        rw [nothing, show heap.get? k = some r from hk] at found
        obtain ⟨x, hx, hr⟩ := Option.map_eq_some_iff.mp found.symm
        rw [← hr]
        exact h.unmarked k x hx
      · rw [heq]
        exact h.silent
    | swept l turns => exact ⟨h.unmarked, h.undue, h.silent⟩
  | resume hm =>
    have rest : ∀ f ∈ v.turns.tail, f ∈ v.turns ∨ f.reports = [] :=
      fun f hf => .inl (List.mem_of_mem_tail hf)
    cases hm with
    | attachEnded => exact h.of_retains (Loop.retains_endAttach _ _ _) rest
    | reported => cases (List.forall_mem_cons.mp h.undue).1
    | reportsSwept => exact h.of_retains (.refl _) rest
    | reportsChecked => exact h.of_retains (Loop.retains_checked _) rest
    | sweptOn => exact h.of_retains (.refl _) rest
  | sweeping hm =>
    cases hm with
    | taken _ _ => exact ⟨h.unmarked, h.undue, h.silent⟩
    | skipped _ _ => exact ⟨h.unmarked, h.undue, h.silent⟩
    | freed _ found quiet => exact h.freed found quiet fun f hf => .inl hf
    | reported _ found reports =>
      cases off.symm.trans (Bool.and_eq_true_iff.mp reports).1
    | ended _ _ =>
      refine h.of_retains ?_ fun f hf => .inl hf
      dsimp only
      split
      · exact Loop.retains_checked _
      · exact .refl _

end View

namespace Machine

variable {m : Machine} {k : LoopId} {l : Loop}

/-- What a rejection log records in every run. -/
theorem Reachable.log_eq (h : Reachable m) (hl : m.loop? k = some l) (ht : l.tracker = .log) :
    l.log = rejectionLog l.history := by
  obtain ⟨config, tracker, bridge, acts⟩ := h.acts hl
  have logs := acts.logs .empty_heap
  exact logs.log (logs.tracker ▸ ht) rfl

/-- Without tracking nothing is told in any run. -/
theorem Reachable.untold (h : Reachable m) (hl : m.loop? k = some l)
    (off : l.config.trackUnhandledRejections = false) :
    View.Untold ⟨l, m.turnsOf k, m.sweepOf k⟩ := by
  have fresh (config : Config) (tracker : Tracker) (bridge : Bridge) :
      (View.fresh k config tracker bridge).Untold :=
    ⟨fun id r hr => by simp [View.fresh] at hr, by simp [View.fresh], rfl⟩
  have kept := h.keepsView hl
    (P := fun v => v.loop.heap.Wf ∧ (v.loop.config.trackUnhandledRejections = false → v.Untold))
    (fun config tracker bridge => ⟨.empty_heap, fun _ => fresh config tracker bridge⟩)
    fun hm kept => ⟨hm.acts.wf kept.1, fun off => by
      rw [(hm.acts.logs kept.1).config] at off
      exact hm.untold kept.1 off (kept.2 off)⟩
  exact kept.2 off

-- ---------------------------------------------------------------------------
-- The end of a checkpoint
-- ---------------------------------------------------------------------------

/-- The next step ends a checkpoint of a loop without a fault: after its last report, or with the
collection that belongs to it. -/
def EndsCheckpoint (m : Machine) (k : LoopId) : Prop :=
  m.step.control = .signal .done ∧
    ((∃ s rest, m.control = .signal s ∧ m.stack = .reporting k [] :: rest ∧ m.step.stack = rest) ∨
      ∃ s, m.control = .collect k s ∧ s.closes = true ∧ m.step.stack = m.stack)

theorem above_tellUnhandled (m : Machine) (loop : LoopId) (id : PromiseId) (reason : Value) :
    Above m (m.tellUnhandled loop id reason) := by
  unfold tellUnhandled
  split
  · exact above_of_eq (by simp)
  · unfold callback
    split
    · exact above_push m _
    · exact above_of_eq rfl
  · exact above_of_eq rfl

/-- When a checkpoint comes to its end, the loop notes it. -/
theorem checked_of_endCheckpoint (hl : (m.endCheckpoint k).loop? k = some l) :
    ∃ older, l.history = .checked :: older := by
  have hl : (m.modifyLoop k fun l => l.note .checked).loop? k = some l := hl
  rw [loop?_modifyLoop_self] at hl
  obtain ⟨x, -, rfl⟩ := Option.map_eq_some_iff.mp hl
  exact ⟨x.history, rfl⟩

/-- A collection goes on until no release is left. -/
theorem checked_of_collectNext {s : Sweep} (closes : s.closes = true)
    (kept : (m.collectNext k s).stack = m.stack)
    (done : (m.collectNext k s).control = .signal .done)
    (hl : (m.collectNext k s).loop? k = some l) : ∃ older, l.history = .checked :: older := by
  have ends : m.endCollection k s = m.endCheckpoint k := if_pos closes
  unfold collectNext at kept done hl
  cases hp : s.pending with
  | nil =>
    simp only [hp] at done hl
    split at hl
    · exact checked_of_endCheckpoint (ends ▸ hl)
    · exact checked_of_endCheckpoint (ends ▸ hl)
    · rename_i hr
      simp only [hr] at done
      cases done
  | cons id rest =>
    simp only [hp] at kept done
    split at done
    · cases done
    · rename_i r l' hf
      simp only [hf] at kept
      split at done
      · -- the tracker is told first
        rename_i reports
        rw [if_pos reports] at kept
        have above := above_tellUnhandled ((((m.setLoop l').push (.collecting k
          { s with pending := rest, count := s.count + 1 } r)).push (.hold [r.reason])).signal .done)
          k id r.reason
        rw [Above, kept] at above
        have longer := above.length_le
        simp only [push, signal, setLoop, modifyLoop, List.length_cons] at longer
        omega
      · rw [control_drop] at done
        cases done

theorem checked_of_step (h : m.EndsCheckpoint k) (hl : m.step.loop? k = some l) :
    ∃ older, l.history = .checked :: older := by
  obtain ⟨done, ⟨s, rest, hc, hs, popped⟩ | ⟨s, hc, closes, kept⟩⟩ := h
  · unfold step at popped done hl
    cases ho : m.orphan? with
    | some x =>
      simp only [ho, removeLoop, stack_drop, hs] at popped
      exact absurd popped (List.cons_ne_self _ _)
    | none =>
      simp only [ho, hc, hs, resume, resumeReporting] at done hl
      unfold finishCheckpoint at done hl
      split at hl
      · rename_i hn
        have hl : (drop s.held _).loop? k = some l := hl
        rw [hn] at hl
        cases hl
      · rename_i x hx
        simp only [hx] at done
        split at hl
        · rename_i collects
          rw [if_pos collects] at done
          cases done
        · exact checked_of_endCheckpoint hl
  · unfold step at kept done hl
    cases ho : m.orphan? with
    | some x => simp [ho, removeLoop, hc] at done
    | none =>
      simp only [ho, hc] at kept done hl
      exact checked_of_collectNext closes kept done hl

-- ---------------------------------------------------------------------------
-- Reports of a run
-- ---------------------------------------------------------------------------

/-- **Unhandled rejections are reported once, and none is forgotten.**  A rejection log records exactly
the reports of the history, and where rejections are not tracked there are none.  Where they are, and
the tracker leaves the loop alone, at every moment of a run:

* a report is the first one in the life of its record, which nobody has handled by then, and gives the
  reason that the promise was rejected with;
* a record that was rejected and never handled has been reported when it is freed;
* when a checkpoint has ended without a fault, no record that is alive waits for a report;
* a late handler is reported exactly if the first handlers in the life of a record are registered after
  its rejection has been reported, and right then. -/
theorem rejections_reported_once (h : Reachable m) (hl : m.loop? k = some l) :
    (l.tracker = .log → l.log = rejectionLog l.history) ∧
    (l.config.trackUnhandledRejections = false → rejectionLog l.history = []) ∧
    (l.config.trackUnhandledRejections = true → CalmlyReachable k m →
      (∀ newer id reason older, l.history = newer ++ .reported id reason :: older →
        ¬ Reported id older ∧ ¬ Handled id older ∧
          settlement? id (ends id older) older = some (.rejected, reason)) ∧
      (∀ newer id r older, l.history = newer ++ .freed id r :: older →
        r.state = .rejected → ¬ Handled id older → Reported id older) ∧
      (∀ n : Machine, n.EndsCheckpoint k → n.step = m →
        ∀ id r, l.heap.get? id = some r → r.awaitsReport = false) ∧
      (∀ newer id derived f g older, l.history = newer ++ .attached id derived f g :: older →
        (newer.getLast? = some (.handledLate id) ↔ Reported id older ∧ ¬ Handled id older)) ∧
      (∀ newer id older, l.history = newer ++ .handledLate id :: older →
        ∃ derived f g before, older = .attached id derived f g :: before)) := by
  refine ⟨h.log_eq hl, fun off => (h.untold hl off).silent, fun tracking calm => ?_⟩
  have kept := calm.trackKept hl
  have made : ReportsKept l.config.trackUnhandledRejections l.history := kept.tracked.made
  refine ⟨fun newer id reason older heq => made.reports newer _ older heq id reason rfl,
    fun newer id r older heq => made.gone tracking newer _ older heq id r rfl,
    fun n ends heq id r hr => ?_, fun newer id d f g older heq => made.late newer older id d f g heq,
    fun newer id older heq => made.preceded newer _ older heq id rfl⟩
  rw [← heq] at hl
  obtain ⟨older, checked⟩ := checked_of_step ends hl
  have emptied : l.awaiting = [] := kept.checked older checked
  cases ha : r.awaitsReport with
  | false => rfl
  | true =>
    have mem := kept.tracked.waits tracking id r hr ha
    rw [show (View.mk l (m.turnsOf k) (m.sweepOf k)).loop.awaiting = [] from emptied] at mem
    cases mem

/-- A machine whose script has rejected a promise that nobody handles, before the last step of the
checkpoint that follows. -/
def unheard : Machine :=
  let created := run 9 ((boot {} .log .native).start (.step (.newPromise "main") (some "p") false))
  let rejected := run 9 (created.start
    (.step (.reject "main" (.variable "p") (.constant .null)) none false))
  run 5 (rejected.start (.step (.checkpoint "main") none false))

theorem calmlyReachable_unheard : CalmlyReachable ⟨0⟩ unheard :=
  .run (.start (.run (.start (.run (.start (.boot _ _ _) (by cbv) _ (by cbv)) 9 (by cbv)) (by cbv) _
    (by cbv)) 9 (by cbv)) (by cbv) _ (by cbv)) 5 (by cbv)

theorem rejections_reported_once_unheard :
    ∃ l, unheard.step.loop? ⟨0⟩ = some l ∧ l.log = [.unhandled ⟨0, 0⟩ .null] ∧
      ∀ id r, l.heap.get? id = some r → r.awaitsReport = false := by
  obtain ⟨l, hl⟩ := Option.isSome_iff_exists.mp (by cbv : (unheard.step.loop? ⟨0⟩).isSome = true)
  have tracker : (unheard.step.loop? ⟨0⟩).map Loop.tracker = some .log := by cbv
  have tracks : (unheard.step.loop? ⟨0⟩).map (fun l => l.config.trackUnhandledRejections) =
      some true := by cbv
  have told : (unheard.step.loop? ⟨0⟩).map (fun l => rejectionLog l.history) =
      some [.unhandled ⟨0, 0⟩ .null] := by cbv
  rw [hl] at tracker tracks told
  have calm : CalmlyReachable ⟨0⟩ unheard.step :=
    calmlyReachable_unheard.next (.step _) (aside_step_of_isCalm (by cbv))
  have ends : unheard.EndsCheckpoint ⟨0⟩ :=
    ⟨by cbv, .inr ⟨{ closes := true }, by cbv, rfl, by cbv⟩⟩
  obtain ⟨log, -, reports⟩ := rejections_reported_once calm.reachable hl
  obtain ⟨-, -, checked, -⟩ := reports (Option.some.inj tracks) calm
  exact ⟨l, hl, (log (Option.some.inj tracker)).trans (Option.some.inj told), checked unheard ends rfl⟩

end Machine
end PromiseLoop

import PromiseLoop.Proofs.Reactions
import PromiseLoop.Proofs.Views.Calm

/-!
# Unhandled rejections are reported once

A rejection that nobody handles when its promise is settled is put on a list.  The next checkpoint
marks the rejections on the list that are still unhandled and reports them one by one; a record that
is freed earlier is reported when it is freed.  The first handler that comes after the report is
reported as well.  All this holds as long as the tracker leaves the loop alone while it is being told:
then nothing can happen to a rejection between its mark and its report.

## Results

* `View.CalmMove.trackKept`: what every move in a calm run keeps.
* `Machine.CalmlyReachable.trackKept`: what is known of reports in calm runs.
-/

namespace PromiseLoop

open Relation

-- ---------------------------------------------------------------------------
-- What a history says about reports
-- ---------------------------------------------------------------------------

namespace Event

/-- Whether an event registers handlers on a record of an id. -/
def handles (id : PromiseId) : Event → Bool
  | .attached i _ _ _ => i = id
  | _ => false

/-- Whether an event reports the rejection of a record of an id. -/
def reports (id : PromiseId) : Event → Bool
  | .reported i _ => i = id
  | _ => false

/-- Whether an event has to do with reports. -/
def isTracked : Event → Bool
  | .attached .. | .reported .. | .handledLate _ | .freed .. => true
  | _ => false

theorem isTracked_of_isSilent {e : Event} (h : e.isSilent = true) : e.isTracked = false := by
  cases e <;> first | rfl | exact absurd h (by simp [isSilent])

variable {e : Event} (h : e.isTracked = false) (id : PromiseId)
include h

theorem frees_of_not_isTracked : e.frees id = false := by
  cases e <;> first | rfl | cases h

theorem handles_of_not_isTracked : e.handles id = false := by
  cases e <;> first | rfl | cases h

theorem reports_of_not_isTracked : e.reports id = false := by
  cases e <;> first | rfl | cases h

end Event

/-- Whether something has happened in the present life of a record. -/
def Within (id : PromiseId) (P : Event → Bool) (history : List Event) : Prop :=
  ∃ e ∈ life id history, P e = true

/-- Whether handlers have been registered in the present life of a record. -/
def Handled (id : PromiseId) (history : List Event) : Prop := Within id (Event.handles id) history

/-- Whether a rejection has been reported in the present life of a record. -/
def Reported (id : PromiseId) (history : List Event) : Prop := Within id (Event.reports id) history

section

variable {id : PromiseId} {P : Event → Bool} {e : Event} {newer history : List Event}

theorem within_cons : Within id P (e :: history) ↔
    e.frees id = false ∧ (P e = true ∨ Within id P history) := by
  unfold Within
  rw [life_cons]
  cases e.frees id <;> simp

theorem within_append (h : ∀ e ∈ newer, e.frees id = false ∧ P e = false) :
    Within id P (newer ++ history) ↔ Within id P history := by
  induction newer with
  | nil => rfl
  | cons e newer ih =>
    rw [List.forall_mem_cons] at h
    rw [List.cons_append, within_cons, ih h.2, h.1.1, h.1.2]
    simp

theorem handled_append (h : ∀ e ∈ newer, e.isTracked = false) :
    Handled id (newer ++ history) ↔ Handled id history :=
  within_append fun e he =>
    ⟨Event.frees_of_not_isTracked (h e he) id, Event.handles_of_not_isTracked (h e he) id⟩

theorem reported_append (h : ∀ e ∈ newer, e.isTracked = false) :
    Reported id (newer ++ history) ↔ Reported id history :=
  within_append fun e he =>
    ⟨Event.frees_of_not_isTracked (h e he) id, Event.reports_of_not_isTracked (h e he) id⟩

end

/-- A registration is followed by the report of a late handler exactly if it is the first one in the
life of its record and comes after a report of its rejection. -/
def LateKept (history : List Event) : Prop :=
  ∀ newer older id d f g, history = newer ++ .attached id d f g :: older →
    (newer.getLast? = some (.handledLate id) ↔ Reported id older ∧ ¬ Handled id older)

theorem LateKept.cons {e : Event} {history : List Event} (h : LateKept history)
    (late : ∀ id, e ≠ .handledLate id)
    (attached : ∀ id d f g, e = .attached id d f g → ¬ (Reported id history ∧ ¬ Handled id history)) :
    LateKept (e :: history) := by
  intro newer older id d f g heq
  cases newer with
  | nil =>
    obtain ⟨rfl, rfl⟩ := List.cons.inj heq
    simpa using attached id d f g rfl
  | cons x newer =>
    obtain ⟨rfl, rfl⟩ := List.cons.inj heq
    have before := h newer older id d f g rfl
    cases newer with
    | nil =>
      rw [← before]
      simpa using late id
    | cons y newer => rwa [List.getLast?_cons_cons]

theorem LateKept.append {newer history : List Event} (h : LateKept history)
    (untracked : ∀ e ∈ newer, e.isTracked = false) : LateKept (newer ++ history) := by
  induction newer with
  | nil => exact h
  | cons e newer ih =>
    rw [List.forall_mem_cons] at untracked
    refine (ih untracked.2).cons (fun id he => ?_) fun id d f g he => ?_
    · rw [he] at untracked
      cases untracked.1
    · rw [he] at untracked
      cases untracked.1

theorem LateKept.late {history : List Event} (h : LateKept history) {id : PromiseId} {d : Promise}
    {f g : Option Value} (due : Reported id history ∧ ¬ Handled id history) :
    LateKept (.handledLate id :: .attached id d f g :: history) := by
  intro newer older i d' f' g' heq
  cases newer with
  | nil => cases heq
  | cons x newer =>
    obtain ⟨rfl, rest⟩ := List.cons.inj heq
    cases newer with
    | nil =>
      obtain ⟨he, rfl⟩ := List.cons.inj rest
      obtain ⟨rfl, -, -, -⟩ := Event.attached.inj he
      simpa using due
    | cons y newer =>
      obtain ⟨rfl, rfl⟩ := List.cons.inj rest
      have before := h newer older i d' f' g' rfl
      rw [← before]
      cases newer with
      | nil => simp
      | cons z newer => rw [List.getLast?_cons_cons, List.getLast?_cons_cons]

/-- What a history says about the reports that have been made. -/
structure ReportsKept (tracking : Bool) (history : List Event) : Prop where
  /-- A report is the first one of a rejection that nobody handles, and gives its reason. -/
  reports : EveryEvent (fun e older => ∀ id reason, e = .reported id reason →
    ¬ Reported id older ∧ ¬ Handled id older ∧
      settlement? id (ends id older) older = some (.rejected, reason)) history
  /-- A rejection that nobody has handled has been reported when its record is freed. -/
  gone : tracking = true → EveryEvent (fun e older => ∀ id r, e = .freed id r →
    r.state = .rejected → ¬ Handled id older → Reported id older) history
  late : LateKept history
  /-- The report of a late handler follows a registration. -/
  preceded : EveryEvent (fun e older => ∀ id, e = .handledLate id →
    ∃ d f g older', older = .attached id d f g :: older') history

namespace ReportsKept

variable {tracking : Bool} {history : List Event}

theorem append {newer : List Event} (h : ReportsKept tracking history)
    (untracked : ∀ e ∈ newer, e.isTracked = false) : ReportsKept tracking (newer ++ history) where
  reports := h.reports.append fun e he older id reason heq => by
    rw [heq] at he
    exact nomatch untracked _ he
  gone ht := (h.gone ht).append fun e he older id r heq => by
    rw [heq] at he
    exact nomatch untracked _ he
  late := h.late.append untracked
  preceded := h.preceded.append fun e he older id heq => by
    rw [heq] at he
    exact nomatch untracked _ he

theorem reported (h : ReportsKept tracking history) {id : PromiseId} {reason : Value}
    (unreported : ¬ Reported id history) (unhandled : ¬ Handled id history)
    (settlement : settlement? id (ends id history) history = some (.rejected, reason)) :
    ReportsKept tracking (.reported id reason :: history) where
  reports := everyEvent_cons.mpr ⟨fun i v he => by
    obtain ⟨rfl, rfl⟩ := Event.reported.inj he
    exact ⟨unreported, unhandled, settlement⟩, h.reports⟩
  gone ht := everyEvent_cons.mpr ⟨fun _ _ he => (nomatch he), h.gone ht⟩
  late := h.late.cons (fun _ he => (nomatch he)) fun _ _ _ _ he => (nomatch he)
  preceded := everyEvent_cons.mpr ⟨fun _ he => (nomatch he), h.preceded⟩

theorem freed (h : ReportsKept tracking history) {id : PromiseId} {r : Record}
    (told : tracking = true → r.state = .rejected → ¬ Handled id history → Reported id history) :
    ReportsKept tracking (.freed id r :: history) where
  reports := everyEvent_cons.mpr ⟨fun _ _ he => (nomatch he), h.reports⟩
  gone ht := everyEvent_cons.mpr ⟨fun i x he => by
    obtain ⟨rfl, rfl⟩ := Event.freed.inj he
    exact told ht, h.gone ht⟩
  late := h.late.cons (fun _ he => (nomatch he)) fun _ _ _ _ he => (nomatch he)
  preceded := everyEvent_cons.mpr ⟨fun _ he => (nomatch he), h.preceded⟩

/-- A registration, with the report of a late handler if it is one. -/
theorem attached (h : ReportsKept tracking history) {id : PromiseId} {late : Bool}
    (hlate : late = true ↔ Reported id history ∧ ¬ Handled id history) (d : Promise)
    (f g : Option Value) : ReportsKept tracking
      ((if late then [.handledLate id] else []) ++ .attached id d f g :: history) := by
  have begun : EveryEvent (fun e older => ∀ id, e = .handledLate id →
      ∃ d f g older', older = .attached id d f g :: older') (.attached id d f g :: history) :=
    everyEvent_cons.mpr ⟨fun _ he => (nomatch he), h.preceded⟩
  cases late with
  | false =>
    refine ⟨everyEvent_cons.mpr ⟨fun _ _ he => (nomatch he), h.reports⟩,
      fun ht => everyEvent_cons.mpr ⟨fun _ _ he => (nomatch he), h.gone ht⟩,
      h.late.cons (fun _ he => (nomatch he)) fun i d' f' g' he => ?_, begun⟩
    obtain ⟨rfl, -⟩ := Event.attached.inj he
    exact fun due => nomatch hlate.mpr due
  | true =>
    refine ⟨everyEvent_cons.mpr ⟨fun _ _ he => (nomatch he),
        everyEvent_cons.mpr ⟨fun _ _ he => (nomatch he), h.reports⟩⟩,
      fun ht => everyEvent_cons.mpr ⟨fun _ _ he => (nomatch he),
        everyEvent_cons.mpr ⟨fun _ _ he => (nomatch he), h.gone ht⟩⟩,
      h.late.late (hlate.mp rfl), everyEvent_cons.mpr ⟨fun i he => ?_, begun⟩⟩
    obtain rfl := Event.handledLate.inj he
    exact ⟨d, f, g, history, rfl⟩

end ReportsKept

-- ---------------------------------------------------------------------------
-- What calm runs keep
-- ---------------------------------------------------------------------------

/-- How a record may change without any registration or report. -/
inductive Retained : Option Record → Option Record → Prop
  | absent : Retained none none
  | created {r : Record} (handled : r.isHandled = false) (reported : r.rejectionReported = false) :
      Retained none (some r)
  | kept {r r' : Record} (handled : r'.isHandled = r.isHandled)
      (reported : r'.rejectionReported = r.rejectionReported)
      (settled : r.state ≠ .pending → r'.state = r.state ∧ r'.value = r.value) :
      Retained (some r) (some r')

theorem Retained.refl (o : Option Record) : Retained o o := by
  cases o with
  | none => exact .absent
  | some r => exact .kept rfl rfl fun _ => ⟨rfl, rfl⟩

theorem Retained.trans {o o' o'' : Option Record} (h : Retained o o') (h' : Retained o' o'') :
    Retained o o'' := by
  cases h with
  | absent => exact h'
  | created handled reported =>
    cases h' with
    | kept handled' reported' _ =>
      exact .created (handled'.trans handled) (reported'.trans reported)
  | kept handled reported settled =>
    cases h' with
    | kept handled' reported' settled' =>
      refine .kept (handled'.trans handled) (reported'.trans reported) fun hs => ?_
      obtain ⟨state, value⟩ := settled hs
      obtain ⟨state', value'⟩ := settled' (state ▸ hs)
      exact ⟨state'.trans state, value'.trans value⟩

namespace Loop

variable {l l' : Loop} {due : List (PromiseId × Value)}

/-- Changes without any registration or report. -/
structure Retains (l l' : Loop) : Prop where
  records : ∀ k, Retained (l.heap.get? k) (l'.heap.get? k)
  history : ∃ newer, l'.history = newer ++ l.history ∧ ∀ e ∈ newer, e.isTracked = false
  config : l'.config = l.config

/-- Changes of anything else than records and what is told of them. -/
theorem retains_of_eq (newer : List Event) (heap : l'.heap = l.heap)
    (history : l'.history = newer ++ l.history) (untracked : ∀ e ∈ newer, e.isTracked = false)
    (config : l'.config = l.config) : l.Retains l' :=
  ⟨fun _ => heap ▸ .refl _, ⟨newer, history, untracked⟩, config⟩

theorem Chore.retains (h : l.Chore l') (wf : l.heap.Wf) : l.Retains l' := by
  cases h with
  | silent newer heap _ _ _ config _ history silent =>
    exact retains_of_eq newer heap history
      (fun e he => Event.isTracked_of_isSilent (silent e he)) config
  | created =>
    refine ⟨fun k => ?_, ⟨[], rfl, by simp⟩, rfl⟩
    show Retained _ ((l.heap.allocate .pending).2.get? k)
    rcases Heap.get?_allocate wf .pending k with h | ⟨-, h, h'⟩
    · rw [h]
      exact .refl _
    · rw [h, h']
      exact .created rfl rfl
  | attempted h =>
    rename_i p accepted
    obtain ⟨r, hr, -, rfl⟩ := lock_eq_ok.mp h
    obtain ⟨-, hr⟩ := record_eq_ok.mp hr
    refine ⟨fun k => ?_, ⟨[.attempted p.id accepted], rfl, by simp [Event.isTracked]⟩, rfl⟩
    show Retained _ ((l.heap.modify p.id _).get? k)
    rw [Heap.get?_modify_ite]
    split
    · rename_i hk
      rw [hk, hr]
      exact .kept rfl rfl fun _ => ⟨rfl, rfl⟩
    · exact .refl _
  | settled id s v =>
    rcases settle_cases l id s v with h | ⟨r, hr, hp, -, h⟩
    · rw [h]
      exact retains_of_eq [] rfl rfl (by simp) rfl
    · rw [h]
      refine ⟨fun k => ?_, ⟨_ ++ [.settled id s v], by rw [List.append_assoc]; rfl, fun e he => ?_⟩, rfl⟩
      · show Retained _ ((l.heap.modify id _).get? k)
        rw [Heap.get?_modify_ite]
        split
        · rename_i hk
          rw [hk, hr]
          exact .kept rfl rfl fun hne => absurd hp hne
        · exact .refl _
      · rcases List.mem_append.mp he with he | he
        · obtain ⟨y, -, rfl⟩ := List.mem_map.mp (List.mem_reverse.mp he)
          rfl
        · rw [List.mem_singleton.mp he]
          rfl

theorem Retains.refl (l : Loop) : l.Retains l := retains_of_eq [] rfl rfl (by simp) rfl

theorem Retains.trans {l'' : Loop} (h : l.Retains l') (h' : l'.Retains l'') : l.Retains l'' where
  records k := (h.records k).trans (h'.records k)
  history := by
    obtain ⟨newer, history, untracked⟩ := h.history
    obtain ⟨newer', history', untracked'⟩ := h'.history
    refine ⟨newer' ++ newer, by rw [history', history, List.append_assoc], fun e he => ?_⟩
    rcases List.mem_append.mp he with he | he
    · exact untracked' e he
    · exact untracked e he
  config := h'.config.trans h.config

theorem Chores.retains (h : l.Chores l') (wf : l.heap.Wf) : l.Retains l' := by
  induction h with
  | refl => exact .refl l
  | tail hs h ih => exact ih.trans (h.retains (Acts.wf (Deeds.acts (Chores.deeds hs)) wf))

theorem retains_endAttach (l : Loop) (derived : Promise) (job : Option Job) :
    l.Retains (l.endAttach derived job) := by
  refine retains_of_eq (.returned derived :: (job.map Event.queued).toList) (heap_endAttach ..)
    (history_endAttach ..) (fun e he => ?_) (by cases job <;> rfl)
  rcases List.mem_cons.mp he with rfl | he
  · rfl
  · obtain ⟨j, -, rfl⟩ := Option.map_eq_some_iff.mp (Option.mem_toList.mp he)
    rfl

theorem retains_checked (l : Loop) : l.Retains (l.note .checked) :=
  retains_of_eq [.checked] rfl rfl (by simp [Event.isTracked]) rfl

/-- No rejection that has to be reported is forgotten. -/
def Waits (l : Loop) : Prop := l.config.trackUnhandledRejections = true →
  ∀ id r, l.heap.get? id = some r → r.awaitsReport = true → id ∈ l.awaiting

/-- A promise is handled exactly if handlers have been registered on it. -/
def HandledKept (l : Loop) : Prop :=
  ∀ id, (l.heap.get? id).any Record.isHandled = true ↔ Handled id l.history

theorem HandledKept.of_retains (h : l.HandledKept) (hr : l.Retains l') : l'.HandledKept := by
  obtain ⟨retained, ⟨newer, history, untracked⟩, -⟩ := hr
  intro k
  rw [history, handled_append untracked, ← h]
  have same := retained k
  generalize l.heap.get? k = o, l'.heap.get? k = o' at same
  cases same with
  | absent => rfl
  | created handled _ => simp [handled]
  | kept handled _ _ => simp [handled]

/-- What a registration adds to the history. -/
theorem history_registered (l : Loop) (p : Promise) (f g : Option Value) (r : Record) :
    (l.registered p f g r).history = (if handledLate r then [.handledLate p.id] else []) ++
      .attached p.id l.newPromise.1 f g :: l.history :=
  rfl

theorem HandledKept.registered (h : l.HandledKept) (wf : l.heap.Wf) {p : Promise} {f g : Option Value}
    {r : Record} (hr : l.heap.get? p.id = some r) : (l.registered p f g r).HandledKept := by
  intro k
  have handled : Handled k (l.registered p f g r).history ↔ k = p.id ∨ Handled k l.history := by
    rw [history_registered]
    unfold Handled
    split <;> simp [within_cons, Event.frees, Event.handles, eq_comm]
  rw [get?_registered wf hr, handled]
  split
  · rename_i hk
    simp [hk]
  · rename_i hk
    rw [← h]
    rcases Heap.get?_allocate wf .pending k with hc | ⟨-, hn, hc⟩
    · rw [hc]
      simp [hk]
    · rw [hc, hn]
      simp [hk, Record.pending]

/-- Nothing has happened in the life of a record that has just been freed. -/
theorem not_within_free? {id : PromiseId} {r : Record} (hf : l.free? id = some (r, l')) (P : Event → Bool) :
    ¬ Within id P l'.history := by
  rw [history_free? hf]
  simp [within_cons, Event.frees]

theorem get?_free? {id : PromiseId} {r : Record} (hf : l.free? id = some (r, l')) (k : PromiseId) :
    l'.heap.get? k = if k = id then none else l.heap.get? k := by
  rw [heap_free? hf, Heap.get?_vacated_of_get? (free?_eq_some.mp hf).1]

theorem HandledKept.freed (h : l.HandledKept) {id : PromiseId} {r : Record}
    (hf : l.free? id = some (r, l')) : l'.HandledKept := by
  intro k
  rw [get?_free? hf]
  split
  · rename_i hk
    rw [hk]
    exact iff_of_false (by simp) (not_within_free? hf _)
  · rename_i hk
    have same : Handled k l'.history ↔ Handled k l.history := by
      rw [history_free? hf]
      unfold Handled
      split <;> simp [within_cons, Event.frees, Event.handles, Ne.symm hk]
    rw [same, h]

/-- A checkpoint handles nothing. -/
theorem HandledKept.selects (h : l.HandledKept) : l.takeReports.2.HandledKept := by
  obtain ⟨heap, heq, sel, -⟩ := takeReports_spec l
  intro k
  rw [heq]
  refine Iff.trans ?_ (h k)
  show (heap.get? k).any Record.isHandled = true ↔ _
  rw [sel.find]
  cases l.heap.get? k with
  | none => rfl
  | some r => simp only [Option.map_some, Option.any_some]; split <;> rfl

theorem HandledKept.reported (h : l.HandledKept) (id : PromiseId) (reason : Value) :
    (l.report id reason).HandledKept := by
  rw [report_eq]
  intro k
  rw [h k]
  unfold Handled
  simp [within_cons, Event.frees, Event.handles]

/-- What is known of reports, where those in `due` have been marked and not been made. -/
structure Tracked (l : Loop) (due : List (PromiseId × Value)) : Prop where
  handled : ∀ id, (l.heap.get? id).any Record.isHandled = true ↔ Handled id l.history
  marked : ∀ id, (l.heap.get? id).any Record.rejectionReported = true ↔
    Reported id l.history ∨ id ∈ due.map Prod.fst
  rejected : ∀ id r, l.heap.get? id = some r → r.rejectionReported = true → r.state = .rejected
  /-- Reports that are due are those of rejections that nobody handles. -/
  listed : ∀ x ∈ due, ¬ Reported x.1 l.history ∧
    ∃ r, l.heap.get? x.1 = some r ∧ r.state = .rejected ∧ r.isHandled = false ∧ r.reason = x.2
  listedOnce : (due.map Prod.fst).Nodup
  waits : l.Waits
  made : ReportsKept l.config.trackUnhandledRejections l.history

theorem tracked_new (id : LoopId) (config : Config) (tracker : Tracker) (bridge : Bridge) :
    Tracked { id, config, tracker, bridge } [] where
  handled k := by simp [Handled, Within, life]
  marked k := by simp [Reported, Within, life]
  rejected k r hr := by simp at hr
  listed := by simp
  listedOnce := List.nodup_nil
  waits _ k r hr := by simp at hr
  made := ⟨everyEvent_nil _, fun _ => everyEvent_nil _, fun newer older k d f g heq => by simp at heq,
    everyEvent_nil _⟩

theorem Tracked.of_retains (h : l.Tracked due) (hr : l.Retains l') (waits : l'.Waits) :
    l'.Tracked due := by
  have handled : l'.HandledKept := HandledKept.of_retains h.handled hr
  obtain ⟨retained, ⟨newer, history, untracked⟩, config⟩ := hr
  refine ⟨handled, fun k => ?_, fun k r hr marked => ?_, fun x hx => ?_, h.listedOnce, waits, ?_⟩
  · rw [history, reported_append untracked, ← h.marked]
    have same := retained k
    generalize l.heap.get? k = o, l'.heap.get? k = o' at same
    cases same with
    | absent => rfl
    | created _ reported => simp [reported]
    | kept _ reported _ => simp [reported]
  · have before := h.rejected k
    have same := retained k
    rw [hr] at same
    generalize l.heap.get? k = o at same before
    cases same with
    | created _ reported =>
      rw [reported] at marked
      cases marked
    | kept _ reported settled =>
      have rejected := before _ rfl (reported ▸ marked)
      rw [(settled (by rw [rejected]; exact State.noConfusion)).1, rejected]
  · obtain ⟨unreported, r, hr, hs, hh, hreason⟩ := h.listed x hx
    rw [history, reported_append untracked]
    have same := retained x.1
    rw [hr] at same
    generalize l'.heap.get? x.1 = o' at same
    cases same with
    | @kept _ r' handled _ settled =>
      have hs' := settled (by rw [hs]; exact State.noConfusion)
      exact ⟨unreported, r', rfl, hs'.1.trans hs, handled.trans hh,
        by rw [← hreason, Record.reason, Record.reason, hs'.2]⟩
  · rw [history, config]
    exact h.made.append untracked

/-- A rejection is unhandled and unreported exactly if it waits for a report. -/
theorem awaitsReport_iff (r : Record) : r.awaitsReport = true ↔
    r.state = .rejected ∧ r.isHandled = false ∧ r.rejectionReported = false := by
  simp [Record.awaitsReport, and_assoc]

theorem Chore.waits (h : l.Chore l') (wf : l.heap.Wf) (hl : l.Waits) : l'.Waits := by
  cases h with
  | silent newer heap _ awaiting _ config _ history silent =>
    intro tracking k r hr ha
    rw [heap] at hr
    rw [awaiting]
    exact hl (config ▸ tracking) k r hr ha
  | created =>
    intro tracking k r hr ha
    rcases Heap.get?_allocate wf .pending k with h | ⟨-, -, h⟩
    · exact hl tracking k r (h.symm.trans hr) ha
    · -- a new promise waits for nothing
      rw [← Option.some.inj (h.symm.trans hr)] at ha
      cases ha
  | attempted h =>
    rename_i p accepted
    obtain ⟨r, -, -, rfl⟩ := lock_eq_ok.mp h
    intro tracking k x hx ha
    have hx : (l.heap.modify p.id _).get? k = some x := hx
    rw [Heap.get?_modify_ite] at hx
    split at hx
    · obtain ⟨y, hy, rfl⟩ := Option.map_eq_some_iff.mp hx
      exact hl tracking k y hy ha
    · exact hl tracking k x hx ha
  | settled id s v =>
    rcases settle_cases l id s v with h | ⟨r, hr, -, -, h⟩
    · rw [h]
      exact hl
    · rw [h]
      intro tracking k x hx ha
      have tracking : l.config.trackUnhandledRejections = true := tracking
      show k ∈ if l.awaitsAfter r s then l.awaiting ++ [id] else l.awaiting
      have hx : (l.heap.modify id _).get? k = some x := hx
      rw [Heap.get?_modify_ite] at hx
      split at hx
      · -- the record that has just been settled
        rename_i hk
        rw [hk, hr] at hx
        rw [← Option.some.inj hx] at ha
        have awaits : l.awaitsAfter r s = true := by
          obtain ⟨hs, hh, -⟩ := (awaitsReport_iff (r.settled s v)).mp ha
          have hs : s = .rejected := hs
          have hh : r.isHandled = false := hh
          simp [awaitsAfter, tracking, hs, hh]
        simp [awaits, hk]
      · have mem := hl tracking k x hx ha
        split
        · exact List.mem_append_left _ mem
        · exact mem

theorem Chores.waits (h : l.Chores l') (wf : l.heap.Wf) (hl : l.Waits) : l'.Waits := by
  induction h with
  | refl => exact hl
  | tail hs h ih => exact h.waits (Acts.wf (Deeds.acts (Chores.deeds hs)) wf) ih

theorem Chores.tracked (h : l.Chores l') (wf : l.heap.Wf) (hl : l.Tracked due) : l'.Tracked due :=
  hl.of_retains (Chores.retains h wf) (Chores.waits h wf hl.waits)

/-- The end of a registration has nothing to do with reports. -/
theorem Tracked.endAttach (h : l.Tracked due) (derived : Promise) (job : Option Job) :
    (l.endAttach derived job).Tracked due :=
  h.of_retains (retains_endAttach l derived job) (by cases job <;> exact h.waits)

/-- Where no report is due, a record is marked exactly if its rejection has been reported. -/
theorem Tracked.handledLate_iff (h : l.Tracked []) {id : PromiseId} {r : Record}
    (hr : l.heap.get? id = some r) :
    Loop.handledLate r = true ↔ Reported id l.history ∧ ¬ Handled id l.history := by
  have handled := h.handled id
  have marked := h.marked id
  have rejected := h.rejected id r hr
  rw [hr] at handled marked
  simp only [Option.any_some, List.map_nil, List.not_mem_nil, or_false] at handled marked
  rw [← handled, ← marked]
  constructor
  · intro hl
    simp only [Loop.handledLate, Bool.and_eq_true, Bool.not_eq_true'] at hl
    exact ⟨hl.2, by simp [hl.1.2]⟩
  · rintro ⟨hm, hh⟩
    simp [Loop.handledLate, hm, hh, rejected hm]

/-- Registering handlers while no report is due. -/
theorem Tracked.registered (h : l.Tracked []) (wf : l.heap.Wf) {p : Promise} {f g : Option Value}
    {r : Record} (hr : l.heap.get? p.id = some r) : (l.registered p f g r).Tracked [] := by
  have found (k : PromiseId) := get?_registered (f := f) (g := g) wf hr k
  have created (k : PromiseId) := Heap.get?_allocate wf .pending k
  have late := h.handledLate_iff hr
  have history := l.history_registered p f g r
  have reported (k : PromiseId) :
      Reported k (l.registered p f g r).history ↔ Reported k l.history := by
    rw [history]
    unfold Reported
    split <;> simp [within_cons, Event.frees, Event.reports]
  refine ⟨HandledKept.registered h.handled wf hr, fun k => ?_, fun k x hx hm => ?_, by simp, List.nodup_nil,
    fun tracking k x hx ha => ?_, ?_⟩
  · rw [found, reported, ← h.marked]
    split
    · rename_i hk
      simp [hk, hr]
    · rcases created k with hc | ⟨-, hn, hc⟩
      · rw [hc]
      · rw [hc, hn]
        simp [Record.pending]
  · rw [found] at hx
    split at hx
    · rw [← Option.some.inj hx] at hm ⊢
      rw [Record.rejectionReported_registered] at hm
      rw [Record.state_registered]
      exact h.rejected p.id r hr hm
    · rcases created k with hc | ⟨-, -, hc⟩
      · exact h.rejected k x (hc.symm.trans hx) hm
      · rw [← Option.some.inj (hc.symm.trans hx)] at hm
        cases hm
  · rw [found] at hx
    split at hx
    · -- the promise is handled from now on
      rw [← Option.some.inj hx] at ha
      simp [Record.awaitsReport] at ha
    · rcases created k with hc | ⟨-, -, hc⟩
      · exact h.waits tracking k x (hc.symm.trans hx) ha
      · rw [← Option.some.inj (hc.symm.trans hx)] at ha
        cases ha
  · rw [history]
    exact h.made.attached late l.newPromise.1 f g

/-- A checkpoint marks the rejections that it is going to report. -/
theorem Tracked.selected (h : l.Tracked []) : l.takeReports.2.Tracked l.takeReports.1 := by
  have handled : l.takeReports.2.HandledKept := HandledKept.selects h.handled
  obtain ⟨heap, heq, sel, -⟩ := takeReports_spec l
  rw [heq] at handled ⊢
  have found (k : PromiseId) (r : Record) (hr : heap.get? k = some r) : ∃ x,
      l.heap.get? k = some x ∧ r.state = x.state ∧ r.isHandled = x.isHandled ∧
        (r.rejectionReported = true ↔
          k ∈ l.takeReports.1.map Prod.fst ∨ x.rejectionReported = true) := by
    rw [sel.find] at hr
    obtain ⟨x, hx, rfl⟩ := Option.map_eq_some_iff.mp hr
    refine ⟨x, hx, ?_⟩
    split
    · rename_i hk
      exact ⟨rfl, rfl, by simp [hk]⟩
    · rename_i hk
      exact ⟨rfl, rfl, by simp [hk]⟩
  refine ⟨handled, fun k => ?_, fun k r hr hm => ?_, fun e he => ?_, sel.nodup,
    fun tracking k r hr ha => ?_, h.made⟩
  · have marked := h.marked k
    simp only [List.map_nil, List.not_mem_nil, or_false] at marked
    rw [← marked, sel.find]
    cases hx : l.heap.get? k with
    | none =>
      have absent : k ∉ l.takeReports.1.map Prod.fst := fun hk => by
        obtain ⟨e, he, rfl⟩ := List.mem_map.mp hk
        obtain ⟨r, hr, -⟩ := sel.awaited e he
        rw [hx] at hr
        cases hr
      simpa using absent
    | some r =>
      simp only [Option.map_some, Option.any_some]
      split
      · rename_i hk
        simp [hk]
      · rename_i hk
        simp [hk]
  · obtain ⟨x, hx, hs, -, hmark⟩ := found k r hr
    rw [hs]
    rcases hmark.mp hm with hk | hm
    · obtain ⟨e, he, rfl⟩ := List.mem_map.mp hk
      obtain ⟨y, hy, ha, -⟩ := sel.awaited e he
      rw [Option.some.inj (hx.symm.trans hy)]
      exact ((awaitsReport_iff y).mp ha).1
    · exact h.rejected k x hx hm
  · obtain ⟨r, hr, ha, hreason⟩ := sel.awaited e he
    obtain ⟨hs, hh, hm⟩ := (awaitsReport_iff r).mp ha
    have marked := h.marked e.1
    rw [hr] at marked
    refine ⟨fun hrep => ?_, ?_⟩
    · have := marked.mpr (.inl hrep)
      simp [hm] at this
    · refine ⟨_, by rw [sel.find, hr]; rfl, ?_⟩
      split
      · exact ⟨hs, hh, hreason.symm⟩
      · exact ⟨hs, hh, hreason.symm⟩
  · -- whatever waited for a report was on the list, and has been marked
    obtain ⟨x, hx, hs, hh, hmark⟩ := found k r hr
    obtain ⟨hrs, hrh, hrm⟩ := (awaitsReport_iff r).mp ha
    have unmarked : ¬ (k ∈ l.takeReports.1.map Prod.fst ∨ x.rejectionReported = true) := fun hm => by
      rw [hmark.mpr hm] at hrm
      cases hrm
    have awaits : x.awaitsReport = true := (awaitsReport_iff x).mpr
      ⟨hs ▸ hrs, hh ▸ hrh, by simpa using fun hm => unmarked (.inr hm)⟩
    have mem := h.waits tracking k x hx awaits
    have tracking : l.config.trackUnhandledRejections = true := tracking
    rw [if_pos tracking] at sel
    exact absurd (.inl (sel.complete k mem x hx awaits)) unmarked

/-- A rejection that may be reported: what the record says agrees with the history. -/
theorem Tracked.reportable (h : l.Tracked due) {id : PromiseId} {r : Record}
    (recorded : Recorded id l.history (l.heap.get? id)) (hr : l.heap.get? id = some r)
    (hs : r.state = .rejected) (hh : r.isHandled = false) :
    ¬ Handled id l.history ∧
      settlement? id (ends id l.history) l.history = some (.rejected, r.reason) := by
  have handled := h.handled id
  rw [hr] at handled recorded
  refine ⟨fun hc => ?_, ?_⟩
  · have := handled.mpr hc
    simp [hh] at this
  · rw [recorded.settlement?, if_neg (by rw [hs]; exact State.noConfusion), hs]

/-- A report that is due is made. -/
theorem Tracked.reported {id : PromiseId} {reason : Value} {rest : List (PromiseId × Value)}
    (h : l.Tracked ((id, reason) :: rest)) (recorded : Recorded id l.history (l.heap.get? id)) :
    (l.report id reason).Tracked rest := by
  have handled : (l.report id reason).HandledKept := HandledKept.reported h.handled id reason
  rw [report_eq] at handled ⊢
  obtain ⟨unreported, r, hr, hs, hh, rfl⟩ := h.listed _ (List.mem_cons_self ..)
  obtain ⟨unhandled, settlement⟩ := h.reportable recorded hr hs hh
  have once := List.nodup_cons.mp h.listedOnce
  have told (k : PromiseId) :
      Reported k (.reported id r.reason :: l.history) ↔ k = id ∨ Reported k l.history := by
    unfold Reported
    simp [within_cons, Event.frees, Event.reports, eq_comm]
  refine ⟨handled, fun k => ?_, h.rejected, fun x hx => ?_, once.2, h.waits,
    h.made.reported unreported unhandled settlement⟩
  · rw [h.marked, told, List.map_cons, List.mem_cons]
    exact ⟨by rintro (h | h | h) <;> simp [h], by rintro ((h | h) | h) <;> simp [h]⟩
  · have before := h.listed x (List.mem_cons_of_mem _ hx)
    refine ⟨fun hrep => ?_, before.2⟩
    rcases (told x.1).mp hrep with hid | hrep
    · have mem : x.1 ∈ rest.map Prod.fst := List.mem_map_of_mem hx
      exact once.1 (hid ▸ mem)
    · exact before.1 hrep

/-- When a record is freed, its rejection has been reported, unless it has been handled. -/
theorem Tracked.made_freed (h : l.Tracked []) {id : PromiseId} {r : Record}
    (recorded : Recorded id l.history (l.heap.get? id)) (hr : l.heap.get? id = some r) :
    ReportsKept l.config.trackUnhandledRejections (.freed id r ::
      ((if l.reportsOnFree r then [.reported id r.reason] else []) ++ l.history)) := by
  have marked := h.marked id
  have handled := h.handled id
  rw [hr] at marked handled
  simp only [Option.any_some, List.map_nil, List.not_mem_nil, or_false] at marked handled
  cases hrep : l.reportsOnFree r with
  | true =>
    obtain ⟨hs, hh, hm⟩ := (awaitsReport_iff r).mp (Bool.and_eq_true_iff.mp hrep).2
    obtain ⟨unhandled, settlement⟩ := h.reportable recorded hr hs hh
    have unreported : ¬ Reported id l.history := fun hc => by
      rw [marked.mpr hc] at hm
      cases hm
    refine (h.made.reported unreported unhandled settlement).freed fun _ _ _ => ?_
    exact within_cons.mpr ⟨rfl, .inl (by simp [Event.reports])⟩
  | false =>
    -- a rejection that nobody handles and that is not reported now has been reported before
    refine h.made.freed fun tracking hs hh => marked.mp ?_
    have unhandled : r.isHandled = false := by simpa using fun hc => hh (handled.mp hc)
    simpa [reportsOnFree, tracking, Record.awaitsReport, hs, unhandled] using hrep

theorem kept_free? {id : PromiseId} {r : Record} (h : l.free? id = some (r, l')) :
    l'.config = l.config ∧ l'.awaiting = l.awaiting := by
  obtain ⟨-, rfl⟩ := free?_eq_some.mp h
  split
  · rw [report_eq]
    exact ⟨rfl, rfl⟩
  · exact ⟨rfl, rfl⟩

/-- Freeing a record reports a rejection that has not been reported, and ends its life. -/
theorem Tracked.freed (h : l.Tracked []) {id : PromiseId} {r : Record}
    (recorded : Recorded id l.history (l.heap.get? id)) (hf : l.free? id = some (r, l')) :
    l'.Tracked [] := by
  have hr := (free?_eq_some.mp hf).1
  have heap := get?_free? hf
  have kept := kept_free? hf
  have reported (k : PromiseId) (hk : k ≠ id) : Reported k l'.history ↔ Reported k l.history := by
    rw [history_free? hf]
    unfold Reported
    split <;> simp [within_cons, Event.frees, Event.reports, Ne.symm hk]
  refine ⟨HandledKept.freed h.handled hf, fun k => ?_, fun k x hx hm => ?_, by simp, List.nodup_nil,
    fun tracking k x hx ha => ?_, ?_⟩
  · rw [heap]
    split
    · rename_i hk
      rw [hk]
      have unreported : ¬ Reported id l'.history := not_within_free? hf _
      exact iff_of_false (by simp) (by simpa using unreported)
    · rename_i hk
      rw [reported k hk, h.marked]
  · rw [heap] at hx
    split at hx
    · cases hx
    · exact h.rejected k x hx hm
  · rw [heap] at hx
    split at hx
    · cases hx
    · rw [kept.2]
      exact h.waits (kept.1 ▸ tracking) k x hx ha
  · rw [kept.1, history_free? hf]
    exact h.made_freed recorded hr

/-- When a checkpoint has just ended, no promise is on the list of rejections. -/
def CheckedKept (l : Loop) : Prop := ∀ older, l.history = .checked :: older → l.awaiting = []

/-- After other events it does not matter. -/
theorem checkedKept_of_newer {newer : List Event} (history : l'.history = newer ++ l.history)
    (some_new : newer ≠ []) (unchecked : ∀ e ∈ newer, e ≠ .checked) : l'.CheckedKept := by
  intro older heq
  obtain ⟨e, newer, rfl⟩ := List.exists_cons_of_ne_nil some_new
  rw [history] at heq
  exact absurd (List.cons.inj heq).1 (unchecked e (List.mem_cons_self ..))

theorem CheckedKept.of_eq (h : l.CheckedKept) (history : l'.history = l.history)
    (awaiting : l'.awaiting = l.awaiting) : l'.CheckedKept := by
  intro older heq
  rw [awaiting]
  exact h older (history ▸ heq)

theorem Chore.checkedKept (h : l.Chore l') (hl : l.CheckedKept) : l'.CheckedKept := by
  cases h with
  | silent newer _ _ awaiting _ _ _ history silent =>
    cases newer with
    | nil => exact hl.of_eq history awaiting
    | cons e newer =>
      refine checkedKept_of_newer history (List.cons_ne_nil _ _) fun x hx hc => ?_
      have := silent x hx
      rw [hc] at this
      cases this
  | created => exact hl.of_eq rfl rfl
  | attempted h =>
    obtain ⟨r, -, -, rfl⟩ := lock_eq_ok.mp h
    exact fun older heq => nomatch (List.cons.inj heq).1
  | settled id s v =>
    rcases settle_cases l id s v with h | ⟨r, -, -, -, h⟩
    · rw [h]
      exact hl
    · rw [h]
      refine checkedKept_of_newer
        (show _ = (_ ++ [.settled id s v]) ++ _ by rw [List.append_assoc]; rfl)
        (by simp) fun e he hc => ?_
      rcases List.mem_append.mp he with he | he
      · obtain ⟨y, -, rfl⟩ := List.mem_map.mp (List.mem_reverse.mp he)
        cases hc
      · rw [List.mem_singleton.mp he] at hc
        cases hc

/-- The end of a record is not that of a checkpoint. -/
theorem checkedKept_freed {id : PromiseId} {r : Record} (h : l.free? id = some (r, l')) :
    l'.CheckedKept := by
  intro older heq
  rw [history_free? h] at heq
  exact nomatch (List.cons.inj heq).1

theorem Chores.checkedKept (h : l.Chores l') (hl : l.CheckedKept) : l'.CheckedKept := by
  induction h with
  | refl => exact hl
  | tail _ h ih => exact h.checkedKept ih

theorem Outside.awaiting (h : l.Outside l') : l'.awaiting = l.awaiting := by
  cases h with
  | released id => rfl
  | posted r => rfl
  | workerReleased =>
    unfold releaseWorker
    split <;> rfl

end Loop

/-- Whether a frame belongs to a checkpoint that has selected its reports. -/
def Frame.closes : Frame → Bool
  | .reporting .. => true
  | .collecting _ s _ => s.closes
  | _ => false

namespace View

/-- The reports that a checkpoint has selected and not made. -/
def due (v : View) : List (PromiseId × Value) :=
  match v.turns with
  | .reporting _ reports :: _ => reports
  | _ => []

/-- Whether a checkpoint is under way that has selected its reports. -/
def isClosing (v : View) : Bool := v.sweep.any Sweep.closes || v.turns.head?.any Frame.closes

/-- What is known of reports in a calm run. -/
structure TrackKept (v : View) : Prop where
  tracked : v.loop.Tracked v.due
  closing : v.isClosing = true → v.loop.awaiting = []
  checked : v.loop.CheckedKept

variable {v v' : View}

/-- While the tracker is not being told anything, no report is due. -/
theorem Silent.due (h : v.Silent) : v.due = [] := by
  obtain ⟨l, turns, sweep⟩ := v
  cases turns with
  | nil => rfl
  | cons f rest =>
    have hf := h f (List.mem_cons_self ..)
    cases f <;> first | rfl | cases hf

theorem Silent.isClosing (h : v.Silent) : v.isClosing = v.sweep.any Sweep.closes := by
  obtain ⟨l, turns, sweep⟩ := v
  cases turns with
  | nil => exact Bool.or_false _
  | cons f rest =>
    have hf := h f (List.mem_cons_self ..)
    cases f <;> first | exact Bool.or_false _ | cases hf

/-- Whatever happens while nothing is due and no collection is under way. -/
theorem trackKept_of_silent (h : v.Silent) (idle : v.sweep = none) (tracked : v.loop.Tracked [])
    (checked : v.loop.CheckedKept) : v.TrackKept where
  tracked := by rw [h.due]; exact tracked
  closing hc := by
    rw [h.isClosing, idle] at hc
    cases hc
  checked := checked

/-- While a collection is under way, plain moves only touch the loop from outside. -/
theorem Plain.outside_or_idle (h : v.Plain v') :
    (v.loop.Outside v'.loop ∧ v'.turns = v.turns ∧ v'.sweep = v.sweep) ∨ v'.sweep = none := by
  cases h with
  | light h =>
    cases h with
    | outside h => exact .inl ⟨h, rfl, rfl⟩
    | _ => exact .inr rfl
  | _ => exact .inr rfl

theorem TrackKept.of_outside (h : v.TrackKept) (wf : v.loop.heap.Wf)
    (ho : v.loop.Outside v'.loop) (turns : v'.turns = v.turns) (sweep : v'.sweep = v.sweep) :
    v'.TrackKept where
  tracked := by
    rw [due, turns]
    exact h.tracked.of_retains (ho.chore.retains wf) (ho.chore.waits wf h.tracked.waits)
  closing hc := by
    rw [isClosing, turns, sweep] at hc
    rw [ho.awaiting]
    exact h.closing hc
  checked := ho.chore.checkedKept h.checked

theorem Plain.trackKept (hm : v.Plain v') (silent : v.Silent) (wf : v.loop.heap.Wf)
    (h : v.TrackKept) : v'.TrackKept := by
  rcases hm.outside_or_idle with ⟨ho, turns, sweep⟩ | idle
  · exact h.of_outside wf ho turns sweep
  · have tracked := h.tracked
    rw [silent.due] at tracked
    rcases hm.chores.2 with hc | ⟨p, f, g, a, ha, -, heq⟩
    · exact trackKept_of_silent (hm.silent silent) idle (Loop.Chores.tracked hc wf tracked)
        (Loop.Chores.checkedKept hc h.checked)
    · obtain ⟨r, hr, rfl⟩ := (Loop.attach_eq_ok wf).mp ha
      obtain ⟨-, hr⟩ := Loop.record_eq_ok.mp hr
      refine trackKept_of_silent (hm.silent silent) idle ?_ ?_
      · rw [heq]
        exact (tracked.registered wf hr).endAttach _ _
      · rw [heq]
        exact fun older hn => nomatch (List.cons.inj ((Loop.history_endAttach ..).symm.trans hn)).1

/-- Before the tracker is told of a late handler, and while a checkpoint selects its reports. -/
theorem Final.trackKept (hm : v.Final v') (silent : v.Silent) (wf : v.loop.heap.Wf)
    (h : v.TrackKept) : v'.TrackKept := by
  have tracked := h.tracked
  rw [silent.due] at tracked
  cases hm with
  | attachedLate ha late =>
    obtain ⟨r, hr, rfl⟩ := (Loop.attach_eq_ok wf).mp ha
    obtain ⟨-, hr⟩ := Loop.record_eq_ok.mp hr
    refine ⟨tracked.registered wf hr, fun hc => (nomatch hc), ?_⟩
    have late : Loop.handledLate r = true := late
    intro older hn
    have history := hn
    simp only [Loop.registered, late, if_true] at history
    cases history
  | selected l turns =>
    obtain ⟨heap, heq, -, -⟩ := Loop.takeReports_spec l
    have emptied : l.takeReports.2.awaiting = [] := by rw [heq]
    exact ⟨tracked.selected, fun _ => emptied, fun _ _ => emptied⟩
  | swept l turns =>
    have silent : View.Silent ⟨l, turns, some { closes := false }⟩ := silent
    refine ⟨h.tracked, fun hc => ?_, h.checked⟩
    rw [silent.isClosing] at hc
    cases hc

/-- When the tracker has been told of a report, the report has been made. -/
theorem Resume.trackKept (hm : v.Resume v') (silent : ∀ f ∈ v.turns.tail, f.isTelling = false)
    (recorded : ∀ id, Recorded id v.loop.history (v.loop.heap.get? id)) (h : v.TrackKept) :
    v'.TrackKept := by
  cases hm with
  | @attachEnded l turns derived job =>
    have silent : View.Silent ⟨l.endAttach derived job, turns, none⟩ := silent
    refine trackKept_of_silent silent rfl (h.tracked.endAttach _ _) fun older hn => ?_
    exact nomatch (List.cons.inj ((Loop.history_endAttach ..).symm.trans hn)).1
  | @reported l turns id reason rest =>
    have reported := h.tracked.reported (recorded id)
    refine ⟨reported, fun hc => ?_, fun older hn => ?_⟩
    · rw [Loop.report_eq]
      exact h.closing hc
    · rw [Loop.report_eq] at hn
      exact nomatch (List.cons.inj hn).1
  | @reportsSwept l turns =>
    have silent : View.Silent ⟨l, turns, some { closes := true }⟩ := silent
    refine ⟨by rw [silent.due]; exact h.tracked, fun _ => h.closing rfl, h.checked⟩
  | @reportsChecked l turns =>
    have silent : View.Silent ⟨l.note .checked, turns, none⟩ := silent
    refine trackKept_of_silent silent rfl ?_ fun _ _ => h.closing rfl
    exact h.tracked.of_retains l.retains_checked h.tracked.waits
  | @sweptOn l turns s r =>
    have silent : View.Silent ⟨l, turns, some s⟩ := silent
    refine ⟨by rw [silent.due]; exact h.tracked, fun hc => h.closing ?_, h.checked⟩
    rw [silent.isClosing] at hc
    simpa [isClosing, Frame.closes] using hc

theorem Sweeping.trackKept (hm : v.Sweeping v') (silent : v.Silent) (wf : v.loop.heap.Wf)
    (recorded : ∀ id, Recorded id v.loop.history (v.loop.heap.get? id)) (h : v.TrackKept) :
    v'.TrackKept := by
  have tracked := h.tracked
  rw [silent.due] at tracked
  cases hm with
  | @taken l turns s hs more =>
    have silent : View.Silent ⟨l.takeReleases.2, turns, some { s with pending := l.releases }⟩ :=
      silent
    have chore : l.Chore l.takeReleases.2 := Loop.chore_of_eq rfl rfl rfl rfl rfl rfl rfl
    refine ⟨?_, fun hc => ?_, chore.checkedKept h.checked⟩
    · rw [silent.due]
      exact tracked.of_retains (chore.retains wf) tracked.waits
    · rw [silent.isClosing] at hc
      exact h.closing (by simpa [isClosing] using Or.inl hc)
  | @skipped l turns s id rest hs stale =>
    have silent : View.Silent ⟨l, turns, some { s with pending := rest }⟩ := silent
    refine ⟨h.tracked, fun hc => ?_, h.checked⟩
    rw [silent.isClosing] at hc
    exact h.closing (by simpa [isClosing] using Or.inl hc)
  | @freed l l' turns s id rest r hs found quiet =>
    have silent : View.Silent ⟨l', turns, some { s with pending := rest, count := s.count + 1 }⟩ :=
      silent
    refine ⟨?_, fun hc => ?_, Loop.checkedKept_freed found⟩
    · rw [silent.due]
      exact tracked.freed (recorded id) found
    · rw [silent.isClosing] at hc
      rw [(Loop.kept_free? found).2]
      exact h.closing (by simpa [isClosing] using Or.inl hc)
  | @reported l l' turns s id rest r hs found reports =>
    refine ⟨tracked.freed (recorded id) found, fun hc => ?_, Loop.checkedKept_freed found⟩
    have closes : s.closes = true := by simpa [isClosing, Frame.closes] using hc
    rw [(Loop.kept_free? found).2]
    exact h.closing (by simp [isClosing, closes])
  | @ended l turns s hs empty =>
    have silent : View.Silent ⟨if s.closes then l.note .checked else l, turns, none⟩ := silent
    cases hc : s.closes with
    | false =>
      rw [hc] at silent
      exact trackKept_of_silent silent rfl tracked h.checked
    | true =>
      rw [hc] at silent
      refine trackKept_of_silent silent rfl ?_ fun _ _ => h.closing (by simp [isClosing, hc])
      exact tracked.of_retains l.retains_checked tracked.waits

/-- Every calm move keeps what is known of reports. -/
theorem CalmMove.trackKept (hm : v.CalmMove v') (wf : v.loop.heap.Wf)
    (recorded : ∀ id, Recorded id v.loop.history (v.loop.heap.get? id)) (h : v.TrackKept) :
    v'.TrackKept := by
  cases hm with
  | outside ho => exact h.of_outside wf ho rfl rfl
  | plain hm silent => exact hm.trackKept silent wf h
  | final hm silent => exact hm.trackKept silent wf h
  | resume hm silent => exact hm.trackKept silent recorded h
  | sweeping hm silent => exact hm.trackKept silent wf recorded h

theorem trackKept_fresh (id : LoopId) (config : Config) (tracker : Tracker) (bridge : Bridge) :
    (fresh id config tracker bridge).TrackKept where
  tracked := Loop.tracked_new id config tracker bridge
  closing hc := nomatch hc
  checked _ heq := nomatch heq

end View

/-- What is known of reports in every calm run. -/
theorem Machine.CalmlyReachable.trackKept {m : Machine} {k : LoopId} {l : Loop}
    (h : CalmlyReachable k m) (hl : m.loop? k = some l) :
    View.TrackKept ⟨l, m.turnsOf k, m.sweepOf k⟩ := by
  have kept := h.keepsView hl
    (P := fun v => (v.loop.heap.Wf ∧ v.loop.ReactionsKept v.waiting) ∧ v.TrackKept)
    (fun config tracker bridge => ⟨⟨.empty_heap, Loop.reactionsKept_new k config tracker bridge⟩,
      View.trackKept_fresh k config tracker bridge⟩)
    fun hm ⟨⟨wf, reactions⟩, hv⟩ => ⟨⟨hm.move.acts.wf wf, hm.move.reactionsKept wf reactions⟩,
      hm.trackKept wf reactions.record hv⟩
  exact kept.2

end PromiseLoop

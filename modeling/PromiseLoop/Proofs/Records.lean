import PromiseLoop.Proofs.Loops
import PromiseLoop.Proofs.Views.Runs

/-!
# What happens to records

Of all that can happen to a loop only a few acts concern its records.  A promise is created, its lock
is attempted, and it is settled; these are the *chores* of the loop.  At checkpoints and in
collections rejections are selected and reported, and records are freed; with these it is the *deeds*
of the loop.  Besides, handlers are registered on a promise, which ends only later if the tracker has to
be told.  `Loop.Chore`, `Loop.Deed` and `Loop.Act` list them all, and every move of a view is made up
of them.

The *life* of a record is the part of the history since its id was last freed.

## Results

* `View.Move.deeds`, `View.Move.acts`: every move of a view is made up of deeds and registrations.
* `Loop.Acts.history`: histories only grow.
* `Machine.Reachable.acts`, `Machine.Run.acts`: what runs of a machine mean for the records of one
  loop.
-/

namespace PromiseLoop

open Relation

-- ---------------------------------------------------------------------------
-- Histories
-- ---------------------------------------------------------------------------

namespace Event

/-- Whether an event concerns neither a record nor a reaction, and ends no checkpoint. -/
def isSilent : Event → Bool
  | .attempted .. | .settled .. | .attached .. | .returned _ | .reported .. | .handledLate _
  | .freed .. | .checked => false
  | .queued j => !j.isReaction
  | _ => true

/-- Whether an event is the end of the record of an id. -/
def frees (id : PromiseId) : Event → Bool
  | .freed i _ => i = id
  | _ => false

theorem frees_of_isSilent {e : Event} (h : e.isSilent = true) (id : PromiseId) :
    e.frees id = false := by
  cases e <;> first | rfl | exact absurd h (by simp [isSilent])

end Event

/-- What has happened since the id was last freed, newest first. -/
def life (id : PromiseId) (history : List Event) : List Event :=
  history.takeWhile fun e => !e.frees id

theorem life_cons (id : PromiseId) (e : Event) (history : List Event) :
    life id (e :: history) = if e.frees id then [] else e :: life id history := by
  unfold life
  rw [List.takeWhile_cons]
  cases e.frees id <;> rfl

/-- A property of every event of a history, together with what had happened before it. -/
def EveryEvent (P : Event → List Event → Prop) (history : List Event) : Prop :=
  ∀ newer e older, history = newer ++ e :: older → P e older

theorem everyEvent_nil (P : Event → List Event → Prop) : EveryEvent P [] := by
  intro newer e older h
  simp at h

theorem everyEvent_cons {P : Event → List Event → Prop} {e : Event} {history : List Event} :
    EveryEvent P (e :: history) ↔ P e history ∧ EveryEvent P history := by
  constructor
  · intro h
    exact ⟨h [] e history rfl, fun newer e' older he => h (e :: newer) e' older (by simp [he])⟩
  · rintro ⟨h, ih⟩ newer e' older he
    cases newer with
    | nil =>
      obtain ⟨rfl, rfl⟩ := List.cons.inj he
      exact h
    | cons e'' newer => exact ih newer e' older (List.cons.inj he).2

theorem EveryEvent.append {P : Event → List Event → Prop} {newer history : List Event}
    (h : EveryEvent P history) (hn : ∀ e ∈ newer, ∀ older, P e older) :
    EveryEvent P (newer ++ history) := by
  induction newer with
  | nil => exact h
  | cons e newer ih =>
    rw [List.forall_mem_cons] at hn
    exact everyEvent_cons.mpr ⟨hn.1 _, ih hn.2⟩

-- ---------------------------------------------------------------------------
-- Acts
-- ---------------------------------------------------------------------------

namespace Loop

/-- What can happen to a loop at any time, as far as records are concerned, apart from
registrations. -/
inductive Chore : Loop → Loop → Prop
  /-- No record is concerned. -/
  | silent {l l' : Loop} (newer : List Event) (heap : l'.heap = l.heap)
      (serial : l'.nextSerial = l.nextSerial) (awaiting : l'.awaiting = l.awaiting)
      (log : l'.log = l.log) (config : l'.config = l.config) (tracker : l'.tracker = l.tracker)
      (history : l'.history = newer ++ l.history) (silent : ∀ e ∈ newer, e.isSilent = true) :
      Chore l l'
  | created (l : Loop) : Chore l l.newPromise.2
  | attempted {l l' : Loop} {p : Promise} {accepted : Bool} (h : l.lock p = .ok (accepted, l')) :
      Chore l l'
  | settled (l : Loop) (id : PromiseId) (s : State) (v : Value) : Chore l (l.settle id s v).1

/-- What can happen to a loop, as far as records are concerned, apart from registrations. -/
inductive Deed : Loop → Loop → Prop
  | chore {l l' : Loop} (h : l.Chore l') : Deed l l'
  | selected (l : Loop) : Deed l l.takeReports.2
  | reported (l : Loop) (id : PromiseId) (reason : Value) : Deed l (l.report id reason)
  | freed {l l' : Loop} {id : PromiseId} {r : Record} (h : l.free? id = some (r, l')) : Deed l l'
  | checked (l : Loop) : Deed l (l.note .checked)

/-- What can happen to a loop, as far as records are concerned. -/
inductive Act : Loop → Loop → Prop
  | deed {l l' : Loop} (h : l.Deed l') : Act l l'
  | attached {l : Loop} {p : Promise} {f r : Option Value} {a : Attached}
      (h : l.attach p f r = .ok a) : Act l a.loop
  | ended (l : Loop) (derived : Promise) (job : Option Job) : Act l (l.endAttach derived job)

/-- Any number of chores. -/
abbrev Chores : Loop → Loop → Prop := ReflTransGen Chore

/-- Any number of deeds. -/
abbrev Deeds : Loop → Loop → Prop := ReflTransGen Deed

/-- Any number of acts. -/
abbrev Acts : Loop → Loop → Prop := ReflTransGen Act

theorem Chores.deeds {l l' : Loop} (h : l.Chores l') : l.Deeds l' :=
  ReflTransGen.mono (fun _ _ h => .chore h) _ _ h

theorem Deeds.acts {l l' : Loop} (h : l.Deeds l') : l.Acts l' :=
  ReflTransGen.mono (fun _ _ h => .deed h) _ _ h

theorem chore_note (l : Loop) {e : Event} (h : e.isSilent = true) : Chore l (l.note e) :=
  .silent [e] rfl rfl rfl rfl rfl rfl rfl (by simpa using h)

theorem chore_enqueue (l : Loop) {j : Job} (h : j.isReaction = false) : Chore l (l.enqueue j) :=
  .silent [.queued j] rfl rfl rfl rfl rfl rfl rfl (by simp [Event.isSilent, h])

/-- Changes of anything else than records, reports and the history are no concern of records. -/
theorem chore_of_eq {l l' : Loop} (heap : l'.heap = l.heap) (serial : l'.nextSerial = l.nextSerial)
    (awaiting : l'.awaiting = l.awaiting) (log : l'.log = l.log) (config : l'.config = l.config)
    (tracker : l'.tracker = l.tracker) (history : l'.history = l.history) : Chore l l' :=
  .silent [] heap serial awaiting log config tracker history (by simp)

theorem Outside.chore {l l' : Loop} (h : l.Outside l') : Chore l l' := by
  cases h with
  | released id => exact chore_of_eq rfl rfl rfl rfl rfl rfl rfl
  | posted r => exact .silent [.posted r] rfl rfl rfl rfl rfl rfl rfl (by simp [Event.isSilent])
  | workerReleased =>
    unfold releaseWorker
    split
    · exact chore_of_eq rfl rfl rfl rfl rfl rfl rfl
    · rename_i r _ _
      exact .silent [.posted r] rfl rfl rfl rfl rfl rfl rfl (by simp [Event.isSilent])

theorem chores_foldl_enqueue {α : Type} (job : α → Job) (h : ∀ x, (job x).isReaction = false)
    (xs : List α) (l : Loop) : Chores l (xs.foldl (fun l x => l.enqueue (job x)) l) := by
  induction xs generalizing l with
  | nil => exact .refl
  | cons x xs ih => exact .head (chore_enqueue l (h x)) (ih _)

/-- What the operations of a loop do to it is made up of chores, unless it is a registration. -/
theorem Called.chores {l l' : Loop} (h : l.Called l') :
    l.Chores l' ∨ ∃ p f g a, l.attach p f g = .ok a ∧ a.late = false ∧
      l' = a.loop.endAttach a.derived a.job := by
  cases h with
  | asked h =>
    exact .inl (.single (chore_note l (by
      cases ‹Event› <;> simp_all [Event.isQuestion, Event.isSilent])))
  | created => exact .inl (.single (.created l))
  | attempted h => exact .inl (.single (.attempted h))
  | settled id s v => exact .inl (.single (.settled l id s v))
  | attached h prompt => exact .inr ⟨_, _, _, _, h, prompt, rfl⟩
  | queued h => exact .inl (.single (chore_enqueue l h))
  | delivered =>
    have emptied : Chore l { l with channel := [] } := chore_of_eq rfl rfl rfl rfl rfl rfl rfl
    exact .inl (.head emptied (chores_foldl_enqueue .settlement (fun _ => rfl) l.channel _))
  | received h =>
    unfold receive? at h
    split at h
    · cases h
    · rename_i r rest _
      have shortened : Chore l { l with channel := rest } := chore_of_eq rfl rfl rfl rfl rfl rfl rfl
      have queued := chore_enqueue { l with channel := rest } (j := .settlement r) rfl
      rw [← Option.some.inj h]
      exact .inl (.head shortened (.single queued))
  | taskQueued w =>
    exact .inl (.single (.silent [.taskQueued w] rfl rfl rfl rfl rfl rfl rfl
      (by simp [Event.isSilent])))
  | taskTaken h =>
    obtain ⟨⟨w, q⟩, -, heq⟩ := Option.map_eq_some_iff.mp h
    rw [← (Prod.mk.inj heq).2]
    exact .inl (.single (.silent [.taskStarted w] rfl rfl rfl rfl rfl rfl rfl
      (by simp [Event.isSilent])))
  | flown => exact .inl (.head (.created l) (.single (chore_of_eq rfl rfl rfl rfl rfl rfl rfl)))
  | workerAdded p =>
    exact .inl (.single (.silent [.spawned p] rfl rfl rfl rfl rfl rfl rfl (by simp [Event.isSilent])))
  | workerWaits r => exact .inl (.single (chore_of_eq rfl rfl rfl rfl rfl rfl rfl))
  | landed id => exact .inl (.single (chore_of_eq rfl rfl rfl rfl rfl rfl rfl))

theorem Called.acts {l l' : Loop} (h : l.Called l') : l.Acts l' := by
  rcases h.chores with h | ⟨p, f, g, a, ha, -, rfl⟩
  · exact Deeds.acts (Chores.deeds h)
  · exact .head (.attached ha) (.single (.ended _ _ _))

end Loop

/-- The registration that a frame keeps open, with the job that is left to its end. -/
def Frame.attaching? : Frame → Option (Promise × Option Job)
  | .attaching derived job => some (derived, job)
  | _ => none

/-- The registrations that a view keeps open, the last one first. -/
def View.waiting (v : View) : List (Promise × Option Job) := v.turns.filterMap Frame.attaching?

/-- Every plain move of a view is made up of chores, unless it is a registration. -/
theorem View.Plain.chores {v v' : View} (h : v.Plain v') :
    v'.waiting = v.waiting ∧ (v.loop.Chores v'.loop ∨
      ∃ p f g a, v.loop.attach p f g = .ok a ∧ a.late = false ∧
        v'.loop = a.loop.endAttach a.derived a.job) := by
  cases h with
  | light h =>
    cases h with
    | outside h => exact ⟨rfl, .inl (.single h.chore)⟩
    | called h => exact ⟨rfl, h.chores⟩
    | drainBegun h => exact ⟨rfl, .inl (.single (Loop.chore_of_eq rfl rfl rfl rfl rfl rfl rfl))⟩
  | taken h =>
    obtain ⟨⟨j, q⟩, -, heq⟩ := Option.map_eq_some_iff.mp h
    rw [← (Prod.mk.inj heq).2]
    exact ⟨rfl, .inl (.single (.silent [.started j] rfl rfl rfl rfl rfl rfl rfl
      (by simp [Event.isSilent])))⟩
  | drainEnded h =>
    exact ⟨rfl, .inl (.single (.silent [.drained] rfl rfl rfl rfl rfl rfl rfl
      (by simp [Event.isSilent])))⟩
  | drainBroken => exact ⟨rfl, .inl (.single (Loop.chore_of_eq rfl rfl rfl rfl rfl rfl rfl))⟩

/-- Every move of a view is made up of deeds, unless it is a registration. -/
theorem View.Move.deeds {v v' : View} (h : v.Move v') :
    (v.loop.Deeds v'.loop ∧ v'.waiting = v.waiting) ∨
      (∃ p f g a, v.loop.attach p f g = .ok a ∧ a.late = false ∧
        v'.loop = a.loop.endAttach a.derived a.job ∧ v'.waiting = v.waiting) ∨
      (∃ p f g a, v.loop.attach p f g = .ok a ∧ a.late = true ∧ v'.loop = a.loop ∧
        v'.waiting = (a.derived, a.job) :: v.waiting) ∨
      ∃ derived job, v'.loop = v.loop.endAttach derived job ∧
        v.waiting = (derived, job) :: v'.waiting := by
  cases h with
  | plain h =>
    obtain ⟨waiting, h | ⟨p, f, g, a, ha, prompt, heq⟩⟩ := h.chores
    · exact .inl ⟨Loop.Chores.deeds h, waiting⟩
    · exact .inr (.inl ⟨p, f, g, a, ha, prompt, heq, waiting⟩)
  | final h =>
    cases h with
    | attachedLate h late => exact .inr (.inr (.inl ⟨_, _, _, _, h, late, rfl, rfl⟩))
    | selected l turns => exact .inl ⟨.single (.selected l), rfl⟩
    | swept l turns => exact .inl ⟨.refl, rfl⟩
  | resume h =>
    cases h with
    | attachEnded => exact .inr (.inr (.inr ⟨_, _, rfl, rfl⟩))
    | reported => exact .inl ⟨.single (.reported _ _ _), rfl⟩
    | reportsSwept => exact .inl ⟨.refl, rfl⟩
    | reportsChecked => exact .inl ⟨.single (.checked _), rfl⟩
    | sweptOn => exact .inl ⟨.refl, rfl⟩
  | sweeping h =>
    cases h with
    | taken _ _ => exact .inl ⟨.single (.chore (Loop.chore_of_eq rfl rfl rfl rfl rfl rfl rfl)), rfl⟩
    | skipped _ _ => exact .inl ⟨.refl, rfl⟩
    | freed _ found _ => exact .inl ⟨.single (.freed found), rfl⟩
    | reported _ found _ => exact .inl ⟨.single (.freed found), rfl⟩
    | ended _ _ =>
      refine .inl ⟨?_, rfl⟩
      dsimp only
      split
      · exact .single (.checked _)
      · exact .refl

/-- Every move of a view is made up of acts. -/
theorem View.Move.acts {v v' : View} (h : v.Move v') : v.loop.Acts v'.loop := by
  rcases h.deeds with
    ⟨h, -⟩ | ⟨p, f, g, a, h, -, heq, -⟩ | ⟨p, f, g, a, h, -, heq, -⟩ | ⟨d, j, heq, -⟩
  · exact Loop.Deeds.acts h
  · rw [heq]
    exact .head (.attached h) (.single (.ended _ _ _))
  · rw [heq]
    exact .single (.attached h)
  · rw [heq]
    exact .single (.ended _ _ _)

theorem View.acts_of_moves {v v' : View} (h : ReflTransGen View.Move v v') :
    v.loop.Acts v'.loop := by
  induction h with
  | refl => exact .refl
  | tail _ h ih => exact ih.trans h.acts

-- ---------------------------------------------------------------------------
-- What all acts keep
-- ---------------------------------------------------------------------------

namespace Loop

variable {l l' : Loop}

theorem history_free? {id : PromiseId} {r : Record} (h : l.free? id = some (r, l')) :
    l'.history = .freed id r ::
      ((if l.reportsOnFree r then [.reported id r.reason] else []) ++ l.history) := by
  obtain ⟨-, rfl⟩ := free?_eq_some.mp h
  split <;> simp [note, report_eq]

theorem heap_free? {id : PromiseId} {r : Record} (h : l.free? id = some (r, l')) :
    l'.heap = l.heap.vacated id := by
  obtain ⟨-, rfl⟩ := free?_eq_some.mp h
  split <;> simp [note, report_eq]

/-- What settling does to the heap and to the history, where it does anything. -/
theorem settle_cases (l : Loop) (id : PromiseId) (s : State) (v : Value) :
    l.settle id s v = (l, [v]) ∨
      ∃ r, l.heap.get? id = some r ∧ r.state = .pending ∧ s ≠ .pending ∧
        l.settle id s v =
          ({ l with
              heap := l.heap.modify id fun _ => r.settled s v
              microtasks := ⟨l.microtasks.entries ++ (r.released s).fire.map (Job.reaction · v)⟩
              awaiting := if l.awaitsAfter r s then l.awaiting ++ [id] else l.awaiting
              history := ((r.released s).fire.map fun y => Event.queued (.reaction y v)).reverse
                ++ .settled id s v :: l.history },
            heldByReactions (r.released s).discarded) := by
  cases hr : l.heap.get? id with
  | none => exact .inl (settle_of_settle_eq_none fun r h => by rw [hr] at h; cases h)
  | some r =>
    cases hs : r.settle s v with
    | none =>
      refine .inl (settle_of_settle_eq_none fun x h => ?_)
      rw [hr] at h
      rw [← Option.some.inj h, hs]
    | some settled =>
      obtain ⟨r', x⟩ := settled
      obtain ⟨hp, hne, rfl, rfl⟩ := Record.settle_eq_some.mp hs
      exact .inr ⟨r, rfl, hp, hne, settle_of_settle hr hs⟩

/-- Registering handlers shows under the id of the promise, and under that of the derived one. -/
theorem get?_registered {p : Promise} {f g : Option Value} {r : Record} (wf : l.heap.Wf)
    (hr : l.heap.get? p.id = some r) (k : PromiseId) :
    (l.registered p f g r).heap.get? k =
      if k = p.id then some (r.registered f g l.newPromise.1)
      else (l.heap.allocate .pending).2.get? k := by
  show ((l.heap.allocate .pending).2.modify p.id _).get? k = _
  rw [Heap.get?_modify_ite]
  split
  · rename_i hk
    rw [hk, Heap.get?_allocate_of_some wf .pending hr]
    rfl
  · rfl

theorem heap_endAttach (l : Loop) (derived : Promise) (job : Option Job) :
    (l.endAttach derived job).heap = l.heap := by
  cases job <;> rfl

theorem history_endAttach (l : Loop) (derived : Promise) (job : Option Job) :
    (l.endAttach derived job).history =
      .returned derived :: ((job.map Event.queued).toList ++ l.history) := by
  cases job <;> rfl

theorem Chore.wf (h : l.Chore l') (wf : l.heap.Wf) : l'.heap.Wf := by
  cases h with
  | silent newer heap _ _ _ _ _ _ _ => rw [heap]; exact wf
  | created => exact wf.allocate .pending
  | attempted h =>
    obtain ⟨r, -, -, rfl⟩ := lock_eq_ok.mp h
    exact wf.modify _ _
  | settled id s v =>
    rcases settle_cases l id s v with h | ⟨r, -, -, -, h⟩
    · rw [h]; exact wf
    · rw [h]; exact wf.modify _ _

theorem Deed.wf (h : l.Deed l') (wf : l.heap.Wf) : l'.heap.Wf := by
  cases h with
  | chore h => exact h.wf wf
  | selected =>
    obtain ⟨heap, heq, hs, -⟩ := takeReports_spec l
    rw [heq]
    exact hs.wf wf
  | reported id reason => rw [report_eq]; exact wf
  | freed h =>
    rw [heap_free? h]
    exact wf.vacated (free?_eq_some.mp h).1
  | checked => exact wf

theorem Act.wf (h : l.Act l') (wf : l.heap.Wf) : l'.heap.Wf := by
  cases h with
  | deed h => exact h.wf wf
  | attached h =>
    obtain ⟨r, -, rfl⟩ := (attach_eq_ok wf).mp h
    exact (wf.allocate .pending).modify _ _
  | ended derived job => rw [heap_endAttach]; exact wf

/-- A chore adds to the history. -/
theorem Chore.history (h : l.Chore l') : ∃ newer, l'.history = newer ++ l.history := by
  cases h with
  | silent newer _ _ _ _ _ _ history _ => exact ⟨newer, history⟩
  | created => exact ⟨[], rfl⟩
  | attempted h =>
    obtain ⟨r, -, -, rfl⟩ := lock_eq_ok.mp h
    exact ⟨[_], rfl⟩
  | settled id s v =>
    rcases settle_cases l id s v with h | ⟨r, -, -, -, h⟩
    · exact ⟨[], by rw [h]; rfl⟩
    · exact ⟨_ ++ [.settled id s v], by rw [h, List.append_assoc]; rfl⟩

/-- A deed adds to the history. -/
theorem Deed.history (h : l.Deed l') : ∃ newer, l'.history = newer ++ l.history := by
  cases h with
  | chore h => exact h.history
  | selected =>
    obtain ⟨heap, heq, -, -⟩ := takeReports_spec l
    exact ⟨[], by rw [heq]; rfl⟩
  | reported id reason => exact ⟨[_], by rw [report_eq]; rfl⟩
  | freed h => exact ⟨.freed _ _ :: _, history_free? h⟩
  | checked => exact ⟨[.checked], rfl⟩

/-- An act adds to the history. -/
theorem Act.history (h : l.Act l') : ∃ newer, l'.history = newer ++ l.history := by
  cases h with
  | deed h => exact h.history
  | attached h =>
    obtain ⟨newer, hn⟩ := history_attach h
    exact ⟨newer ++ [.attached _ _ _ _], by rw [hn, List.append_assoc]; rfl⟩
  | ended derived job => exact ⟨.returned derived :: _, history_endAttach l derived job⟩

theorem Acts.wf (h : l.Acts l') (wf : l.heap.Wf) : l'.heap.Wf := by
  induction h with
  | refl => exact wf
  | tail _ h ih => exact h.wf ih

/-- What every act keeps, any number of acts keep. -/
theorem Acts.keeps {P : Loop → Prop} (keep : ∀ {l l'}, l.heap.Wf → l.Act l' → P l → P l')
    (h : l.Acts l') (wf : l.heap.Wf) (hP : P l) : P l' := by
  induction h with
  | refl => exact hP
  | tail hs h ih => exact keep (Acts.wf hs wf) h ih

theorem Acts.history (h : l.Acts l') : ∃ newer, l'.history = newer ++ l.history := by
  induction h with
  | refl => exact ⟨[], rfl⟩
  | tail _ h ih =>
    obtain ⟨newer, hn⟩ := ih
    obtain ⟨newer', hn'⟩ := h.history
    exact ⟨newer' ++ newer, by rw [hn', hn, List.append_assoc]⟩

end Loop

namespace Machine

variable {m m' : Machine} {loop : LoopId} {l l' : Loop}

theorem sees_of_loop? (hl : m.loop? loop = some l) :
    m.sees loop = some ⟨l, m.turnsOf loop, m.sweepOf loop⟩ :=
  sees_eq_some.mpr ⟨hl, rfl, rfl⟩

/-- The records of a loop in a run come from acts on a new loop. -/
theorem Reachable.acts (h : Reachable m) (hl : m.loop? loop = some l) :
    ∃ config tracker bridge, Loop.Acts { id := loop, config, tracker, bridge } l := by
  rcases h.view loop with ha | ⟨config, tracker, bridge, v, hv, hm⟩
  · rw [ha.gone] at hl
    cases hl
  · rw [sees_of_loop? hl] at hv
    refine ⟨config, tracker, bridge, ?_⟩
    have acts := View.acts_of_moves hm
    rw [← Option.some.inj hv] at acts
    exact acts

theorem Reachable.wf (h : Reachable m) (hl : m.loop? loop = some l) : l.heap.Wf := by
  obtain ⟨config, tracker, bridge, acts⟩ := h.acts hl
  exact acts.wf .empty_heap

/-- What is true of the records of a new loop, and kept by every act, is true in every run. -/
theorem Reachable.keeps {P : Loop → Prop} (h : Reachable m) (hl : m.loop? loop = some l)
    (new : ∀ config tracker bridge, P { id := loop, config, tracker, bridge })
    (keep : ∀ {l l' : Loop}, l.heap.Wf → l.Act l' → P l → P l') : P l := by
  obtain ⟨config, tracker, bridge, acts⟩ := h.acts hl
  exact acts.keeps keep .empty_heap (new config tracker bridge)

/-- Between two moments of a run the records of a loop go through acts. -/
theorem Placed.acts (h : m.Placed) (hr : Run m m') (hl : m.loop? loop = some l)
    (hl' : m'.loop? loop = some l') : l.Acts l' :=
  View.acts_of_moves (h.view hr (sees_of_loop? hl) (sees_of_loop? hl'))

theorem Run.acts (h : Reachable m) (hr : Run m m') (hl : m.loop? loop = some l)
    (hl' : m'.loop? loop = some l') : l.Acts l' := h.placed.acts hr hl hl'

end Machine
end PromiseLoop

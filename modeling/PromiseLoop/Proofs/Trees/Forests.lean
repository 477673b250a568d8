import PromiseLoop.Proofs.Scenes.Promises
import PromiseLoop.Proofs.Trees.Branches

/-!
# Loops that hold trees

A tree of registrations hangs on a promise of a loop if the records of its promises are pending and hold the
reactions of its branches.  When such a promise settles, its branches are enqueued, a rejection without
branches waits to be reported, and the branches are trees of their own.

## Results

* `Loop.settlesStem_resolved`: settling a promise of a tree.
* `Loop.Settles.trans`: settling some promises, one after the other.
* `Loop.Bears.settle`: some trees of which the first has been settled.
-/

namespace PromiseLoop

-- ---------------------------------------------------------------------------
-- Tallies
-- ---------------------------------------------------------------------------

/-- What a history tells: the jobs that were started, the values that the bridge was asked to call, the
settlements and the reports, each oldest first. -/
@[ext]
structure Tally where
  jobs : List Job := []
  calls : List Value := []
  settlements : List (PromiseId × State × Value) := []
  reports : List (PromiseId × Value) := []

namespace Tally

instance : Append Tally :=
  ⟨fun a b => ⟨a.jobs ++ b.jobs, a.calls ++ b.calls, a.settlements ++ b.settlements, a.reports ++ b.reports⟩⟩

variable (a b c : Tally)

@[simp] theorem jobs_append : (a ++ b).jobs = a.jobs ++ b.jobs := rfl
@[simp] theorem calls_append : (a ++ b).calls = a.calls ++ b.calls := rfl
@[simp] theorem settlements_append : (a ++ b).settlements = a.settlements ++ b.settlements := rfl
@[simp] theorem reports_append : (a ++ b).reports = a.reports ++ b.reports := rfl

@[simp] theorem append_empty : a ++ {} = a := by ext1 <;> simp

theorem append_assoc : a ++ b ++ c = a ++ (b ++ c) := by ext1 <;> simp

end Tally

/-- What an event adds to a tally. -/
def Event.tally : Event → Tally
  | .started j => { jobs := [j] }
  | .invoked f => { calls := [f] }
  | .settled id s v => { settlements := [(id, s, v)] }
  | .reported id v => { reports := [(id, v)] }
  | _ => {}

/-- The tally of a history. -/
def tally (history : List Event) : Tally := history.foldr (fun e t => t ++ e.tally) {}

@[simp] theorem tally_cons (e : Event) (older : List Event) : tally (e :: older) = tally older ++ e.tally := rfl

/-- Events that do not count leave a tally as it is. -/
theorem tally_append_of_uncounted {newer : List Event} (h : ∀ e ∈ newer, e.tally = {}) (older : List Event) :
    tally (newer ++ older) = tally older := by
  induction newer with
  | nil => rfl
  | cons e newer ih =>
    rw [List.cons_append, tally_cons, ih fun e he => h e (List.mem_cons_of_mem _ he),
      h e (List.mem_cons_self ..), Tally.append_empty]

-- ---------------------------------------------------------------------------
-- Records of trees
-- ---------------------------------------------------------------------------

/-- The record of a pending promise that has some branches. -/
def Branch.hung (bs : List Branch) : Record where
  fulfillReactions := bs.map fun b => b.registration.reaction .fulfill
  rejectReactions := bs.map fun b => b.registration.reaction .reject
  isHandled := !bs.isEmpty

namespace Stem

variable (s : Stem)

/-- The tree as the only branch of its own. -/
def trunk : Branch := ⟨⟨s.promise, none, none⟩, s.branches⟩

/-- The record of a promise that has settled. -/
def record : Record where
  state := s.completion.side.state
  value := some s.completion.value
  isHandled := !s.branches.isEmpty
  alreadyResolved := true

/-- The report of a promise, which is made if it is rejected and has no branches. -/
def report? : Option (PromiseId × Value) :=
  match s.completion, s.branches with
  | .thrown v, [] => some (s.promise.id, v)
  | _, _ => none

def settlement : PromiseId × State × Value := (s.promise.id, s.completion.side.state, s.completion.value)

theorem fst_of_mem_report? {e : PromiseId × Value} (h : e ∈ s.report?) : e.1 = s.promise.id := by
  unfold report? at h
  split at h
  · rw [← Option.some.inj h]
  · cases h

theorem isSome_report? : s.report?.isSome = s.record.awaitsReport := by
  obtain ⟨p, bs, c⟩ := s
  cases c <;> cases bs <;> rfl

theorem eq_of_report? {e : PromiseId × Value} (h : s.report? = some e) :
    e = (s.promise.id, s.record.reason) := by
  obtain ⟨p, bs, c⟩ := s
  cases c <;> cases bs <;> cases h
  rfl

theorem reports_sublist (done : List Stem) :
    ((done.filterMap Stem.report?).map Prod.fst).Sublist (done.map fun s => s.promise.id) := by
  induction done with
  | nil => exact .slnil
  | cons s done ih =>
    cases hs : s.report? with
    | none =>
      rw [List.filterMap_cons_none hs]
      exact ih.cons _
    | some e =>
      rw [List.filterMap_cons_some hs, List.map_cons, List.map_cons, s.fst_of_mem_report? hs]
      exact ih.cons_cons _

/-- The record of a promise after the checkpoint that reports it. -/
def reported : Record := { s.record with rejectionReported := s.report?.isSome }

end Stem

-- ---------------------------------------------------------------------------
-- Seeds
-- ---------------------------------------------------------------------------

/-- What a completer is used for: it reports a primitive outcome, or it is dropped without one. -/
inductive Use
  | success (x : Literal)
  | failure (x : Literal)
  | drop

namespace Use

/-- What is posted. -/
def result : Use → WorkResult
  | success x => .success (.literal x)
  | failure x => .failure (.literal x)
  | drop => .abandoned

/-- How the promise of the completer completes. -/
def completion : Use → Completion
  | success x => .returned x.value
  | failure x => .thrown x.value
  | drop => .thrown Loop.abandonedError

/-- The command by which a host uses a completer. -/
def command (name : String) : Use → Command
  | drop => .step (.dropCompleter name) none false
  | u => .step (.complete name u.result) none false

end Use

/-- A completer, what it is used for, and the tree that hangs on its promise. -/
structure Seed where
  completer : String
  use : Use
  promise : Promise
  branches : List Branch

namespace Seed

variable (s : Seed)

/-- The promise of the completer, as its report completes it. -/
def root : Stem := ⟨s.promise, s.branches, s.use.completion⟩

/-- What the completer posts. -/
def report : Report := { promise := s.promise.id, result := s.use.result }

end Seed

namespace Loop

variable {l l' : Loop} {s : Stem}

/-- The rejections among the promises that settle that a loop will report. -/
def reportable (l : Loop) (done : List Stem) : List (PromiseId × Value) :=
  if l.config.trackUnhandledRejections then done.filterMap Stem.report? else []

@[simp] theorem reportable_nil (l : Loop) : l.reportable [] = [] := by
  unfold reportable
  split <;> rfl

theorem reportable_append (l : Loop) (done more : List Stem) :
    l.reportable (done ++ more) = l.reportable done ++ l.reportable more := by
  unfold reportable
  split
  · exact List.filterMap_append
  · rfl

theorem reportable_congr (config : l'.config = l.config) (done : List Stem) :
    l'.reportable done = l.reportable done := by
  rw [reportable, config, reportable]

/-- What settling a promise of a tree does to a loop. -/
structure SettlesStem (l : Loop) (s : Stem) (l' : Loop) : Prop where
  find : ∀ id, l'.heap.get? id = if id = s.promise.id then some s.record else l.heap.get? id
  entries : l'.microtasks.entries = l.microtasks.entries ++ s.visits.map Visit.job
  awaiting : l'.awaiting = l.awaiting ++ (l.reportable [s]).map Prod.fst
  tally : tally l'.history = tally l.history ++ { settlements := [s.settlement] }
  id : l'.id = l.id
  bridge : l'.bridge = l.bridge
  config : l'.config = l.config
  wf : l'.heap.Wf
  slots : l'.heap.slots.length = l.heap.slots.length
  draining : l'.draining = l.draining
  channel : l'.channel = l.channel
  inFlight : l'.inFlight = l.inFlight

/-- Settling a promise starts with notes that do not count. -/
theorem exists_resolved_eq (l : Loop) (p : Promise) (side : Side) (v : Value) :
    ∃ newer, (∀ e ∈ newer, e.tally = {}) ∧ l.resolved p side v = (Loop.settle
      { l with heap := (Machine.locked l p).heap, history := newer ++ l.history } p.id side.state v).1 := by
  cases side with
  | reject => exact ⟨[.attempted p.id true], by simp [Event.tally], rfl⟩
  | fulfill =>
    cases hv : v.isObjectLike with
    | false =>
      refine ⟨[.attempted p.id true], by simp [Event.tally], ?_⟩
      simp only [resolved, settledAs, asked, hv, Bool.false_eq_true, if_false]
      rfl
    | true =>
      refine ⟨[.probed v, .attempted p.id true], by simp [Event.tally], ?_⟩
      simp only [resolved, settledAs, asked, hv, if_true]
      rfl

/-- A promise of a tree is settled. -/
theorem settlesStem_resolved (wf : l.heap.Wf)
    (hr : l.heap.get? s.promise.id = some (Branch.hung s.branches)) :
    l.SettlesStem s (l.resolved s.promise s.completion.side s.completion.value) := by
  obtain ⟨newer, uncounted, resolved⟩ :=
    l.exists_resolved_eq s.promise s.completion.side s.completion.value
  let r : Record := { Branch.hung s.branches with alreadyResolved := true }
  have pending : r.state = .pending := rfl
  have look : ∀ id, (Machine.locked l s.promise).heap.get? id =
      if id = s.promise.id then some r else l.heap.get? id := fun id => by
    show (l.heap.modify s.promise.id _).get? id = _
    rw [Heap.get?_modify_ite]
    split
    · rename_i e
      rw [e, hr]
      rfl
    · rfl
  have settled := settle_of_settle
    (l := { l with heap := (Machine.locked l s.promise).heap, history := newer ++ l.history })
    ((look s.promise.id).trans (if_pos rfl))
    (Record.settle_eq_some.mpr ⟨pending, s.completion.side.state_ne_pending, rfl, rfl⟩)
    (v := s.completion.value)
  rw [resolved, settled]
  have fire : (r.released s.completion.side.state).fire.map (Job.reaction · s.completion.value) =
      s.visits.map Visit.job := by
    cases hc : s.completion with
    | _ => simp [Record.released, Completion.side, Side.state, r, Branch.hung, Stem.visits, Visit.job, hc]
  refine ⟨fun id => ?_, congrArg (l.microtasks.entries ++ ·) fire, ?_, ?_, rfl, rfl, rfl,
    (wf.modify _ _).modify _ _, (List.length_modify ..).trans (List.length_modify ..), rfl, rfl, rfl⟩
  · show ((Machine.locked l s.promise).heap.modify s.promise.id _).get? id = _
    rw [Heap.get?_modify_ite]
    split
    · rename_i e
      rw [e, look, if_pos rfl]
      rfl
    · rename_i ne
      rw [look, if_neg ne]
  · show (if awaitsAfter _ r _ then l.awaiting ++ [s.promise.id] else l.awaiting) = _
    have awaits : awaitsAfter
        { l with heap := (Machine.locked l s.promise).heap, history := newer ++ l.history } r
        s.completion.side.state = (s.report?.isSome && l.config.trackUnhandledRejections) := by
      rw [s.isSome_report?]
      show (_ && _ && l.config.trackUnhandledRejections) = (_ && _ && true && l.config.trackUnhandledRejections)
      rw [Bool.and_true]
      rfl
    rw [awaits, reportable]
    cases hs : s.report? with
    | none => cases l.config.trackUnhandledRejections <;> simp [hs]
    | some e =>
      have id := s.fst_of_mem_report? hs
      cases l.config.trackUnhandledRejections <;> simp [hs, id]
  · have queued : ∀ e ∈ ((r.released s.completion.side.state).fire.map fun y =>
        Event.queued (.reaction y s.completion.value)).reverse, e.tally = {} := fun e he => by
      obtain ⟨y, -, rfl⟩ := List.mem_map.mp (List.mem_reverse.mp he)
      rfl
    show PromiseLoop.tally (_ ++ .settled s.promise.id s.completion.side.state s.completion.value ::
      (newer ++ l.history)) = _
    rw [tally_append_of_uncounted queued, tally_cons, tally_append_of_uncounted uncounted]
    rfl

-- ---------------------------------------------------------------------------
-- Counting
-- ---------------------------------------------------------------------------

/-- What a loop has come to count in a while, with as many slots as before. -/
structure Counts (l l' : Loop) (counted : Tally) : Prop where
  tally : tally l'.history = tally l.history ++ counted
  slots : l'.heap.slots.length = l.heap.slots.length

section

variable {l'' x : Loop} {a b counted : Tally} {done more : List Stem}

theorem Counts.refl (l : Loop) : l.Counts l {} := ⟨(Tally.append_empty _).symm, rfl⟩

theorem Counts.trans (h : l.Counts l' a) (h' : l'.Counts l'' b) : l.Counts l'' (a ++ b) :=
  ⟨by rw [h'.tally, h.tally, Tally.append_assoc], h'.slots.trans h.slots⟩

-- ---------------------------------------------------------------------------
-- Settling one promise after the other
-- ---------------------------------------------------------------------------

/-- What settling some pending promises, one after the other, does to a loop. -/
structure Settles (l : Loop) (done : List Stem) (counted : Tally) (l' : Loop) : Prop where
  pending : ∀ s ∈ done, ∃ r, l.heap.get? s.promise.id = some r ∧ r.state = .pending
  distinct : (done.map fun s => s.promise.id).Nodup
  settled : ∀ s ∈ done, l'.heap.get? s.promise.id = some s.record
  others : ∀ id, (∀ s ∈ done, s.promise.id ≠ id) → l'.heap.get? id = l.heap.get? id
  awaiting : l'.awaiting = l.awaiting ++ (l.reportable done).map Prod.fst
  inFlight : ∀ p ∈ l.inFlight, (∀ s ∈ done, s.promise.id ≠ p.id) → p ∈ l'.inFlight
  config : l'.config = l.config
  counts : l.Counts l' counted

/-- What neither settles nor reports anything. -/
theorem settles_of_eq (heap : l'.heap = l.heap) (awaiting : l'.awaiting = l.awaiting)
    (inFlight : l'.inFlight = l.inFlight) (config : l'.config = l.config)
    (counted : tally l'.history = tally l.history) : l.Settles [] {} l' where
  pending := nofun
  distinct := List.nodup_nil
  settled := nofun
  others id _ := by rw [heap]
  awaiting := by simp [awaiting]
  inFlight p hp _ := inFlight ▸ hp
  config := config
  counts := ⟨counted.trans (Tally.append_empty _).symm, by rw [heap]⟩

theorem Settles.trans (h : l.Settles done a l') (h' : l'.Settles more b l'') :
    l.Settles (done ++ more) (a ++ b) l'' := by
  -- what has settled is not pending any more
  have apart : ∀ s ∈ done, ∀ t ∈ more, s.promise.id ≠ t.promise.id := fun s hs t ht e => by
    obtain ⟨r, hr, pending⟩ := h'.pending t ht
    rw [← e, h.settled s hs] at hr
    rw [← Option.some.inj hr] at pending
    exact Side.state_ne_pending _ pending
  refine ⟨fun s hs => ?_, ?_, fun s hs => ?_, fun id hid => ?_, ?_, fun p hp hs => ?_,
    h'.config.trans h.config, h.counts.trans h'.counts⟩
  · rcases List.mem_append.mp hs with hs | hs
    · exact h.pending s hs
    · rw [← h.others s.promise.id fun t ht => apart t ht s hs]
      exact h'.pending s hs
  · rw [List.map_append, List.nodup_append]
    refine ⟨h.distinct, h'.distinct, fun i hi j hj => ?_⟩
    obtain ⟨s, hs, rfl⟩ := List.mem_map.mp hi
    obtain ⟨t, ht, rfl⟩ := List.mem_map.mp hj
    exact apart s hs t ht
  · rcases List.mem_append.mp hs with hs | hs
    · rw [h'.others _ fun t ht => (apart s hs t ht).symm]
      exact h.settled s hs
    · exact h'.settled s hs
  · rw [h'.others id fun s hs => hid s (List.mem_append_right _ hs)]
    exact h.others id fun s hs => hid s (List.mem_append_left _ hs)
  · rw [h'.awaiting, h.awaiting, reportable_congr h.config, reportable_append, List.map_append,
      List.append_assoc]
  · exact h'.inFlight p (h.inFlight p hp fun s hs' => hs s (List.mem_append_left _ hs')) fun s hs' =>
      hs s (List.mem_append_right _ hs')

/-- What a job does to its loop before it settles a promise: it may count something, and it may take the
promise out of flight. -/
structure Prepares (l : Loop) (id : PromiseId) (counted : Tally) (x : Loop) : Prop where
  heap : x.heap = l.heap
  awaiting : x.awaiting = l.awaiting
  config : x.config = l.config
  inFlight : ∀ p ∈ l.inFlight, p.id ≠ id → p ∈ x.inFlight
  tally : tally x.history = tally l.history ++ counted

theorem Prepares.refl (l : Loop) (id : PromiseId) : l.Prepares id {} l :=
  ⟨rfl, rfl, rfl, fun _ hp _ => hp, (Tally.append_empty _).symm⟩

/-- A promise of a tree is settled by a job. -/
theorem SettlesStem.settles (h : x.SettlesStem s l') (prepares : l.Prepares s.promise.id counted x)
    (hung : l.heap.get? s.promise.id = some (Branch.hung s.branches)) :
    l.Settles [s] (counted ++ { settlements := [s.settlement] }) l' where
  pending t ht := by
    obtain rfl := List.mem_singleton.mp ht
    exact ⟨_, hung, rfl⟩
  distinct := List.nodup_singleton _
  settled t ht := by
    obtain rfl := List.mem_singleton.mp ht
    exact (h.find _).trans (if_pos rfl)
  others id hid := by
    rw [h.find, if_neg (hid s (List.mem_singleton_self s)).symm, prepares.heap]
  awaiting := by rw [h.awaiting, prepares.awaiting, reportable_congr prepares.config]
  inFlight p hp hs :=
    h.inFlight ▸ prepares.inFlight p hp (hs s (List.mem_singleton_self s)).symm
  config := h.config.trans prepares.config
  counts := ⟨by rw [h.tally, prepares.tally, Tally.append_assoc], h.slots.trans (by rw [prepares.heap])⟩

end

-- ---------------------------------------------------------------------------
-- Trees in a loop
-- ---------------------------------------------------------------------------

/-- A tree hangs on a promise: the promises of the tree are pending and have the reactions of its branches,
no two of them are the same, and the handlers are functions. -/
structure Hangs (l : Loop) (p : Promise) (bs : List Branch) : Prop where
  root : l.record p = .ok (Branch.hung bs)
  branches : ∀ b ∈ Branch.all bs, l.record b.promise = .ok (Branch.hung b.branches)
  functions : ∀ b ∈ Branch.all bs, ∀ side h, b.registration.handler side = some h → ∃ f, h = .function f
  distinct : (p.id :: (Branch.all bs).map fun b => b.promise.id).Nodup

/-- The branches `bs` are still to be visited: their promises and those of the branches that grow from them
are pending. -/
structure Bears (k : LoopId) (l : Loop) (bs : List Branch) : Prop where
  id : l.id = k
  native : l.bridge = .native
  wf : l.heap.Wf
  hung : ∀ b ∈ Branch.all bs,
    b.promise.home = k ∧ l.heap.get? b.promise.id = some (Branch.hung b.branches)
  functions : ∀ b ∈ Branch.all bs, ∀ side h, b.registration.handler side = some h → ∃ f, h = .function f
  distinct : ((Branch.all bs).map fun b => b.promise.id).Nodup

variable {k : LoopId} {b : Branch} {bs cs : List Branch}

/-- What does not touch the records does not touch the trees. -/
theorem Bears.of_heap (h : Bears k l bs) (id : l'.id = l.id) (bridge : l'.bridge = l.bridge)
    (heap : l'.heap = l.heap) : Bears k l' bs where
  id := id.trans h.id
  native := bridge.trans h.native
  wf := heap ▸ h.wf
  hung := heap ▸ h.hung
  functions := h.functions
  distinct := h.distinct

/-- The order of the trees does not matter. -/
theorem Bears.perm (h : Bears k l bs) (perm : bs.Perm cs) : Bears k l cs :=
  have all := Branch.all_perm_of_perm perm
  { id := h.id
    native := h.native
    wf := h.wf
    hung := fun b hb => h.hung b (all.mem_iff.mpr hb)
    functions := fun b hb => h.functions b (all.mem_iff.mpr hb)
    distinct := (all.map _).nodup_iff.mp h.distinct }

theorem Bears.record (h : Bears k l bs) (hb : b ∈ bs) : l.record b.promise = .ok (Branch.hung b.branches) :=
  have hung := h.hung b (Branch.mem_all_of_mem hb)
  record_eq_ok.mpr ⟨hung.1.trans h.id.symm, hung.2⟩

/-- The first of some trees is settled, and its branches are trees from then on. -/
theorem Bears.settle {c : Completion} (h : Bears k l (b :: bs)) (settles : l.SettlesStem (b.stem c) l') :
    Bears k l' (bs ++ b.branches) := by
  have perm : (b :: Branch.all (bs ++ b.branches)).Perm (Branch.all (b :: bs)) := by
    rw [Branch.all_cons, Branch.all_append]
    exact List.Perm.cons b List.perm_append_comm
  have distinct := (perm.map fun b => b.promise.id).nodup_iff.mpr h.distinct
  rw [List.map_cons, List.nodup_cons] at distinct
  have left : ∀ b' ∈ Branch.all (bs ++ b.branches), b' ∈ Branch.all (b :: bs) := fun b' hb' =>
    perm.mem_iff.mp (List.mem_cons_of_mem _ hb')
  refine ⟨settles.id.trans h.id, settles.bridge.trans h.native, settles.wf, fun b' hb' => ?_,
    fun b' hb' => h.functions b' (left b' hb'), distinct.2⟩
  have apart : b'.promise.id ≠ b.promise.id := fun e => distinct.1 (e ▸ List.mem_map_of_mem hb')
  exact ⟨(h.hung b' (left b' hb')).1, ((settles.find _).trans (if_neg apart)).trans (h.hung b' (left b' hb')).2⟩

/-- A tree that hangs on a promise is still to be visited. -/
theorem Hangs.bears (h : l.Hangs s.promise s.branches) (id : l.id = k) (native : l.bridge = .native)
    (wf : l.heap.Wf) : Bears k l [s.trunk] := by
  have every : Branch.all [s.trunk] = s.trunk :: Branch.all s.branches := by
    rw [Branch.all_cons, Branch.all_nil, List.append_nil]
    rfl
  have found : ∀ {q r}, l.record q = .ok r → q.home = k ∧ l.heap.get? q.id = some r := fun hr =>
    ⟨(record_eq_ok.mp hr).1.trans id, (record_eq_ok.mp hr).2⟩
  refine ⟨id, native, wf, fun b hb => ?_, fun b hb => ?_, ?_⟩
  · rw [every] at hb
    rcases List.mem_cons.mp hb with rfl | hb
    · exact found h.root
    · exact found (h.branches b hb)
  · rw [every] at hb
    rcases List.mem_cons.mp hb with rfl | hb
    · intro side f hf
      cases side <;> cases hf
    · exact h.functions b hb
  · rw [every]
    exact h.distinct

end Loop
end PromiseLoop

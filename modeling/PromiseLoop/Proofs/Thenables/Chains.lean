import PromiseLoop.Proofs.Thenables.Links

/-!
# Chains of thenables

A promise that is resolved with the outermost object of a chain takes one microtask for each of the objects,
and settles with the value at the inner end of the chain.  Only one adoption waits at any time, so the chain
does not become deep: each `then` is called when the one before it has returned.

What a loop does meanwhile is known to the last event.  What it looks like in between is then read off the
part of these events that has happened.

## Results

* `Machine.MeetsAt.unwind`: what a drain makes of a chain.
* `Machine.one_microtask_per_link`: a resolution with a chain, and the drain that unwinds it.
-/

namespace PromiseLoop

-- ---------------------------------------------------------------------------
-- What a loop does
-- ---------------------------------------------------------------------------

/-- What a loop does when a locked promise is resolved with what stands at the outer end of a chain, and when
the chain is unwound, oldest first. -/
def Thenable.course (p : Promise) (v : Value) : List Thenable → List Event
  | [] => (if v.isObjectLike then [.probed v] else []) ++ [.settled p.id .fulfilled v]
  | x :: links => .probed (.object x.object) :: .queued (x.adoption p) :: .started (x.adoption p) ::
      .invoked (.function x.call) :: course p v links

/-- The loop when a chain has been unwound. -/
def Loop.unwound (l : Loop) (p : Promise) (v : Value) : List Thenable → Loop
  | [] => l.settledAs p .fulfill v
  | x :: links => (((l.note (.probed (.object x.object))).enqueue (x.adoption p)).entered p x).unwound p v links

variable {p : Promise} {v : Value} {l : Loop} {r : Record} {x : Thenable} {links : List Thenable} {es : List Event}

theorem Loop.history_settledAs (hr : l.heap.get? p.id = some r) (pending : r.state = .pending)
    (bare : r.fulfillReactions = []) :
    (l.settledAs p .fulfill v).history = (Thenable.course p v []).reverse ++ l.history ∧
      (l.settledAs p .fulfill v).microtasks.entries = l.microtasks.entries := by
  have settles : r.settle .fulfilled v = some (r.settled .fulfilled v, r.released .fulfilled) :=
    Record.settle_eq_some.mpr ⟨pending, by simp, rfl, rfl⟩
  have fires : (r.released .fulfilled).fire = [] := bare
  have same : (l.asked v).heap.get? p.id = some r := by rw [heap_asked, hr]
  show ((l.asked v).settle p.id .fulfilled v).1.history = _ ∧
    ((l.asked v).settle p.id .fulfilled v).1.microtasks.entries = _
  rw [settle_of_settle same settles, fires]
  refine ⟨?_, by simp⟩
  unfold Loop.asked Thenable.course
  cases v.isObjectLike <;> rfl

theorem Loop.entries_offered (empty : l.microtasks.entries = []) :
    (l.offered p v (x :: links)).microtasks.entries = [x.adoption p] := by
  show l.microtasks.entries ++ [x.adoption p] = _
  rw [empty, List.nil_append]

/-- When a chain has been unwound, the promise has settled, and nothing waits. -/
theorem Loop.unwound_spec (hr : l.heap.get? p.id = some r) (pending : r.state = .pending)
    (bare : r.fulfillReactions = []) (empty : l.microtasks.entries = []) :
    (l.unwound p v links).history = (Thenable.course p v links).reverse ++ l.history ∧
      (l.unwound p v links).microtasks.entries = [] ∧
      (l.unwound p v links).heap.get? p.id = some (r.settled .fulfilled v) := by
  induction links generalizing l with
  | nil =>
    obtain ⟨history, entries⟩ := history_settledAs (v := v) hr pending bare
    refine ⟨history, entries.trans empty, ?_⟩
    rw [unwound, get?_settledAs hr pending, if_pos rfl]
    rfl
  | cons x links ih =>
    obtain ⟨history, entries, record⟩ :=
      ih (l := ((l.note (.probed (.object x.object))).enqueue (x.adoption p)).entered p x) hr rfl
    refine ⟨?_, entries, record⟩
    rw [unwound, history, Thenable.course]
    simp only [List.reverse_cons, List.append_assoc]
    rfl

-- ---------------------------------------------------------------------------
-- What it has done so far
-- ---------------------------------------------------------------------------

/-- Of the events of a chain, at any time: no more than one adoption has been queued that has not started, and
nothing has settled before the last one has. -/
theorem Thenable.so_far (h : es <+: course p v links ++ [Event.drained]) :
    (enqueued es.reverse).length ≤ (started es.reverse).length + 1 ∧
      ((started es.reverse).length < links.length → ∀ e ∈ es, e.isBystander = true) := by
  induction links generalizing es with
  | nil =>
    refine ⟨?_, fun h => absurd h (Nat.not_lt_zero _)⟩
    have few : (enqueued es.reverse).length ≤
        (enqueued (course p v [] ++ [Event.drained]).reverse).length := by
      obtain ⟨more, h⟩ := h
      rw [← h, List.reverse_append, enqueued_append]
      simp
    refine Nat.le_trans few (Nat.le_trans (Nat.le_of_eq ?_) (Nat.zero_le _))
    unfold course
    cases v.isObjectLike <;> rfl
  | cons x links ih =>
    rcases List.prefix_cons_iff.mp h with rfl | ⟨es, rfl, h₁⟩
    · simp [enqueued]
    rcases List.prefix_cons_iff.mp h₁ with rfl | ⟨es, rfl, h₂⟩
    · simp [enqueued, List.filterMap_cons, Event.queued?, Event.isBystander]
    rcases List.prefix_cons_iff.mp h₂ with rfl | ⟨es, rfl, h₃⟩
    · simp [enqueued, List.filterMap_cons, Event.queued?, Event.isBystander]
    rcases List.prefix_cons_iff.mp h₃ with rfl | ⟨es, rfl, h₄⟩
    · simp [enqueued, started, List.filterMap_cons, Event.queued?, Event.started?, Event.isBystander]
    obtain ⟨few, quiet⟩ := ih h₄
    simp only [enqueued, started, List.filterMap_reverse, List.reverse_reverse] at few quiet ⊢
    simpa [List.filterMap_cons, Event.queued?, Event.started?, Event.isBystander] using ⟨few, quiet⟩

/-- The same from the time on when the first adoption has been queued. -/
theorem Thenable.so_far_in_drain
    (h : es <+: .started (x.adoption p) :: .invoked (.function x.call) ::
      (course p v links ++ [Event.drained])) :
    (enqueued es.reverse).length ≤ (started es.reverse).length ∧
      ((started es.reverse).length < links.length + 1 → ∀ e ∈ es, e.isBystander = true) := by
  rcases List.prefix_cons_iff.mp h with rfl | ⟨es, rfl, h₁⟩
  · simp [enqueued]
  rcases List.prefix_cons_iff.mp h₁ with rfl | ⟨es, rfl, h₂⟩
  · simp [enqueued, List.filterMap_cons, Event.queued?, Event.isBystander]
  obtain ⟨few, quiet⟩ := so_far h₂
  simp only [enqueued, started, List.filterMap_reverse, List.reverse_reverse] at few quiet ⊢
  simpa [List.filterMap_cons, Event.queued?, Event.started?, Event.isBystander] using ⟨few, quiet⟩

/-- How a loop `l` may have changed while a promise takes `n` microtasks to settle: one job waits at most, and
the promise is pending until the last of the microtasks has been started. -/
structure Loop.Unwinding (l : Loop) (p : Promise) (n : Nat) (l' : Loop) : Prop where
  waits : l'.microtasks.entries.length ≤ 1
  pending : (started l'.history).length < (started l.history).length + n →
    ∃ r, l'.record p = .ok r ∧ r.state = .pending

/-- Every object of a chain has one job. -/
theorem Thenable.started_course (history : List Event) : started ((course p v links).reverse ++ history) =
    started history ++ links.map (Thenable.adoption p) := by
  rw [started_append]
  congr 1
  induction links with
  | nil =>
    unfold course
    cases v.isObjectLike <;> rfl
  | cons x links ih =>
    simp only [started, List.filterMap_reverse, List.reverse_reverse] at ih ⊢
    simp [course, List.filterMap_cons, Event.started?, ih]

/-- The function of every object of a chain is called once. -/
theorem Thenable.calls_course (history : List Event) : (tally ((course p v links).reverse ++ history)).calls =
    (tally history).calls ++ links.map fun x => .function x.call := by
  induction links generalizing history with
  | nil =>
    unfold course
    cases v.isObjectLike <;> simp [Event.tally]
  | cons x links ih =>
    rw [course]
    simp only [List.reverse_cons, List.append_assoc]
    rw [ih]
    simp [Event.tally]

theorem Loop.Unwinding.of_started {l' l'' : Loop} {n : Nat} (h : l.Unwinding p n l'')
    (same : started l.history = started l'.history) : l'.Unwinding p n l'' :=
  ⟨h.waits, fun early => h.pending (by rwa [same])⟩

namespace Machine

variable {m m' : Machine} {k : LoopId} {l' : Loop} {base : List Frame} {a i j : Nat} {outer : List Thenable}

/-- What has happened to a loop up to some time of a run is the first part of what happens until later. -/
theorem Reachable.so_far (hm : Reachable m) (hl : m.loop? k = some l) (hij : i ≤ j)
    (hx : (Machine.run i m).loop? k = some l') {y : Loop} (hy : (Machine.run j m).loop? k = some y)
    (history : y.history = es.reverse ++ l.history) : ∃ done, done <+: es ∧
      l'.history = done.reverse ++ l.history := by
  obtain ⟨newer, before⟩ := (Run.acts hm (runs_run i m) hl hx).history
  obtain ⟨d, rfl⟩ := Nat.exists_eq_add_of_le hij
  rw [run_add] at hy
  obtain ⟨newer', after⟩ := (Run.acts (hm.run i) (runs_run d _) hx hy).history
  rw [history, before, ← List.append_assoc, List.append_cancel_right_eq] at after
  refine ⟨newer.reverse, ⟨newer'.reverse, ?_⟩, by rw [List.reverse_reverse, before]⟩
  rw [← List.reverse_append, ← after, List.reverse_reverse]

/-- As long as nothing settles, a promise stays pending. -/
theorem Reachable.pending_of_bystanders (hm : Reachable m) (hr : Run m m') (hl : m.loop? k = some l)
    (hl' : m'.loop? k = some l') {newer : List Event} (history : l'.history = newer ++ l.history)
    (quiet : ∀ e ∈ newer, e.isBystander = true) {id : PromiseId} (record : l.heap.get? id = some r)
    (pending : r.state = .pending) : ∃ r', l'.heap.get? id = some r' ∧ r'.state = .pending := by
  obtain ⟨newer', history', stays⟩ := (Run.acts hm hr hl hl').advances (hm.wf hl)
  obtain rfl := List.append_cancel_right (history.symm.trans history')
  obtain ⟨r', record', -⟩ := stays id r record fun e he => Event.frees_of_isBystander (quiet e he) id
  refine ⟨r', record', ?_⟩
  have before := (record ▸ (hm.reactionsKept hl).record id).settlement?
  have after := (record' ▸ ((hm.runs hr).reactionsKept hl').record id).settlement?
  rw [history, ends_append_of_bystanders id _ quiet, settlement?_append quiet, before, if_pos pending] at after
  by_contra settled
  rw [if_neg settled] at after
  cases after

/-- Unwinding leaves one job waiting at most, and the promise pending until the last job has started. -/
theorem Reachable.unwinding {first y : Loop} {n : Nat} (hm : Reachable m) (hfirst : m.loop? k = some first)
    (home : p.home = k) (record : first.heap.get? p.id = some r) (pending : r.state = .pending)
    (same : started first.history = started l.history) (hij : i ≤ j)
    (hl' : (Machine.run i m).loop? k = some l') (hy : (Machine.run j m).loop? k = some y)
    (history : y.history = es.reverse ++ first.history)
    (few : ∀ done, done <+: es → first.microtasks.entries.length + (enqueued done.reverse).length ≤
      (started done.reverse).length + 1)
    (quiet : ∀ done, done <+: es → (started done.reverse).length < n → ∀ e ∈ done, e.isBystander = true) :
    l.Unwinding p n l' := by
  obtain ⟨done, part, history'⟩ := hm.so_far hfirst hij hl' hy history
  have reached := hm.run i
  refine ⟨?_, fun early => ?_⟩
  · have before := (hm.queueKept hfirst).fifo
    have after := (reached.queueKept hl').fifo
    dsimp only at before after
    rw [history', enqueued_append, started_append, before, List.append_assoc, List.append_assoc,
      List.append_cancel_left_eq] at after
    have lengths := congrArg List.length after
    simp only [List.length_append] at lengths
    have := few done part
    omega
  · rw [history', started_append, same, List.length_append] at early
    obtain ⟨r', hr', pending'⟩ := hm.pending_of_bystanders (runs_run i m) hfirst hl' history'
      (fun e he => quiet done part (by omega) e (List.mem_reverse.mp he)) record pending
    exact ⟨r', Loop.record_eq_ok.mpr ⟨home.trans (reached.placed k l' hl').symm, hr'⟩, pending'⟩

-- ---------------------------------------------------------------------------
-- The whole chain
-- ---------------------------------------------------------------------------

/-- A drain unwinds a chain, link by link. -/
theorem MeetsAt.unwind (hm : Reachable m) (h : m.MeetsAt k (.draining k :: base) a (l.offered p v links)
      (.draining k :: base) (.signal .done)) (empty : l.microtasks.entries = []) (home : p.home = k)
    (native : l.bridge = .native) (flat : v.IsFlat k) (unwinds : m.Unwinds k p (outer ++ links) v) :
    ∃ b, m.MeetsAt k (.draining k :: base) b (l.unwound p v links) (.draining k :: base) (.signal .done) := by
  induction links generalizing l a outer with
  | nil => exact ⟨a, h⟩
  | cons x links ih =>
    obtain ⟨b, -, told⟩ := h.link hm nofun (Loop.entries_offered empty) home native flat unwinds
    have rest : m.Unwinds k p ((outer ++ [x]) ++ links) v := by rwa [List.append_assoc]
    exact ih told rfl native rest

/-- A drain that finds nothing more ends, and its frame has stayed until then. -/
theorem MeetsAt.drained (h : m.MeetsAt k (.draining k :: base) a l (.draining k :: base) (.signal .done))
    (empty : l.microtasks.entries = []) : ∃ b l', (run b m).stack = base ∧ (run b m).control = .signal .done ∧
      (run b m).loop? k = some l' ∧ l'.history = .drained :: l.history ∧ l'.heap = l.heap ∧
      l'.microtasks = l.microtasks ∧ ∀ i < b, .draining k :: base <:+ (run i m).stack := by
  obtain ⟨b, -, ⟨⟨vars, names, shown⟩, lasts⟩, settled, -⟩ := h.cleared
  have popped : ({ run b m with stack := base, control := .signal .done } : Machine).Shows k
      ⟨l, (run b m).pairs, vars, names, base, .signal .done⟩ :=
    ⟨shown.placed, shown.named, shown.loop, shown.pairs, shown.vars, shown.names, rfl, rfl⟩
  have ended := popped.endDraining (t := .done) nofun empty
  rw [← step_of_signal settled shown.control shown.stack, ← run_succ'] at ended
  obtain ⟨releases, hl⟩ := ended.loop
  exact ⟨b + 1, _, ended.stack, ended.control, hl, rfl, rfl, rfl, fun i hi => lasts i (Nat.le_of_lt_succ hi)⟩

/-- A resolution takes the lock first. -/
theorem Shows.resolvesAt {n : Machine} {pairs : List Pair} {vars : Variables} {names : List (String × LoopId)}
    {c : Control} (h : m.Shows k ⟨l, pairs, vars, names, base, c⟩) (resolves : n = m.resolve k p v)
    (hr : l.record p = .ok r) (free : r.alreadyResolved = false) :
    n.ResolvesAt k base 0 (locked l p) base p v := by
  obtain ⟨n', taken, hn⟩ := h.withLock hr free v fun m => m.resolveLocked p v
  exact ⟨⟨n', pairs, vars, names, c, resolves.trans taken, hn⟩, nofun⟩

/-- A drain begins where none is under way. -/
theorem Shows.meetsAt {n : Machine} {pairs : List Pair} {vars : Variables} {names : List (String × LoopId)}
    {c : Control} (h : m.Shows k ⟨l, pairs, vars, names, base, c⟩) (drains : n = m.drain k)
    (rests : l.draining = false) : n.MeetsAt k (.draining k :: base) 0 l.startDraining (.draining k :: base)
      (.signal .done) := by
  obtain ⟨releases, hl⟩ := h.loop
  have begun := ((h.setLoop (l := l.startDraining) h.id_loop releases).push (.draining k)).signal .done
  have same : n = _ := drains.trans (drain_of_rests hl rests)
  refine ⟨⟨vars, names, ?_⟩, fun i hi => ?_⟩
  · rw [run, same]
    exact ⟨begun.placed, begun.named, begun.loop, rfl, begun.vars, begun.names, begun.stack, begun.control⟩
  · rw [Nat.le_zero.mp hi, run, same]
    exact begun.stack ▸ List.suffix_rfl

/-- What becomes of a resolution with the outermost object of a chain: the object is asked at once, and its
adoption is queued. -/
theorem ResolvesAt.begin {n : Machine} (h : n.ResolvesAt k base 0 l base p (.object x.object)) (hn : Reachable n)
    (home : p.home = k) (native : l.bridge = .native) (empty : l.microtasks.entries = [])
    (record : l.heap.get? p.id = some r) (pending : r.state = .pending)
    (unwinds : n.Unwinds k p (x :: links) v) : ∃ a,
      n.MeetsAt k base a (l.offered p v (x :: links)) base (.signal .done) ∧
        ∀ i ≤ a, ∀ l', (run i n).loop? k = some l' → l.Unwinding p (x :: links).length l' := by
  obtain ⟨-, stack, c, asks⟩ := h.asks home native List.suffix_rfl
  obtain ⟨first, hfirst, history, heap, microtasks⟩ := asks.exists_loop
  obtain ⟨a, -, offered⟩ := h.queued hn home native unwinds (List.mem_cons_self ..) List.suffix_rfl
  obtain ⟨last, hlast, history', -⟩ := offered.exists_loop
  have recorded : first.heap.get? p.id = some r := by rw [heap]; exact record
  have none : first.microtasks.entries = [] := by rw [microtasks]; exact empty
  have same : started first.history = started l.history := by rw [history]; rfl
  have events : last.history = [.queued (x.adoption p)].reverse ++ first.history := by
    rw [history', history]
    rfl
  refine ⟨a, offered, fun i hi l' hl' => hn.unwinding hfirst home recorded pending same hi hl' hlast events
    (fun done part => ?_) fun done part _ e he => ?_⟩
  · rw [none]
    rcases List.prefix_cons_iff.mp part with rfl | ⟨done, rfl, none⟩
    · simp [enqueued]
    · simp [List.prefix_nil.mp none, enqueued, Event.queued?]
  · rw [List.mem_singleton.mp (part.subset he)]
    rfl

/-- What becomes of a drain that comes to a chain: it unwinds it, and nothing else goes on when it calls a
`then`. -/
theorem MeetsAt.finish {n : Machine} (hn : Reachable n) (h : n.MeetsAt k (.draining k :: base) 0
      (l.offered p v (x :: links)) (.draining k :: base) (.signal .done))
    (home : p.home = k) (native : l.bridge = .native) (empty : l.microtasks.entries = [])
    (record : l.heap.get? p.id = some r) (pending : r.state = .pending) (bare : r.fulfillReactions = [])
    (flat : v.IsFlat k) (unwinds : n.Unwinds k p (x :: links) v) : ∃ b l₂,
      (run b n).stack = base ∧ (run b n).control = .signal .done ∧ (run b n).loop? k = some l₂ ∧
        l₂.history = .drained :: ((Thenable.course p v (x :: links)).reverse ++ l.history) ∧
        l₂.microtasks.entries = [] ∧ l₂.heap.get? p.id = some (r.settled .fulfilled v) ∧
        (∀ i ≤ b, ∀ l', (run i n).loop? k = some l' → l.Unwinding p (x :: links).length l') ∧
        ∀ i < b, ∀ y : Thenable, (run i n).occasion? = some (.running k (y.adoption p)) →
          (run i n).stack = .draining k :: base ∧ ∃ g,
            (run (i + 1) n).stack =
              .adopting p (.function (p.oneShot g .reject)) (.function y.call) :: .draining k :: base ∧
            (run (i + 1) n).control = .call y.call (.object y.object)
              [.function (p.oneShot g .fulfill), .function (p.oneShot g .reject)] := by
  obtain ⟨first, hfirst, queued, heap, microtasks⟩ := h.exists_loop
  have recorded : first.heap.get? p.id = some r := by rw [heap]; exact record
  have one : first.microtasks.entries = [x.adoption p] := by rw [microtasks]; exact Loop.entries_offered empty
  have same : started first.history = started l.history := by rw [queued]; rfl
  have whole : n.Unwinds k p ([] ++ x :: links) v := unwinds
  obtain ⟨c, unwound⟩ := h.unwind hn empty home native flat whole
  obtain ⟨course, entries, settled⟩ : _ ∧ (l.unwound p v (x :: links)).microtasks.entries = [] ∧ _ :=
    Loop.unwound_spec record pending bare empty
  obtain ⟨b, last, stack, control, hlast, noted, heap', microtasks', lasts⟩ := unwound.drained entries
  rw [course] at noted
  refine ⟨b, last, stack, control, hlast, noted, by rw [microtasks', entries], by rw [heap', settled],
    fun i hi l' hl' => ?_, fun i hi y runs => ?_⟩
  · have events : last.history = (.started (x.adoption p) :: .invoked (.function x.call) ::
        (Thenable.course p v links ++ [Event.drained])).reverse ++ first.history := by
      rw [noted, queued, Thenable.course]
      simp [Loop.offered, Loop.enqueue, Loop.note]
    refine hn.unwinding hfirst home recorded pending same hi hl' hlast events (fun done part => ?_)
      fun done part early => (Thenable.so_far_in_drain part).2 early
    · have few := (Thenable.so_far_in_drain part).1
      rw [one, List.length_singleton]
      omega
  · obtain ⟨s, rest, -, -, hs, -, next⟩ := occasion?_eq_running runs
    obtain ⟨⟨j, q⟩, found, -⟩ := Option.map_eq_some_iff.mp next
    obtain ⟨z, hz, -⟩ := Option.bind_eq_some_iff.mp found
    -- the drain is the one that has begun here
    obtain rfl : rest = base := by
      obtain ⟨above, stack⟩ := lasts i hi
      rw [hs] at stack
      cases above with
      | nil => exact (List.cons.inj stack).2.symm
      | cons f above =>
        have inside : .draining k ∈ rest := (List.cons.inj stack).2 ▸ by simp
        exact absurd inside ((hn.run i).not_mem_of_draining hz (hs ▸ List.suffix_rfl))
    obtain ⟨called, above, -⟩ := calls_of_running hz runs
    rw [run_succ']
    exact ⟨hs, _, hs ▸ above, called⟩

/-- **One microtask per link.**  Let a promise that is pending, not locked and without reactions be resolved
with the outermost of some objects, where nothing waits in the queue of its loop.  The `then` of each object
resolves with the next one, and that of the last one with a value that is no object.  What is done meanwhile
leaves the loop alone.

* The resolution comes to its end, and has queued one adoption.
* A drain that comes to the loop then comes to its end as well.  It has run as many microtasks as there are
  objects, which have called the functions of the objects, once each and in the order of the chain, and the
  promise is fulfilled with the value.
* At every time of both, one microtask waits at most, and the promise is pending until the last of these
  microtasks has been started.
* A microtask calls the `then` of its object when nothing is going on above the drain. -/
theorem one_microtask_per_link {n : Machine} {x : Thenable} (hn : Reachable n)
    (resolves : n = m.resolve k p (.object x.object)) (placed : m.Placed)
    (named : (m.names.any fun e => e.2 = k) = true) (hl : m.loop? k = some l) (native : l.bridge = .native)
    (rests : l.draining = false) (empty : l.microtasks.entries = []) (hr : l.record p = .ok r)
    (pending : r.state = .pending) (free : r.alreadyResolved = false) (bare : r.fulfillReactions = [])
    (flat : v.IsFlat k) (unwinds : n.Unwinds k p (x :: links) v) :
    ∃ a l₁, (run a n).stack = m.stack ∧ (run a n).control = .signal .done ∧ (run a n).loop? k = some l₁ ∧
      l₁.microtasks.entries = [x.adoption p] ∧
      (∀ i ≤ a, ∀ l', (run i n).loop? k = some l' → l.Unwinding p (x :: links).length l') ∧
      ∀ (m' n' : Machine) (releases : List PromiseId), Reachable n' → n' = m'.drain k → m'.Placed →
        (m'.names.any fun e => e.2 = k) = true → m'.loop? k = some { l₁ with releases } →
        n'.Unwinds k p (x :: links) v →
        ∃ b l₂ r₂, (run b n').stack = m'.stack ∧ (run b n').control = .signal .done ∧
          (run b n').loop? k = some l₂ ∧ l₂.microtasks.entries = [] ∧
          started l₂.history = started l.history ++ (x :: links).map (Thenable.adoption p) ∧
          (tally l₂.history).calls = (tally l.history).calls ++ (x :: links).map (fun y => .function y.call) ∧
          l₂.record p = .ok r₂ ∧ r₂.state = .fulfilled ∧ r₂.value = some v ∧
          (∀ i ≤ b, ∀ l', (run i n').loop? k = some l' → l.Unwinding p (x :: links).length l') ∧
          ∀ i < b, ∀ y : Thenable, (run i n').occasion? = some (.running k (y.adoption p)) →
            (run i n').stack = .draining k :: m'.stack ∧ ∃ g,
              (run (i + 1) n').stack =
                .adopting p (.function (p.oneShot g .reject)) (.function y.call) :: .draining k :: m'.stack ∧
              (run (i + 1) n').control = .call y.call (.object y.object)
                [.function (p.oneShot g .fulfill), .function (p.oneShot g .reject)] := by
  have shown : m.Shows k ⟨l, m.pairs, m.vars, m.names, m.stack, m.control⟩ :=
    ⟨placed, named, ⟨l.releases, hl⟩, rfl, rfl, rfl, rfl, rfl⟩
  obtain ⟨home', found⟩ := Loop.record_eq_ok.mp hr
  have home : p.home = k := home'.trans shown.id_loop
  -- the lock is taken, and nothing else has changed but for the attempt
  obtain ⟨lk, hlk⟩ : ∃ lk, lk = locked l p := ⟨_, rfl⟩
  have waiting : lk.heap.get? p.id = some { r with alreadyResolved := true } := by
    rw [hlk]
    show (l.heap.modify p.id _).get? p.id = _
    rw [Heap.get?_modify, found]
    rfl
  have empty' : lk.microtasks.entries = [] := by rw [hlk]; exact empty
  have native' : lk.bridge = .native := by rw [hlk]; exact native
  have begun' : started lk.history = started l.history := by rw [hlk]; rfl
  have called' : (tally lk.history).calls = (tally l.history).calls := by
    rw [hlk]
    exact List.append_nil _
  obtain ⟨a, offered, early⟩ := (hlk ▸ shown.resolvesAt resolves hr free).begin hn home native' empty' waiting
    pending unwinds
  obtain ⟨_, _, resolved⟩ := offered.shown
  obtain ⟨releases₁, hl₁⟩ := resolved.loop
  have entries : (lk.offered p v (x :: links)).microtasks.entries = [x.adoption p] := Loop.entries_offered empty'
  refine ⟨a, _, offered.stack_eq, offered.control_eq, hl₁, entries,
    fun i hi l' hl' => (early i hi l' hl').of_started begun',
    fun m' n' releases hn' drains placed' named' hl' unwinds' => ?_⟩
  have shown' : m'.Shows k ⟨lk.offered p v (x :: links), m'.pairs, m'.vars, m'.names, m'.stack, m'.control⟩ :=
    ⟨placed', named', ⟨_, hl'⟩, rfl, rfl, rfl, rfl, rfl⟩
  have rests' : (lk.offered p v (x :: links)).draining = false := by rw [hlk]; exact rests
  have begun : n'.MeetsAt k (.draining k :: m'.stack) 0 (lk.startDraining.offered p v (x :: links))
      (.draining k :: m'.stack) (.signal .done) := shown'.meetsAt drains rests'
  obtain ⟨b, last, stack, control, hlast, noted, nothing, fulfilled, late, calls⟩ :=
    begun.finish hn' home native' empty' waiting pending bare flat unwinds'
  refine ⟨b, last, _, stack, control, hlast, nothing, ?_, ?_,
    Loop.record_eq_ok.mpr ⟨home.trans ((hn'.run b).placed k _ hlast).symm, fulfilled⟩, rfl, rfl,
    fun i hi l' hl' => (late i hi l' hl').of_started begun', calls⟩
  · rw [noted, started_cons, Thenable.started_course]
    exact (List.append_nil _).trans (congrArg (· ++ _) begun')
  · rw [noted, tally_cons, Tally.calls_append, Thenable.calls_course]
    exact (List.append_nil _).trans (congrArg (· ++ _) called')

-- ---------------------------------------------------------------------------
-- A chain
-- ---------------------------------------------------------------------------

/-- The times among the next steps at which something is so. -/
def timesOf (P : Machine → Bool) : Nat → Machine → List Nat
  | 0, _ => []
  | n + 1, m => (if P m then [0] else []) ++ (timesOf P n m.step).map (· + 1)

/-- Something is so at these times and no later, as the machine is idle after the last of them. -/
def occurs (P : Machine → Bool) (N : Nat) (times : List Nat) (m : Machine) : Prop :=
  (run N m).isIdle = true ∧ P (run N m) = false ∧ timesOf P N m = times

theorem mem_of_occurs {P : Machine → Bool} {N : Nat} {times : List Nat} (occurs : m.occurs P N times)
    (h : P (run i m) = true) : i ∈ times := by
  obtain ⟨idle, quiet, rfl⟩ := occurs
  have early : i < N := by
    by_contra late
    obtain ⟨d, rfl⟩ := Nat.exists_eq_add_of_le (Nat.le_of_not_lt late)
    rw [run_add, run_of_isIdle idle, quiet] at h
    cases h
  clear idle quiet
  induction N generalizing m i with
  | zero => omega
  | succ N ih =>
    rw [timesOf, List.mem_append]
    cases i with
    | zero =>
      rw [if_pos (show P m = true from h)]
      exact .inl (List.mem_cons_self ..)
    | succ i =>
      rw [run_succ] at h
      exact .inr (List.mem_map_of_mem (ih h (by omega)))

/-- Whether something is waiting to hear of a `then`. -/
def awaitsThen (m : Machine) : Bool :=
  match m.control, m.stack with
  | .idle _, _ => false
  | _, .functionOnly :: _ => true
  | _, .hold _ :: .functionOnly :: _ => true
  | _, _ => false

/-- Whether the `then` of an adoption has just been called. -/
def callsThen (m : Machine) : Bool :=
  match m.control, m.stack with
  | .call .., .adopting .. :: _ => true
  | _, _ => false

/-- Whether a command is the innermost activity. -/
def isInCommand (m : Machine) : Bool :=
  m.stack.head?.any fun
    | .command .. => true
    | _ => false

/-- Whether a function has just given nothing to a command. -/
def givesNothing (m : Machine) : Bool :=
  match m.control with
  | .signal (.value .undefined) => m.isInCommand
  | _ => false

/-- Whether something has been done and nothing goes on. -/
def isDone (m : Machine) : Bool :=
  match m.control with
  | .signal .done => true
  | _ => false

/-- What goes on in the next `d` steps stays above the stack, and leaves the loop as it was. -/
def passes (k : LoopId) (frames : List Frame) (d : Nat) (m : Machine) : Prop :=
  (stacksOf d m).map (fun s => s.drop (s.length - frames.length)) = List.replicate (d + 1) frames ∧
    (run d m).loop? k = m.loop? k ∧ ((run d m).names.any fun e => e.2 = k) = true

theorem leaves_of_passes {frames : List Frame} {d : Nat} (h : m.passes k frames d) : m.Leaves k frames d where
  lasts := suffix_of_stacks h.1
  loop := by
    rw [h.2.1]
    cases m.loop? k with
    | none => exact ⟨[], rfl⟩
    | some l => exact ⟨l.releases, rfl⟩
  named := h.2.2

theorem IsAsking.awaitsThen {o : ObjectId} (h : IsAsking p o base m) : m.awaitsThen = true := by
  unfold Machine.awaitsThen
  cases h with
  | datum v hs hc => rw [hc, hs]; rfl
  | getter g hs hc => rw [hc, hs]; rfl

/-- An object whose `then` is a datum gives it at once. -/
theorem IsAsking.answered {chain : List Thenable} {o : ObjectId} {f : Callable}
    (asks : IsAsking p x.object base (run a m)) (mem : x ∈ chain) (fits : ∀ y ∈ chain, y.object = o → y.call = f)
    (top : (run a m).stack[1]? = some (.resolving p (.object o)))
    (answer : (run a m).control = .signal (.value (.function f)))
    (named : ((run a m).names.any fun e => e.2 = k) = true) : ∃ d,
      (run a m).Leaves k (asking p x.object ++ base) d ∧ (run (a + d) m).stack = asking p x.object ++ base ∧
        (run (a + d) m).control = .signal (.value (.function x.call)) := by
  cases asks with
  | datum v hs hc =>
    rw [hs] at top
    have same : x.object = o := Value.object.inj (Frame.resolving.inj (Option.some.inj top)).2
    exact ⟨0, leaves_of_passes ⟨by simp [stacksOf, hs], rfl, named⟩, hs, fits x mem same ▸ answer⟩
  | getter g hs hc => cases answer.symm.trans hc

/-- A machine whose script has made an object with a `then` that resolves with seven, another object with a
`then` that resolves with the first one, and a promise. -/
def nested : Machine :=
  let act (s : Step) (store : String) : Command := .step s (some store) false
  let tell (x : Operand) : Command := .step (.invoke (.argument 0) (.constant .undefined) [x]) none false
  (boot {} .console .native).obey
    [act (.routine "inner" [tell (.constant (.small 7))] true) "f", act (.object [("then", .variable "f")]) "o",
      act (.routine "outer" [tell (.variable "o")] true) "g", act (.object [("then", .variable "g")]) "q",
      act (.newPromise "main") "p"]

/-- The machine when it resolves the promise with the second object. -/
def nestedResolved : Machine := nested.start (.step (.resolve "main" (.variable "p") (.variable "q")) none false)

/-- The machine when it drains the loop after that. -/
def nestedDrained : Machine := (run 3 nestedResolved).start (.step (.drain "main") none false)

/-- The promise of `nested`. -/
def nestedPromise : Promise := ⟨⟨0⟩, 0, ⟨UInt32.ofNat 0, 0⟩⟩

/-- The chain of `nested`. -/
def nestedChain : List Thenable := [⟨⟨1⟩, .routine 1 "outer"⟩, ⟨⟨0⟩, .routine 0 "inner"⟩]

/-- What `nested` has: its loop and the record of its promise are new. -/
theorem nested_has : nested.isIdle = true ∧ nested.named? "main" = some ⟨0⟩ ∧
    nested.vars.lookup? "p" = some (.promise nestedPromise) ∧ nested.vars.lookup? "q" = some (.object ⟨1⟩) ∧
    (nested.names.any fun e => e.2 = ⟨0⟩) = true ∧
    (nested.loop? ⟨0⟩).map (fun l =>
      ((l.record nestedPromise).toOption, l.bridge, l.draining, l.microtasks.entries, started l.history)) =
        some (some {}, .native, false, [], []) := by
  cbv
  simp only [and_self]

/-- The course of the resolution. -/
theorem nestedResolved_course : nestedResolved.occurs awaitsThen 3 [0] ∧ nestedResolved.occurs callsThen 3 [] ∧
    nestedResolved.occurs isDone 3 [2] ∧ (run 2 nestedResolved).loop? ⟨0⟩ = (run 3 nestedResolved).loop? ⟨0⟩ ∧
    nestedResolved.stack[1]? = some (.resolving nestedPromise (.object ⟨1⟩)) ∧
    nestedResolved.control = .signal (.value (.function (.routine 1 "outer"))) ∧
    (nestedResolved.names.any fun e => e.2 = ⟨0⟩) = true ∧ (run 3 nestedResolved).named? "main" = some ⟨0⟩ ∧
    ((run 3 nestedResolved).names.any fun e => e.2 = ⟨0⟩) = true := by
  cbv
  simp only [and_self]

/-- The course of the drain: the outer `then` is called after one step and the inner one after thirteen, and
each is told that it has resolved before it ends. -/
theorem nestedDrained_course : (nestedDrained.occurs awaitsThen 25 [4] ∧ nestedDrained.occurs callsThen 25 [1, 13] ∧
      nestedDrained.occurs givesNothing 25 [7, 18]) ∧
    ((run 4 nestedDrained).stack[1]? = some (.resolving nestedPromise (.object ⟨0⟩)) ∧
      (run 4 nestedDrained).control = .signal (.value (.function (.routine 0 "inner"))) ∧
      ((run 4 nestedDrained).names.any fun e => e.2 = ⟨0⟩) = true) ∧
    ((run 1 nestedDrained).control = .call (.routine 1 "outer") (.object ⟨1⟩)
        [.function (nestedPromise.oneShot 0 .fulfill), .function (nestedPromise.oneShot 0 .reject)] ∧
      (run 1 nestedDrained).passes ⟨0⟩ (run 1 nestedDrained).stack 2 ∧
      (run (1 + 2) nestedDrained).control = .call (nestedPromise.oneShot 0 .fulfill) .undefined [.object ⟨0⟩] ∧
      (run (1 + 2) nestedDrained).stack = (run (1 + 2) nestedDrained).stack.take 3 ++ (run 1 nestedDrained).stack ∧
      (run (1 + 2) nestedDrained).pairs[0]? = some { promise := nestedPromise } ∧
      (run (1 + 2 + 4) nestedDrained).passes ⟨0⟩ (run 1 nestedDrained).stack 3 ∧
      (run (1 + 2 + 4 + 3) nestedDrained).stack = (run 1 nestedDrained).stack ∧
      (run (1 + 2 + 4 + 3) nestedDrained).control = .signal (.value .undefined) ∧
      (run (1 + 2) nestedDrained).isInCommand = true ∧
      -- the inner `then` is told in the course of another call
      ((run (1 + 2) nestedDrained).stack.flatMap Frame.held)[1]? = some (.object ⟨1⟩) ∧
      ((run 18 nestedDrained).stack.flatMap Frame.held)[1]? = some (.object ⟨0⟩)) ∧
    (run 13 nestedDrained).control = .call (.routine 0 "inner") (.object ⟨0⟩)
        [.function (nestedPromise.oneShot 1 .fulfill), .function (nestedPromise.oneShot 1 .reject)] ∧
      (run 13 nestedDrained).passes ⟨0⟩ (run 13 nestedDrained).stack 2 ∧
      (run (13 + 2) nestedDrained).control = .call (nestedPromise.oneShot 1 .fulfill) .undefined [.small 7] ∧
      (run (13 + 2) nestedDrained).stack =
        (run (13 + 2) nestedDrained).stack.take 3 ++ (run 13 nestedDrained).stack ∧
      (run (13 + 2) nestedDrained).pairs[1]? = some { promise := nestedPromise } ∧
      (run (13 + 2 + 3) nestedDrained).passes ⟨0⟩ (run 13 nestedDrained).stack 3 ∧
      (run (13 + 2 + 3 + 3) nestedDrained).stack = (run 13 nestedDrained).stack ∧
      (run (13 + 2 + 3 + 3) nestedDrained).control = .signal (.value .undefined) ∧
      (run (13 + 2) nestedDrained).isInCommand = true := by
  cbv
  simp only [and_self]

theorem reachable_nestedResolved : Reachable nestedResolved := .start (.obey (.boot _ _ _) _) nested_has.1 _

theorem reachable_nestedDrained : Reachable nestedDrained :=
  .start (reachable_nestedResolved.run 3) nestedResolved_course.1.1 _

theorem unwinds_nestedResolved : nestedResolved.Unwinds ⟨0⟩ nestedPromise nestedChain (.small 7) where
  answers x mem a base asks := by
    obtain ⟨asked, -, -, -, top, answer, named, -⟩ := nestedResolved_course
    obtain rfl := List.mem_singleton.mp (mem_of_occurs asked asks.awaitsThen)
    exact asks.answered mem (by decide) top answer named
  tells outer x inner split a g base hc hs := by
    obtain ⟨-, called, -⟩ := nestedResolved_course
    cases mem_of_occurs called (show callsThen (run a nestedResolved) = true by rw [callsThen, hc, hs])

/-- A `then` that has been called resolves after `d` steps, is told after `e` more that it has, and ends three
steps later. -/
theorem exists_tells {w : Value} {f : Callable} {d e g : Nat} {promise : Promise} {above frames : List Frame}
    (before : (run a m).passes k frames d) (call : (run (a + d) m).control = .call f .undefined [w])
    (split : (run (a + d) m).stack = above ++ frames) (unused : (run (a + d) m).pairs[g]? = some { promise })
    (once : ∀ b, a + d ≤ b → (run b m).stack = (run (a + d) m).stack →
      (run b m).control = .signal (.value .undefined) → b = a + d + e)
    (after : (run (a + d + e) m).passes k frames 3) (back : (run (a + d + e + 3) m).stack = frames)
    (reply : (run (a + d + e + 3) m).control = .signal (.value .undefined)) :
    ∃ d above this, (run a m).Leaves k frames d ∧ (run (a + d) m).control = .call f this [w] ∧
      (run (a + d) m).stack = above ++ frames ∧ (run (a + d) m).pairs[g]? = some { promise } ∧
      ∀ b, a + d ≤ b → (run b m).stack = above ++ frames →
        (run b m).control = .signal (.value .undefined) → ∃ e c,
          (run b m).Leaves k frames e ∧ (run (b + e) m).stack = frames ∧
            (run (b + e) m).control = .signal (Completion.signal c) := by
  refine ⟨d, above, .undefined, leaves_of_passes before, call, split, unused, fun b hb hs hc => ?_⟩
  obtain rfl := once b hb (hs.trans split.symm) hc
  exact ⟨3, .returned .undefined, leaves_of_passes after, back, reply⟩

theorem split_nestedChain {outer inner : List Thenable} (h : nestedChain = outer ++ x :: inner) :
    x = ⟨⟨1⟩, .routine 1 "outer"⟩ ∧ inner = [⟨⟨0⟩, .routine 0 "inner"⟩] ∨
      x = ⟨⟨0⟩, .routine 0 "inner"⟩ ∧ inner = [] := by
  match outer with
  | [] => exact .inl (by simpa [nestedChain, eq_comm] using h)
  | [y] => exact .inr (by simp_all [nestedChain, eq_comm])
  | y :: z :: outer => simp [nestedChain] at h

/-- The two times at which a `then` is told that it has resolved. -/
theorem told_nestedDrained {b : Nat} (top : (run i nestedDrained).isInCommand = true)
    (hs : (run b nestedDrained).stack = (run i nestedDrained).stack)
    (hc : (run b nestedDrained).control = .signal (.value .undefined)) : b = 7 ∨ b = 18 := by
  have gives : givesNothing (run b nestedDrained) = true := by
    rw [givesNothing, isInCommand, hs, hc]
    exact top
  simpa using mem_of_occurs nestedDrained_course.1.2.2 gives

theorem unwinds_nestedDrained : nestedDrained.Unwinds ⟨0⟩ nestedPromise nestedChain (.small 7) where
  answers x mem a base asks := by
    obtain ⟨⟨asked, -⟩, ⟨top, answer, named⟩, -⟩ := nestedDrained_course
    obtain rfl := List.mem_singleton.mp (mem_of_occurs asked asks.awaitsThen)
    exact asks.answered mem (by decide) top answer named
  tells outer x inner split a g base hc hs := by
    obtain ⟨⟨-, calls, -⟩, -, outermost, innermost⟩ := nestedDrained_course
    have time := mem_of_occurs calls (show callsThen (run a nestedDrained) = true by rw [callsThen, hc, hs])
    simp only [List.mem_cons, List.not_mem_nil, or_false] at time
    rcases time with rfl | rfl
    · obtain ⟨called, before, call, above, unused, after, back, reply, top, first, second⟩ := outermost
      obtain ⟨rfl, rfl⟩ | ⟨rfl, rfl⟩ := split_nestedChain split
      · cases called.symm.trans hc
        refine exists_tells (a := 1) (d := 2) (e := 4) before call above unused (fun b hb hs hc => ?_)
          after back reply
        obtain rfl | rfl := told_nestedDrained top hs hc
        · rfl
        · rw [hs, first] at second
          cases second
      · cases called.symm.trans hc
    · obtain ⟨called, before, call, above, unused, after, back, reply, top⟩ := innermost
      obtain ⟨rfl, rfl⟩ | ⟨rfl, rfl⟩ := split_nestedChain split
      · cases called.symm.trans hc
      · cases called.symm.trans hc
        refine exists_tells (a := 13) (d := 2) (e := 3) before call above unused (fun b hb hs hc => ?_)
          after back reply
        obtain rfl | rfl := told_nestedDrained top hs hc
        · omega
        · rfl

/-- The machine under the frame of a command on its first loop. -/
def commanded (m : Machine) (word : String) (operands : List Value) : Machine :=
  { m with trace := [] }.push
    (.command { word, store := none, catches := false, isControl := false, loop := some ⟨0⟩ } operands)

theorem loop?_commanded (m : Machine) (word : String) (operands : List Value) :
    (m.commanded word operands).loop? k = m.loop? k :=
  rfl

theorem Placed.commanded {m : Machine} (h : m.Placed) (word : String) (operands : List Value) :
    (m.commanded word operands).Placed :=
  h

theorem names_commanded (m : Machine) (word : String) (operands : List Value) :
    (m.commanded word operands).names = m.names :=
  rfl

theorem start_resolve (named : m.named? "main" = some ⟨0⟩) (promise : m.vars.lookup? "p" = some (.promise p))
    (value : m.vars.lookup? "q" = some v) :
    m.start (.step (.resolve "main" (.variable "p") (.variable "q")) none false) =
      (m.commanded "resolve" [.promise p]).resolve ⟨0⟩ p v := by
  have found : ({ m with trace := [] } : Machine).named? "main" = some ⟨0⟩ := named
  have given : ({ m with trace := [] } : Machine).evaluate (.variable "p") = .promise p := by
    show (m.vars.lookup? "p").getD .undefined = _
    rw [promise]
    rfl
  have put : ({ m with trace := [] } : Machine).evaluate (.variable "q") = v := by
    show (m.vars.lookup? "q").getD .undefined = _
    rw [value]
    rfl
  unfold start beginStep
  simp only [withPromise, withLoop, found, given, put, Value.asPromise?]
  rfl

theorem start_drain (named : m.named? "main" = some ⟨0⟩) : m.start (.step (.drain "main") none false) =
    (m.commanded (Step.drain "main").word []).drain ⟨0⟩ := by
  have found : ({ m with trace := [] } : Machine).named? "main" = some ⟨0⟩ := named
  unfold start beginStep
  simp only [withLoop, found]
  rfl

/-- The loop of `nested` and the record of its promise are new. -/
theorem exists_loop_nested : ∃ l, nested.loop? ⟨0⟩ = some l ∧ l.record nestedPromise = .ok {} ∧
    l.bridge = .native ∧ l.draining = false ∧ l.microtasks.entries = [] ∧ started l.history = [] := by
  obtain ⟨-, -, -, -, -, facts⟩ := nested_has
  obtain ⟨l, hl, facts⟩ := Option.map_eq_some_iff.mp facts
  simp only [Prod.mk.injEq] at facts
  obtain ⟨record, native, rests, empty, fresh⟩ := facts
  refine ⟨l, hl, ?_, native, rests, empty, fresh⟩
  cases hr : l.record nestedPromise with
  | ok r => rw [hr] at record; exact congrArg _ (Option.some.inj record)
  | error e => rw [hr] at record; cases record

/-- The loop has its adoption when the resolution ends, and is as it is then when the drain begins. -/
theorem done_nestedResolved (done : (run a nestedResolved).control = .signal .done) :
    (run a nestedResolved).loop? ⟨0⟩ = (run 3 nestedResolved).loop? ⟨0⟩ := by
  obtain ⟨-, -, ends, same, -⟩ := nestedResolved_course
  have ended := mem_of_occurs ends (show isDone (run a nestedResolved) = true by rw [isDone, done])
  rw [List.mem_singleton.mp ended, same]

theorem one_microtask_per_link_nested : ∃ b l r, (run b nestedDrained).control = .signal .done ∧
    (run b nestedDrained).loop? ⟨0⟩ = some l ∧
      started l.history = nestedChain.map (Thenable.adoption nestedPromise) ∧
      l.record nestedPromise = .ok r ∧ r.state = .fulfilled ∧ r.value = some (.small 7) := by
  obtain ⟨l, hl, hr, native, rests, empty, fresh⟩ := exists_loop_nested
  obtain ⟨-, main, promise, object, alive, -⟩ := nested_has
  obtain ⟨-, -, -, -, -, -, -, main', alive'⟩ := nestedResolved_course
  obtain ⟨m, hm⟩ : ∃ m, m = nested.commanded "resolve" [.promise nestedPromise] := ⟨_, rfl⟩
  have placed : m.Placed := hm ▸ (Reachable.obey (.boot _ _ _) _).placed.commanded _ _
  have named : (m.names.any fun e => e.2 = ⟨0⟩) = true := by rw [hm, names_commanded, alive]
  have found : m.loop? ⟨0⟩ = some l := by rw [hm, loop?_commanded, hl]
  have flat : (Value.small 7).IsFlat ⟨0⟩ := trivial
  obtain ⟨a, l₁, -, done, hl₁, -, -, drained⟩ := one_microtask_per_link reachable_nestedResolved
    (hm ▸ start_resolve main promise object) placed named found native rests empty hr rfl rfl rfl flat unwinds_nestedResolved
  obtain ⟨m', hm'⟩ : ∃ m', m' = (run 3 nestedResolved).commanded (Step.drain "main").word [] := ⟨_, rfl⟩
  have placed' : m'.Placed := hm' ▸ (reachable_nestedResolved.run 3).placed.commanded _ _
  have named' : (m'.names.any fun e => e.2 = ⟨0⟩) = true := by rw [hm', names_commanded, alive']
  have found' : m'.loop? ⟨0⟩ = some l₁ := by rw [hm', loop?_commanded, ← done_nestedResolved done, hl₁]
  obtain ⟨b, l₂, r₂, -, ended, hl₂, -, begun, -, hr₂, fulfilled, value, -⟩ :=
    drained m' nestedDrained l₁.releases reachable_nestedDrained (hm' ▸ start_drain main') placed' named' found'
      unwinds_nestedDrained
  rw [fresh] at begun
  exact ⟨b, l₂, r₂, ended, hl₂, begun, hr₂, fulfilled, value⟩

end Machine
end PromiseLoop

import PromiseLoop.Proofs.Handles.Runs
import PromiseLoop.Proofs.Reactions
import PromiseLoop.Proofs.Warrants.Commands

/-!
# At most one way to settle a promise

A one-shot function never looks at the lock of the record that it settles.  What keeps a promise from
being settled twice is that the right to settle it is handed around: whoever takes the lock has it,
leaves it with the resolution, which puts it into the queue with an adoption, which puts it into a pair
of functions, and calling one of the two brings it back into a resolution.  Scripts may run between any
two of these, and none of them can copy it.

## Results

* `Reachable.warranted`: in every reachable machine the loops are guarded.
* `at_most_one_way_to_settle`: nobody ever tries to settle a promise that has settled.
-/

namespace PromiseLoop.Machine

variable {m m' : Machine} {k : LoopId} {ks : List Mark} {p : Promise} {v : Value}

-- ---------------------------------------------------------------------------
-- Resuming
-- ---------------------------------------------------------------------------

theorem orderly_resumeCall (h : m.Warranted k ks none) (this : Value) (arguments : List Value)
    {s : Signal} (hs : Known ks s.held) : Orderly k (m.resumeCall this arguments s) := by
  refine orderly_drop_signal h _ ?_
  cases s <;> simp_all [Signal.held, Fault.thrown]

theorem orderly_resumeWork (h : m.Warranted k ks none) (s : Signal) : Orderly k (m.resumeWork s) := by
  unfold resumeWork
  split
  · exact orderly_signal h known_nil
  · exact orderly_drop_signal h _ known_nil
  · exact orderly_drop_signal h _ known_nil

theorem orderly_resumeFunctionOnly (h : m.Warranted k ks none) {s : Signal} (hs : Known ks s.held) :
    Orderly k (m.resumeFunctionOnly s) := by
  unfold resumeFunctionOnly
  split
  · exact orderly_signal h hs
  · exact orderly_drop_signal h _ known_nil
  · exact orderly_signal h hs

theorem orderly_resumeSubstitute (h : m.Warranted k ks none) {this : Value} {arguments : List Value}
    {s : Signal} (held : Known ks (arguments ++ [this])) (hs : Known ks s.held) :
    Orderly k (m.resumeSubstitute this arguments s) := by
  unfold resumeSubstitute
  simp only [known_append, known_cons] at held
  split
  · rename_i f
    have function : f.Known ks := by simpa [Signal.held] using hs
    exact orderly_callValue (h.push (f := .hold [f]) (by simpa [Frame.held] using function) rfl)
      (by simp [function, held])
  · exact orderly_drop_signal h _ hs

/-- The resolution has the warrant: it settles its promise, or queues the adoption of its value. -/
theorem orderly_resumeResolving (h : m.Warranted k ks (some p)) (held : Known ks [v, .promise p])
    {s : Signal} (hs : Known ks s.held) : Orderly k (m.resumeResolving p v s) := by
  simp only [known_cons, known_nil, Value.known_promise, and_true] at held
  unfold resumeResolving
  split
  · rename_i t
    have known : t.Known ks := by simpa [Signal.held] using hs
    cases hl : m.loop? p.home with
    | none =>
      rw [modifyLoop_of_gone hl]
      exact orderly_drop_signal (h.waive hl) _ known_nil
    | some l =>
      rw [modifyLoop_of_found (f := fun l => l.enqueue (.adoption p v t)) hl
        (show l.id = p.home from h.placed _ l hl)]
      exact orderly_drop_signal (h.adopt hl (by simp [held.1, known]) held.2) _ known_nil
  · exact orderly_settle h (by simp) (by simpa [Signal.held] using hs) _
  · exact orderly_settle h (by simp) held.1 _

theorem orderly_resumeReacting (h : m.Warranted k ks none) {handler : Value} {derived : Promise}
    {s : Signal} (held : Known ks [handler, .promise derived]) (hs : Known ks s.held) :
    Orderly k (m.resumeReacting handler derived s) := by
  have pushed := h.push (f := .hold [handler, .promise derived]) held rfl
  simp only [known_cons, Value.known_promise] at held
  unfold resumeReacting
  dsimp only
  split
  · exact orderly_resolve pushed _ ⟨_, held.2.1⟩ (by simpa [Signal.held] using hs)
  · exact orderly_reject pushed _ ⟨_, held.2.1⟩ (by simpa [Signal.held] using hs)
  · exact orderly_signal pushed hs

theorem orderly_resumeAdopting (h : m.Warranted k ks none) {resolver thenFunction : Value} {s : Signal}
    (held : Known ks [resolver, thenFunction, .promise p]) (hs : Known ks s.held) :
    Orderly k (m.resumeAdopting p resolver thenFunction s) := by
  have pushed := h.push (f := .discard [resolver, thenFunction, .promise p]) held rfl
  simp only [known_cons] at held
  unfold resumeAdopting
  dsimp only
  split
  · rename_i v f
    have function := Value.known_resolver.mp held.1
    have reason : v.Known ks := by simpa [Signal.held] using hs
    exact orderly_enterResolver pushed (by simp [function, reason])
  · exact orderly_signal pushed hs

theorem orderly_resumeAttaching (h : m.Warranted k ks none) {derived : Promise} {job : Option Job}
    (held : Known ks (.promise derived :: (job.map Job.held).getD []))
    (free : ∀ l, m.loop? derived.home = some l → job.bind Job.warrant? = none) (s : Signal) :
    Orderly k (m.resumeAttaching derived job s) := by
  simp only [known_cons] at held
  refine orderly_drop_signal (m := m.modifyLoop _ _) ?_ _ (by simpa [Signal.held] using held.1)
  cases hl : m.loop? derived.home with
  | none => rwa [modifyLoop_of_gone hl]
  | some l =>
    rw [modifyLoop_of_found (f := fun l => l.endAttach derived job) hl
      (by simpa using h.placed _ l hl)]
    refine h.setLoop (by rwa [h.placed _ l hl]) (l.mild_endAttach derived (free l hl)) ?_
    cases job with
    | none => exact h.loops _ l hl
    | some j => exact Loop.known_enqueue (h.loops _ l hl) held.2

/-- The job of a registration that was kept open runs a reaction. -/
theorem Reachable.job_of_attaching (hm : Reachable m) {derived : Promise} {job : Option Job}
    (hf : .attaching derived job ∈ m.stack) {l : Loop} (hl : m.loop? derived.home = some l) :
    ∃ x s v, job = some (Registration.job x s v) ∧ x.derived = derived := by
  have waiting : (derived, job) ∈ View.waiting ⟨l, m.turnsOf derived.home, m.sweepOf derived.home⟩ :=
    List.mem_filterMap.mpr ⟨_, List.mem_filter.mpr ⟨hf, by simp [Frame.isTurnOf]⟩, rfl⟩
  obtain ⟨-, -, x, s, v, -, same, -, rfl⟩ := (hm.reactionsKept hl).kept _ waiting
  exact ⟨x, s, v, rfl, same⟩

/-- Every frame goes on without a warrant left over. -/
theorem orderly_resume {f : Frame} {s : Signal} (h : m.Warranted k ks f.warrant?)
    (spent : m.control = .signal .done) (held : Known ks f.held) (hs : Known ks s.held)
    (reacts : ∀ derived job l, f = .attaching derived job → m.loop? derived.home = some l →
      job.bind Job.warrant? = none) : Orderly k (m.resume f s) := by
  cases f with
  | block rest => exact orderly_resumeBlock h rest hs
  | rounds body round remaining quiet => exact orderly_resumeRounds h body round remaining quiet hs
  | command info operands => exact orderly_endSignal h info operands hs
  | call this arguments quiet => exact orderly_resumeCall h this arguments hs
  | work quiet => exact orderly_resumeWork h s
  | hold values => exact orderly_drop_signal h _ hs
  | discard values => exact orderly_drop_signal h _ known_nil
  | give v values =>
    unfold resume
    dsimp only
    split
    · exact orderly_drop_signal h _ (known_cons.mpr ⟨(known_cons.mp held).1, known_nil⟩)
    · exact orderly_drop_signal h _ hs
  | surface values =>
    unfold resume
    dsimp only
    split
    · exact orderly_drop_signal h _ (by simp [Signal.held, Fault.thrown])
    · exact orderly_drop_signal h _ hs
  | functionOnly => exact orderly_resumeFunctionOnly h hs
  | substitute this arguments => exact orderly_resumeSubstitute h held hs
  | resolving p v => exact orderly_resumeResolving h held hs
  | reacting handler derived => exact orderly_resumeReacting h held hs
  | adopting p resolver thenFunction => exact orderly_resumeAdopting h held hs
  | constructing p =>
    exact orderly_resumeConstructing h (Value.known_promise.mp (known_cons.mp held).1) hs
  | attaching derived job =>
    refine orderly_resumeAttaching h held (fun l hl => reacts derived job l rfl hl) s
  | draining loop => exact orderly_resumeDraining h loop s
  | checkpoint loop => exact orderly_resumeCheckpoint h spent loop s
  | reporting loop reports => exact orderly_resumeReporting h spent loop held s
  | collecting loop sweep record => exact orderly_resumeCollecting h loop sweep record s
  | cycling loop => exact orderly_resumeCycling h loop s
  | idling loop => exact orderly_resumeIdling h spent loop s
  | finishing loop => exact orderly_resumeFinishing h spent loop s
  | concluding loop => exact orderly_resumeConcluding h loop s

-- ---------------------------------------------------------------------------
-- Steps
-- ---------------------------------------------------------------------------

/-- The marks of values. -/
def marks (vs : List Value) : List Mark := vs.filterMap Value.mark?

theorem known_marks {vs ws : List Value} (h : vs ⊆ ws) : Known (marks ws) vs := fun _ hv _ hk =>
  List.mem_filterMap.mpr ⟨_, h hv, hk⟩

theorem mem_held {v : Value} : v ∈ m.held ↔ v ∈ m.control.held ∨ v ∈ m.vars.held ∨ v ∈ m.heldByStack ∨
    v ∈ m.heldByLoops ∨ v ∈ m.heldByObjects := by
  simp [held]

theorem mem_heldByLoops {v : Value} : v ∈ m.heldByLoops ↔ ∃ j l, m.loop? j = some l ∧ v ∈ l.held := by
  rw [heldByLoops, List.mem_flatMap]
  constructor
  · rintro ⟨x, hx, hv⟩
    obtain ⟨n, hn⟩ := List.mem_iff_getElem?.mp hx
    cases x with
    | none => cases hv
    | some l => exact ⟨⟨n⟩, l, by simp [loop?, hn], hv⟩
  · rintro ⟨j, l, hl, hv⟩
    refine ⟨some l, ?_, hv⟩
    unfold loop? at hl
    cases hn : m.loops[j.number]? with
    | none => rw [hn] at hl; cases hl
    | some x =>
      rw [hn] at hl
      obtain rfl : x = some l := hl
      exact List.mem_of_getElem? hn

/-- Between steps exactly the marks of held values have to be known. -/
theorem Orderly.warranted (h : Orderly k m) : m.Warranted k (marks m.held) none := by
  obtain ⟨ks, h, control⟩ := h
  have all : Known ks m.held := fun v hv => by
    rcases mem_held.mp hv with hv | hv | hv | hv | hv
    · exact control v hv
    · exact h.vars v hv
    · exact h.stack v hv
    · obtain ⟨j, l, hl, hv⟩ := mem_heldByLoops.mp hv
      exact h.loops j l hl v hv
    · exact h.objects v hv
  have fewer : marks m.held ⊆ ks := fun x hx => by
    obtain ⟨v, hv, hx⟩ := List.mem_filterMap.mp hx
    exact all v hv x hx
  refine ⟨h.placed, h.sound, known_marks fun v hv => mem_held.mpr (by simp [hv]),
    known_marks fun v hv => mem_held.mpr (by simp [hv]), fun j l hl => known_marks fun v hv => ?_,
    known_marks fun v hv => mem_held.mpr (by simp [hv]), h.native,
    fun p n hp => h.fit p n (fewer hp), fun _ hp => (nomatch hp), fun x hx => h.homed x (fewer hx), h.paired,
    fun l hl room => ?_⟩
  · exact mem_held.mpr (.inr (.inr (.inr (.inl (mem_heldByLoops.mpr ⟨j, l, hl, hv⟩)))))
  · exact (h.guarded l hl room).congr (fun p ⟨home, g, hg⟩ => ⟨home, g, fewer hg⟩) fun _ _ => rfl

/-- A promise has a mark exactly if it has a handle. -/
theorem holds_of_mark {g : Option Nat} (h : ⟨p, g⟩ ∈ marks m.held) : m.holds (.promise p) = true := by
  obtain ⟨v, hv, hm⟩ := List.mem_filterMap.mp h
  rw [holds_eq_any_held, any_has_iff]
  exact mem_handles.mpr ⟨v, hv, Value.promise?_eq_some.mp (by rw [Value.promise?_eq_map_mark?, hm]; rfl)⟩

theorem known_of_holds (h : m.holds (.promise p) = true) : ∃ g, ⟨p, g⟩ ∈ marks m.held := by
  rw [holds_eq_any_held, any_has_iff] at h
  obtain ⟨v, hv, hp⟩ := mem_handles.mp h
  rw [← Value.promise?_eq_some, Value.promise?_eq_map_mark?] at hp
  obtain ⟨⟨q, g⟩, hm, rfl⟩ := Option.map_eq_some_iff.mp hp
  exact ⟨g, List.mem_filterMap.mpr ⟨v, hv, hm⟩⟩

theorem Orderly.step (h : Orderly k m) (hm : Reachable m) : Orderly k m.step := by
  have w := h.warranted
  have control : Known (marks m.held) m.control.held :=
    known_marks fun v hv => mem_held.mpr (.inl hv)
  unfold Machine.step
  split
  · rename_i l _
    exact ⟨_, w.removeLoop l, by rw [removeLoop, control_drop]; exact control⟩
  · split
    · exact h
    · rename_i f this arguments hc
      exact orderly_enter (w.signal .done) (by rwa [hc] at control)
    · rename_i loop s hc
      -- what is queued for release has no handle left
      refine orderly_collectNext (w.signal .done) fun l hk hl room id hid p held => ?_
      obtain ⟨home, g, hg⟩ := held
      have books := (hm.balanced k).1.books
      rw [hc] at books
      have due : id ∈ (Control.collect loop s).pendingOf k := by
        rw [Control.pendingOf, if_pos hk]
        exact hid
      refine ((books.ledger l hl room).loose id (List.mem_append_left _ due)).2 p ⟨home, ?_⟩
      rw [show Control.held (.collect loop s) = m.control.held by rw [hc]]
      exact (has_control_held _).mpr (holds_of_mark hg)
    · rename_i s hc
      rw [hc] at control
      split
      · exact ⟨_, w.control _, known_nil⟩
      · rename_i f rest hs
        obtain ⟨popped, held⟩ := w.pop hs
        refine orderly_resume (popped.control (.signal .done)) rfl held control ?_
        rintro derived job l rfl hl
        obtain ⟨x, s, v, rfl, -⟩ := hm.job_of_attaching (hs ▸ List.mem_cons_self ..) hl
        rfl

theorem Orderly.start (h : Orderly k m) (c : Command) :
    Orderly k (m.start c) := by
  have cleared := h.warranted.trace []
  unfold Machine.start
  dsimp only
  split
  · exact orderly_beginStep cleared _ _
  · exact orderly_beginCommand (cleared.push (f := .command .control []) known_nil rfl) c

/-- In every reachable machine the loops are guarded. -/
theorem Reachable.warranted (h : Reachable m) (k : LoopId) : m.Warranted k (marks m.held) none := by
  refine Orderly.warranted ?_
  induction h with
  | boot config tracker bridge =>
    have empty : ({} : Machine).Warranted k [] none := by
      refine ⟨placed_empty, ?_, by simp [Variables.held, Variables.empty], by simp [heldByStack], ?_,
        by simp [heldByObjects], ?_, by simp, by simp, by simp, by simp, fun l hl => by simp [loop?] at hl⟩ <;>
      · intro j l hl
        simp [loop?] at hl
    exact ⟨[], empty.openLoop "main" config tracker bridge, known_nil⟩
  | start _ _ c ih => exact ih.start c
  | step hm ih => exact ih.step hm

-- ---------------------------------------------------------------------------
-- Ways to settle
-- ---------------------------------------------------------------------------

/-- The pairs of one-shot functions for a promise that have not been used, and of which somebody holds
a function. -/
def usablePairs (m : Machine) (p : Promise) : Nat :=
  m.pairs.zipIdx.countP fun (x, n) =>
    x.promise = p && !x.fired && m.held.any fun v => v.mark? = some ⟨p, some n⟩

/-- The number of ways in which a promise of a loop can still be settled although its lock has been
taken. -/
def waysToSettle (m : Machine) (l : Loop) (p : Promise) : Nat :=
  l.adoptions.count p + m.usablePairs p + m.resolutions.count p

/-- `m'` is what a machine becomes when somebody in it gets to settle a promise: by taking its lock, by
going on with its resolution, or by the first call of a one-shot function. -/
inductive Entitles (m : Machine) (p : Promise) : Machine → Prop
  | lock {l l' : Loop} (hl : m.loop? l.id = some l) (hp : m.holds (.promise p) = true)
    (taken : l.lock p = .ok (true, l')) : Entitles m p (m.setLoop l')
  | resolution {v : Value} {rest : List Frame} (begun : m.stack = .resolving p v :: rest) :
    Entitles m p { m with stack := rest }
  | claim {r : Resolver} {m' : Machine} (hr : .function (.resolver r) ∈ m.held) (hp : r.promise = p)
    (claimed : m.claim r = .ok (true, m')) : Entitles m p m'

/-- A pair that can be used is among those that have not been. -/
theorem usablePairs_le (m : Machine) (p : Promise) : m.usablePairs p ≤ m.openPairs.count p := by
  rw [openPairs, List.count_eq_countP, List.countP_filterMap]
  conv_rhs => rw [← List.zipIdx_map_fst 0 m.pairs, List.countP_map]
  refine List.countP_mono_left fun x _ h => ?_
  obtain ⟨⟨rfl, unused⟩, -⟩ : (x.1.promise = p ∧ x.1.fired = false) ∧ _ := by simpa using h
  simp [Pair.warrant?, unused]

theorem waysToSettle_le (m : Machine) (l : Loop) (p : Promise) :
    m.waysToSettle l p ≤ (m.warrants l).count p := by
  have := usablePairs_le m p
  rw [waysToSettle, warrants, List.count_append, List.count_append]
  omega

theorem holds_of_mem {v : Value} {a : Handle} (hv : v ∈ m.held) (ha : v.handle? = some a) :
    m.holds a = true := by
  rw [holds_eq_any_held, any_has_iff]
  exact mem_handles.mpr ⟨v, hv, ha⟩

/-- What a frame holds is held. -/
theorem holds_of_stack {f : Frame} {v : Value} (hf : f ∈ m.stack) (hv : v ∈ f.held) {a : Handle}
    (ha : v.handle? = some a) : m.holds a = true :=
  holds_of_mem (mem_held.mpr (.inr (.inr (.inl (List.mem_flatMap.mpr ⟨f, hf, hv⟩))))) ha

/-- Whatever can settle a promise holds a handle on it. -/
theorem holds_of_waysToSettle {l : Loop} (hl : m.loop? k = some l) (h : 0 < m.waysToSettle l p) :
    m.holds (.promise p) = true := by
  rcases (by unfold waysToSettle at h; omega : 0 < l.adoptions.count p ∨ 0 < m.usablePairs p ∨
    0 < m.resolutions.count p) with h | h | h
  · obtain ⟨j, hj, hp⟩ := List.mem_filterMap.mp (List.count_pos_iff.mp h)
    refine holds_of_mem (v := .promise p) (mem_held.mpr ?_) rfl
    refine .inr (.inr (.inr (.inl (mem_heldByLoops.mpr ⟨k, l, hl, ?_⟩))))
    cases j with
    | adoption q t f =>
      cases hp
      simp only [Loop.held, List.mem_append, List.mem_flatMap]
      exact .inr ⟨_, hj, by simp [Job.held]⟩
    | _ => cases hp
  · obtain ⟨x, -, hx⟩ := List.countP_pos_iff.mp h
    obtain ⟨-, v, hv, mark⟩ : _ ∧ ∃ v ∈ m.held, v.mark? = some ⟨p, some x.2⟩ := by simpa using hx
    exact holds_of_mem hv (Value.promise?_eq_some.mp (by rw [Value.promise?_eq_map_mark?, mark]; rfl))
  · obtain ⟨f, hf, hp⟩ := List.mem_filterMap.mp (List.count_pos_iff.mp h)
    refine holds_of_mem (v := .promise p) (mem_held.mpr (.inr (.inr (.inl ?_)))) rfl
    cases f with
    | resolving q v =>
      cases hp
      exact List.mem_flatMap.mpr ⟨_, hf, by simp [Frame.held]⟩
    | _ => cases hp

theorem knows_iff : Knows (marks m.held) k p ↔ p.home = k ∧ m.holds (.promise p) = true :=
  and_congr_right fun _ => ⟨fun ⟨_, h⟩ => holds_of_mark h, known_of_holds⟩

/-- Whoever gets to settle a promise has the warrant for it. -/
theorem Entitles.warranted (he : m.Entitles p m') (h : m.Warranted k (marks m.held) none) :
    m'.Warranted k (marks m.held) (some p) := by
  cases he with
  | lock hl hp taken => exact h.lock hl (known_of_holds hp) taken
  | resolution begun => exact (h.pop begun).1
  | @claim r _ hr hp claimed =>
    subst hp
    exact h.claim (List.mem_filterMap.mpr ⟨_, hr, rfl⟩) claimed

/-- Taking a lock leaves the sizes of the heaps alone. -/
theorem slots_setLoop_of_lock {l l' x' : Loop} {accepted : Bool} (hl : m.loop? l.id = some l)
    (taken : l.lock p = .ok (accepted, l')) (hx : (m.setLoop l').loop? k = some x') :
    ∃ x, m.loop? k = some x ∧ x.heap.slots.length = x'.heap.slots.length := by
  obtain ⟨r, -, -, heq⟩ := Loop.lock_eq_ok.mp taken
  have id : l'.id = l.id := by rw [heq]; rfl
  by_cases hk : k = l.id
  · rw [hk, loop?_setLoop_self hl id] at hx
    obtain rfl := Option.some.inj hx
    exact ⟨l, hk ▸ hl, by rw [heq]; exact (Heap.slots_modify ..).symm⟩
  · rw [Machine.setLoop, loop?_modifyLoop_of_ne m (id ▸ Ne.symm hk)] at hx
    exact ⟨x', hx, rfl⟩

/-- Using up a pair leaves the loops alone. -/
theorem loop?_claim_flag {r : Resolver} {n : Nat} {accepted : Bool} (guard : r.guard = .flag n)
    (claimed : m.claim r = .ok (accepted, m')) : m'.loop? k = m.loop? k := by
  unfold Machine.claim at claimed
  rw [guard] at claimed
  obtain ⟨-, rfl⟩ := Prod.mk.inj (Except.ok.inj claimed)
  rfl

/-- Taking the right to settle a promise leaves the sizes of the heaps alone. -/
theorem Entitles.slots (he : m.Entitles p m') (placed : m.Placed) {x' : Loop}
    (hx : m'.loop? k = some x') :
    ∃ x, m.loop? k = some x ∧ x.heap.slots.length = x'.heap.slots.length := by
  cases he with
  | lock hl _ taken => exact slots_setLoop_of_lock hl taken hx
  | resolution => exact ⟨x', hx, rfl⟩
  | @claim r _ _ _ claimed =>
    match guard : r.guard with
    | .flag n => exact ⟨x', (loop?_claim_flag guard claimed) ▸ hx, rfl⟩
    | .lock =>
      unfold Machine.claim at claimed
      rw [guard] at claimed
      dsimp only at claimed
      split at claimed
      · cases claimed
      · rename_i l hl
        cases ht : l.lock _ with
        | error f => rw [ht] at claimed; cases claimed
        | ok taken =>
          rw [ht] at claimed
          obtain ⟨-, rfl⟩ := Prod.mk.inj (Except.ok.inj claimed)
          exact slots_setLoop_of_lock (by rwa [placed _ l hl]) ht hx

/-- The warrant for a promise is there to settle a pending record. -/
theorem Warranted.pending {l : Loop} (h : m.Warranted k ks (some p)) (hl : m.loop? k = some l)
    (room : l.heap.slots.length < 2 ^ 32) (home : p.home = k) :
    ∃ r, l.heap.get? p.id = some r ∧ r.state = .pending ∧ r.alreadyResolved = true :=
  (h.guarded l hl room).pending_of_mem ⟨home, h.mine p rfl⟩ (List.mem_cons_self ..)

/-- At most one way to settle a promise is ever outstanding: of the adoptions queued for it, the pairs
of functions handed out for it that have not been used, and its resolutions under way there is at most
one, even if pairs of which nobody holds a function any more are counted.  It is there exactly while
the record is locked and pending, as long as anybody has a handle; so there is none once the record
has settled, and none before the lock is taken.  Whoever gets to settle a promise, be it through a
function that does not look at the lock, finds its record still pending. -/
theorem at_most_one_way_to_settle (h : Reachable m) {l : Loop} (hl : m.loop? k = some l)
    (room : l.heap.slots.length < 2 ^ 32) (home : p.home = k) :
    m.waysToSettle l p ≤ (m.warrants l).count p ∧ (m.warrants l).count p ≤ 1 ∧
      (m.holds (.promise p) = true → (m.warrants l).count p =
        if (l.heap.get? p.id).map Record.phase = some (.pending, true) then 1 else 0) ∧
      (∀ r, l.heap.get? p.id = some r → r.alreadyResolved = false ∨ r.state ≠ .pending →
        m.waysToSettle l p = 0) ∧
      ∀ m' l', m.Entitles p m' → m'.loop? k = some l' →
        ∃ r, l'.heap.get? p.id = some r ∧ ∀ s v, s ≠ .pending → (r.settle s v).isSome = true := by
  have w := h.warranted k
  have guarded := w.guarded l hl room
  have few : (m.warrants l).count p ≤ 1 := guarded.once p (home.trans (h.placed k l hl).symm)
  have waits (hp : m.holds (.promise p) = true) := guarded.waits p (knows_iff.mpr ⟨home, hp⟩)
  refine ⟨m.waysToSettle_le l p, few, fun hp => ?_, fun r hr spent => ?_, fun m' l' he hl' => ?_⟩
  · split
    · rename_i phase
      exact Nat.le_antisymm few (List.count_pos_iff.mpr ((waits hp).mpr phase))
    · rename_i phase
      exact List.count_eq_zero.mpr fun mem => phase ((waits hp).mp mem)
  · by_contra some
    have ways : 0 < m.waysToSettle l p := Nat.pos_of_ne_zero some
    have mem := List.count_pos_iff.mp (Nat.lt_of_lt_of_le ways (m.waysToSettle_le l p))
    have phase := (waits (holds_of_waysToSettle hl ways)).mp mem
    rw [hr] at phase
    obtain ⟨pending, locked⟩ := Prod.mk.inj (Option.some.inj phase)
    rcases spent with free | settled
    · simp [locked] at free
    · exact settled pending
  · obtain ⟨x, hx, size⟩ := he.slots h.placed hl'
    obtain rfl := Option.some.inj (hl.symm.trans hx)
    obtain ⟨r, hr, pending, -⟩ := (he.warranted w).pending hl' (size ▸ room) home
    refine ⟨r, hr, fun s v settled => ?_⟩
    rw [Record.settle_eq_some.mpr ⟨pending, settled, rfl, rfl⟩]
    rfl

/-- A machine in which one promise has adopted another that is still pending.  The functions that the
adoption has handed out are the handlers registered on the other promise. -/
def adoptedPending : Machine :=
  (boot {} .log .native).obey
    [.step (.newPromise "main") (some "p") false, .step (.newPromise "main") (some "q") false,
      .step (.resolve "main" (.variable "q") (.variable "p")) none false,
      .step (.drain "main") none false]

theorem reachable_adoptedPending : Reachable adoptedPending := .obey (.boot _ _ _) _

/-- The adopting promise of `adoptedPending`. -/
def adopting : Promise := ⟨⟨0⟩, 1, ⟨1, 0⟩⟩

/-- The function that `adopting` waits for. -/
def adoptingResolve : Resolver := ⟨adopting, .flag 0, .fulfill⟩

theorem at_most_one_way_to_settle_adoptedPending :
    ∃ l m' l' r, adoptedPending.loop? ⟨0⟩ = some l ∧ adoptedPending.waysToSettle l adopting = 1 ∧
      (adoptedPending.warrants l).count adopting = 1 ∧
      adoptedPending.claim adoptingResolve = .ok (true, m') ∧ m'.loop? ⟨0⟩ = some l' ∧
      l'.heap.get? adopting.id = some r ∧ (r.settle .fulfilled .null).isSome = true := by
  obtain ⟨l, hl⟩ := Option.isSome_iff_exists.mp
    (by cbv : (adoptedPending.loop? ⟨0⟩).isSome = true)
  have room : (adoptedPending.loop? ⟨0⟩).map (fun l => l.heap.slots.length) = some 3 := by cbv
  have way : (adoptedPending.loop? ⟨0⟩).map (adoptedPending.waysToSettle · adopting) = some 1 := by cbv
  have held : adoptedPending.held.contains (.function (.resolver adoptingResolve)) = true := by cbv
  have claimed : (adoptedPending.claim adoptingResolve).toOption.map Prod.fst = some true := by cbv
  rw [hl] at room way
  obtain ⟨atMost, few, -, -, settles⟩ := at_most_one_way_to_settle reachable_adoptedPending hl
    (by rw [show l.heap.slots.length = 3 from Option.some.inj room]; decide) (p := adopting) rfl
  have way : adoptedPending.waysToSettle l adopting = 1 := Option.some.inj way
  cases hc : adoptedPending.claim adoptingResolve with
  | error f => rw [hc] at claimed; cases claimed
  | ok answer =>
    obtain ⟨accepted, m'⟩ := answer
    rw [hc] at claimed
    obtain rfl : accepted = true := Option.some.inj claimed
    have same := (loop?_claim_flag rfl hc).trans hl
    obtain ⟨r, hr, settled⟩ := settles m' l (.claim (List.contains_iff_mem.mp held) rfl hc) same
    exact ⟨l, m', l, r, hl, way, by omega, rfl, same, hr, settled .fulfilled .null (by decide)⟩

end PromiseLoop.Machine

import PromiseLoop.Proofs.Background.Settlements
import PromiseLoop.Proofs.Scenes.Commands
import PromiseLoop.Proofs.Trees.Forests

/-!
# Draining a tree

When a promise with a tree of registrations has settled, a drain visits the tree level by level.  Reports that
have been posted settle the promises of their completers first, in the order in which they were posted.  Every
other job calls the function of its registration, if there is one for the side that happened, and settles the
derived promise, whose branches come to the end of the queue.  What the functions do is up to the run: they
reply and leave the loop alone.

## Results

* `Machine.Visiting.land`, `Machine.Visiting.visit`: what one job does.
* `Machine.Visiting.lands`, `Machine.Visiting.level`, `Machine.Visiting.drain`: the reports that are applied
  first, a level, and the whole drain.
-/

namespace PromiseLoop

/-- A completion with a value that a loop takes as it is, where it has to be asked for a `then`. -/
def Completion.IsFlat (k : LoopId) (c : Completion) : Prop := ∀ v, c = .returned v → v.IsFlat k

theorem Completion.IsFlat.value {k : LoopId} {c : Completion} (h : c.IsFlat k) (fulfills : c.side = .fulfill) :
    c.value.IsFlat k := by
  cases c with
  | returned v => exact h v rfl
  | thrown v => cases fulfills

theorem Registration.isFlat_answer {k : LoopId} {reply : Replies} {c : Completion}
    (flat : ∀ d f v, (reply d f v).IsFlat k) (x : Registration) (h : c.IsFlat k) :
    (x.answer reply c).IsFlat k := by
  unfold Registration.answer
  split
  · exact flat _ _ _
  · exact h

/-- What some visits add to the tally of a history. -/
def Visit.tally (reply : Replies) (ts : List Visit) : Tally where
  jobs := ts.map Visit.job
  calls := ts.filterMap Visit.called
  settlements := ts.map fun t => (t.stem reply).settlement

theorem Visit.tally_singleton (reply : Replies) (t : Visit) : Visit.tally reply [t] =
    { jobs := [t.job], calls := t.called.toList } ++ { settlements := [(t.stem reply).settlement] } := by
  cases hc : t.called <;> ext1 <;> simp [Visit.tally, hc]

theorem Visit.tally_append (reply : Replies) (ts us : List Visit) :
    Visit.tally reply (ts ++ us) = Visit.tally reply ts ++ Visit.tally reply us := by
  ext1 <;> simp [Visit.tally]

theorem Visit.map_branch_visits_stem (reply : Replies) (t : Visit) :
    (t.stem reply).visits.map Visit.branch = t.branch.branches := by
  simp [Stem.visits, Visit.stem, Branch.stem, Function.comp_def]

/-- A primitive outcome is taken as it is. -/
theorem Use.isFlat_completion (k : LoopId) (u : Use) : u.completion.IsFlat k := fun v hv => by
  have flat (x : Literal) : x.value.IsFlat k := by
    obtain ⟨v, plain⟩ := x
    cases v <;> trivial
  cases u <;> cases hv
  exact flat _

namespace Machine

variable {m : Machine} {k : LoopId} {reply : Replies} {l l' : Loop} {stack stack' : List Frame}
  {c c' : Control}

-- ---------------------------------------------------------------------------
-- Times of a run
-- ---------------------------------------------------------------------------

/-- At some time of its run a machine shows a loop, a stack and a control, whatever else it has then. -/
def Meets (m : Machine) (k : LoopId) (l : Loop) (stack : List Frame) (c : Control) : Prop :=
  ∃ n pairs vars names, (run n m).Shows k ⟨l, pairs, vars, names, stack, c⟩

theorem Meets.to (h : m.Meets k l stack c) (next : ∀ pairs vars names,
    Scene.To k ⟨l, pairs, vars, names, stack, c⟩ ⟨l', pairs, vars, names, stack', c'⟩) :
    m.Meets k l' stack' c' := by
  obtain ⟨n, pairs, vars, names, shown⟩ := h
  obtain ⟨i, shown⟩ := next pairs vars names _ shown
  exact ⟨n + i, pairs, vars, names, by rwa [run_add]⟩

/-- Throughout a run, the functions that are called for registrations on promises of a loop reply, and leave
the loop and its name alone. -/
def RepliesAs (k : LoopId) (reply : Replies) (m : Machine) : Prop :=
  ∀ n f d v rest l, (run n m).control = .call f .undefined [v] →
    (run n m).stack = .reacting (.function f) d :: rest → d.home = k → (run n m).loop? k = some l →
    ∃ i releases, (run (n + i) m).control = .signal (reply d f v).signal ∧
      (run (n + i) m).stack = (run n m).stack ∧ (run (n + i) m).loop? k = some { l with releases } ∧
      ((run (n + i) m).names.any fun e => e.2 = k) = true

/-- A function that has been called for a registration replies. -/
theorem Meets.replied {f : Callable} {d : Promise} {v : Value} (hm : Reachable m) (hr : m.RepliesAs k reply)
    (home : d.home = k)
    (h : m.Meets k l (.reacting (.function f) d :: stack) (.call f .undefined [v])) :
    m.Meets k l (.reacting (.function f) d :: stack) (.signal (reply d f v).signal) := by
  obtain ⟨n, pairs, vars, names, shown⟩ := h
  obtain ⟨releases, hl⟩ := shown.loop
  obtain ⟨i, releases', control, still, hl', named⟩ := hr n f d v stack _ shown.control shown.stack home hl
  exact ⟨n + i, _, _, _, (hm.run _).placed, named, ⟨releases', hl'⟩, rfl, rfl, rfl,
    still.trans shown.stack, control⟩

-- ---------------------------------------------------------------------------
-- Jobs
-- ---------------------------------------------------------------------------

/-- A reaction without a handler passes on what it is told. -/
theorem Shows.startReaction_pass {n : Machine} {s : Scene} {x : Registration} {c : Completion} {r : Record}
    (h : n.Shows k s) (hr : s.loop.record x.derived = .ok r) (free : r.alreadyResolved = false)
    (native : s.loop.bridge = .native) (hh : x.handler c.side = none) (flat : c.IsFlat k) :
    (n.startReaction k (x.reaction c.side) c.value).Comes k
      { s with loop := s.loop.resolved x.derived c.side c.value, control := .signal .done } := by
  have held := h.push (.hold [.promise x.derived])
  have handler : (x.reaction c.side).handler = none := hh
  unfold Machine.startReaction
  rw [handler]
  cases c with
  | returned v => exact (held.resolve hr free native (flat v rfl)).to (Scene.to_of_hold _)
  | thrown v => exact (held.reject hr free v).to (Scene.to_of_hold _)

/-- A reaction calls the function that it has. -/
theorem Shows.startReaction_call {n : Machine} {s : Scene} {x : Registration} {side : Side} {f : Callable}
    {v : Value} (h : n.Shows k s) (hh : x.handler side = some (.function f)) :
    (n.startReaction k (x.reaction side) v).Shows k { s with
      loop := s.loop.note (.invoked (.function f))
      stack := .reacting (.function f) x.derived :: s.stack
      control := .call f .undefined [v] } := by
  have derived : (x.reaction side).derived = x.derived := by cases side <;> rfl
  have handler : (x.reaction side).handler = some (.function f) := hh
  unfold Machine.startReaction
  rw [handler, derived]
  exact (h.push (.reacting (.function f) x.derived)).invoke f .undefined [v]

/-- A report is applied to its promise. -/
theorem Shows.startSettlement {n : Machine} {s : Scene} {x : Seed} {r : Record} (h : n.Shows k s)
    (flying : (s.loop.inFlight.find? fun p => p.id = x.promise.id) = some x.promise)
    (hr : s.loop.record x.promise = .ok r) (free : r.alreadyResolved = false)
    (native : s.loop.bridge = .native) : (n.startSettlement k x.report).Comes k { s with
      loop := (s.loop.land x.promise.id).2.resolved x.promise x.root.completion.side x.root.completion.value
      control := .signal .done } := by
  obtain ⟨releases, hl⟩ := h.loop
  have landed : Loop.land { s.loop with releases } x.report.promise =
      (some x.promise, { (s.loop.land x.promise.id).2 with releases }) := Prod.ext flying rfl
  have held := (h.setLoop (l := (s.loop.land x.promise.id).2) h.id_loop releases).push
    (.hold [.promise x.promise])
  have flat := x.use.isFlat_completion k
  rw [startSettlement_of_land hl landed]
  unfold Seed.root Seed.report
  cases hu : x.use with
  | success y =>
    exact (held.resolve hr free native (flat y.value (by rw [hu]; rfl))).to (Scene.to_of_hold _)
  | failure y => exact (held.reject hr free y.value).to (Scene.to_of_hold _)
  | drop => exact (held.reject hr free Loop.abandonedError).to (Scene.to_of_hold _)

/-- A drain is between two jobs.  The reports of the seeds `ss` are to be applied next, and the visits `ts`
are to be made after them; the trees in `rest` are left alone. -/
structure Visiting (m : Machine) (k : LoopId) (stack : List Frame) (l : Loop) (ss : List Seed)
    (ts : List Visit) (rest : List Branch) : Prop where
  meets : m.Meets k l (.draining k :: stack) (.signal .done)
  entries : l.microtasks.entries = (ss.map fun s => .settlement s.report) ++ ts.map Visit.job
  bears : Loop.Bears k l (ss.map (fun s => s.root.trunk) ++ (ts.map Visit.branch ++ rest))
  told : ∀ t ∈ ts, t.told.IsFlat k
  flying : ∀ s ∈ ss, s.promise ∈ l.inFlight

variable {s : Seed} {ss : List Seed} {t : Visit} {ts us : List Visit} {rest : List Branch}

/-- A report settles the promise of its completer. -/
theorem Visiting.land (hm : Reachable m) (room : l.heap.slots.length < 2 ^ 32)
    (h : m.Visiting k stack l (s :: ss) ts rest) : ∃ l',
      l.Settles [s.root] { jobs := [.settlement s.report], settlements := [s.root.settlement] } l' ∧
      m.Visiting k stack l' ss (ts ++ s.root.visits) rest := by
  obtain ⟨meets, entries, bears, told, flying⟩ := h
  have next := Loop.dequeue?_of_entries entries
  let taken := l.took (.settlement s.report) ((ss.map fun s => .settlement s.report) ++ ts.map Visit.job)
  let x := (taken.land s.promise.id).2
  have hung := (bears.hung s.root.trunk (Branch.mem_all_of_mem (List.mem_cons_self ..))).2
  have record : taken.record s.promise = .ok (Branch.hung s.branches) :=
    bears.record (List.mem_cons_self ..)
  have first : (l.inFlight.find? fun p => p.id = s.promise.id) = some s.promise := by
    obtain ⟨n, _, _, _, shown⟩ := meets
    obtain ⟨releases, hl⟩ := shown.loop
    have distinct := ((hm.run n).distinct_inFlight (hm.run n).staffed.2 hl room).1
    have some : (l.inFlight.find? fun p => p.id = s.promise.id).isSome = true :=
      List.find?_isSome.mpr ⟨s.promise, flying s (List.mem_cons_self ..), by simp⟩
    obtain ⟨p, hp⟩ := Option.isSome_iff_exists.mp some
    have same : p.id = s.promise.id := by simpa using List.find?_some hp
    rw [hp, List.inj_on_of_nodup_map distinct (List.mem_of_find?_eq_some hp)
      (flying s (List.mem_cons_self ..)) same]
  have settles : x.SettlesStem s.root _ := x.settlesStem_resolved bears.wf hung
  have prepares : l.Prepares s.promise.id { jobs := [.settlement s.report] } x :=
    ⟨rfl, rfl, rfl, fun p hp ne => (List.mem_eraseP_of_neg (by simpa using ne)).mpr hp, rfl⟩
  have settled := settles.settles prepares hung
  refine ⟨_, settled, meets.to fun pairs vars names => Scene.to_of_job nofun next fun n hn =>
    hn.startSettlement first record rfl bears.native, ?_, ?_, fun u hu => ?_, fun s' hs' => ?_⟩
  · rw [settles.entries, List.map_append, ← List.append_assoc]
    rfl
  · -- the branches of the promise come to the end of the queue
    have taken : Loop.Bears k x _ := bears.of_heap rfl rfl rfl
    refine (taken.settle (c := s.root.completion) settles).perm ?_
    simp only [List.append_eq, List.map_append, List.append_assoc, Seed.root, Stem.trunk, Stem.visits,
      List.map_map, Function.comp_def, List.map_id_fun', id_eq]
    exact (List.perm_append_comm.append_left _).append_left _
  · rcases List.mem_append.mp hu with hu | hu
    · exact told u hu
    · obtain ⟨b, -, rfl⟩ := List.mem_map.mp hu
      exact s.use.isFlat_completion k
  · refine settled.inFlight _ (flying s' (List.mem_cons_of_mem _ hs')) fun t ht => ?_
    obtain rfl := List.mem_singleton.mp ht
    have distinct := bears.distinct
    rw [List.map_cons, List.cons_append, Branch.all_cons, List.map_cons, List.nodup_cons] at distinct
    intro e
    refine distinct.1 (List.mem_map.mpr ⟨s'.root.trunk, List.mem_append_right _ ?_, e.symm⟩)
    exact Branch.mem_all_of_mem (List.mem_append_left _ (List.mem_map_of_mem hs'))

/-- A visit settles the derived promise with the answer of its registration. -/
theorem Visiting.visit (hm : Reachable m) (hr : m.RepliesAs k reply) (flat : ∀ d f v, (reply d f v).IsFlat k)
    (h : m.Visiting k stack l [] (t :: ts) rest) : ∃ l', l.Settles [t.stem reply] (Visit.tally reply [t]) l' ∧
      m.Visiting k stack l' [] (ts ++ (t.stem reply).visits) rest := by
  obtain ⟨meets, entries, bears, told, -⟩ := h
  have told' : t.told.IsFlat k := told t (List.mem_cons_self ..)
  have first : t.branch ∈ Branch.all (t.branch :: (ts.map Visit.branch ++ rest)) :=
    Branch.mem_all_of_mem (List.mem_cons_self ..)
  have hung := (bears.hung _ first).2
  have next := Loop.dequeue?_of_entries (show l.microtasks.entries = t.job :: ts.map Visit.job from entries)
  let taken := l.took t.job (ts.map Visit.job)
  -- the loop in which the derived promise is settled has noted whether a function was called
  suffices H : ∃ x : Loop, l.Prepares t.branch.promise.id { jobs := [t.job], calls := t.called.toList } x ∧
      x.id = l.id ∧ x.bridge = l.bridge ∧ x.microtasks.entries = ts.map Visit.job ∧
      m.Meets k (x.resolved t.branch.promise (t.stem reply).completion.side (t.stem reply).completion.value)
        (.draining k :: stack) (.signal .done) by
    obtain ⟨x, prepares, id, bridge, entries', meets⟩ := H
    have bears' := bears.of_heap id bridge prepares.heap
    have settles := x.settlesStem_resolved (s := t.stem reply) bears'.wf (bears'.hung _ first).2
    refine ⟨_, Visit.tally_singleton reply t ▸ settles.settles prepares hung, meets,
      settles.entries.trans (by rw [entries', List.map_append]; rfl), ?_, fun u hu => ?_, nofun⟩
    · rw [List.map_append, Visit.map_branch_visits_stem]
      refine (bears'.settle settles).perm ?_
      rw [List.append_eq, List.append_assoc, List.append_assoc]
      exact List.perm_append_comm.append_left _
    · rcases List.mem_append.mp hu with hu | hu
      · exact told u (List.mem_cons_of_mem _ hu)
      · obtain ⟨b, -, rfl⟩ := List.mem_map.mp hu
        exact Registration.isFlat_answer flat _ told'
  have record : taken.record t.branch.promise = .ok (Branch.hung t.branch.branches) :=
    bears.record (List.mem_cons_self ..)
  have answer : (t.stem reply).completion = t.branch.registration.answer reply t.told := rfl
  cases hh : t.branch.registration.handler t.told.side with
  | none =>
    -- what the promise has settled with is passed on
    have called : t.called = none := hh
    refine ⟨taken, ⟨rfl, rfl, rfl, fun p hp _ => hp, by rw [called]; rfl⟩, rfl, rfl, rfl,
      meets.to fun pairs vars names => ?_⟩
    rw [answer, Registration.answer, hh]
    exact Scene.to_of_job nofun next fun n hn => hn.startReaction_pass record rfl bears.native hh told'
  | some f =>
    obtain ⟨f, rfl⟩ := bears.functions t.branch first t.told.side f hh
    have called : t.called = some (.function f) := hh
    let asked := taken.note (.invoked (.function f))
    have counted : tally asked.history = tally l.history ++ { jobs := [t.job], calls := [.function f] } := by
      show tally l.history ++ _ ++ _ = _
      rw [Tally.append_assoc]
      rfl
    have begun : m.Meets k asked (.reacting (.function f) t.branch.promise :: .draining k :: stack)
        (.call f .undefined [t.told.value]) := meets.to fun pairs vars names =>
      Scene.to_of_job nofun next fun n hn => (hn.startReaction_call hh).comes
    have replied := begun.replied hm hr (bears.hung _ first).1
    refine ⟨asked, ⟨rfl, rfl, rfl, fun p hp _ => hp, by rw [called]; exact counted⟩, rfl, rfl, rfl,
      replied.to fun pairs vars names => ?_⟩
    rw [answer, Registration.answer, hh]
    exact Scene.to_of_reacting _ bears.native record rfl (flat _ _ _)

-- ---------------------------------------------------------------------------
-- Drains
-- ---------------------------------------------------------------------------

/-- The reports are applied one after the other, and the branches of their promises come to the end of the
queue. -/
theorem Visiting.lands (hm : Reachable m) (room : l.heap.slots.length < 2 ^ 32)
    (h : m.Visiting k stack l ss ts rest) : ∃ counted l', l.Settles (ss.map Seed.root) counted l' ∧
      counted.reports = [] ∧ m.Visiting k stack l' [] (ts ++ ss.flatMap fun s => s.root.visits) rest := by
  induction ss generalizing l ts with
  | nil => exact ⟨{}, l, Loop.settles_of_eq rfl rfl rfl rfl rfl, rfl, by simpa using h⟩
  | cons s ss ih =>
    obtain ⟨l₁, settles, visiting⟩ := h.land hm room
    obtain ⟨counted, l', settles', unreported, landed⟩ := ih (settles.counts.slots ▸ room) visiting
    refine ⟨_, l', settles.trans settles', unreported, ?_⟩
    rwa [List.append_assoc] at landed

/-- The visits of a level are made one after the other, and those that follow from them come to the end of the
queue. -/
theorem Visiting.level (hm : Reachable m) (hr : m.RepliesAs k reply) (flat : ∀ d f v, (reply d f v).IsFlat k)
    (h : m.Visiting k stack l [] (ts ++ us) rest) : ∃ l',
      l.Settles (ts.map (Visit.stem reply)) (Visit.tally reply ts) l' ∧
      m.Visiting k stack l' [] (us ++ Visit.next reply ts) rest := by
  induction ts generalizing l us with
  | nil => exact ⟨l, Loop.settles_of_eq rfl rfl rfl rfl rfl, by simpa [Visit.next] using h⟩
  | cons t ts ih =>
    obtain ⟨l₁, settles, visited⟩ := h.visit hm hr flat
    rw [List.append_eq, List.append_assoc] at visited
    obtain ⟨l', settles', visiting⟩ := ih visited
    refine ⟨l', Visit.tally_append reply [t] ts ▸ settles.trans settles', ?_⟩
    simpa [Visit.next] using visiting

/-- A drain makes all visits, breadth first. -/
theorem Visiting.drain (hm : Reachable m) (hr : m.RepliesAs k reply) (flat : ∀ d f v, (reply d f v).IsFlat k)
    (h : m.Visiting k stack l [] ts rest) : ∃ l',
      l.Settles ((breadthFirst reply ts).map (Visit.stem reply)) (Visit.tally reply (breadthFirst reply ts)) l' ∧
      m.Visiting k stack l' [] [] rest := by
  induction ts using visits_induction reply generalizing l with
  | nil =>
    rw [breadthFirst_nil]
    exact ⟨l, Loop.settles_of_eq rfl rfl rfl rfl rfl, h⟩
  | level ts _ ih =>
    have first : m.Visiting k stack l [] (ts ++ []) rest := by rwa [List.append_nil]
    obtain ⟨l₁, settles, visiting⟩ := first.level hm hr flat
    rw [List.nil_append] at visiting
    obtain ⟨l', settles', drained⟩ := ih visiting
    refine ⟨l', ?_, drained⟩
    rw [breadthFirst_eq, Visit.tally_append, List.map_append]
    exact settles.trans settles'

end Machine
end PromiseLoop

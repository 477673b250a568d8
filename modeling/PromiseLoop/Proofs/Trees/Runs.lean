import PromiseLoop.Proofs.RecordStates
import PromiseLoop.Proofs.Trees.Checkpoints

/-!
# Trees of registrations in runs

A host settles a promise on which a tree of registrations hangs, and asks for a checkpoint.  The checkpoint
visits the tree breadth first, reports the rejections that nobody handles, and ends.

## Results

* `Machine.trees_settle_breadth_first`: what the checkpoint has done by then.
-/

namespace PromiseLoop

/-- Nothing is queued in a loop, nothing has been posted to it, and no rejection waits to be reported.
Rejections may still be listed that have been handled in the meantime. -/
structure Loop.IsClear (l : Loop) : Prop where
  microtasks : l.microtasks.entries = []
  channel : l.channel = []
  listed : ∀ id ∈ l.awaiting, ∀ r, l.heap.get? id = some r → r.state ≠ .pending
  reported : l.IsReported

theorem Loop.deliver_releases (l : Loop) (releases : List PromiseId) :
    Loop.deliver { l with releases } = { l.deliver with releases } := by
  rw [deliver_eq, deliver_eq]

theorem Loop.deliver_of_channel {l : Loop} (h : l.channel = []) : l.deliver = l := by
  unfold deliver
  rw [h]
  cases l
  cases h
  rfl

/-- The command by which a host settles a promise on a side. -/
def Side.command (name : String) (x y : Operand) : Side → Command
  | .fulfill => .step (.resolve name x y) none false
  | .reject => .step (.reject name x y) none false

namespace Machine

variable {m m' m'' : Machine} {k : LoopId} {l : Loop} {name : String} {p : Promise} {x y : Operand}
  {pairs : List Pair} {vars : Variables} {names : List (String × LoopId)} {stack : List Frame} {a : Answer}

-- ---------------------------------------------------------------------------
-- The commands
-- ---------------------------------------------------------------------------

/-- What becomes of a machine that is given some commands is determined by them. -/
theorem Performs.unique {cs : List Command} (h : Performs m cs m') (h' : Performs m cs m'') : m' = m'' := by
  induction h with
  | nil =>
    cases h'
    rfl
  | @cons m m' c cs n idle _ ih =>
    cases h' with
    | cons n' idle' rest' =>
      have same : run n' (m.start c) = run n (m.start c) := by
        rcases Nat.le_total n n' with le | le
        · obtain ⟨d, rfl⟩ := Nat.exists_eq_add_of_le le
          rw [run_add, run_of_isIdle idle]
        · obtain ⟨d, rfl⟩ := Nat.exists_eq_add_of_le le
          rw [run_add, run_of_isIdle idle']
      exact ih (same ▸ rest')

/-- A host that is at rest settles a promise. -/
theorem Shows.start_settle {r : Record} (h : m.Shows k ⟨l, pairs, vars, names, [], .idle a⟩)
    (hk : (names.find? fun e => e.1 = name).map Prod.snd = some k) (hx : m.evaluate x = .promise p)
    (hr : l.record p = .ok r) (free : r.alreadyResolved = false) (native : l.bridge = .native)
    (side : Side) (flat : side = .fulfill → (m.evaluate y).IsFlat k) :
    (m.start (side.command name x y)).Comes k
      ⟨l.resolved p side (m.evaluate y), pairs, vars, names, [], .idle .done⟩ := by
  cases side with
  | fulfill => exact h.start_resolve hk hx fun n f hn => hn.resolve hr free native (flat rfl)
  | reject => exact h.start_reject hk hx fun n f hn => hn.reject hr free _

/-- The frame of the command that checkpoints a loop. -/
def checkpointFrame (k : LoopId) : Frame :=
  .command { word := "checkpoint", store := none, catches := false, isControl := false, loop := some k } []

/-- A checkpoint that is asked for at rest delivers what has been posted, and begins to drain. -/
theorem Shows.start_checkpoint (h : m.Shows k ⟨l, pairs, vars, names, [], .idle a⟩)
    (hk : (names.find? fun e => e.1 = name).map Prod.snd = some k) (rests : l.draining = false) :
    (m.start (.step (.checkpoint name) none false)).Shows k
      ⟨l.deliver.startDraining, pairs, vars, names, [.draining k, .checkpoint k, checkpointFrame k],
        .signal .done⟩ := by
  let m₀ : Machine := { m with trace := [] }
  have begun : m₀.Shows k _ := h.spendTrace
  have found : m₀.named? name = some k := (begun.named? name).trans hk
  have delivered := ((begun.push (checkpointFrame k)).modifyLoop (f := Loop.deliver) (l := l.deliver)
    (l.id_deliver.trans h.id_loop) fun releases => ⟨releases, Loop.deliver_releases l releases⟩).push
    (.checkpoint k)
  obtain ⟨releases, hl⟩ := delivered.loop
  have drained := drain_of_rests hl (l.draining_deliver.trans rests)
  unfold Machine.start Machine.beginStep
  dsimp only
  rw [Machine.withLoop, found]
  show ((((m₀.push (checkpointFrame k)).modifyLoop k Loop.deliver).push (.checkpoint k)).drain k).Shows k _
  rw [drained]
  exact ((delivered.setLoop (l := l.deliver.startDraining) delivered.id_loop releases).push
    (.draining k)).signal .done

/-- When its drain has ended, a checkpoint selects the reports. -/
theorem Meets.selects (h : m.Meets k l (.checkpoint k :: stack) (.signal .done)) :
    ∃ n releases, (run n m).stack = .reporting k (Loop.takeReports { l with releases }).1 :: stack ∧
      (run n m).control = .signal .done ∧
      (run n m).loop? k = some (Loop.takeReports { l with releases }).2 := by
  obtain ⟨n, pairs, vars, names, shown⟩ := h
  obtain ⟨i, shown, settled⟩ := shown.exists_settled
  rw [← run_add] at shown settled
  obtain rfl : l.id = k := shown.id_loop
  have stepped := step_of_signal settled shown.control shown.stack
  let rested : Machine := { run (n + i) m with stack := stack, control := .signal .done }
  obtain ⟨releases, hl⟩ : ∃ releases, rested.loop? l.id = some { l with releases } := shown.loop
  have resumed : run (n + i + 1) m =
      (rested.setLoop (Loop.takeReports { l with releases }).2).push
        (.reporting l.id (Loop.takeReports { l with releases }).1) := by
    rw [run_succ', stepped]
    exact resumeCheckpoint_done hl
  refine ⟨n + i + 1, releases, by rw [resumed]; rfl, by rw [resumed]; rfl, ?_⟩
  rw [resumed]
  exact loop?_setLoop_self (l := { l with releases }) hl (Loop.id_takeReports _)

-- ---------------------------------------------------------------------------
-- Trees
-- ---------------------------------------------------------------------------

variable {reply : Replies} {bs : List Branch}

/-- A checkpoint visits the trees that hang on promises that have just settled, reports the rejections that
are selected then, and ends. -/
theorem Visiting.checkpoint_ends {ts : List Visit} {rest : List Branch} (hm : Reachable m)
    (hr : m.RepliesAs k reply) (hy : m.AlwaysYields k) (flat : ∀ d f v, (reply d f v).IsFlat k)
    (room : l.heap.slots.length < 2 ^ 32) (h : m.Visiting k (.checkpoint k :: stack) l [] ts rest) :
    ∃ n x l', l.Settles ((breadthFirst reply ts).map (Visit.stem reply))
        (Visit.tally reply (breadthFirst reply ts)) x ∧
      Loop.Bears k x rest ∧ x.microtasks.entries = [] ∧ x.Waits ∧ x.takeReports.2.IsTold ∧
      (run n m).stack = stack ∧ (run n m).control = .signal .done ∧ (run n m).loop? k = some l' ∧
      x.takeReports.2.Fades l' { reports := x.takeReports.1 } := by
  obtain ⟨l₁, settles, meets, entries, bears, -, -⟩ := h.drain hm hr flat
  have drained := meets.to fun pairs vars names => Scene.to_of_drained nofun entries
  obtain ⟨n, releases, hs, hc, hl⟩ := drained.selects
  let x : Loop := { l₁.stopDraining.note .drained with releases }
  have waits : x.Waits := by
    obtain ⟨n', _, _, _, shown⟩ := drained
    obtain ⟨releases', hl'⟩ := shown.loop
    have listed := (hm.run n').waits hl'
    exact listed
  have told : x.takeReports.2.IsTold := by
    obtain ⟨heap, heq, -, -⟩ := Loop.takeReports_spec x
    exact ((hm.run n).waits hl).isTold (by rw [heq])
  have stopped : l₁.Settles [] {} x := Loop.settles_of_eq rfl rfl rfl rfl (Tally.append_empty _)
  have settled := settles.trans stopped
  rw [List.append_nil, Tally.append_empty] at settled
  obtain ⟨i, l', hs', hc', hl', fades⟩ := Machine.checkpoint_ends hm hy hs hc hl told
    (x.length_slots_takeReports ▸ settled.counts.slots ▸ room)
  exact ⟨n + i, x, l', settled, bears.of_heap rfl rfl rfl, entries, waits, told, hs', hc', hl', fades⟩

/-- A command that checkpoints a loop comes to its end. -/
theorem checkpointFrame_ends {n : Nat} (hm : Reachable m) (hs : (run n m).stack = [checkpointFrame k])
    (hc : (run n m).control = .signal .done) (hl : (run n m).loop? k = some l) (told : l.IsTold) :
    ∃ i l', (run i m).stack = [] ∧ (run i m).control = .idle .done ∧ (run i m).loop? k = some l' ∧
      l.Fades l' {} := by
  obtain ⟨i, n', l₁, resumed, stack, -, hl₁, thins⟩ := exists_resumed (hm.run n) hs rfl hc hl
  have ended : n'.resume (checkpointFrame k) .done =
      { drop [] (n'.signal .done) with control := .idle .done } := endCommand_done _ _ stack
  rw [← run_add, ended] at resumed
  refine ⟨n + i, l₁, ?_, by rw [resumed], ?_, thins.fades told⟩
  · rw [resumed]
    exact (stack_drop ..).trans stack
  · rw [resumed, drop_nil]
    exact hl₁

/-- A host at rest settles the promise at the root of a tree of registrations, and asks for a checkpoint.
The functions of the tree leave the loop alone, and so does the tracker.  Then the checkpoint ends, and by
then:

* the root and the derived promises have settled, breadth first, and nothing else has; the job of every
  registration has run once, and the functions for the sides that happened have been called, once each and
  in that order;
* the promise at the end of every path has been settled with what the registrations on the path make of the
  completion of the root;
* the rejections of promises without registrations have been reported, in the order in which they
  happened, and no others;
* every promise that still has a handle has the record that tells how it has settled. -/
theorem trees_settle_breadth_first (hm : Reachable m) (rest : m.stack = []) (quiet : m.isIdle = true)
    (loop : m.named? name = some k) (hl : m.loop? k = some l) (native : l.bridge = .native)
    (tracking : l.config.trackUnhandledRejections = true) (clear : l.IsClear)
    (room : l.heap.slots.length < 2 ^ 32) (root : Stem) (hangs : l.Hangs root.promise root.branches)
    (hx : m.evaluate x = .promise root.promise) (hy : m.evaluate y = root.completion.value)
    (told : root.completion.IsFlat k) (flat : ∀ d f v, (reply d f v).IsFlat k)
    (environment : ∀ m', m.Performs [root.completion.side.command name x y] m' →
      (m'.start (.step (.checkpoint name) none false)).RepliesAs k reply ∧
        (m'.start (.step (.checkpoint name) none false)).AlwaysYields k) :
    ∃ m' n l' visits, visits = breadthFirst reply root.visits ∧
      m.Performs [root.completion.side.command name x y] m' ∧
      (run n (m'.start (.step (.checkpoint name) none false))).control = .idle .done ∧
      (run n (m'.start (.step (.checkpoint name) none false))).loop? k = some l' ∧
      tally l'.history = tally l.history ++
        { jobs := visits.map Visit.job
          calls := visits.filterMap Visit.called
          settlements := root.settlement :: visits.map fun t => (t.stem reply).settlement
          reports := (root :: visits.map (Visit.stem reply)).filterMap Stem.report? } ∧
      (visits.map Visit.branch).Perm (Branch.all root.branches) ∧
      (∀ path b, IsPath root.branches (path ++ [b]) → ∃ t ∈ visits, t.branch = b ∧
        (t.stem reply).completion = foldPath reply (path ++ [b]) root.completion) ∧
      ∀ s ∈ root :: visits.map (Visit.stem reply),
        s.promise ∈ (run n (m'.start (.step (.checkpoint name) none false))).rooted k →
          l'.heap.get? s.promise.id = some s.reported := by
  obtain ⟨⟨a, shown⟩, resting⟩ := hm.shows_rest rest loop hl
  have hk : (m.names.find? fun e => e.1 = name).map Prod.snd = some k := loop
  have id : l.id = k := hm.placed k l hl
  have wf := hm.wf hl
  -- the root settles
  have bears := hangs.bears id native wf
  have hung := (Loop.record_eq_ok.mp hangs.root).2
  have settles : l.SettlesStem root _ := l.settlesStem_resolved wf hung
  have settled := shown.start_settle (x := x) (y := y) hk hx hangs.root rfl native root.completion.side
    fun fulfills => hy ▸ told.value fulfills
  rw [hy] at settled
  obtain ⟨i, shown', idle⟩ := settled.idle rfl
  have performs : m.Performs [root.completion.side.command name x y] _ := .cons i idle (.nil _)
  obtain ⟨replies, yields⟩ := environment _ performs
  have reachable := (hm.start quiet (root.completion.side.command name x y)).run i
  -- the drain of the checkpoint begins with the registrations on the root
  have begun := shown'.start_checkpoint hk (settles.draining.trans resting)
  rw [Loop.deliver_of_channel (settles.channel.trans clear.channel)] at begun
  have branches : root.visits.map Visit.branch = root.branches := by
    simp [Stem.visits, Function.comp_def]
  have visiting : Machine.Visiting _ k _ (Loop.startDraining _) [] root.visits [] :=
    { meets := ⟨0, _, _, _, begun⟩
      entries := settles.entries.trans (by rw [clear.microtasks]; rfl)
      bears := by
        rw [branches, List.append_nil]
        exact (bears.settle (c := root.completion) settles).of_heap rfl rfl rfl
      told := fun t ht => by
        obtain ⟨b, -, rfl⟩ := List.mem_map.mp ht
        exact told
      flying := fun _ h => by cases h }
  obtain ⟨n, x, l₁, visited, -, -, -, allTold, hs, hc, hl₁, fades⟩ :=
    visiting.checkpoint_ends (reachable.start idle _) replies yields flat (settles.slots ▸ room)
  obtain ⟨n, l', hs', hc', hl', fades'⟩ :=
    checkpointFrame_ends (reachable.start idle _) hs hc hl₁ (fades.isTold allTold)
  have started : (l.resolved root.promise root.completion.side root.completion.value).Settles [] {}
    (Loop.startDraining _) := Loop.settles_of_eq rfl rfl rfl rfl rfl
  have both := (settles.settles (.refl l _) hung).trans (started.trans visited)
  obtain ⟨fst, records⟩ := both.selects tracking clear.listed clear.reported
  have faded := fades.trans_silent fades'
  rw [fst] at faded
  refine ⟨_, n, l', _, rfl, performs, hc', hl', ?_, ?_, fun path b hpath => exists_visit_of_isPath hpath,
    fun s hs rooted => ?_⟩
  · have selected : tally x.takeReports.2.history = tally x.history := by
      obtain ⟨heap, heq, -, -⟩ := Loop.takeReports_spec x
      rw [heq]
    rw [faded.counts.tally, selected, both.counts.tally, Tally.append_assoc]
    refine congrArg (tally l.history ++ ·) ?_
    ext1 <;> simp [Visit.tally]
  · rw [← branches]
    exact breadthFirst_perm _
  · have home : s.promise.home = k := (mem_rooted.mp rooted).1
    have slots := faded.counts.slots.trans (x.length_slots_takeReports.trans both.counts.slots)
    have ledger := ((reachable.start idle _).run n).ledger hl' (slots ▸ room) (by rw [hc']; rfl) (by
      rw [pendingOf, hs']
      rfl)
    obtain ⟨r, hr⟩ := ledger.live s.promise rooted
    rw [hr, ← faded.kept _ r hr]
    exact records s hs

-- ---------------------------------------------------------------------------
-- A tree
-- ---------------------------------------------------------------------------

/-- Whether a function has just been called for a registration. -/
def isAsking (m : Machine) : Bool :=
  match m.control, m.stack with
  | .call .., .reacting .. :: _ => true
  | _, _ => false

/-- The times at which this is so, among those of the next steps. -/
def askingTimes : Nat → Machine → List Nat
  | 0, _ => []
  | n + 1, m => (if m.isAsking then [0] else []) ++ (askingTimes n m.step).map (· + 1)

theorem mem_askingTimes {n i : Nat} (hi : i < n) (h : (run i m).isAsking = true) : i ∈ askingTimes n m := by
  induction n generalizing m i with
  | zero => omega
  | succ n ih =>
    rw [askingTimes, List.mem_append]
    cases i with
    | zero =>
      rw [if_pos (show m.isAsking = true from h)]
      exact .inl (List.mem_cons_self ..)
    | succ i =>
      rw [run_succ] at h
      exact .inr (List.mem_map_of_mem (ih (by omega) h))

/-- Functions reply if each of those does that is called before the machine is idle. -/
theorem repliesAs_of_askingTimes {N : Nat} (idle : (run N m).isIdle = true)
    (replies : ∀ n ∈ askingTimes N m, ∀ f d v rest l, (run n m).control = .call f .undefined [v] →
      (run n m).stack = .reacting (.function f) d :: rest → (run n m).loop? k = some l →
      ∃ i releases, (run (n + i) m).control = .signal (reply d f v).signal ∧
        (run (n + i) m).stack = (run n m).stack ∧ (run (n + i) m).loop? k = some { l with releases } ∧
        ((run (n + i) m).names.any fun e => e.2 = k) = true) : m.RepliesAs k reply := by
  intro n f d v rest l hc hs _ hl
  refine replies n (mem_askingTimes ?_ (by rw [isAsking, hc, hs])) f d v rest l hc hs hl
  by_contra late
  obtain ⟨i, rfl⟩ := Nat.exists_eq_add_of_le (Nat.le_of_not_lt late)
  rw [run_add, run_of_isIdle idle] at hc
  rw [isIdle, hc] at idle
  cases idle

/-- A machine whose script has registered a function that throws what it is told twice on one promise, and a
function that returns five on the first of the derived promises. -/
def planted : Machine :=
  let act (s : Step) (store : String) : Command := .step s (some store) false
  (boot {} .console .native).obey
    [act (.newPromise "main") "p", act (.routine "fail" [.raise (.argument 0)] true) "f",
      act (.routine "mend" [.ret (.constant (.small 5))] true) "g",
      act (.attach .then_ "main" (.variable "p") (some (.variable "f")) none) "q",
      act (.attach .then_ "main" (.variable "p") (some (.variable "f")) none) "r",
      act (.attach .catch_ "main" (.variable "q") none (some (.variable "g"))) "s"]

/-- The promises of `planted`. -/
def plantedPromise (i : Nat) : Promise := { home := ⟨0⟩, serial := i, id := ⟨UInt32.ofNat i, 0⟩ }

/-- The registration on a derived promise of `planted`. -/
def plantedMending : Branch := ⟨⟨plantedPromise 3, none, some (.function (.routine 1 "mend"))⟩, []⟩

/-- The tree of `planted`, when its root has been fulfilled with seven. -/
def plantedTree : Stem where
  promise := plantedPromise 0
  branches :=
    [⟨⟨plantedPromise 1, some (.function (.routine 0 "fail")), none⟩, [plantedMending]⟩,
      ⟨⟨plantedPromise 2, some (.function (.routine 0 "fail")), none⟩, []⟩]
  completion := .returned (.small 7)

/-- The replies of the functions of `planted`. -/
def plantedReply : Replies := fun _ f v => if f = .routine 0 "fail" then .thrown v else .returned (.small 5)

/-- The machine that has been told to settle the root, and is asked for a checkpoint. -/
def plantedCheckpoint : Machine :=
  (run 9 (planted.start (Side.command "main" (.variable "p") (.constant (.small 7)) .fulfill))).start
    (.step (.checkpoint "main") none false)

theorem repliesAs_plantedCheckpoint : plantedCheckpoint.RepliesAs ⟨0⟩ plantedReply := by
  have times : askingTimes 30 plantedCheckpoint = [1, 8, 15] := by cbv
  refine repliesAs_of_askingTimes (N := 30) (by cbv) fun n hn f d v rest l hc hs hl => ?_
  rw [times] at hn
  -- every call takes four steps
  suffices H : ((run (n + 4) plantedCheckpoint).control, (run (n + 4) plantedCheckpoint).stack,
      (run (n + 4) plantedCheckpoint).loop? ⟨0⟩, (run (n + 4) plantedCheckpoint).names.any fun e => e.2 = ⟨0⟩) =
      (.signal (plantedReply d f v).signal, (run n plantedCheckpoint).stack,
        (run n plantedCheckpoint).loop? ⟨0⟩, true) by
    simp only [Prod.mk.injEq] at H
    exact ⟨4, l.releases, H.1, H.2.1, H.2.2.1.trans hl, H.2.2.2⟩
  simp only [List.mem_cons, List.not_mem_nil, or_false] at hn
  rcases hn with rfl | rfl | rfl
  · have called : (run 1 plantedCheckpoint).control = .call (.routine 0 "fail") .undefined [.small 7] := by
      cbv
    cases called.symm.trans hc
    cbv
  · have called : (run 8 plantedCheckpoint).control = .call (.routine 0 "fail") .undefined [.small 7] := by
      cbv
    cases called.symm.trans hc
    cbv
  · have called : (run 15 plantedCheckpoint).control = .call (.routine 1 "mend") .undefined [.small 7] := by
      cbv
    cases called.symm.trans hc
    cbv

theorem trees_settle_breadth_first_planted : ∃ m' n l',
    planted.Performs [Side.command "main" (.variable "p") (.constant (.small 7)) .fulfill] m' ∧
      (run n (m'.start (.step (.checkpoint "main") none false))).loop? ⟨0⟩ = some l' ∧
      (tally l'.history).calls =
        [.function (.routine 0 "fail"), .function (.routine 0 "fail"), .function (.routine 1 "mend")] ∧
      (tally l'.history).reports = [(⟨2, 0⟩, .small 7)] := by
  obtain ⟨l, hl⟩ := Option.isSome_iff_exists.mp (by cbv : (planted.loop? ⟨0⟩).isSome = true)
  have parts : (planted.loop? ⟨0⟩).map (fun l => (l.bridge, l.config.trackUnhandledRejections,
      l.microtasks.entries, l.channel, l.awaiting)) = some (.native, true, [], [], []) := by cbv
  have slots : (planted.loop? ⟨0⟩).map (fun l => l.heap.slots.length) = some 4 := by cbv
  have reported : (planted.loop? ⟨0⟩).map (fun l => l.heap.slots.all fun s =>
      s.record.all fun r => !r.awaitsReport) = some true := by cbv
  have told : (planted.loop? ⟨0⟩).map (fun l => ((tally l.history).calls, (tally l.history).reports)) =
      some ([], []) := by cbv
  have records : (planted.loop? ⟨0⟩).map (fun l => (l.record (plantedPromise 0), l.record (plantedPromise 1),
      l.record (plantedPromise 2), l.record (plantedPromise 3))) =
      some (.ok (Branch.hung plantedTree.branches), .ok (Branch.hung [plantedMending]),
        .ok (Branch.hung []), .ok (Branch.hung [])) := by cbv
  simp only [hl, Option.map_some, Option.some.injEq, Prod.mk.injEq] at parts slots reported told records
  obtain ⟨native, tracking, microtasks, channel, awaiting⟩ := parts
  obtain ⟨root, first, second, third⟩ := records
  have every : Branch.all plantedTree.branches = [plantedTree.branches[0], plantedMending,
      plantedTree.branches[1]] := by
    simp [Branch.all, plantedTree, plantedMending]
  have visits : breadthFirst plantedReply plantedTree.visits =
      plantedTree.visits ++ [⟨plantedMending, .thrown (.small 7)⟩] := by
    simp [breadthFirst, plantedTree, plantedMending, Stem.visits, Visit.next, Visit.stem, Branch.stem,
      Registration.answer, plantedReply, Registration.handler, Registration.reaction, Completion.side,
      Completion.value]
  have hangs : l.Hangs plantedTree.promise plantedTree.branches := by
    refine ⟨root, ?_, ?_, ?_⟩
    · rw [every]
      simpa using ⟨first, third, second⟩
    · rw [every]
      intro b hb side h hh
      have handlers : h = .function (.routine 0 "fail") ∨ h = .function (.routine 1 "mend") := by
        simp only [List.mem_cons, List.not_mem_nil, or_false] at hb
        rcases hb with rfl | rfl | rfl <;> cases side <;> cases hh <;> decide
      exact handlers.elim (fun e => ⟨_, e⟩) fun e => ⟨_, e⟩
    · rw [every]
      decide
  have clear : l.IsClear := ⟨microtasks, channel, by simp [awaiting], fun id r hr => by
    have slot := List.all_eq_true.mp reported _ (List.mem_of_getElem? (Heap.get?_eq_some.mp hr))
    simpa using slot⟩
  have flat (d : Promise) (f : Callable) (v : Value) : (plantedReply d f v).IsFlat ⟨0⟩ := fun w hw => by
    unfold plantedReply at hw
    split at hw <;> cases hw
    trivial
  have environment (m' : Machine)
      (performs : planted.Performs [Side.command "main" (.variable "p") (.constant (.small 7)) .fulfill] m') :
      (m'.start (.step (.checkpoint "main") none false)).RepliesAs ⟨0⟩ plantedReply ∧
        (m'.start (.step (.checkpoint "main") none false)).AlwaysYields ⟨0⟩ := by
    obtain rfl := performs.unique (.cons 9 (by cbv) (.nil _))
    exact ⟨repliesAs_plantedCheckpoint, alwaysYields_of_isCalmFor (n := 30) (by cbv) (by cbv) (by cbv)⟩
  obtain ⟨m', n, l', _, rfl, performs, -, hl', counted, -⟩ :=
    trees_settle_breadth_first (.obey (.boot _ _ _) _) (by cbv) (by cbv) (by cbv) hl native tracking clear
      (slots ▸ by decide) plantedTree hangs (by cbv) (by cbv) (fun v hv => by cases hv; trivial) flat
      environment
  refine ⟨m', n, l', performs, hl', ?_, ?_⟩
  · rw [counted, visits, Tally.calls_append, told.1]
    rfl
  · rw [counted, visits, Tally.reports_append, told.2]
    rfl

end Machine
end PromiseLoop

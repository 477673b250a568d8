import PromiseLoop.Proofs.Trees.Runs

/-!
# The order of reports

A host uses some completers of a loop, each once, and asks for checkpoints in between.  In which order it uses
them, and where it asks for checkpoints, does not matter in the end: every promise of the trees that hang on
the promises of the completers settles as its own tree has it, and every rejection that nobody handles is
reported once.

## Results

* `Machine.Rests.use`, `Machine.Rests.checkpoint`: what one action does.
* `Machine.Rests.performs`: what some actions do that end with a checkpoint.
* `Machine.reports_settle_in_any_order`: two orders of the same uses.
-/

namespace PromiseLoop

-- ---------------------------------------------------------------------------
-- Actions
-- ---------------------------------------------------------------------------

/-- What a host does: it uses the completer of a seed, or asks for a checkpoint. -/
inductive Action
  | use (s : Seed)
  | checkpoint

namespace Action

/-- The command by which the host does it. -/
def command (name : String) : Action → Command
  | use s => s.use.command s.completer
  | checkpoint => .step (.checkpoint name) none false

/-- The seed whose completer is used. -/
def seed? : Action → Option Seed
  | use s => some s
  | checkpoint => none

end Action

/-- The seeds whose completers are used, in this order. -/
def sown (acts : List Action) : List Seed := acts.filterMap Action.seed?

namespace Seed

variable (s : Seed) (reply : Replies)

/-- The promises of a tree, as they settle. -/
def stems : List Stem := s.root :: (breadthFirst reply s.root.visits).map (Visit.stem reply)

/-- The promises of a tree. -/
def promises : List Promise := (Branch.all [s.root.trunk]).map Branch.promise

variable {s}

theorem exists_stem {p : Promise} (h : p ∈ s.promises) : ∃ t ∈ s.stems reply, t.promise = p := by
  obtain ⟨b, hb, rfl⟩ := List.mem_map.mp h
  rw [Branch.all_cons, Branch.all_nil, List.append_nil] at hb
  rcases List.mem_cons.mp hb with rfl | hb
  · exact ⟨s.root, List.mem_cons_self .., rfl⟩
  · have visits : s.root.visits.map Visit.branch = s.branches := by
      simp [Stem.visits, Seed.root, Function.comp_def]
    rw [show s.root.trunk.branches = s.root.visits.map Visit.branch from visits.symm] at hb
    have perm : ((breadthFirst reply s.root.visits).map Visit.branch).Perm _ := breadthFirst_perm _
    obtain ⟨t, ht, rfl⟩ := List.mem_map.mp (perm.mem_iff.mpr hb)
    exact ⟨t.stem reply, List.mem_cons_of_mem _ (List.mem_map_of_mem ht), rfl⟩

/-- The promises of several trees, as they settle together. -/
theorem stems_perm (reply : Replies) (ss : List Seed) : (ss.map root ++
    (breadthFirst reply (ss.flatMap fun s => s.root.visits)).map (Visit.stem reply)).Perm
    (ss.flatMap fun s => s.stems reply) := by
  have visits := breadthFirst_flatMap reply (ss.map root)
  rw [List.flatMap_map, List.flatMap_map] at visits
  refine ((visits.map _).append_left _).trans ?_
  clear visits
  induction ss with
  | nil => exact .refl _
  | cons s ss ih =>
    rw [List.map_cons, List.flatMap_cons, List.flatMap_cons, List.map_append, stems, List.cons_append,
      List.cons_append]
    refine List.Perm.cons _ (.trans ?_ (ih.append_left _))
    exact List.perm_append_comm_assoc _ _ _

end Seed

namespace Loop

variable {l l' x : Loop} {k : LoopId} {bs : List Branch} {done more : List Stem} {counted : Tally}

/-- Selecting reports leaves pending promises alone. -/
theorem Bears.takeReports (h : Bears k x bs) : Bears k x.takeReports.2 bs := by
  obtain ⟨heap, heq, selects, -⟩ := takeReports_spec x
  rw [heq]
  refine ⟨h.id, h.native, selects.wf h.wf, fun b hb => ⟨(h.hung b hb).1, ?_⟩, h.functions, h.distinct⟩
  have hung := (h.hung b hb).2
  have unlisted : b.promise.id ∉ x.takeReports.1.map Prod.fst := fun mem => by
    obtain ⟨e, he, id⟩ := List.mem_map.mp mem
    obtain ⟨r, hr, awaits, -⟩ := selects.awaited e he
    rw [id, hung] at hr
    rw [← Option.some.inj hr] at awaits
    cases awaits
  rw [selects.find, hung, Option.map_some, if_neg unlisted]

/-- If a loop has a record of a promise, it says how the promise has settled. -/
def Remembers (l : Loop) (s : Stem) : Prop :=
  ∀ r, l.heap.get? s.promise.id = some r → r.state = s.record.state ∧ r.value = s.record.value

/-- A checkpoint forgets at most. -/
theorem Settles.remembers (h : l.Settles more counted x) {a : Tally} (fades : x.takeReports.2.Fades l' a)
    (before : ∀ s ∈ done, l.Remembers s) : ∀ s ∈ done ++ more, l'.Remembers s := by
  obtain ⟨heap, heq, selects, -⟩ := takeReports_spec x
  have found (id : PromiseId) (r : Record) (hr : l'.heap.get? id = some r) :
      ∃ r', x.heap.get? id = some r' ∧ r.state = r'.state ∧ r.value = r'.value := by
    have kept := fades.kept id r hr
    rw [heq, selects.find] at kept
    obtain ⟨r', hr', rfl⟩ := Option.map_eq_some_iff.mp kept
    refine ⟨r', hr', ?_⟩
    split <;> exact ⟨rfl, rfl⟩
  intro s hs r hr
  obtain ⟨r', hr', state, value⟩ := found _ r hr
  rw [state, value]
  rcases List.mem_append.mp hs with hs | hs
  · -- what has settled before is none of the promises that were still pending
    have other : ∀ t ∈ more, t.promise.id ≠ s.promise.id := fun t ht e => by
      obtain ⟨r₀, hr₀, pending⟩ := h.pending t ht
      have settled := (before s hs r₀ (e ▸ hr₀)).1
      rw [pending] at settled
      exact Side.state_ne_pending _ settled.symm
    exact before s hs r' ((h.others _ other).symm.trans hr')
  · rw [h.settled s hs] at hr'
    rw [← Option.some.inj hr']
    exact ⟨rfl, rfl⟩

theorem reportable_perm (l : Loop) (h : done.Perm more) : (l.reportable done).Perm (l.reportable more) := by
  unfold reportable
  split
  · exact h.filterMap _
  · exact .refl _

end Loop

namespace Machine

variable {m m' : Machine} {k : LoopId} {name : String} {reply : Replies} {base l x : Loop}
  {bs : List Branch}

/-- What a loop has lost are no promises of trees whose roots are in flight: records hold the handles on the
promises of the branches. -/
theorem Reachable.bears_of_kept (hm : Reachable m) (hl : m.loop? k = some l)
    (room : l.heap.slots.length < 2 ^ 32) (idle : m.control.pendingOf k = []) (rest : m.pendingOf k = [])
    (native : l.bridge = .native) (kept : ∀ id r, l.heap.get? id = some r → x.heap.get? id = some r)
    (h : Loop.Bears k x bs) (flying : ∀ b ∈ bs, b.promise ∈ l.inFlight) : Loop.Bears k l bs := by
  have ledger := hm.ledger hl room idle rest
  have rooted : ∀ p, p.home = k → .promise p ∈ handles l.held → p ∈ m.rooted k := fun p home hp =>
    mem_rooted.mpr ⟨home, .inl (mem_kept_of_loop hl hp)⟩
  have found : ∀ cs : List Branch, (∀ b ∈ Branch.all cs, b ∈ Branch.all bs) →
      (∀ b ∈ cs, b.promise ∈ m.rooted k) →
      ∀ b ∈ Branch.all cs, l.heap.get? b.promise.id = some (Branch.hung b.branches) := by
    intro cs
    induction cs using Branch.all.induct with
    | case1 =>
      intro _ _ b hb
      rw [Branch.all_nil] at hb
      cases hb
    | case2 x cs rest ih ih' =>
      intro among handles b hb
      have every : Branch.all (⟨x, cs⟩ :: rest) = ⟨x, cs⟩ :: (Branch.all cs ++ Branch.all rest) :=
        Branch.all_cons ..
      rw [every] at among hb
      obtain ⟨r, hr⟩ := ledger.live _ (handles _ (List.mem_cons_self ..))
      have first : l.heap.get? (Branch.mk x cs).promise.id = some (Branch.hung cs) := by
        have hung := (h.hung _ (among _ (List.mem_cons_self ..))).2
        rw [kept _ r hr] at hung
        rw [hr, hung]
      rcases List.mem_cons.mp hb with rfl | hb
      · exact first
      rcases List.mem_append.mp hb with hb | hb
      · refine ih (fun b hb => among b (List.mem_cons_of_mem _ (List.mem_append_left _ hb))) (fun b hb => ?_) b hb
        have home := (h.hung b (among b (List.mem_cons_of_mem _ (List.mem_append_left _
          (Branch.mem_all_of_mem hb))))).1
        have held : Value.promise b.promise ∈ (Branch.hung cs).held := by
          refine List.mem_append_left _ (List.mem_append_right _ (List.mem_flatMap.mpr
            ⟨b.registration.reaction .fulfill, List.mem_map_of_mem hb, ?_⟩))
          exact List.mem_append_right _ (List.mem_singleton_self _)
        exact rooted _ home (Loop.mem_handles_held.mpr (.inr (.inl (mem_handles.mpr
          ⟨_, Heap.mem_held_of_get? first held, rfl⟩))))
      · exact ih' (fun b hb => among b (List.mem_cons_of_mem _ (List.mem_append_right _ hb)))
          (fun b hb => handles b (List.mem_cons_of_mem _ hb)) b hb
  refine ⟨hm.placed k l hl, native, hm.wf hl, fun b hb => ⟨(h.hung b hb).1, ?_⟩, h.functions, h.distinct⟩
  exact found bs (fun _ hb => hb) (fun b hb => rooted _ (h.hung b (Branch.mem_all_of_mem hb)).1
    (Loop.mem_handles_held.mpr (.inr (.inr (.inl (List.mem_map_of_mem (flying b hb))))))) b hb

-- ---------------------------------------------------------------------------
-- The host
-- ---------------------------------------------------------------------------

/-- A checkpoint in which nothing happens to a loop that the loop does not do itself: the functions that are
called reply, the tracker yields, the name of the loop stays, and nothing has been posted by the end. -/
structure Uneventful (m : Machine) (k : LoopId) (name : String) (reply : Replies) : Prop where
  replies : (m.start (Action.checkpoint.command name)).RepliesAs k reply
  yields : (m.start (Action.checkpoint.command name)).AlwaysYields k
  named : ∀ i, (run i (m.start (Action.checkpoint.command name))).named? name = some k
  unposted : ∀ m', m.Performs [Action.checkpoint.command name] m' → (m'.loop? k).map Loop.channel = some []

/-- While a host performs some actions, every completer is there when its turn comes, and the checkpoints are
uneventful. -/
def Unimpeded (k : LoopId) (name : String) (reply : Replies) : Machine → List Action → Prop
  | _, [] => True
  | m, .use s :: acts =>
    (m.completers.find? fun e => e.1 = s.completer) =
        some (s.completer, { loop := k, promise := s.promise.id }) ∧
      ∀ m', m.Performs [(Action.use s).command name] m' → Unimpeded k name reply m' acts
  | m, .checkpoint :: acts => m.Uneventful k name reply ∧
    ∀ m', m.Performs [Action.checkpoint.command name] m' → Unimpeded k name reply m' acts

/-- Between two actions of a host: the reports of the seeds in `posted` wait in the channel, those in `left`
have not been posted yet, and the promises in `done` have settled; since the loop was `base` it has made the
reports in `made`. -/
structure Rests (k : LoopId) (name : String) (base : Loop) (m : Machine) (l : Loop)
    (posted left : List Seed) (done : List Stem) (made : List (PromiseId × Value)) : Prop where
  reachable : Reachable m
  stack : m.stack = []
  idle : m.isIdle = true
  named : m.named? name = some k
  found : m.loop? k = some l
  config : l.config = base.config
  room : l.heap.slots.length < 2 ^ 32
  microtasks : l.microtasks.entries = []
  channel : l.channel = posted.map Seed.report
  bears : Loop.Bears k l ((posted ++ left).map fun s => s.root.trunk)
  flying : ∀ s ∈ posted ++ left, s.promise ∈ l.inFlight
  settled : ∀ s ∈ done, l.Remembers s
  reports : (tally l.history).reports = (tally base.history).reports ++ made
  owed : (made ++ l.takeReports.1).Perm (base.takeReports.1 ++ base.reportable done)

variable {posted left : List Seed} {s : Seed} {done more : List Stem} {made : List (PromiseId × Value)}
  {pairs : List Pair} {vars : Variables} {names : List (String × LoopId)} {a : Answer}

/-- A host that is at rest uses a completer. -/
theorem Shows.start_use (h : m.Shows k ⟨l, pairs, vars, names, [], .idle a⟩)
    (completer : (m.completers.find? fun e => e.1 = s.completer) =
      some (s.completer, { loop := k, promise := s.promise.id })) :
    (m.start (s.use.command s.completer)).Shows k
      ⟨l.post s.report, pairs, vars, names, [], .idle .done⟩ := by
  let m₀ : Machine := { m with trace := [], completers := m.completers.filter fun e => e.1 ≠ s.completer }
  have shown : m₀.Shows k ⟨l, pairs, vars, names, [], .idle a⟩ :=
    ⟨h.placed, h.named, h.loop, h.pairs, h.vars, h.names, h.stack, h.control⟩
  have posts := shown.modifyLoop (f := fun l => l.post s.report) (l := l.post s.report) h.id_loop
    fun releases => ⟨releases, rfl⟩
  have used : ({ m with trace := [] } : Machine).useCompleter s.completer s.use.result =
      m₀.modifyLoop k fun l => l.post s.report := by
    unfold useCompleter takeCompleter
    rw [show ({ m with trace := [] } : Machine).completers = m.completers from rfl, completer]
    rfl
  have ended (info : CommandInfo) : ((m₀.modifyLoop k fun l => l.post s.report).endDone info).Shows k
      ⟨l.post s.report, pairs, vars, names, [], .idle .done⟩ := by
    rw [endDone, endCommand_done info [] posts.stack]
    exact (posts.drop_signal [] .done).spend
  unfold Machine.start Use.command
  cases hu : s.use with
  | drop =>
    rw [hu] at used
    dsimp only [Machine.beginStep]
    rw [show ({ m with trace := [] } : Machine).useCompleter s.completer .abandoned = _ from used]
    exact ended _
  | _ =>
    rw [hu] at used
    dsimp only [Machine.beginStep]
    rw [used]
    exact ended _

/-- The order in which promises have settled does not matter. -/
theorem Rests.perm (h : Rests k name base m l posted left done made) (perm : done.Perm more) :
    Rests k name base m l posted left more made :=
  { h with
    settled := fun s hs => h.settled s (perm.mem_iff.mpr hs)
    owed := h.owed.trans ((base.reportable_perm perm).append_left _) }

/-- The report of a completer that is used waits in the channel. -/
theorem Rests.use (h : Rests k name base m l posted (s :: left) done made)
    (completer : (m.completers.find? fun e => e.1 = s.completer) =
      some (s.completer, { loop := k, promise := s.promise.id })) :
    ∃ m' l', m.Performs [(Action.use s).command name] m' ∧
      Rests k name base m' l' (posted ++ [s]) left done made := by
  obtain ⟨⟨a, shown⟩, -⟩ := h.reachable.shows_rest h.stack h.named h.found
  have used : (m.start ((Action.use s).command name)).Comes k _ := (shown.start_use completer).comes
  obtain ⟨n, shown', idle⟩ := used.idle rfl
  obtain ⟨releases, hl'⟩ := shown'.loop
  have reachable := (h.reachable.start h.idle ((Action.use s).command name)).run n
  let l' : Loop := { l.post s.report with releases }
  have settles : l.Settles [] {} l' := Loop.settles_of_eq rfl rfl rfl rfl (Tally.append_empty _)
  have selected := settles.takeReports_perm (h.reachable.waits h.found) (reachable.waits hl')
  rw [Loop.reportable_nil, List.append_nil] at selected
  have same : posted ++ [s] ++ left = posted ++ s :: left := by rw [List.append_assoc]; rfl
  refine ⟨_, l', .cons n idle (.nil _),
    { reachable
      idle
      stack := shown'.stack
      named := ?_
      found := hl'
      config := h.config
      room := h.room
      microtasks := h.microtasks
      channel := ?_
      bears := ?_
      flying := fun t ht => h.flying t (same ▸ ht)
      settled := h.settled
      reports := (congrArg Tally.reports settles.counts.tally).trans ((List.append_nil _).trans h.reports)
      owed := (selected.append_left made).trans h.owed }⟩
  · rw [Machine.named?, shown'.names]
    exact h.named
  · rw [List.map_append, ← h.channel]
    rfl
  · rw [same]
    exact h.bears.of_heap rfl rfl rfl

/-- A checkpoint settles the promises of the seeds that have been posted, and those of their trees. -/
theorem Rests.settles (h : Rests k name base m l posted left done made)
    (flat : ∀ d f v, (reply d f v).IsFlat k) (calm : m.Uneventful k name reply) :
    ∃ m' l' x counted, m.Performs [Action.checkpoint.command name] m' ∧ Reachable m' ∧ m'.stack = [] ∧
      m'.isIdle = true ∧ m'.named? name = some k ∧ m'.loop? k = some l' ∧
      l.Settles (posted.map Seed.root ++
        (breadthFirst reply (posted.flatMap fun s => s.root.visits)).map (Visit.stem reply)) counted x ∧
      counted.reports = [] ∧ Loop.Bears k x (left.map fun s => s.root.trunk) ∧
      x.microtasks.entries = [] ∧ x.Waits ∧ x.takeReports.2.IsTold ∧
      x.takeReports.2.Fades l' { reports := x.takeReports.1 } := by
  obtain ⟨⟨a, shown⟩, resting⟩ := h.reachable.shows_rest h.stack h.named h.found
  obtain ⟨replies, yields, named, -⟩ := calm
  have begun : (m.start (Action.checkpoint.command name)).Shows k _ := shown.start_checkpoint h.named resting
  have reachable := h.reachable.start h.idle (Action.checkpoint.command name)
  have started : l.Settles [] {} l.deliver.startDraining := by
    rw [l.deliver_eq]
    refine Loop.settles_of_eq rfl rfl rfl rfl (tally_append_of_uncounted (fun e he => ?_) l.history)
    obtain ⟨r, -, rfl⟩ := List.mem_map.mp (List.mem_reverse.mp he)
    rfl
  have visiting : Machine.Visiting _ k _ l.deliver.startDraining posted []
      (left.map fun s => s.root.trunk) :=
    { meets := ⟨0, _, _, _, begun⟩
      entries := by
        rw [l.deliver_eq]
        show l.microtasks.entries ++ l.channel.map _ = _
        rw [h.microtasks, h.channel, List.map_map]
        exact (List.append_nil _).symm
      bears := by
        rw [l.deliver_eq, List.map_nil, List.nil_append, ← List.map_append]
        exact h.bears.of_heap rfl rfl rfl
      told := nofun
      flying := fun s hs => by
        rw [l.deliver_eq]
        exact h.flying s (List.mem_append_left _ hs) }
  obtain ⟨counted, l₁, landed, unreported, visiting⟩ :=
    visiting.lands reachable (started.counts.slots ▸ h.room)
  rw [List.nil_append] at visiting
  have slots₁ := landed.counts.slots.trans started.counts.slots
  obtain ⟨n, x, l₂, visited, bears, entries, waits, told, hs, hc, hl₂, fades⟩ :=
    visiting.checkpoint_ends reachable replies yields flat (slots₁ ▸ h.room)
  obtain ⟨n, l₃, hs, hc, hl₃, faded⟩ := checkpointFrame_ends reachable hs hc hl₂ (fades.isTold told)
  -- the loop has its name to the end
  have kept : (run n (m.start (Action.checkpoint.command name))).keepsLoop k = true := by
    obtain ⟨e, found, rfl⟩ := Option.map_eq_some_iff.mp (named n)
    have any : ((run n (m.start (Action.checkpoint.command name))).names.any fun x => x.2 = e.2) = true :=
      List.any_eq_true.mpr ⟨e, List.mem_of_find?_eq_some found, by simp⟩
    rw [keepsLoop, any]
    rfl
  obtain ⟨i, ended, -⟩ := exists_run_settled (reachable.run n).placed kept
  obtain ⟨l', hl', outside⟩ := ended.aside.stays l₃ hl₃
  have allTold := (fades.trans_silent faded).isTold told
  rw [← run_add] at ended hl'
  refine ⟨_, l', x, _, .cons (n + i) ?_ (.nil _), reachable.run _, ?_, ?_, named _, hl',
    started.trans (landed.trans visited), ?_, bears, entries, waits, told,
    (fades.trans_silent faded).trans_silent ((Loop.thins_of_outside outside).fades allTold)⟩
  · rw [isIdle, ended.control, hc, ended.orphan]
    rfl
  · rw [ended.stack, hs]
  · rw [isIdle, ended.control, hc, ended.orphan]
    rfl
  · simp [unreported, Visit.tally]

/-- A checkpoint applies what has been posted, and makes the reports that are due. -/
theorem Rests.checkpoint (h : Rests k name base m l posted left done made)
    (flat : ∀ d f v, (reply d f v).IsFlat k) (calm : m.Uneventful k name reply) :
    ∃ m' l' made', m.Performs [Action.checkpoint.command name] m' ∧ l'.IsTold ∧
      Rests k name base m' l' [] left (done ++ posted.flatMap fun s => s.stems reply) made' := by
  obtain ⟨m', l', x, counted, performs, reachable, stack, idle, named, found, settles, unreported, bears,
    entries, waits, told, fades⟩ := h.settles flat calm
  obtain ⟨heap, heq, -, -⟩ := Loop.takeReports_spec x
  have slots := fades.counts.slots.trans (x.length_slots_takeReports.trans settles.counts.slots)
  have control : m'.control.pendingOf k = [] := by
    unfold isIdle at idle
    cases hc : m'.control with
    | idle a => rfl
    | _ => rw [hc] at idle; cases idle
  have native : l'.bridge = .native := fades.bridge.trans (by rw [heq]; exact bears.native)
  have config : l'.config = l.config := fades.config.trans (by rw [heq]; exact settles.config)
  -- the promises that are left in flight are pending, unlike those that have settled
  have flying : ∀ s ∈ left, s.promise ∈ l'.inFlight := fun s hs => by
    rw [fades.inFlight, heq]
    refine settles.inFlight _ (h.flying s (List.mem_append_right _ hs)) fun t ht e => ?_
    have hung := (bears.hung _ (Branch.mem_all_of_mem (List.mem_map_of_mem hs))).2
    have settled := settles.settled t ht
    rw [e, show s.promise = s.root.trunk.promise from rfl, hung] at settled
    exact Side.state_ne_pending _ (congrArg Record.state (Option.some.inj settled)).symm
  have selected := settles.takeReports_perm (h.reachable.waits h.found) waits
  have counts : (tally l'.history).reports = (tally l.history).reports ++ x.takeReports.1 := by
    have same : tally x.takeReports.2.history = tally x.history := by rw [heq]
    rw [fades.counts.tally, same, settles.counts.tally, Tally.reports_append, Tally.reports_append, unreported,
      List.append_nil]
  have perm := (Seed.stems_perm reply posted).append_left done
  refine ⟨m', l', made ++ x.takeReports.1, performs, fades.isTold told, Rests.perm ?_ perm⟩
  exact {
    reachable
    stack
    idle
    named
    found
    config := config.trans h.config
    room := slots ▸ h.room
    microtasks := by rw [fades.microtasks, heq]; exact entries
    channel := by
      have channel := calm.unposted m' performs
      rw [found] at channel
      exact Option.some.inj channel
    bears := reachable.bears_of_kept found (slots ▸ h.room) control (by rw [pendingOf, stack]; rfl) native
      fades.kept bears.takeReports fun b hb => by
        obtain ⟨s, hs, rfl⟩ := List.mem_map.mp hb
        exact flying s hs
    flying
    settled := settles.remembers fades h.settled
    reports := by rw [counts, h.reports, List.append_assoc]
    owed := by
      rw [(fades.isTold told).takeReports, List.append_nil, Loop.reportable_append]
      rw [Loop.reportable_congr (l := base) h.config] at selected
      refine (selected.append_left made).trans ?_
      rw [← List.append_assoc, ← List.append_assoc]
      exact h.owed.append_right _ }

/-- Some actions that end with a checkpoint apply everything, and report all that is to be reported. -/
theorem Rests.performs {acts : List Action} (flat : ∀ d f v, (reply d f v).IsFlat k)
    (h : Rests k name base m l posted (sown acts) done made)
    (calm : m.Unimpeded k name reply (acts ++ [.checkpoint])) :
    ∃ m' l' made', m.Performs ((acts ++ [Action.checkpoint]).map (Action.command name)) m' ∧ l'.IsTold ∧
      Rests k name base m' l' [] [] (done ++ (posted ++ sown acts).flatMap fun s => s.stems reply) made' := by
  induction acts generalizing m l posted done made with
  | nil =>
    obtain ⟨m', l', made', performs, told, rests⟩ := h.checkpoint flat calm.1
    exact ⟨m', l', made', performs, told, by rwa [sown, List.filterMap_nil, List.append_nil]⟩
  | cons act acts ih =>
    cases act with
    | use s =>
      obtain ⟨m₁, l₁, performs, rests⟩ := h.use calm.1
      obtain ⟨m', l', made', performs', told, rests'⟩ := ih rests (calm.2 m₁ performs)
      refine ⟨m', l', made', performs.append performs', told, ?_⟩
      rwa [List.append_assoc] at rests'
    | checkpoint =>
      obtain ⟨m₁, l₁, made₁, performs, -, rests⟩ := h.checkpoint flat calm.1
      obtain ⟨m', l', made', performs', told, rests'⟩ := ih rests (calm.2 m₁ performs)
      refine ⟨m', l', made', performs.append performs', told, ?_⟩
      rw [List.flatMap_append, ← List.append_assoc]
      exact rests'

-- ---------------------------------------------------------------------------
-- Two orders
-- ---------------------------------------------------------------------------

/-- A host uses some completers of a loop at rest, with primitive outcomes or by dropping them, on whose
promises trees of registrations hang; the functions of the trees reply with values that are taken as they are,
and leave the loop alone.  It uses them in one order or in another one, and asks for checkpoints anywhere in
between and at the end.  Then either run comes to its end, with nothing left to deliver or to drain, and the
two runs agree:

* every promise of the trees on which there are handles has settled, to the same state and with the same value;
* the same rejections have been reported, equally often. -/
theorem reports_settle_in_any_order (hm : Reachable m) (rest : m.stack = []) (quiet : m.isIdle = true)
    (loop : m.named? name = some k) (hl : m.loop? k = some l) (room : l.heap.slots.length < 2 ^ 32)
    (microtasks : l.microtasks.entries = []) (channel : l.channel = []) (seeds : List Seed)
    (bears : Loop.Bears k l (seeds.map fun s => s.root.trunk)) (flying : ∀ s ∈ seeds, s.promise ∈ l.inFlight)
    (flat : ∀ d f v, (reply d f v).IsFlat k) (acts acts' : List Action)
    (uses : (sown acts).Perm seeds) (uses' : (sown acts').Perm seeds)
    (calm : m.Unimpeded k name reply (acts ++ [.checkpoint]))
    (calm' : m.Unimpeded k name reply (acts' ++ [.checkpoint])) :
    ∃ m₁ m₂ l₁ l₂ made₁ made₂,
      m.Performs ((acts ++ [Action.checkpoint]).map (Action.command name)) m₁ ∧
      m.Performs ((acts' ++ [Action.checkpoint]).map (Action.command name)) m₂ ∧
      m₁.loop? k = some l₁ ∧ m₂.loop? k = some l₂ ∧
      (l₁.channel = [] ∧ l₁.microtasks.entries = []) ∧ (l₂.channel = [] ∧ l₂.microtasks.entries = []) ∧
      (∀ s ∈ seeds, ∀ p ∈ s.promises, p ∈ m₁.rooted k → p ∈ m₂.rooted k →
        ∃ r₁ r₂, l₁.heap.get? p.id = some r₁ ∧ l₂.heap.get? p.id = some r₂ ∧
          r₁.state ≠ .pending ∧ r₁.state = r₂.state ∧ r₁.value = r₂.value) ∧
      (tally l₁.history).reports = (tally l.history).reports ++ made₁ ∧
      (tally l₂.history).reports = (tally l.history).reports ++ made₂ ∧ made₁.Perm made₂ := by
  have before (acts : List Action) (uses : (sown acts).Perm seeds) : Rests k name l m l [] (sown acts) [] [] :=
    { reachable := hm
      stack := rest
      idle := quiet
      named := loop
      found := hl
      config := rfl
      room := room
      microtasks := microtasks
      channel := channel
      bears := bears.perm (uses.symm.map _)
      flying := fun s hs => flying s (uses.mem_iff.mp hs)
      settled := nofun
      reports := (List.append_nil _).symm
      owed := by simp }
  obtain ⟨m₁, l₁, made₁, performs, told, rests⟩ := (before acts uses).performs flat calm
  obtain ⟨m₂, l₂, made₂, performs', told', rests'⟩ := (before acts' uses').performs flat calm'
  rw [List.nil_append, List.nil_append] at rests rests'
  -- the promises that have settled are those of the trees, in whatever order
  have stems := uses.flatMap_right fun s => s.stems reply
  have stems' := uses'.flatMap_right fun s => s.stems reply
  have live {m : Machine} {l' : Loop} {done made} (h : Rests k name l m l' [] [] done made) {p : Promise}
      (rooted : p ∈ m.rooted k) : l'.heap.Live p.id := by
    refine (h.reachable.ledger h.found h.room ?_ (by rw [pendingOf, h.stack]; rfl)).live p rooted
    obtain ⟨a, hc⟩ := (h.reachable.balanced ⟨0⟩).2.idle h.stack
    rw [hc]
    rfl
  refine ⟨m₁, m₂, l₁, l₂, made₁, made₂, performs, performs', rests.found, rests'.found,
    ⟨rests.channel, rests.microtasks⟩, ⟨rests'.channel, rests'.microtasks⟩, fun s hs p hp rooted rooted' => ?_,
    rests.reports, rests'.reports, ?_⟩
  · obtain ⟨t, ht, rfl⟩ := Seed.exists_stem reply hp
    have among : t ∈ seeds.flatMap fun s => s.stems reply := List.mem_flatMap.mpr ⟨s, hs, ht⟩
    obtain ⟨r₁, hr₁⟩ := live rests rooted
    obtain ⟨r₂, hr₂⟩ := live rests' rooted'
    obtain ⟨state, value⟩ := rests.settled t (stems.mem_iff.mpr among) r₁ hr₁
    obtain ⟨state', value'⟩ := rests'.settled t (stems'.mem_iff.mpr among) r₂ hr₂
    exact ⟨r₁, r₂, hr₁, hr₂, state ▸ Side.state_ne_pending _, state.trans state'.symm,
      value.trans value'.symm⟩
  · have owed := rests.owed
    have owed' := rests'.owed
    rw [told.takeReports, List.append_nil] at owed
    rw [told'.takeReports, List.append_nil] at owed'
    exact owed.trans (((l.reportable_perm (stems.trans stems'.symm)).append_left _).trans owed'.symm)

-- ---------------------------------------------------------------------------
-- Two completers
-- ---------------------------------------------------------------------------

/-- A checkpoint is uneventful if it is so until the machine is idle. -/
theorem uneventful_of_run {n : Nat} (replies : (m.start (Action.checkpoint.command name)).RepliesAs k reply)
    (idle : (run n (m.start (Action.checkpoint.command name))).isIdle = true)
    (calm : isCalmFor k n (m.start (Action.checkpoint.command name)) = true)
    (quiet : (run n (m.start (Action.checkpoint.command name))).beneath.any (Frame.tells k) = false)
    (named : ((List.range (n + 1)).all fun i =>
      (run i (m.start (Action.checkpoint.command name))).named? name = some k) = true)
    (unposted : ((run n (m.start (Action.checkpoint.command name))).loop? k).map Loop.channel = some []) :
    m.Uneventful k name reply where
  replies := replies
  yields := alwaysYields_of_isCalmFor calm idle quiet
  named i := by
    have always (i : Nat) (hi : i ≤ n) := List.all_eq_true.mp named i (List.mem_range.mpr (by omega))
    rcases Nat.le_total i n with le | le
    · simpa using always i le
    · obtain ⟨d, rfl⟩ := Nat.exists_eq_add_of_le le
      rw [run_add, run_of_isIdle idle]
      simpa using always n (Nat.le_refl n)
  unposted m' performs := by
    rw [performs.unique (.cons n idle (.nil _))]
    exact unposted

/-- A machine whose script has created two completers, and has registered a function on the promise of the
first one that throws what it is told. -/
def twoCompleters : Machine :=
  let act (s : Step) (store : String) : Command := .step s (some store) false
  (boot {} .console .native).obey
    [act (.completer "main" "c") "p", act (.completer "main" "d") "q",
      act (.routine "fail" [.raise (.argument 0)] true) "f",
      act (.attach .then_ "main" (.variable "p") (some (.variable "f")) none) "r"]

/-- The first completer of `twoCompleters`, which succeeds with seven. -/
def succeeding : Seed where
  completer := "c"
  use := .success ⟨.small 7, rfl⟩
  promise := plantedPromise 0
  branches := [⟨⟨plantedPromise 2, some (.function (.routine 0 "fail")), none⟩, []⟩]

/-- The second completer of `twoCompleters`, which is dropped. -/
def abandoned : Seed where
  completer := "d"
  use := .drop
  promise := plantedPromise 1
  branches := []

/-- `twoCompleters` after some actions, if two steps are enough for a use and 21 for a checkpoint. -/
def twoCompletersAfter (acts : List Action) : Machine :=
  acts.foldl (fun m act => run (if act.seed?.isSome then 2 else 21) (m.start (act.command "main"))) twoCompleters

/-- The function of `twoCompleters` throws what it is told. -/
abbrev failing : Replies := fun _ _ v => .thrown v

/-- The functions of `twoCompleters` reply within four steps. -/
theorem repliesAs_failing (times : List Nat) (idle : (run 21 m).isIdle = true) (asking : askingTimes 21 m = times)
    (replies : ∀ n ∈ times, ∃ v, (run n m).control = .call (.routine 0 "fail") .undefined [v] ∧
      ((run (n + 4) m).control, (run (n + 4) m).stack, (run (n + 4) m).loop? k,
        (run (n + 4) m).names.any fun e => e.2 = k) =
      (.signal (.thrown v), (run n m).stack, (run n m).loop? k, true)) : m.RepliesAs k failing := by
  refine repliesAs_of_askingTimes idle fun n hn f d v rest l hc hs hl => ?_
  rw [asking] at hn
  obtain ⟨w, called, same⟩ := replies n hn
  cases called.symm.trans hc
  simp only [Prod.mk.injEq] at same
  exact ⟨4, l.releases, same.1, same.2.1, same.2.2.1.trans hl, same.2.2.2⟩

theorem uneventful_twoCompleters :
    (twoCompletersAfter [.use succeeding]).Uneventful ⟨0⟩ "main" failing ∧
    (twoCompletersAfter [.use succeeding, .checkpoint, .use abandoned]).Uneventful ⟨0⟩ "main" failing ∧
    (twoCompletersAfter [.use abandoned, .use succeeding]).Uneventful ⟨0⟩ "main" failing := by
  refine ⟨uneventful_of_run (n := 21) (repliesAs_failing [4] (by cbv) (by cbv) fun n hn => ?_)
      (by cbv) (by cbv) (by cbv) (by cbv) (by cbv),
    uneventful_of_run (n := 21) (repliesAs_failing [] (by cbv) (by cbv) nofun)
      (by cbv) (by cbv) (by cbv) (by cbv) (by cbv),
    uneventful_of_run (n := 21) (repliesAs_failing [6] (by cbv) (by cbv) fun n hn => ?_)
      (by cbv) (by cbv) (by cbv) (by cbv) (by cbv)⟩
  · obtain rfl := List.mem_singleton.mp hn
    exact ⟨.small 7, by cbv, by cbv⟩
  · obtain rfl := List.mem_singleton.mp hn
    exact ⟨.small 7, by cbv, by cbv⟩

/-- What becomes of `twoCompleters` one action later. -/
theorem eq_twoCompletersAfter {acts : List Action} {act : Action} {m' : Machine}
    (idle : (twoCompletersAfter (acts ++ [act])).isIdle = true)
    (performs : (twoCompletersAfter acts).Performs [act.command "main"] m') :
    m' = twoCompletersAfter (acts ++ [act]) := by
  have split : twoCompletersAfter (acts ++ [act]) = run (if act.seed?.isSome then 2 else 21)
      ((twoCompletersAfter acts).start (act.command "main")) := List.foldl_concat ..
  rw [split] at idle ⊢
  exact performs.unique (.cons _ idle (.nil _))

theorem unimpeded_use {acts rest : List Action} {s : Seed}
    (completer : ((twoCompletersAfter acts).completers.find? fun e => e.1 = s.completer) =
      some (s.completer, { loop := ⟨0⟩, promise := s.promise.id }))
    (idle : (twoCompletersAfter (acts ++ [.use s])).isIdle = true)
    (next : (twoCompletersAfter (acts ++ [.use s])).Unimpeded ⟨0⟩ "main" failing rest) :
    (twoCompletersAfter acts).Unimpeded ⟨0⟩ "main" failing (.use s :: rest) :=
  ⟨completer, fun _ performs => eq_twoCompletersAfter idle performs ▸ next⟩

theorem unimpeded_checkpoint {acts rest : List Action}
    (calm : (twoCompletersAfter acts).Uneventful ⟨0⟩ "main" failing)
    (idle : (twoCompletersAfter (acts ++ [.checkpoint])).isIdle = true)
    (next : (twoCompletersAfter (acts ++ [.checkpoint])).Unimpeded ⟨0⟩ "main" failing rest) :
    (twoCompletersAfter acts).Unimpeded ⟨0⟩ "main" failing (.checkpoint :: rest) :=
  ⟨calm, fun _ performs => eq_twoCompletersAfter idle performs ▸ next⟩

theorem unimpeded_twoCompleters :
    twoCompleters.Unimpeded ⟨0⟩ "main" failing [.use succeeding, .checkpoint, .use abandoned, .checkpoint] ∧
    twoCompleters.Unimpeded ⟨0⟩ "main" failing [.use abandoned, .use succeeding, .checkpoint] := by
  obtain ⟨first, second, both⟩ := uneventful_twoCompleters
  have start : twoCompletersAfter [] = twoCompleters := List.foldl_nil
  rw [← start]
  exact ⟨unimpeded_use (by cbv) (by cbv) (unimpeded_checkpoint first (by cbv)
      (unimpeded_use (by cbv) (by cbv) (unimpeded_checkpoint second (by cbv) trivial))),
    unimpeded_use (by cbv) (by cbv) (unimpeded_use (by cbv) (by cbv)
      (unimpeded_checkpoint both (by cbv) trivial))⟩

/-- The promises of the trees keep their handles, which the variables of the script hold. -/
theorem rooted_twoCompleters :
    (∀ m', twoCompleters.Performs ([Action.use succeeding, .checkpoint, .use abandoned, .checkpoint].map
      (Action.command "main")) m' →
      ([plantedPromise 0, plantedPromise 1, plantedPromise 2].all (m'.rooted ⟨0⟩).elem) = true) ∧
    ∀ m', twoCompleters.Performs ([Action.use abandoned, .use succeeding, .checkpoint].map
      (Action.command "main")) m' →
      ([plantedPromise 0, plantedPromise 1, plantedPromise 2].all (m'.rooted ⟨0⟩).elem) = true := by
  refine ⟨fun m' performs => ?_, fun m' performs => ?_⟩
  · rw [performs.unique (.cons 2 (by cbv) (.cons 21 (by cbv) (.cons 2 (by cbv) (.cons 21 (by cbv) (.nil _)))))]
    cbv
  · rw [performs.unique (.cons 2 (by cbv) (.cons 2 (by cbv) (.cons 21 (by cbv) (.nil _))))]
    cbv

theorem reports_settle_in_any_order_twoCompleters : ∃ m₁ m₂ l₁ l₂ made₁ made₂,
    twoCompleters.Performs ([Action.use succeeding, .checkpoint, .use abandoned, .checkpoint].map
      (Action.command "main")) m₁ ∧
    twoCompleters.Performs ([Action.use abandoned, .use succeeding, .checkpoint].map
      (Action.command "main")) m₂ ∧
    m₁.loop? ⟨0⟩ = some l₁ ∧ m₂.loop? ⟨0⟩ = some l₂ ∧
    (∀ p ∈ succeeding.promises ++ abandoned.promises, ∃ r₁ r₂, l₁.heap.get? p.id = some r₁ ∧
      l₂.heap.get? p.id = some r₂ ∧ r₁.state ≠ .pending ∧ r₁.state = r₂.state ∧ r₁.value = r₂.value) ∧
    (tally l₁.history).reports = made₁ ∧ (tally l₂.history).reports = made₂ ∧ made₁.Perm made₂ := by
  obtain ⟨l, hl⟩ := Option.isSome_iff_exists.mp (by cbv : (twoCompleters.loop? ⟨0⟩).isSome = true)
  have parts : (twoCompleters.loop? ⟨0⟩).map (fun l => (l.bridge, l.microtasks.entries, l.channel,
      l.inFlight, (tally l.history).reports)) =
      some (.native, [], [], [plantedPromise 0, plantedPromise 1], []) := by cbv
  have slots : (twoCompleters.loop? ⟨0⟩).map (fun l => l.heap.slots.length) = some 3 := by cbv
  have records : (twoCompleters.loop? ⟨0⟩).map (fun l => (l.heap.get? ⟨0, 0⟩, l.heap.get? ⟨1, 0⟩,
      l.heap.get? ⟨2, 0⟩)) = some (some (Branch.hung succeeding.branches), some (Branch.hung []),
      some (Branch.hung [])) := by cbv
  simp only [hl, Option.map_some, Option.some.injEq, Prod.mk.injEq] at parts slots records
  obtain ⟨native, microtasks, channel, inFlight, unreported⟩ := parts
  obtain ⟨root, other, derived⟩ := records
  have reachable : Reachable twoCompleters := .obey (.boot _ _ _) _
  have every : Branch.all ([succeeding, abandoned].map fun s => s.root.trunk) =
      [succeeding.root.trunk, ⟨⟨plantedPromise 2, some (.function (.routine 0 "fail")), none⟩, []⟩,
        abandoned.root.trunk] := by
    simp [Branch.all, succeeding, abandoned, Seed.root, Stem.trunk]
  have bears : Loop.Bears ⟨0⟩ l ([succeeding, abandoned].map fun s => s.root.trunk) := by
    refine ⟨reachable.placed _ l hl, native, reachable.wf hl, ?_, ?_, by rw [every]; decide⟩
    · rw [every]
      simpa using ⟨⟨rfl, root⟩, ⟨rfl, derived⟩, ⟨rfl, other⟩⟩
    · rw [every]
      intro b hb side h hh
      simp only [List.mem_cons, List.not_mem_nil, or_false] at hb
      rcases hb with rfl | rfl | rfl <;> cases side <;> cases hh
      exact ⟨_, rfl⟩
  obtain ⟨calm, calm'⟩ := unimpeded_twoCompleters
  obtain ⟨m₁, m₂, l₁, l₂, made₁, made₂, performs, performs', hl₁, hl₂, -, -, same, reports, reports', perm⟩ :=
    reports_settle_in_any_order reachable (by cbv) (by cbv) (by cbv) hl
      (Nat.lt_of_le_of_lt (Nat.le_of_eq slots) (by decide)) microtasks channel [succeeding, abandoned] bears
      (by simp [inFlight, succeeding, abandoned]) (fun _ _ _ _ h => by cases h)
      [.use succeeding, .checkpoint, .use abandoned] [.use abandoned, .use succeeding] (.refl _) (.swap _ _ _)
      calm calm'
  rw [unreported, List.nil_append] at reports reports'
  have promises : (∀ p ∈ succeeding.promises, p ∈ [plantedPromise 0, plantedPromise 1, plantedPromise 2]) ∧
      ∀ p ∈ abandoned.promises, p ∈ [plantedPromise 0, plantedPromise 1, plantedPromise 2] := by
    simp [Seed.promises, Branch.all, succeeding, abandoned, Seed.root, Stem.trunk, Branch.promise]
  have rooted := fun p hp => List.elem_iff.mp (List.all_eq_true.mp (rooted_twoCompleters.1 m₁ performs) p hp)
  have rooted' := fun p hp => List.elem_iff.mp (List.all_eq_true.mp (rooted_twoCompleters.2 m₂ performs') p hp)
  refine ⟨m₁, m₂, l₁, l₂, made₁, made₂, performs, performs', hl₁, hl₂, fun p hp => ?_, reports, reports', perm⟩
  rcases List.mem_append.mp hp with hp | hp
  · exact same succeeding (List.mem_cons_self ..) p hp (rooted p (promises.1 p hp)) (rooted' p (promises.1 p hp))
  · exact same abandoned (List.mem_cons_of_mem _ (List.mem_cons_self ..)) p hp (rooted p (promises.2 p hp))
      (rooted' p (promises.2 p hp))

end Machine
end PromiseLoop

import PromiseLoop.Proofs.Handles.Collections
import PromiseLoop.Proofs.Trees.Drains

/-!
# Checkpoints after a tree

When the drain of a checkpoint has visited a tree, the rejections in it that nobody handles are selected and
reported, and a collection may follow.  All that the loop loses in the meantime are records of promises to
which no handle is left.

## Results

* `Loop.Settles.selects`, `Loop.Settles.takeReports_perm`: what is selected after the visits.
* `Machine.reports_end`, `Machine.checkpoint_ends`: the reports are made, and the checkpoint ends.
-/

namespace PromiseLoop

namespace Loop

variable {l l' l'' x : Loop} {k : LoopId} {counted : Tally} {done : List Stem}

-- ---------------------------------------------------------------------------
-- Selecting reports
-- ---------------------------------------------------------------------------

/-- No rejection of the loop waits to be reported. -/
def IsReported (l : Loop) : Prop := ∀ id r, l.heap.get? id = some r → r.awaitsReport = false

/-- Ids of records that do not wait for a report are passed over. -/
theorem foldl_selectReport_of_reported {ids : List PromiseId} {acc : List (PromiseId × Value) × Loop}
    (h : ∀ id ∈ ids, ∀ r, acc.2.heap.get? id = some r → r.awaitsReport = false) :
    ids.foldl selectReport acc = acc := by
  induction ids with
  | nil => rfl
  | cons id ids ih =>
    have first : selectReport acc id = acc := by
      unfold selectReport
      split
      · rfl
      · rename_i r hr
        rw [h id (List.mem_cons_self ..) r hr]
        rfl
    rw [List.foldl_cons, first]
    exact ih fun i hi => h i (List.mem_cons_of_mem _ hi)

theorem length_slots_selectReport (acc : List (PromiseId × Value) × Loop) (id : PromiseId) :
    (selectReport acc id).2.heap.slots.length = acc.2.heap.slots.length := by
  unfold selectReport
  split
  · rfl
  · split
    · exact List.length_modify ..
    · rfl

theorem length_slots_takeReports (l : Loop) :
    l.takeReports.2.heap.slots.length = l.heap.slots.length := by
  have fold (ids : List PromiseId) : ∀ acc : List (PromiseId × Value) × Loop,
      (ids.foldl selectReport acc).2.heap.slots.length = acc.2.heap.slots.length := by
    induction ids with
    | nil => exact fun _ => rfl
    | cons id ids ih => exact fun acc => (ih _).trans (length_slots_selectReport acc id)
  unfold takeReports
  dsimp only
  split
  · exact fold _ _
  · rfl

/-- The promises of a tree that are listed for a report are selected in the order in which they settled. -/
theorem foldl_selectReport_fst {acc : List (PromiseId × Value) × Loop}
    (distinct : (done.map fun s => s.promise.id).Nodup)
    (settled : ∀ s ∈ done, acc.2.heap.get? s.promise.id = some s.record) :
    (((done.filterMap Stem.report?).map Prod.fst).foldl selectReport acc).1 =
      acc.1 ++ done.filterMap Stem.report? := by
  induction done generalizing acc with
  | nil => exact (List.append_nil _).symm
  | cons s done ih =>
    rw [List.map_cons, List.nodup_cons] at distinct
    have found := settled s (List.mem_cons_self ..)
    cases hs : s.report? with
    | none =>
      rw [List.filterMap_cons_none hs]
      exact ih distinct.2 fun t ht => settled t (List.mem_cons_of_mem _ ht)
    | some e =>
      have awaits : s.record.awaitsReport = true := by rw [← s.isSome_report?, hs]; rfl
      have first : selectReport acc e.1 = (acc.1 ++ [e],
          acc.2.modifyRecord s.promise.id fun r => { r with rejectionReported := true }) := by
        obtain rfl := s.eq_of_report? hs
        unfold selectReport
        dsimp only
        rw [found]
        dsimp only
        rw [if_pos awaits]
      rw [List.filterMap_cons_some hs, List.map_cons, List.foldl_cons, first]
      refine (ih distinct.2 fun t ht => ?_).trans (List.append_assoc ..)
      have ne : t.promise.id ≠ s.promise.id := fun e => distinct.1 (e ▸ List.mem_map_of_mem ht)
      exact (Heap.get?_modify_ite ..).trans ((if_neg ne).trans (settled t (List.mem_cons_of_mem _ ht)))

/-- Where nothing waited to be reported, the rejections that nobody handles are selected in the order in which
they have come up, each of them once. -/
theorem Settles.selects (h : l.Settles done counted x) (tracking : l.config.trackUnhandledRejections = true)
    (listed : ∀ id ∈ l.awaiting, ∀ r, l.heap.get? id = some r → r.state ≠ .pending) (reported : l.IsReported) :
    x.takeReports.1 = done.filterMap Stem.report? ∧
      ∀ s ∈ done, x.takeReports.2.heap.get? s.promise.id = some s.reported := by
  obtain ⟨heap, heq, selects, -⟩ := takeReports_spec x
  have fst : x.takeReports.1 = done.filterMap Stem.report? := by
    -- what has been listed before is neither one of the promises nor waits
    have passed : l.awaiting.foldl selectReport ([], { x with awaiting := [] }) = ([], { x with awaiting := [] }) :=
      foldl_selectReport_of_reported fun id hid r hr => by
        refine reported id r ((h.others id fun s hs e => ?_).symm.trans hr)
        obtain ⟨r', hr', pending⟩ := h.pending s hs
        exact listed id hid r' (e ▸ hr') pending
    unfold takeReports
    rw [if_pos (h.config ▸ tracking), h.awaiting, reportable, if_pos tracking, List.foldl_append, passed,
      foldl_selectReport_fst h.distinct h.settled]
    rfl
  have find := selects.find
  rw [fst] at find
  refine ⟨fst, fun s hs => ?_⟩
  have listed : s.promise.id ∈ (done.filterMap Stem.report?).map Prod.fst ↔ s.report?.isSome = true := by
    refine ⟨fun mem => ?_, fun some => ?_⟩
    · obtain ⟨e, he, id⟩ := List.mem_map.mp mem
      obtain ⟨t, ht, hte⟩ := List.mem_filterMap.mp he
      have same : t = s := List.inj_on_of_nodup_map h.distinct ht hs ((t.fst_of_mem_report? hte).symm.trans id)
      rw [← same, hte]
      rfl
    · obtain ⟨e, he⟩ := Option.isSome_iff_exists.mp some
      exact List.mem_map.mpr ⟨e, List.mem_filterMap.mpr ⟨s, hs, he⟩, s.fst_of_mem_report? he⟩
  have found := (find s.promise.id).trans (congrArg _ (h.settled s hs))
  rw [heq, show heap.get? s.promise.id = _ from found, Option.map_some, Stem.reported]
  simp only [listed]
  cases s.report?.isSome <;> rfl

/-- What is selected is what waits to be reported. -/
theorem Waits.mem_takeReports (waits : l.Waits) (tracking : l.config.trackUnhandledRejections = true)
    {e : PromiseId × Value} : e ∈ l.takeReports.1 ↔
      ∃ r, l.heap.get? e.1 = some r ∧ r.awaitsReport = true ∧ e.2 = r.reason := by
  obtain ⟨heap, -, selects, -⟩ := takeReports_spec l
  refine ⟨selects.awaited e, fun ⟨r, hr, awaits, reason⟩ => ?_⟩
  rw [if_pos tracking] at selects
  obtain ⟨e', he', id⟩ := List.mem_map.mp (selects.complete e.1 (waits tracking e.1 r hr awaits) r hr awaits)
  obtain ⟨r', hr', -, reason'⟩ := selects.awaited e' he'
  rw [id, hr] at hr'
  have same : e' = e := Prod.ext id (reason'.trans (by rw [← Option.some.inj hr', reason]))
  exact same ▸ he'

theorem nodup_takeReports (l : Loop) : l.takeReports.1.Nodup := by
  obtain ⟨heap, -, selects, -⟩ := takeReports_spec l
  exact selects.nodup.of_map

/-- The rejections that are selected after some promises have settled are those that would have been selected
before, and those that have come up. -/
theorem Settles.takeReports_perm (h : l.Settles done counted x) (before : l.Waits) (after : x.Waits) :
    x.takeReports.1.Perm (l.takeReports.1 ++ l.reportable done) := by
  cases tracking : l.config.trackUnhandledRejections with
  | false =>
    obtain ⟨-, -, -, none⟩ := takeReports_spec x
    obtain ⟨-, -, -, none'⟩ := takeReports_spec l
    have unreportable : l.reportable done = [] := by rw [reportable, tracking]; rfl
    rw [none (h.config ▸ tracking), none' tracking, unreportable]
    exact .refl _
  | true =>
    have reportable : l.reportable done = done.filterMap Stem.report? := by rw [reportable, if_pos tracking]
    rw [reportable]
    have awaited {e} : e ∈ x.takeReports.1 ↔ _ := after.mem_takeReports (h.config ▸ tracking)
    have awaited' {e} : e ∈ l.takeReports.1 ↔ _ := before.mem_takeReports tracking
    -- what waited before is not pending, unlike the promises that have settled since
    have apart : ∀ e ∈ l.takeReports.1, ∀ s ∈ done, s.promise.id ≠ e.1 := fun e he s hs same => by
      obtain ⟨r, hr, awaits, -⟩ := awaited'.mp he
      obtain ⟨r', hr', pending⟩ := h.pending s hs
      rw [same, hr] at hr'
      rw [Record.awaitsReport, Option.some.inj hr', pending] at awaits
      cases awaits
    refine (List.perm_ext_iff_of_nodup (nodup_takeReports x) (List.nodup_append.mpr ⟨nodup_takeReports l,
      ((Stem.reports_sublist done).nodup h.distinct).of_map, fun e he e' he' same => ?_⟩)).mpr fun e => ?_
    · obtain ⟨s, hs, hse⟩ := List.mem_filterMap.mp he'
      exact apart e he s hs (same ▸ (s.fst_of_mem_report? hse).symm)
    · rw [List.mem_append, List.mem_filterMap, awaited]
      constructor
      · rintro ⟨r, hr, awaits, reason⟩
        by_cases mem : ∃ s ∈ done, s.promise.id = e.1
        · obtain ⟨s, hs, id⟩ := mem
          rw [← id, h.settled s hs] at hr
          obtain rfl := Option.some.inj hr
          rw [← s.isSome_report?] at awaits
          obtain ⟨e', he'⟩ := Option.isSome_iff_exists.mp awaits
          have same : e' = e := (s.eq_of_report? he').trans (Prod.ext id reason.symm)
          exact .inr ⟨s, hs, same ▸ he'⟩
        · rw [h.others e.1 fun s hs id => mem ⟨s, hs, id⟩] at hr
          exact .inl (awaited'.mpr ⟨r, hr, awaits, reason⟩)
      · rintro (he | ⟨s, hs, hse⟩)
        · obtain ⟨r, hr, awaits, reason⟩ := awaited'.mp he
          exact ⟨r, (h.others e.1 (apart e he)).trans hr, awaits, reason⟩
        · obtain rfl := s.eq_of_report? hse
          exact ⟨s.record, h.settled s hs, by rw [← s.isSome_report?, hse]; rfl, rfl⟩

-- ---------------------------------------------------------------------------
-- Loops that lose records
-- ---------------------------------------------------------------------------

/-- A loop has told all that it has to tell: no record is reported when it is freed. -/
def IsTold (l : Loop) : Prop := ∀ id r, l.heap.get? id = some r → l.reportsOnFree r = false

/-- Where nothing is listed, everything has been told. -/
theorem Waits.isTold (waits : l.Waits) (awaiting : l.awaiting = []) : l.IsTold := fun id r hr => by
  by_contra reports
  obtain ⟨tracking, awaits⟩ := Bool.and_eq_true_iff.mp (Bool.eq_true_of_not_eq_false reports)
  have listed := waits tracking id r hr awaits
  rw [awaiting] at listed
  cases listed

theorem IsTold.takeReports (h : l.IsTold) : l.takeReports.1 = [] := by
  obtain ⟨heap, -, selects, none⟩ := takeReports_spec l
  cases tracking : l.config.trackUnhandledRejections with
  | false => exact none tracking
  | true =>
    refine List.eq_nil_iff_forall_not_mem.mpr fun e he => ?_
    obtain ⟨r, hr, awaits, -⟩ := selects.awaited e he
    have told := h e.1 r hr
    rw [reportsOnFree, tracking, awaits] at told
    cases told

/-- What a loop counts in a while in which records go and the others stay as they are. -/
structure Fades (l l' : Loop) (counted : Tally) : Prop where
  config : l'.config = l.config
  bridge : l'.bridge = l.bridge
  microtasks : l'.microtasks = l.microtasks
  inFlight : l'.inFlight = l.inFlight
  kept : ∀ id r, l'.heap.get? id = some r → l.heap.get? id = some r
  counts : l.Counts l' counted

variable {a b : Tally}

theorem Fades.refl (l : Loop) : l.Fades l {} := ⟨rfl, rfl, rfl, rfl, fun _ _ hr => hr, .refl l⟩

theorem Fades.trans (h : l.Fades l' a) (h' : l'.Fades l'' b) : l.Fades l'' (a ++ b) where
  config := h'.config.trans h.config
  bridge := h'.bridge.trans h.bridge
  microtasks := h'.microtasks.trans h.microtasks
  inFlight := h'.inFlight.trans h.inFlight
  kept id r hr := h.kept id r (h'.kept id r hr)
  counts := h.counts.trans h'.counts

theorem Fades.trans_silent (h : l.Fades l' a) (h' : l'.Fades l'' {}) : l.Fades l'' a :=
  a.append_empty ▸ h.trans h'

theorem Fades.isTold (h : l.Fades l' a) (told : l.IsTold) : l'.IsTold := fun id r hr => by
  rw [reportsOnFree, h.config]
  exact told id r (h.kept id r hr)

/-- Where everything has been told, a collection adds nothing to the tally. -/
theorem Thins.fades {c : Nat} (h : l.Thins l' c) (told : l.IsTold) : l.Fades l' {} := by
  obtain ⟨newer, history, -, swept⟩ := h.history
  have uncounted : ∀ e ∈ newer, e.tally = {} := fun e he => by
    have sweeps := swept e he
    cases e with
    | reported id v =>
      obtain ⟨r, hr, reports, -⟩ := sweeps
      rw [told id r hr] at reports
      cases reports
    | freed id r => rfl
    | posted r => rfl
    | _ => exact sweeps.elim
  refine ⟨h.config, h.bridge, h.microtasks, h.inFlight, h.kept, ?_, h.slots⟩
  rw [history, tally_append_of_uncounted uncounted]
  exact (Tally.append_empty _).symm

theorem fades_report (l : Loop) (id : PromiseId) (v : Value) :
    l.Fades (l.report id v) { reports := [(id, v)] } := by
  rw [report_eq]
  exact ⟨rfl, rfl, rfl, rfl, fun _ _ hr => hr, rfl, rfl⟩

theorem fades_checked (l : Loop) : l.Fades (l.note .checked) {} :=
  ⟨rfl, rfl, rfl, rfl, fun _ _ hr => hr, rfl, rfl⟩

end Loop

namespace Machine

variable {m : Machine} {k : LoopId} {l : Loop} {base : List Frame} {f : Frame} {s : Signal} {n : Nat}
  {reports : List (PromiseId × Value)}

-- ---------------------------------------------------------------------------
-- Reports
-- ---------------------------------------------------------------------------

/-- What an activity signals reaches the frame that waits for it, once the loops are gone that nothing keeps
alive. -/
theorem exists_resumed (hm : Reachable m) (hs : m.stack = f :: base) (hf : f.loop? = some k)
    (hc : m.control = .signal s) (hl : m.loop? k = some l) :
    ∃ (i : Nat) (x : Machine) (l' : Loop), run i m = x.resume f s ∧ x.stack = base ∧
      x.control = .signal .done ∧ x.loop? k = some l' ∧ l.Thins l' 0 := by
  obtain ⟨i, settled, -⟩ := exists_run_settled hm.placed (keepsLoop_of_stack hs hf)
  obtain ⟨l', hl', outside⟩ := settled.aside.stays l hl
  exact ⟨i + 1, _, l', (run_succ' i m).trans (step_of_signal settled.orphan (settled.control.trans hc)
    (settled.stack.trans hs)), rfl, rfl, hl', Loop.thins_of_outside outside⟩

/-- A checkpoint makes its reports one after the other. -/
theorem reports_end (hm : Reachable m) (hy : m.AlwaysYields k)
    (hs : (run n m).stack = .reporting k reports :: base) (hc : (run n m).control = .signal s)
    (hl : (run n m).loop? k = some l) (told : l.IsTold) :
    ∃ i s' l', (run (n + i) m).stack = .reporting k [] :: base ∧ (run (n + i) m).control = .signal s' ∧
      (run (n + i) m).loop? k = some l' ∧ l.Fades l' { reports } := by
  induction reports generalizing n s l with
  | nil => exact ⟨0, s, l, hs, hc, hl, .refl l⟩
  | cons e reports ih =>
    obtain ⟨id, v⟩ := e
    obtain ⟨i, x, l₁, resumed, stack, control, hl₁, thins⟩ := exists_resumed (hm.run n) hs rfl hc hl
    rw [← run_add] at resumed
    -- the tracker is told, above the frame of the reports that are left
    let x₁ := drop s.held ((x.push (.reporting k reports)).push (.hold [v]))
    have stack₁ : x₁.stack = .hold [v] :: .reporting k reports :: base :=
      (stack_drop ..).trans (by rw [← stack]; rfl)
    have control₁ : x₁.control = .signal .done := (control_drop ..).trans (by rw [← control]; rfl)
    obtain ⟨released, hx₁⟩ := loop?_drop_of (m := (x.push (.reporting k reports)).push (.hold [v])) s.held hl₁
    let l₂ : Loop := { l₁ with releases := l₁.releases ++ released }
    have hx₂ : (x₁.modifyLoop k fun l => l.report id v).loop? k = some (l₂.report id v) := by
      rw [loop?_modifyLoop_self]
      exact congrArg (Option.map _) hx₁
    have begun : run (n + i) m = (x₁.modifyLoop k fun l => l.report id v).tellUnhandled k id v := resumed
    have above : .reporting k reports :: base <:+ (run (n + i) m).stack := by
      rw [begun]
      refine List.IsSuffix.trans ?_ (above_tellUnhandled _ _ _ _)
      exact stack₁ ▸ List.suffix_cons _ _
    have aside : Aside k (x₁.modifyLoop k fun l => l.report id v) (run (n + i) m) := by
      rw [begun]
      exact aside_tellUnhandled _ _ _ _ (congrArg Control.loop? control₁)
    obtain ⟨j, s', stack', control', aside'⟩ := hy.told hm (by simp [Frame.tells]) above
    obtain ⟨l₃, hl₃, outside⟩ := (aside.trans aside').stays _ hx₂
    -- none of this is counted, apart from the report
    have relisted : l₁.Thins l₂ 0 := Loop.thins_of_eq rfl rfl rfl rfl rfl rfl
    have fades₂ := ((thins.trans relisted).fades told).trans (Loop.fades_report l₂ id v)
    have fades := fades₂.trans_silent ((Loop.thins_of_outside outside).fades (fades₂.isTold told))
    obtain ⟨i', s'', l', stack'', control'', hl', fades'⟩ := ih stack' control' hl₃ (fades.isTold told)
    refine ⟨i + j + i', s'', l', ?_, ?_, ?_, fades.trans fades'⟩
    · rw [← Nat.add_assoc, ← Nat.add_assoc]
      exact stack''
    · rw [← Nat.add_assoc, ← Nat.add_assoc]
      exact control''
    · rw [← Nat.add_assoc, ← Nat.add_assoc]
      exact hl'

/-- A checkpoint that has selected its reports makes them and comes to its end. -/
theorem checkpoint_ends (hm : Reachable m) (hy : m.AlwaysYields k)
    (hs : (run n m).stack = .reporting k reports :: base) (hc : (run n m).control = .signal s)
    (hl : (run n m).loop? k = some l) (told : l.IsTold) (room : l.heap.slots.length < 2 ^ 32) :
    ∃ i l', (run (n + i) m).stack = base ∧ (run (n + i) m).control = .signal .done ∧
      (run (n + i) m).loop? k = some l' ∧ l.Fades l' { reports } := by
  obtain ⟨i, s', l₁, stack₁, control₁, hl₁, fades₁⟩ := reports_end hm hy hs hc hl told
  obtain ⟨j, x, l₂, resumed, stack₂, -, hl₂, thins⟩ :=
    exists_resumed (hm.run _) stack₁ rfl control₁ hl₁
  rw [← run_add] at resumed
  have told₁ := fades₁.isTold told
  obtain ⟨released, hl₃⟩ := loop?_drop_of s'.held hl₂
  let l₃ : Loop := { l₂ with releases := l₂.releases ++ released }
  have relisted : l₂.Thins l₃ 0 := Loop.thins_of_eq rfl rfl rfl rfl rfl rfl
  have fades₃ := fades₁.trans_silent ((thins.trans relisted).fades told₁)
  have finished : run (n + i + j) m = if l₃.config.collectAtCheckpoint
      then (drop s'.held x).sweep k { closes := true } else (drop s'.held x).endCheckpoint k := by
    rw [resumed]
    show (drop s'.held x).finishCheckpoint k = _
    unfold finishCheckpoint
    rw [hl₃]
  split at finished
  · -- a collection follows
    have sweeps : (run (n + i + j) m).control = .collect k { closes := true } := by rw [finished]; rfl
    have found : (run (n + i + j) m).loop? k = some l₃ := by rw [finished]; exact hl₃
    have slots : l₃.heap.slots.length < 2 ^ 32 := fades₃.counts.slots ▸ room
    obtain ⟨i', c, collects⟩ := collection_ends (hm.run _) sweeps found slots (hy.yields _)
    obtain ⟨y, thinned, -, hy'⟩ := collects.loop
    have stack := collects.stack
    have control := collects.control
    rw [← run_add] at stack control hy'
    refine ⟨i + (j + i'), y.note .checked, ?_, ?_, ?_, ?_⟩
    · rw [← Nat.add_assoc, ← Nat.add_assoc, stack, finished]
      exact (stack_drop ..).trans stack₂
    · rw [← Nat.add_assoc, ← Nat.add_assoc, control]
      rfl
    · rw [← Nat.add_assoc, ← Nat.add_assoc, hy']
      rfl
    · exact (fades₃.trans_silent (thinned.fades (fades₃.isTold told))).trans_silent
        (Loop.fades_checked y)
  · refine ⟨i + j, l₃.note .checked, ?_, ?_, ?_, fades₃.trans_silent (Loop.fades_checked l₃)⟩
    · rw [← Nat.add_assoc, finished]
      exact (stack_drop ..).trans stack₂
    · rw [← Nat.add_assoc, finished]
      rfl
    · rw [← Nat.add_assoc, finished]
      exact (loop?_modifyLoop_self ..).trans (by rw [hl₃]; rfl)

end Machine
end PromiseLoop

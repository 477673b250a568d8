import PromiseLoop.Proofs.Workloads.Stages

/-!
# From stage to stage

A task or a microtask of the host begins with one step and ends with another, and in between everything else is
left to the bodies.  The fault of an entry goes down through the frames of the run until it has reached those
that wait for the run.  A run that meets with no fault comes to a checkpoint that leaves nothing in the queues
and nothing on the list of rejections.

## Results

* `Stage.step`: from every stage but the last, a step leads to another one.
* `Stage.run`: which entries have begun and ended when a run until done has gone on for some steps.
* `Stage.hands_back`: what is known of them when the run hands something back.
-/

namespace PromiseLoop

open Relation

namespace Machine

variable {k : LoopId} {m m' : Machine} {base fs next above : List Frame} {f : Frame} {l l' : Loop} {s : Signal}

/-- What a step of a run until done may rely on: nothing asks for a turn of the loop, the tracker leaves the loop
alone while it is told something, and the slots have indices. -/
structure Undisturbed (k : LoopId) (m : Machine) : Prop where
  turnless : asksTurn k m = false
  calm : m.IsTelling k → Aside k m m.step
  room : m.Roomy

theorem kept_of_finishing (h : .finishing k ∈ m.stack) : m.keepsLoop k = true := by
  simp only [keepsLoop, Bool.or_eq_true, List.any_eq_true, decide_eq_true_eq]
  exact .inr ⟨_, h, rfl⟩

-- ---------------------------------------------------------------------------
-- Entries
-- ---------------------------------------------------------------------------

theorem resumeWork_cases (m : Machine) (s : Signal) : ∃ t, (m.resumeWork s).control = .signal t ∧
    (m.resumeWork s).stack = m.stack ∧ t = (match s.failure? with | some f => .fault f | none => .done) := by
  cases s with
  | fault f => exact ⟨_, rfl, rfl, rfl⟩
  | thrown v => exact ⟨_, control_drop .., stack_drop .., rfl⟩
  | _ => exact ⟨_, control_drop .., stack_drop .., rfl⟩

theorem step_entry {q : Bool} (hm : Reachable m) (turnless : asksTurn k m = false)
    (host : fs = .cycling k :: idlingOn k base ∨ fs = drainingOn k base)
    (hs : m.stack = above ++ .work q :: fs) (ordinary : Ordinary k above) (hl : m.loop? k = some l) :
    Proceeds k base m l true none := by
  have kept : m.keepsLoop k = true := kept_of_finishing (by rw [hs]; rcases host with rfl | rfl <;> simp)
  by_cases top : IsBackAt (.work q :: fs) m
  · obtain ⟨hs, s, hc⟩ := top
    rcases still_or_settled hm.placed kept with ⟨quiet, stack, -, aside⟩ | settled
    · exact (Stage.entry [] host (stack.trans hs) (.nil k)).still quiet hl aside
    · let popped : Machine := { m with stack := fs, control := .signal .done }
      have stepped : m.step = popped.resumeWork s := step_of_signal settled hc hs
      obtain ⟨t, control, stack, failed⟩ := resumeWork_cases popped s
      obtain ⟨l', hl', bides⟩ := (lays_resumeWork (k := k) popped s).bides hm.placed l hl
      rw [← stepped] at control stack hl'
      have ended : m.entryEnd? k = some s.failure? := by
        rcases host with rfl | rfl <;> exact entryEnd?_of_work settled hc hs (by simp [Frame.hosts])
      refine ⟨false, s.failure?, l', [], ?_, hl', by rw [bides.entries, List.append_nil], by simp [ended], by
        cases hf : s.failure? <;> simp [ended, hf]⟩
      cases hf : s.failure? with
      | some f =>
        rw [hf] at failed
        have falls : ∃ next, Falls k base fs next := by
          rcases host with rfl | rfl
          · exact ⟨_, .cycling⟩
          · exact ⟨_, .draining⟩
        obtain ⟨next, falls⟩ := falls
        subst failed
        exact .failing stack falls control
      | none =>
        rw [hf] at failed
        subst failed
        rcases host with rfl | rfl
        · exact .rested stack control
        · exact .job [] stack (.nil k) ⟨[], stack, by rw [control]; rfl⟩
  · have quiet := entryEnd?_of_busy hs ordinary top
    obtain ⟨above', l', stack, ordinary', hl', bides⟩ := lays_step hm.placed kept hs ordinary top turnless hl
    exact (Stage.entry above' host stack ordinary').goesOn quiet hl' bides

/-- A task has ended: its checkpoint begins. -/
theorem step_rested (hm : Reachable m) (outside : .draining k ∉ base)
    (hs : m.stack = .cycling k :: idlingOn k base) (hc : m.control = .signal .done) (hl : m.loop? k = some l) :
    Proceeds k base m l false none := by
  have quiet := entryEnd?_of_stack (k := k) hs rfl
  rcases still_or_settled hm.placed (keepsLoop_of_stack hs rfl) with ⟨-, stack, control, aside⟩ | settled
  · exact (Stage.rested (stack.trans hs) (control.trans hc)).still quiet hl aside
  · have idle : l.draining = false := Bool.eq_false_iff.mpr fun hd => by
      have mem := (hm.draining_iff hl).mp hd
      simp [hs, outside] at mem
    let popped : Machine := { m with stack := idlingOn k base, control := .signal .done }
    have stepped : m.step = popped.checkpoint k :=
      (step_of_signal settled hc hs).trans (by simp [popped, resume, resumeCycling, Signal.held, drop_nil])
    have found : popped.loop? k = some l := hl
    obtain ⟨x, hx, bides⟩ := bides_checkpoint found (hm.placed k l hl)
    have stage : Stage k base m.step false none := stepped ▸ stage_checkpoint rfl found idle
    exact stage.goesOn quiet (stepped ▸ hx) bides

-- ---------------------------------------------------------------------------
-- Jobs
-- ---------------------------------------------------------------------------

theorem not_isFault_of_sealed (h : Sealed base m) (hs : m.stack = base) (hc : m.control = .signal s) :
    s.isFault = false := by
  obtain ⟨above, stack, shut⟩ := h
  rw [hs] at stack
  obtain rfl : above = [] := by
    have := congrArg List.length stack
    rw [List.length_append] at this
    exact List.length_eq_zero_iff.mp (by omega)
  rw [hc] at shut
  exact shut

/-- A drain starts the next job. -/
theorem step_picked {j : Job} {rest : List Job} (hm : Reachable m) (room : m.Roomy) (settled : m.orphan? = none)
    (hs : m.stack = drainingOn k base) (hc : m.control = .signal s) (ok : s.isFault = false)
    (hl : m.loop? k = some l) (queue : l.microtasks.entries = j :: rest) : Proceeds k base m l false none := by
  have quiet := entryEnd?_of_stack (k := k) hs rfl
  have picks : Picks k (.checkpoint k :: idlingOn k base) j m :=
    ⟨settled, hs, ⟨s, hc, ok⟩, l, rest, hl, queue⟩
  obtain ⟨x, taken, l', hl', stepped, stack, placed, hx, -, -, -, history⟩ := picks.step hm
  obtain rfl := Option.some.inj (hl.symm.trans hl')
  have began : entries taken.history = entries l.history ++ (Event.started j).entered?.toList :=
    history ▸ entries_cons ..
  cases j with
  | host w =>
    have begun : m.step.stack = [.block w.body] ++ .work w.quiet :: drainingOn k base := by
      rw [stepped, show drainingOn k base = x.stack from stack.symm]
      simp [startJob, startWork]
    have found : m.step.loop? k = some taken := by
      rw [stepped, ← hx, loop?, loop?]
      simp [startJob, startWork]
    have ordinary : Ordinary k [.block w.body] := .singleton rfl rfl
    exact ⟨true, none, taken, [w], .entry [.block w.body] (.inr rfl) begun ordinary, found, began, by simp [quiet],
      by simp [quiet]⟩
  | _ =>
    have shut := sealed_picked picks hm room fun w => by simp
    have laid : Lays k x m.step := stepped ▸ lays_startJob x k fun w => by simp
    obtain ⟨above, begun, ordinary⟩ := laid.above
    obtain ⟨l', hl', bides⟩ := laid.bides placed taken hx
    refine ⟨false, none, l', [], .job above (begun.trans (by rw [stack])) ordinary shut, hl', ?_, by simp [quiet],
      by simp [quiet]⟩
    rw [bides.entries, began]
    rfl

/-- A drain that finds no job ends. -/
theorem step_of_drained (settled : m.orphan? = none) (hs : m.stack = .draining k :: fs)
    (hc : m.control = .signal s) (ok : s.isFault = false) (hl : m.loop? k = some l) (queue : l.microtasks.entries = []) :
    m.step = (drop s.held { m with stack := fs, control := .signal .done }).endDrain k := by
  let popped : Machine := { m with stack := fs, control := .signal .done }
  obtain ⟨released, hd⟩ := loop?_drop_of (m := popped) s.held hl
  have empty : Loop.dequeue? { l with releases := l.releases ++ released } = none := by
    rw [Loop.dequeue?, Queue.dequeue?, queue]
    rfl
  refine (step_of_signal settled hc hs).trans ((resumeDraining_of_ok popped k ok).trans ?_)
  show (drop s.held popped).nextMicrotask k = (drop s.held popped).endDrain k
  simp only [nextMicrotask, hd, Option.bind_some, empty]

theorem step_job (hm : Reachable m) (h : Undisturbed k m) (hs : m.stack = above ++ drainingOn k base)
    (ordinary : Ordinary k above) (shut : Sealed (drainingOn k base) m) (hl : m.loop? k = some l) :
    Proceeds k base m l false none := by
  have kept : m.keepsLoop k = true := kept_of_finishing (by rw [hs]; simp)
  by_cases top : IsBackAt (drainingOn k base) m
  · obtain ⟨hs, s, hc⟩ := top
    have ok := not_isFault_of_sealed shut hs hc
    have quiet := entryEnd?_of_stack (k := k) hs rfl
    rcases still_or_settled hm.placed kept with ⟨-, stack, control, aside⟩ | settled
    · have same : Sealed (drainingOn k base) m.step := ⟨[], stack.trans hs, by rw [control, hc]; exact ok⟩
      exact (Stage.job [] (stack.trans hs) (.nil k) same).still quiet hl aside
    · cases queue : l.microtasks.entries with
      | cons j rest => exact step_picked hm h.room settled hs hc ok hl queue
      | nil =>
        let popped : Machine := { m with stack := .checkpoint k :: idlingOn k base, control := .signal .done }
        have stepped : m.step = (drop s.held popped).endDrain k := step_of_drained settled hs hc ok hl queue
        have laid : Lays k popped m.step := stepped ▸ (lays_drop s.held popped).trans (lays_endDrain _ k)
        obtain ⟨l', hl', bides⟩ := laid.bides hm.placed l hl
        have stage : Stage k base m.step false none :=
          .drained (by rw [stepped]; exact stack_drop s.held popped) (by rw [stepped]; rfl)
        exact stage.goesOn quiet hl' bides
  · have quiet := entryEnd?_of_busy hs ordinary top
    obtain ⟨above', l', stack, ordinary', hl', bides⟩ := lays_step hm.placed kept hs ordinary top h.turnless hl
    exact (Stage.job above' stack ordinary' (shut.step hm h.room top)).goesOn quiet hl' bides

-- ---------------------------------------------------------------------------
-- Reports and collections
-- ---------------------------------------------------------------------------

/-- A drain has ended: its checkpoint selects the reports. -/
theorem step_drained (hm : Reachable m) (hs : m.stack = .checkpoint k :: idlingOn k base)
    (hc : m.control = .signal .done) (hl : m.loop? k = some l) : Proceeds k base m l false none := by
  have quiet := entryEnd?_of_stack (k := k) hs rfl
  rcases still_or_settled hm.placed (keepsLoop_of_stack hs rfl) with ⟨-, stack, control, aside⟩ | settled
  · exact (Stage.drained (stack.trans hs) (control.trans hc)).still quiet hl aside
  · let popped : Machine := { m with stack := idlingOn k base, control := .signal .done }
    have stepped : m.step = (popped.setLoop l.takeReports.2).push (.reporting k l.takeReports.1) :=
      (step_of_signal settled hc hs).trans (resumeCheckpoint_done (m := popped) hl)
    have found : m.step.loop? k = some l.takeReports.2 := by
      rw [stepped]
      obtain rfl : l.id = k := hm.placed k l hl
      exact loop?_setLoop_self (m := popped) hl l.id_takeReports
    have awaiting : l.takeReports.2.awaiting = [] := by
      obtain ⟨heap, heq, -, -⟩ := l.takeReports_spec
      rw [heq]
    have stage : Stage k base m.step false none :=
      .telling [] (f := .reporting k l.takeReports.1) rfl (by simp [Frame.tells]) (by rw [stepped]; rfl)
        (.nil k) ⟨_, found, awaiting⟩
    exact stage.goesOn quiet found l.bides_takeReports

theorem HasReported.drop (h : HasReported k m) (vs : List Value) : HasReported k (drop vs m) :=
  h.aside (aside_drop vs m)

theorem HasReported.tellUnhandled (h : HasReported k m) (hc : m.control.loop? = none) (id : PromiseId)
    (reason : Value) : HasReported k (m.tellUnhandled k id reason) :=
  h.aside (aside_tellUnhandled _ _ _ _ hc)

/-- A checkpoint has made its last report. -/
theorem stage_finishCheckpoint (hs : m.stack = idlingOn k base) (reported : HasReported k m) :
    Stage k base (m.finishCheckpoint k) false none := by
  obtain ⟨l, hl, awaiting⟩ := reported
  unfold finishCheckpoint
  rw [hl]
  dsimp only
  split
  · exact .sweeping hs rfl rfl ⟨l, hl, awaiting⟩
  · refine .checked hs rfl ⟨l.note .checked, ?_, awaiting⟩
    exact (loop?_modifyLoop_self ..).trans (by rw [hl]; rfl)

/-- The tracker has heard of a rejection. -/
theorem stage_told (hp : m.Placed) (closes : f.closes = true) (own : f.tells k = true)
    (hs : m.stack = idlingOn k base) (hc : m.control = .signal .done) (hl : m.loop? k = some l)
    (awaiting : l.awaiting = []) (s : Signal) :
    Stage k base (m.resume f s) false none ∧ ∃ l', (m.resume f s).loop? k = some l' ∧ l.Bides l' := by
  have reported : HasReported k m := ⟨l, hl, awaiting⟩
  cases f with
  | reporting j reports =>
    obtain rfl : j = k := of_decide_eq_true own
    cases reports with
    | nil =>
      refine ⟨stage_finishCheckpoint ((stack_drop ..).trans hs) (reported.drop s.held), ?_⟩
      exact ((lays_drop s.held m).trans (lays_finishCheckpoint _ j)).bides hp l hl
    | cons e rest =>
      obtain ⟨id, reason⟩ := e
      let left := m.push (.reporting j rest)
      have laid : Lays j left (m.resume (.reporting j ((id, reason) :: rest)) s) :=
        lays_makeReport left j id reason s.held
      obtain ⟨above, stack, ordinary⟩ := laid.above
      refine ⟨.telling above (f := .reporting j rest) rfl own (stack.trans (by rw [← hs]; rfl)) ordinary ?_,
        laid.bides hp l hl⟩
      -- the report leaves the list as it is, and so does what the tracker is told
      have held : HasReported j (Machine.drop s.held (left.push (.hold [reason]))) :=
        HasReported.drop (m := left.push (.hold [reason])) reported s.held
      obtain ⟨x, hx, awaiting⟩ := held
      have made : HasReported j ((Machine.drop s.held (left.push (.hold [reason]))).modifyLoop j
          fun l => l.report id reason) := by
        refine ⟨x.report id reason, ?_, ?_⟩
        · rw [loop?_modifyLoop_self, hx]
          rfl
        · rw [Loop.report_eq]
          exact awaiting
      refine made.tellUnhandled ?_ id reason
      show (Machine.drop s.held (left.push (.hold [reason]))).control.loop? = none
      rw [control_drop]
      exact congrArg Control.loop? hc
  | collecting j sweep r =>
    obtain rfl : j = k := of_decide_eq_true own
    refine ⟨.sweeping (s := sweep) ((stack_drop ..).trans hs) (control_drop ..) closes ?_,
      (lays_resumeCollecting m j sweep r s).bides hp l hl⟩
    exact HasReported.drop (m := m.sweep j sweep) reported _
  | _ => cases closes

theorem step_telling (hm : Reachable m) (h : Undisturbed k m) (closes : f.closes = true) (own : f.tells k = true)
    (hs : m.stack = above ++ f :: idlingOn k base) (ordinary : Ordinary k above) (reported : HasReported k m)
    (hl : m.loop? k = some l) : Proceeds k base m l false none := by
  have kept : m.keepsLoop k = true := kept_of_finishing (by rw [hs]; simp)
  by_cases top : IsBackAt (f :: idlingOn k base) m
  · obtain ⟨hs, s, hc⟩ := top
    have quiet := entryEnd?_of_stack (k := k) hs (by cases f <;> first | rfl | cases closes)
    rcases still_or_settled hm.placed kept with ⟨-, stack, control, aside⟩ | settled
    · exact (Stage.telling [] closes own (stack.trans hs) (.nil k) (reported.aside aside)).still
        quiet hl aside
    · obtain ⟨x, hx, awaiting⟩ := reported
      obtain rfl := Option.some.inj (hl.symm.trans hx)
      let popped : Machine := { m with stack := idlingOn k base, control := .signal .done }
      obtain ⟨stage, l', hl', bides⟩ := stage_told (m := popped) hm.placed closes own rfl rfl hl awaiting s
      rw [← step_of_signal settled hc hs] at stage hl'
      exact stage.goesOn quiet hl' bides
  · have quiet := entryEnd?_of_busy hs ordinary top
    obtain ⟨above', l', stack, ordinary', hl', bides⟩ := lays_step hm.placed kept hs ordinary top h.turnless hl
    have beneath : f :: idlingOn k base <:+ m.beneath :=
      (beneath_or_top (hs ▸ List.suffix_append _ _)).resolve_right top
    have aside := h.calm ⟨f, beneath.subset (List.mem_cons_self ..), own⟩
    exact (Stage.telling above' closes own stack ordinary' (reported.aside aside)).goesOn quiet hl' bides

theorem step_sweeping {s : Sweep} (hm : Reachable m) (hs : m.stack = idlingOn k base)
    (hc : m.control = .collect k s) (closes : s.closes = true) (reported : HasReported k m)
    (hl : m.loop? k = some l) : Proceeds k base m l false none := by
  have quiet := entryEnd?_of_stack (k := k) hs rfl
  rcases still_or_settled hm.placed (keepsLoop_of_stack hs rfl) with ⟨-, stack, control, aside⟩ | settled
  · exact (Stage.sweeping (stack.trans hs) (control.trans hc) closes (reported.aside aside)).still quiet hl aside
  · obtain ⟨x, hx, awaiting⟩ := reported
    obtain rfl := Option.some.inj (hl.symm.trans hx)
    obtain ⟨l', hl', bides⟩ := ((lays_signal m .done).trans (lays_collectNext (k := k) _ k s)).bides hm.placed l hl
    rw [← step_of_collect settled hc] at hl'
    refine Stage.goesOn ?_ quiet hl' bides
    rw [step_of_collect settled hc]
    have id : l.id = k := hm.placed k l hl
    have found : (m.signal .done).loop? k = some l := hl
    have set {x : Loop} (hid : x.id = l.id) : ((m.signal .done).setLoop x).loop? k = some x := by
      subst id
      exact loop?_setLoop_self found hid
    have ended : Stage k base ((m.signal .done).endCheckpoint k) false none := by
      refine .checked hs rfl ⟨l.note .checked, ?_, awaiting⟩
      exact (loop?_modifyLoop_self ..).trans (by rw [found]; rfl)
    unfold collectNext
    rw [found]
    split
    · split
      · rw [endCollection, if_pos closes]
        exact ended
      · rw [endCollection, if_pos closes]
        exact ended
      · rename_i released y taken
        obtain ⟨-, rfl⟩ := Prod.mk.inj (Option.some.inj taken)
        exact .sweeping hs rfl closes ⟨_, set l.id_takeReleases, awaiting⟩
    · split
      · exact .sweeping hs rfl closes ⟨l, hl, awaiting⟩
      · rename_i r y freed
        have kept : y.awaiting = [] := (Loop.kept_free? freed).2.trans awaiting
        have reported : HasReported k ((m.signal .done).setLoop y) := ⟨y, set (Loop.id_free? freed), kept⟩
        dsimp only
        split
        · -- the tracker is told above the frame of the collection
          rename_i id rest _ _ _
          let left := ((m.signal .done).setLoop y).push
            (.collecting k { s with pending := rest, count := s.count + 1 } r)
          have laid : Lays k left (((left.push (.hold [r.reason])).signal .done).tellUnhandled k id r.reason) :=
            (lays_push left rfl rfl).trans ((lays_signal _ _).trans (lays_tellUnhandled _ _ _ _))
          obtain ⟨above, stack, ordinary⟩ := laid.above
          refine .telling above (f := .collecting k { s with pending := rest, count := s.count + 1 } r) closes
            (by simp [Frame.tells]) (stack.trans (by rw [← hs]; rfl)) ordinary ?_
          let held := (left.push (.hold [r.reason])).signal .done
          exact HasReported.tellUnhandled (m := held) reported rfl id r.reason
        · exact .sweeping (s := { s with pending := _, count := s.count + 1 }) ((stack_drop ..).trans hs)
            (control_drop ..) closes (reported.drop (m := ((m.signal .done).setLoop y).sweep k _) _)

-- ---------------------------------------------------------------------------
-- Runs until idle and until done
-- ---------------------------------------------------------------------------

/-- After a checkpoint, another cycle begins unless nothing is left in the queues. -/
theorem step_of_checked (settled : m.orphan? = none) (hs : m.stack = .idling k :: fs)
    (hc : m.control = .signal .done) (hl : m.loop? k = some l) :
    m.step = if l.isIdle then { m with stack := fs, control := .signal .done }
      else ({ m with stack := fs, control := .signal .done } : Machine).idle k := by
  let popped : Machine := { m with stack := fs, control := .signal .done }
  have found : popped.loop? k = some l := hl
  refine (step_of_signal settled hc hs).trans ?_
  show popped.resumeIdling k .done = _
  simp only [resumeIdling, Signal.held, drop_nil, found, Option.map_some, Option.getD_some]
  rfl

/-- A checkpoint has ended: unless something is left in the queues, the run until idle ends. -/
theorem step_checked (hm : Reachable m) (outside : .draining k ∉ base) (hs : m.stack = idlingOn k base)
    (hc : m.control = .signal .done) (reported : HasReported k m) (hl : m.loop? k = some l) :
    Proceeds k base m l false none := by
  have quiet := entryEnd?_of_stack (k := k) hs rfl
  rcases still_or_settled hm.placed (keepsLoop_of_stack hs rfl) with ⟨-, stack, control, aside⟩ | settled
  · exact (Stage.checked (stack.trans hs) (control.trans hc) (reported.aside aside)).still quiet hl aside
  · obtain ⟨x, hx, awaiting⟩ := reported
    obtain rfl := Option.some.inj (hl.symm.trans hx)
    let popped : Machine := { m with stack := .finishing k :: base, control := .signal .done }
    have found : popped.loop? k = some l := hl
    have stepped : m.step = if l.isIdle then popped else popped.idle k := step_of_checked settled hs hc hl
    cases idle : l.isIdle with
    | true =>
      rw [idle, if_pos rfl] at stepped
      have stage : Stage k base m.step false none :=
        .rests (by rw [stepped]) (by rw [stepped]) (stepped ▸ hl) idle awaiting
      exact stage.goesOn quiet (stepped ▸ hl) (.refl l)
    | false =>
      rw [idle, if_neg Bool.false_ne_true] at stepped
      have ended : l.draining = false := Bool.eq_false_iff.mpr fun hd => by
        have mem := (hm.draining_iff hl).mp hd
        simp [hs, outside] at mem
      obtain ⟨running, l', ws, stage, hl', began, count⟩ :=
        stage_cycle (m := popped.push (.idling k)) rfl found (hm.placed k l hl) ended
      exact ⟨running, none, l', ws, stepped ▸ stage, stepped ▸ hl', began, by simp [quiet, count], by simp [quiet]⟩

/-- A run until idle has ended: unless workers are left, the run until done ends. -/
theorem step_rests (hm : Reachable m) (outside : .draining k ∉ base) (hs : m.stack = .finishing k :: base)
    (hc : m.control = .signal .done) (idle : l.isIdle = true) (awaiting : l.awaiting = [])
    (hl : m.loop? k = some l) : Proceeds k base m l false none := by
  have quiet := entryEnd?_of_stack (k := k) hs rfl
  rcases still_or_settled hm.placed (keepsLoop_of_stack hs rfl) with ⟨-, stack, control, aside⟩ | settled
  · obtain ⟨l', hl', touched⟩ := aside.stays l hl
    have stage : Stage k base m.step false none := .rests (stack.trans hs) (control.trans hc) hl'
      ((Loop.isIdle_of_outside touched).trans idle) ((Loop.awaiting_of_outside touched).trans awaiting)
    exact stage.still quiet hl aside
  · let popped : Machine := { m with stack := base, control := .signal .done }
    have found : popped.loop? k = some l := hl
    have stepped : m.step = popped.resumeFinishing k .done := step_of_signal settled hc hs
    simp only [resumeFinishing, Signal.held, drop_nil, found] at stepped
    split at stepped
    · rename_i workers
      have finished : HasFinished k m.step := ⟨l, stepped ▸ hl, idle, List.isEmpty_iff.mp workers, awaiting⟩
      have stage : Stage k base m.step false none :=
        .back (s := .done) (by rw [stepped]) (by rw [stepped]) fun _ => ⟨rfl, finished⟩
      exact stage.goesOn quiet (stepped ▸ hl) (.refl l)
    · split at stepped
      · -- a report has been received, and the run begins again
        rename_i y received
        have id : l.id = k := hm.placed k l hl
        have hy : (popped.setLoop y).loop? k = some y := by
          subst id
          exact loop?_setLoop_self found (Loop.id_receive? received)
        have ended : y.draining = false := by
          have before : l.draining = false := Bool.eq_false_iff.mpr fun hd => by
            have mem := (hm.draining_iff hl).mp hd
            simp [hs, outside] at mem
          unfold Loop.receive? at received
          split at received
          · cases received
          · rw [← Option.some.inj received]
            exact before
        obtain ⟨running, l', ws, stage, hl', began, count⟩ :=
          stage_finish hy ((Loop.id_receive? received).trans id) ended
        refine ⟨running, none, l', ws, stepped ▸ stage, stepped ▸ hl', ?_, by simp [quiet, count], by simp [quiet]⟩
        rw [began, (Loop.bides_receive? received).entries]
      · have stage : Stage k base m.step false none :=
          .rests (by rw [stepped]; rfl) (by rw [stepped]; rfl) (stepped ▸ hl) idle awaiting
        exact stage.goesOn quiet (stepped ▸ hl) (.refl l)

-- ---------------------------------------------------------------------------
-- Faults on their way
-- ---------------------------------------------------------------------------

theorem Falls.next_cases (h : Falls k base fs next) : next = base ∨ ∃ next', Falls k base next next' := by
  cases h with
  | draining => exact .inr ⟨_, .checkpoint⟩
  | checkpoint => exact .inr ⟨_, .idling⟩
  | cycling => exact .inr ⟨_, .idling⟩
  | idling => exact .inr ⟨_, .finishing⟩
  | finishing => exact .inl rfl

/-- The turns hand a fault on. -/
theorem Falls.resume (h : Falls k base fs next) (e : Fault) : ∃ f, fs = f :: next ∧ f.isWork = false ∧
    f.loop? = some k ∧ ∀ m : Machine, (m.resume f (.fault e)).stack = m.stack ∧
      (m.resume f (.fault e)).control = .signal (.fault e) ∧ Lays k m (m.resume f (.fault e)) := by
  cases h with
  | draining =>
    refine ⟨_, rfl, rfl, rfl, fun m => ⟨rfl, rfl, ?_⟩⟩
    have broken : Lays k m (m.modifyLoop k Loop.stopDraining) :=
      lays_modifyLoop m k (fun _ => rfl) fun l => Loop.bides_of_eq rfl rfl
    exact broken.trans (lays_signal _ _)
  | _ => exact ⟨_, rfl, rfl, rfl, fun m => ⟨rfl, rfl, lays_signal m _⟩⟩

theorem step_failing {e : Fault} (hm : Reachable m) (hs : m.stack = fs) (falls : Falls k base fs next)
    (hc : m.control = .signal (.fault e)) (hl : m.loop? k = some l) : Proceeds k base m l false (some e) := by
  obtain ⟨f, rfl, idle, keeps, resumed⟩ := falls.resume e
  have quiet := entryEnd?_of_stack (k := k) hs idle
  rcases still_or_settled hm.placed (keepsLoop_of_stack hs keeps) with ⟨-, stack, control, aside⟩ | settled
  · exact (Stage.failing (stack.trans hs) falls (control.trans hc)).still quiet hl aside
  · obtain ⟨stack, control, laid⟩ := resumed { m with stack := next, control := .signal .done }
    obtain ⟨l', hl', bides⟩ := laid.bides hm.placed l hl
    rw [← step_of_signal settled hc hs] at stack control hl'
    have stage : Stage k base m.step false (some e) := by
      rcases falls.next_cases with rfl | ⟨next', falls'⟩
      · exact .back (s := .fault e) stack control nofun
      · exact .failing stack falls' control
    exact stage.goesOn quiet hl' bides

-- ---------------------------------------------------------------------------
-- Any stage
-- ---------------------------------------------------------------------------

variable {running : Bool} {broken : Option Fault}

/-- From every stage but the last a step leads to another one. -/
theorem Stage.step (stage : Stage k base m running broken) (hm : Reachable m) (h : Undisturbed k m)
    (outside : .draining k ∉ base) (busy : ¬ IsBackAt base m) (hl : m.loop? k = some l) :
    Proceeds k base m l running broken := by
  cases stage with
  | entry above host hs ordinary => exact step_entry hm h.turnless host hs ordinary hl
  | job above hs ordinary shut => exact step_job hm h hs ordinary shut hl
  | rested hs hc => exact step_rested hm outside hs hc hl
  | drained hs hc => exact step_drained hm hs hc hl
  | telling above closes own hs ordinary reported => exact step_telling hm h closes own hs ordinary reported hl
  | sweeping hs hc closes reported => exact step_sweeping hm hs hc closes reported hl
  | checked hs hc reported => exact step_checked hm outside hs hc reported hl
  | rests hs hc hl' idle awaiting =>
    obtain rfl := Option.some.inj (hl.symm.trans hl')
    exact step_rests hm outside hs hc idle awaiting hl
  | failing hs falls hc => exact step_failing hm hs falls hc hl
  | back hs hc _ => exact absurd ⟨hs, _, hc⟩ busy

/-- Every entry that has begun has ended, apart from the one that is running, and the faults of the entries that
have ended are on their way. -/
theorem Stage.run {n : Nat} (stage : Stage k base m running broken) (hm : Reachable m)
    (undisturbed : ∀ i < n, Undisturbed k (Machine.run i m)) (outside : .draining k ∉ base)
    (busy : ∀ i < n, ¬ IsBackAt base (Machine.run i m)) (hl : m.loop? k = some l) :
    ∃ running' broken' x ws, Stage k base (Machine.run n m) running' broken' ∧
      (Machine.run n m).loop? k = some x ∧ entries x.history = entries l.history ++ ws ∧
      ws.length + running.toNat = (outcomes k n m).length + running'.toNat ∧
      broken'.toList = broken.toList ++ (outcomes k n m).filterMap id := by
  induction n generalizing m l running broken with
  | zero => exact ⟨running, broken, l, [], stage, hl, by simp, by simp [outcomes], by simp [outcomes]⟩
  | succ n ih =>
    obtain ⟨running₁, broken₁, l₁, ws₁, stage₁, hl₁, began₁, count₁, faults₁⟩ :=
      stage.step hm (undisturbed 0 (Nat.succ_pos n)) outside (busy 0 (Nat.succ_pos n)) hl
    have later (i : Nat) (hi : i < n) :
        Undisturbed k (Machine.run i m.step) ∧ ¬ IsBackAt base (Machine.run i m.step) := by
      rw [← run_succ]
      exact ⟨undisturbed (i + 1) (Nat.succ_lt_succ hi), busy (i + 1) (Nat.succ_lt_succ hi)⟩
    obtain ⟨running', broken', x, ws, stage', hx, began, count, faults⟩ :=
      ih stage₁ hm.step (fun i hi => (later i hi).1) (fun i hi => (later i hi).2) hl₁
    rw [run_succ]
    refine ⟨running', broken', x, ws₁ ++ ws, stage', hx, by rw [began, began₁, List.append_assoc], ?_, ?_⟩
    · simp only [outcomes, List.length_append]
      omega
    · rw [faults, faults₁, outcomes, List.filterMap_append, List.append_assoc]

/-- Only the last stage is met where the run has come to its end. -/
theorem Stage.eq_back (stage : Stage k base m running broken) (hs : m.stack = base) (hc : m.control = .signal s) :
    running = false ∧ broken = s.fault? ∧ (s.fault? = none → s = .done ∧ HasFinished k m) := by
  have length := congrArg List.length hs
  cases stage with
  | back hs' hc' finished =>
    obtain rfl := Control.signal.inj (hc'.symm.trans hc)
    exact ⟨rfl, rfl, finished⟩
  | entry above host hs' _ => rcases host with rfl | rfl <;> simp [hs'] at length <;> omega
  | failing hs' falls _ => cases falls <;> simp [hs'] at length <;> omega
  | job _ hs' _ _ | telling _ _ _ hs' _ _ => simp [hs'] at length; omega
  | rests hs' _ _ _ _ => simp [hs'] at length
  | rested hs' _ | drained hs' _ | sweeping hs' _ _ _ | checked hs' _ _ => simp [hs'] at length; omega

/-- What is known of the entries of a run until done when it hands something back. -/
theorem Stage.hands_back {n : Nat} (stage : Stage k base m running none) (hm : Reachable m)
    (undisturbed : ∀ i < n, Undisturbed k (Machine.run i m)) (outside : .draining k ∉ base)
    (back : m.HandsBack base n s) (hl : m.loop? k = some l) :
    ∃ x ws, (Machine.run n m).loop? k = some x ∧ entries x.history = entries l.history ++ ws ∧
      ws.length + running.toNat = (outcomes k n m).length ∧
      (outcomes k n m).filterMap id = s.fault?.toList ∧
      (s.fault? = none → s = .done ∧ HasFinished k (Machine.run n m)) := by
  obtain ⟨running', broken', x, ws, stage', hx, began, count, faults⟩ :=
    stage.run hm undisturbed outside back.first hl
  obtain ⟨rfl, rfl, finished⟩ := stage'.eq_back back.stack back.control
  exact ⟨x, ws, hx, began, count, faults.symm, finished⟩

end Machine
end PromiseLoop

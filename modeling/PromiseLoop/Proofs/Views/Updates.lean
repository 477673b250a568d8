import PromiseLoop.Proofs.Views.Basic

/-!
# How single updates of a machine show in a view

Every operation of a machine is put together from a few updates: a frame is pushed, the control is
set, a loop is replaced, values are let go.  Each of them is related here to what a loop sees of it,
so that the operations themselves never have to be opened down to the lists of loops and frames.

## Results

* `relates_local`: replacing a loop, and pushing a turn of it, shows in the view of that loop alone.
* `aside_drop`: letting values go only touches a loop from outside.
-/

namespace PromiseLoop

open Relation

-- ---------------------------------------------------------------------------
-- The number of a loop
-- ---------------------------------------------------------------------------

namespace Loop

variable (l : Loop)

@[simp] theorem id_note (e : Event) : (l.note e).id = l.id := rfl
@[simp] theorem id_enqueue (j : Job) : (l.enqueue j).id = l.id := rfl
@[simp] theorem id_modifyRecord (id : PromiseId) (f : Record → Record) :
    (l.modifyRecord id f).id = l.id := rfl
@[simp] theorem id_newPromise : l.newPromise.2.id = l.id := rfl
@[simp] theorem id_startDraining : l.startDraining.id = l.id := rfl
@[simp] theorem id_stopDraining : l.stopDraining.id = l.id := rfl
@[simp] theorem id_enqueueTask (w : Work) : (l.enqueueTask w).id = l.id := rfl
@[simp] theorem id_openFlight : l.openFlight.2.id = l.id := rfl
@[simp] theorem id_addWorker (p : Promise) : (l.addWorker p).id = l.id := rfl
@[simp] theorem id_addWaiting (r : Report) : (l.addWaiting r).id = l.id := rfl
@[simp] theorem id_post (r : Report) : (l.post r).id = l.id := rfl
@[simp] theorem id_land (id : PromiseId) : (l.land id).2.id = l.id := rfl
@[simp] theorem id_release (id : PromiseId) : (l.release id).id = l.id := rfl
@[simp] theorem id_takeReleases : l.takeReleases.2.id = l.id := rfl

@[simp] theorem id_releaseWorker : l.releaseWorker.2.id = l.id := by
  unfold releaseWorker
  split <;> rfl

@[simp] theorem id_logEvent (e : RejectionEvent) : (l.logEvent e).id = l.id := by
  unfold logEvent
  split <;> rfl

@[simp] theorem id_report (id : PromiseId) (reason : Value) : (l.report id reason).id = l.id :=
  id_logEvent ..

@[simp] theorem id_reportHandled (id : PromiseId) : (l.reportHandled id).id = l.id := id_logEvent ..

theorem id_dequeue? {l l' : Loop} {j : Job} (h : l.dequeue? = some (j, l')) : l'.id = l.id := by
  obtain ⟨⟨j', q⟩, -, heq⟩ := Option.map_eq_some_iff.mp h
  rw [← (Prod.mk.inj heq).2]
  rfl

theorem id_dequeueTask? {l l' : Loop} {w : Work} (h : l.dequeueTask? = some (w, l')) :
    l'.id = l.id := by
  obtain ⟨⟨w', q⟩, -, heq⟩ := Option.map_eq_some_iff.mp h
  rw [← (Prod.mk.inj heq).2]
  rfl

theorem id_receive? {l l' : Loop} (h : l.receive? = some l') : l'.id = l.id := by
  unfold receive? at h
  split at h
  · exact absurd h (by simp)
  · rw [← Option.some.inj h]
    rfl

@[simp] theorem id_deliver : l.deliver.id = l.id := by
  have fold : ∀ (rs : List Report) (l : Loop),
      (rs.foldl (fun l r => l.enqueue (.settlement r)) l).id = l.id := by
    intro rs
    induction rs with
    | nil => exact fun _ => rfl
    | cons r rs ih => exact fun l => ih _
  exact fold ..

theorem id_lock {l l' : Loop} {p : Promise} {accepted : Bool} (h : l.lock p = .ok (accepted, l')) :
    l'.id = l.id := by
  unfold lock at h
  cases hr : l.record p with
  | error f => rw [hr] at h; cases h
  | ok r =>
    rw [hr] at h
    cases h
    rfl

@[simp] theorem id_awaitReport (id : PromiseId) : (l.awaitReport id).id = l.id := by
  unfold awaitReport
  split <;> rfl

theorem id_foldl_enqueueReaction (v : Value) (rs : List Reaction) (l : Loop) :
    (rs.foldl (enqueueReaction v) l).id = l.id := by
  induction rs generalizing l with
  | nil => rfl
  | cons r rs ih => exact ih _

@[simp] theorem id_settle (id : PromiseId) (s : State) (v : Value) :
    (l.settle id s v).1.id = l.id := by
  unfold settle
  split
  · rfl
  · dsimp only
    split <;> simp [id_foldl_enqueueReaction]

@[simp] theorem id_markHandled (id : PromiseId) (derived : Promise) (f r : Option Value)
    (late : Bool) : (l.markHandled id derived f r late).id = l.id := by
  unfold markHandled
  cases late <;> simp

theorem id_attach {l : Loop} {p : Promise} {f r : Option Value} {a : Attached}
    (h : l.attach p f r = .ok a) : a.loop.id = l.id := by
  unfold attach at h
  cases hr : l.record p with
  | error f => rw [hr] at h; cases h
  | ok rec =>
    rw [hr] at h
    cases hs : rec.state <;> simp only [Except.map, hs] at h <;> cases h <;> simp

@[simp] theorem id_endAttach (derived : Promise) (job : Option Job) :
    (l.endAttach derived job).id = l.id := by
  cases job <;> rfl

theorem id_selectReport (acc : List (PromiseId × Value) × Loop) (id : PromiseId) :
    (selectReport acc id).2.id = acc.2.id := by
  unfold selectReport
  split
  · rfl
  · split <;> rfl

@[simp] theorem id_takeReports : l.takeReports.2.id = l.id := by
  have fold : ∀ (ids : List PromiseId) (acc : List (PromiseId × Value) × Loop),
      (ids.foldl selectReport acc).2.id = acc.2.id := by
    intro ids
    induction ids with
    | nil => exact fun _ => rfl
    | cons id ids ih => exact fun acc => (ih _).trans (id_selectReport acc id)
  unfold takeReports
  dsimp only
  split
  · exact fold ..
  · rfl

theorem id_free? {l l' : Loop} {id : PromiseId} {r : Record} (h : l.free? id = some (r, l')) :
    l'.id = l.id := by
  obtain ⟨⟨r', heap⟩, -, heq⟩ := Option.map_eq_some_iff.mp h
  rw [← (Prod.mk.inj heq).2]
  split <;> simp

end Loop

-- ---------------------------------------------------------------------------
-- Updates and what they leave alone
-- ---------------------------------------------------------------------------

namespace Machine

section Fields

variable (m : Machine)

@[simp] theorem loops_push (f : Frame) : (m.push f).loops = m.loops := rfl
@[simp] theorem stack_push (f : Frame) : (m.push f).stack = f :: m.stack := rfl
@[simp] theorem control_push (f : Frame) : (m.push f).control = m.control := rfl
@[simp] theorem loops_signal (s : Signal) : (m.signal s).loops = m.loops := rfl
@[simp] theorem stack_signal (s : Signal) : (m.signal s).stack = m.stack := rfl
@[simp] theorem control_signal (s : Signal) : (m.signal s).control = .signal s := rfl
@[simp] theorem stack_modifyLoop (id : LoopId) (f : Loop → Loop) :
    (m.modifyLoop id f).stack = m.stack := rfl
@[simp] theorem control_modifyLoop (id : LoopId) (f : Loop → Loop) :
    (m.modifyLoop id f).control = m.control := rfl
@[simp] theorem stack_setLoop (l : Loop) : (m.setLoop l).stack = m.stack := rfl
@[simp] theorem control_setLoop (l : Loop) : (m.setLoop l).control = m.control := rfl

@[simp] theorem loops_willCall (f : Callable) (this : Value) (arguments : List Value) :
    (m.willCall f this arguments).loops = m.loops := rfl
@[simp] theorem stack_willCall (f : Callable) (this : Value) (arguments : List Value) :
    (m.willCall f this arguments).stack = m.stack := rfl
@[simp] theorem control_willCall (f : Callable) (this : Value) (arguments : List Value) :
    (m.willCall f this arguments).control = .call f this arguments := rfl
@[simp] theorem loops_sweep (loop : LoopId) (s : Sweep) : (m.sweep loop s).loops = m.loops := rfl
@[simp] theorem stack_sweep (loop : LoopId) (s : Sweep) : (m.sweep loop s).stack = m.stack := rfl
@[simp] theorem control_sweep (loop : LoopId) (s : Sweep) :
    (m.sweep loop s).control = .collect loop s := rfl

@[simp] theorem loops_traceEntry (e : Entry) : (m.traceEntry e).loops = m.loops := by
  unfold traceEntry
  split <;> rfl

@[simp] theorem stack_traceEntry (e : Entry) : (m.traceEntry e).stack = m.stack := by
  unfold traceEntry
  split <;> rfl

@[simp] theorem control_traceEntry (e : Entry) : (m.traceEntry e).control = m.control := by
  unfold traceEntry
  split <;> rfl

end Fields

variable {loop : LoopId} {m m' : Machine}

/-- Updates of anything but loops, stack and control do not show. -/
theorem aside_of_eq (hl : m'.loops = m.loops) (hs : m'.stack = m.stack)
    (hc : m'.control = m.control) : Aside loop m m' where
  placed hp id l h := hp id l (by rw [← h, loop?, loop?, hl])
  size := Nat.le_of_eq (by rw [hl])
  stays l h := ⟨l, by rw [loop?, hl]; exact h, .refl⟩
  gone h := by rw [loop?, hl]; exact h
  turns := by rw [turnsOf, turnsOf, hs]
  sweep := by rw [sweepOf, sweepOf, hc]

theorem aside_traceEntry (m : Machine) (e : Entry) : Aside loop m (m.traceEntry e) :=
  aside_of_eq (by simp) (by simp) (by simp)

theorem quiet_signal (m : Machine) (s : Signal) : Quiet loop m (m.signal s) :=
  quiet_of_eq rfl rfl fun _ => rfl

theorem quiet_willCall (m : Machine) (f : Callable) (this : Value) (arguments : List Value) :
    Quiet loop m (m.willCall f this arguments) :=
  quiet_of_eq rfl rfl fun _ => rfl

/-- Frames that are no turns do not show. -/
theorem quiet_push (m : Machine) {f : Frame} (h : f.isTurnOf loop = false) :
    Quiet loop m (m.push f) :=
  quiet_of_eq rfl (by simp [turnsOf, h]) id

-- ---------------------------------------------------------------------------
-- Replacing a loop
-- ---------------------------------------------------------------------------

theorem modifyLoop_of_gone {id : LoopId} (h : m.loop? id = none) (f : Loop → Loop) :
    m.modifyLoop id f = m := by
  have same : m.loops.modify id.number (Option.map f) = m.loops := by
    refine List.ext_getElem? fun n => ?_
    rw [List.getElem?_modify]
    split
    · rename_i hn
      unfold loop? at h
      rw [hn] at h
      cases hx : m.loops[n]? with
      | none => rfl
      | some x =>
        rw [hx] at h
        obtain rfl : x = none := h
        rfl
    · simp
  rw [Machine.modifyLoop, same]

theorem modifyLoop_of_found {id : LoopId} {l : Loop} (f : Loop → Loop) (hl : m.loop? id = some l)
    (hid : (f l).id = id) : m.modifyLoop id f = m.setLoop (f l) := by
  have same : m.loops.modify id.number (Option.map f) =
      m.loops.modify id.number (Option.map fun _ => f l) := by
    refine List.ext_getElem? fun n => ?_
    rw [List.getElem?_modify, List.getElem?_modify]
    split
    · rename_i hn
      unfold loop? at hl
      rw [hn] at hl
      cases hx : m.loops[n]? with
      | none => rfl
      | some x =>
        rw [hx] at hl
        obtain rfl : x = some l := hl
        rfl
    · rfl
  rw [Machine.setLoop, hid, Machine.modifyLoop, Machine.modifyLoop, same]

theorem sees_modifyLoop {l : Loop} (hl : m.loop? loop = some l) (f : Loop → Loop) :
    (m.modifyLoop loop f).sees loop = some ⟨f l, m.turnsOf loop, m.sweepOf loop⟩ :=
  sees_eq_some.mpr ⟨by simp [hl], rfl, rfl⟩

theorem sees_modifyLoop_signal {l : Loop} (hl : m.loop? loop = some l) (f : Loop → Loop)
    (s : Signal) : ((m.modifyLoop loop f).signal s).sees loop = some ⟨f l, m.turnsOf loop, none⟩ :=
  sees_eq_some.mpr ⟨(sees_eq_some.mp (sees_modifyLoop hl f)).1, rfl, rfl⟩

theorem loop?_setLoop_self {l l' : Loop} (hl : m.loop? l.id = some l) (hid : l'.id = l.id) :
    (m.setLoop l').loop? l.id = some l' := by
  rw [← hid]
  exact loop?_setLoop (by rw [hid]; exact hl)

theorem sees_setLoop {l l' : Loop} (hl : m.loop? l.id = some l) (hid : l'.id = l.id) :
    (m.setLoop l').sees l.id = some ⟨l', m.turnsOf l.id, m.sweepOf l.id⟩ := by
  rw [setLoop, hid]
  exact sees_modifyLoop hl _

theorem Placed.setLoop (hp : m.Placed) {l l' : Loop} (hl : m.loop? l.id = some l)
    (hid : l'.id = l.id) : (m.setLoop l').Placed := by
  rintro k x hx
  by_cases hk : l'.id = k
  · subst hk
    rw [loop?_setLoop (by rw [hid]; exact hl)] at hx
    rw [← Option.some.inj hx]
  · exact hp k x (by rwa [Machine.setLoop, loop?_modifyLoop_of_ne m hk] at hx)

theorem Placed.modifyLoop (hp : m.Placed) (id : LoopId) {f : Loop → Loop}
    (hf : ∀ l, m.loop? id = some l → (f l).id = l.id) : (m.modifyLoop id f).Placed := by
  intro k l hl
  by_cases hk : id = k
  · subst hk
    rw [loop?_modifyLoop_self] at hl
    obtain ⟨l', hl', rfl⟩ := Option.map_eq_some_iff.mp hl
    rw [hf l' hl', hp _ l' hl']
  · rw [loop?_modifyLoop_of_ne m hk] at hl
    exact hp k l hl

/-- Replacing a loop, and pushing a turn of it, shows in the view of that loop alone. -/
theorem relates_local {R : View → View → Prop} (refl : ∀ v, R v v) {id : LoopId} {l l' : Loop}
    (hl : m.loop? id = some l) (hid : l'.id = l.id) (hm : m'.loops = (m.setLoop l').loops)
    (other : l.id = id → ∀ k, k ≠ id →
      m'.turnsOf k = m.turnsOf k ∧ (m.sweepOf k = none → m'.sweepOf k = none))
    (h : loop = id → l.id = id → m.sweepOf id = none →
      R ⟨l, m.turnsOf id, none⟩ ⟨l', m'.turnsOf id, m'.sweepOf id⟩) :
    Relates R loop m m' := by
  have look : ∀ k, m'.loop? k = (m.setLoop l').loop? k := fun k => by rw [loop?, loop?, hm]
  have self : m.Placed → m'.loop? id = some l' := by
    intro hp
    have hlid : l'.id = id := hid.trans (hp id l hl)
    have := loop?_setLoop (m := m) (l := l') (k := l) (by rw [hlid]; exact hl)
    rw [look, ← hlid]
    exact this
  have rest : m.Placed → ∀ k, k ≠ id → m'.loop? k = m.loop? k := by
    intro hp k hk
    have hlid : l'.id = id := hid.trans (hp id l hl)
    rw [look, setLoop, hlid, loop?_modifyLoop_of_ne m (Ne.symm hk)]
  refine ⟨?_, hm ▸ Nat.le_of_eq (List.length_modify ..).symm, ?_, ?_⟩
  · intro hp k x hx
    by_cases hk : k = id
    · subst hk
      rw [self hp] at hx
      rw [← Option.some.inj hx, hid, hp _ l hl]
    · exact hp k x (by rw [← rest hp k hk]; exact hx)
  · intro hp v hv hs
    rw [sees_eq_some] at hv
    by_cases hk : loop = id
    · subst hk
      obtain rfl : l = v.loop := Option.some.inj (hl.symm.trans hv.1)
      refine ⟨⟨l', _, _⟩, sees_eq_some.mpr ⟨self hp, rfl, rfl⟩, ?_⟩
      have := h rfl (hp _ _ hl) (hv.2.2.trans hs)
      rw [hv.2.1] at this
      obtain ⟨l, turns, sweep⟩ := v
      obtain rfl : sweep = none := hs
      exact this
    · obtain ⟨turns, sweep⟩ := other (hp id l hl) loop hk
      refine ⟨v, sees_eq_some.mpr ⟨?_, turns.trans hv.2.1, ?_⟩, refl v⟩
      · rw [rest hp loop hk]
        exact hv.1
      · rw [hs, sweep (hv.2.2.trans hs)]
  · intro hp ha
    have hk : loop ≠ id := by
      rintro rfl
      rw [ha.gone] at hl
      exact absurd hl (by simp)
    obtain ⟨turns, sweep⟩ := other (hp id l hl) loop hk
    exact .inl ⟨by rw [rest hp loop hk]; exact ha.gone, turns.trans ha.turns, sweep ha.sweep⟩

/-- A loop may be replaced by what a few of its operations make of it. -/
theorem quiet_setLoop_of_quiet {id : LoopId} {l l' : Loop} (hl : m.loop? id = some l)
    (hid : l'.id = l.id)
    (h : loop = id → ∀ turns, View.Quiet ⟨l, turns, none⟩ ⟨l', turns, none⟩) :
    Quiet loop m (m.setLoop l') := by
  refine relates_local (fun _ => .refl) hl hid rfl (fun _ _ _ => ⟨rfl, fun h => h⟩)
    fun hk _ hs => ?_
  rw [show (m.setLoop l').sweepOf id = none from hs]
  exact h hk _

/-- A loop may be replaced by what one of its operations makes of it. -/
theorem quiet_setLoop {id : LoopId} {l l' : Loop} (hl : m.loop? id = some l) (hid : l'.id = l.id)
    (h : l.Called l') : Quiet loop m (m.setLoop l') :=
  quiet_setLoop_of_quiet hl hid fun _ _ => .single (.called h)

/-- Replacing a loop does not show in another one. -/
theorem quiet_setLoop_of_ne {id : LoopId} {l l' : Loop} (hl : m.loop? id = some l)
    (hid : l'.id = l.id) (hne : loop ≠ id) : Quiet loop m (m.setLoop l') :=
  quiet_setLoop_of_quiet hl hid fun h => absurd h hne

/-- A loop may be changed by one of its operations. -/
theorem quiet_modifyLoop (m : Machine) (id : LoopId) {f : Loop → Loop} (hid : ∀ l, (f l).id = l.id)
    (h : ∀ l : Loop, l.Called (f l)) : Quiet loop m (m.modifyLoop id f) where
  placed hp := hp.modifyLoop id fun l _ => hid l
  size := Nat.le_of_eq (List.length_modify ..).symm
  stays hp v hv hs := by
    rw [sees_eq_some] at hv
    by_cases hk : id = loop
    · subst hk
      refine ⟨⟨f v.loop, v.turns, v.sweep⟩, sees_eq_some.mpr ⟨?_, hv.2⟩, ?_⟩
      · rw [loop?_modifyLoop_self, hv.1]
        rfl
      · obtain ⟨l, turns, sweep⟩ := v
        obtain rfl : sweep = none := hs
        exact .single (.called (h l))
    · exact ⟨v, sees_eq_some.mpr ⟨by rw [loop?_modifyLoop_of_ne m hk]; exact hv.1, hv.2⟩, .refl⟩
  gone _ ha := by
    refine .inl ⟨?_, ha.turns, ha.sweep⟩
    by_cases hk : id = loop
    · subst hk
      rw [loop?_modifyLoop_self, ha.gone]
      rfl
    · rw [loop?_modifyLoop_of_ne m hk, ha.gone]

-- ---------------------------------------------------------------------------
-- Touching a loop from outside
-- ---------------------------------------------------------------------------

theorem aside_modifyLoop (m : Machine) (id : LoopId) {f : Loop → Loop}
    (hid : ∀ l, (f l).id = l.id) (h : ∀ l, ReflTransGen Loop.Outside l (f l)) :
    Aside loop m (m.modifyLoop id f) where
  placed hp := hp.modifyLoop id fun l _ => hid l
  size := Nat.le_of_eq (List.length_modify ..).symm
  stays l hl := by
    by_cases hk : id = loop
    · subst hk
      exact ⟨f l, by rw [loop?_modifyLoop_self, hl]; rfl, h l⟩
    · exact ⟨l, by rw [loop?_modifyLoop_of_ne m hk, hl], .refl⟩
  gone hg := by
    by_cases hk : id = loop
    · subst hk
      rw [loop?_modifyLoop_self, hg]
      rfl
    · rw [loop?_modifyLoop_of_ne m hk, hg]
  turns := rfl
  sweep := rfl

/-- Changing a loop does not show in another one. -/
theorem aside_modifyLoop_of_ne (m : Machine) {id : LoopId} (hne : loop ≠ id) {f : Loop → Loop}
    (hid : ∀ l : Loop, (f l).id = l.id) : Aside loop m (m.modifyLoop id f) where
  placed hp := hp.modifyLoop id fun l _ => hid l
  size := Nat.le_of_eq (List.length_modify ..).symm
  stays l hl := ⟨l, by rw [loop?_modifyLoop_of_ne m hne.symm, hl], .refl⟩
  gone hg := by rw [loop?_modifyLoop_of_ne m hne.symm, hg]
  turns := rfl
  sweep := rfl

theorem aside_takeObject? {o : ObjectId} {ps : Properties} (h : m.takeObject? o = some (ps, m')) :
    Aside loop m m' := by
  rw [eq_of_takeObject? h]
  exact aside_of_eq rfl rfl rfl

/-- Letting values go only touches a loop from outside. -/
theorem aside_drop (vs : List Value) (m : Machine) : Aside loop m (drop vs m) := by
  apply drop_induction (P := Aside loop m)
  · intro m' p h
    exact h.trans (aside_modifyLoop m' p.home (fun _ => rfl) fun l => .single (.released l p.id))
  · intro m' o ps m'' h ht
    exact h.trans (aside_takeObject? ht)
  · exact .refl m

theorem quiet_drop (vs : List Value) (m : Machine) : Quiet loop m (drop vs m) :=
  (aside_drop vs m).quiet

/-- The end of an operation that lets values go last. -/
theorem quiet_drop_signal (vs : List Value) (m : Machine) (s : Signal) :
    Quiet loop m (drop vs (m.signal s)) :=
  (quiet_signal m s).trans (quiet_drop vs _)

/-- The end of an operation that changes neither loops, stack nor control and lets values go. -/
theorem aside_drop_of_eq (vs : List Value) (hl : m'.loops = m.loops) (hs : m'.stack = m.stack)
    (hc : m'.control = m.control) : Aside loop m (drop vs m') :=
  (aside_of_eq hl hs hc).trans (aside_drop vs m')

theorem aside_assign (m : Machine) (name : String) (v : Value) : Aside loop m (m.assign name v) :=
  aside_drop_of_eq _ rfl rfl rfl

theorem aside_removeVariable (m : Machine) (name : String) :
    Aside loop m (m.removeVariable name) :=
  aside_drop_of_eq _ rfl rfl rfl

theorem aside_removeVariables (names : List String) (m : Machine) :
    Aside loop m (names.foldl removeVariable m) := by
  induction names generalizing m with
  | nil => exact .refl m
  | cons name names ih => exact (aside_removeVariable m name).trans (ih _)

theorem aside_replaceProperty (m : Machine) (o : ObjectId) (key : String) (p : Property) :
    Aside loop m (m.replaceProperty o key p) :=
  aside_drop_of_eq _ rfl rfl rfl

theorem aside_post (m : Machine) (id : LoopId) (r : Report) :
    Aside loop m (m.modifyLoop id fun l => l.post r) :=
  aside_modifyLoop m id (fun _ => rfl) fun l => .single (.posted l r)

theorem aside_useCompleter (m : Machine) (name : String) (result : WorkResult) :
    Aside loop m (m.useCompleter name result) := by
  unfold useCompleter
  cases h : m.takeCompleter name with
  | none => exact .refl m
  | some taken =>
    obtain ⟨e, -, rfl⟩ := Option.map_eq_some_iff.mp h
    have other : Aside loop m { m with completers := m.completers.filter fun e => e.1 ≠ name } :=
      aside_of_eq rfl rfl rfl
    exact other.trans (aside_post _ _ _)

theorem aside_keepCompleter (m : Machine) (name : String) (c : Completer) :
    Aside loop m (m.keepCompleter name c) :=
  (aside_useCompleter m name .abandoned).trans (aside_of_eq rfl rfl rfl)

end Machine
end PromiseLoop

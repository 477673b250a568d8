import PromiseLoop.Proofs.Faults.Runs

/-!
# Faults of commands

A step of a script that concerns a promise is given the loop by its name and the promise by an operand.
If the promise belongs to another loop, the answer is a fault that names it, and nothing else has
happened.  Otherwise the step ends without a fault, if it ends at all: the tracker, a getter or a bridge
may run script in the meantime.

## Results

* `Issues.refused`: what a step comes to that shows a loop the handle of another one.
* `Issues.sealed_own`: a step that shows a loop one of its own handles is sealed.
* `only_foreign_handles_fault`: the only faults apart from those of the host are those of foreign handles.
-/

namespace PromiseLoop

/-- The loop and the promise whose record a question is about. -/
def Query.subject? : Query → Option (String × Operand)
  | .state loop p | .result loop p | .handled loop p | .info loop p => some (loop, p)
  | _ => none

/-- The loop and the promise whose record a step is about. -/
def Step.subject? : Step → Option (String × Operand)
  | .ask q => q.subject?
  | .resolve loop p _ | .reject loop p _ | .attach _ loop p _ _ => some (loop, p)
  | _ => none

namespace Machine

variable {m m' scene : Machine} {k : LoopId} {l : Loop} {p : Promise} {s : Step} {info : CommandInfo}
  {name : String} {x : Operand}

-- ---------------------------------------------------------------------------
-- Operands
-- ---------------------------------------------------------------------------

/-- What an operand names is held by the machine, unless it needs no handle. -/
theorem kept_of_evaluate (m : Machine) (x : Operand) :
    (m.evaluate x).handle? = none ∨ m.evaluate x ∈ m.kept := by
  have inside (v : Value) (hv : v = m.scope.1 ∨ v ∈ m.scope.2) : v.handle? = none ∨ v ∈ m.kept := by
    unfold scope at hv
    generalize hf : m.stack.findSome? _ = found at hv
    cases found with
    | none =>
      obtain rfl : v = .undefined := by simpa using hv
      exact .inl rfl
    | some scope =>
      obtain ⟨f, hmem, heq⟩ := List.exists_of_findSome?_eq_some hf
      split at heq
      · rw [← Option.some.inj heq] at hv
        have held : v ∈ m.heldByStack := List.mem_flatMap.mpr ⟨_, hmem, List.mem_cons.mpr hv⟩
        exact .inr (by simp [kept, held])
      · rw [← Option.some.inj heq] at hv
        obtain rfl : v = .undefined := by simpa using hv
        exact .inl rfl
      · cases heq
  cases x with
  | literal w =>
    obtain ⟨v, plain⟩ := w
    exact .inl (by cases v <;> first | rfl | cases plain)
  | «variable» name =>
    show ((m.vars.lookup? name).getD .undefined).handle? = none ∨ _ ∈ m.kept
    cases hv : m.vars.lookup? name with
    | none => exact .inl rfl
    | some v =>
      obtain ⟨e, he, rfl⟩ := Option.map_eq_some_iff.mp hv
      have held : e.2 ∈ m.vars.held := List.mem_map_of_mem (List.mem_of_find?_eq_some he)
      exact .inr (by simp [kept, held, evaluate, evaluateIn, hv])
  | receiver => exact inside _ (.inl rfl)
  | argument n =>
    show ((m.scope.2[n]?).getD .undefined).handle? = none ∨ (m.scope.2[n]?).getD .undefined ∈ m.kept
    cases hn : m.scope.2[n]? with
    | none => exact .inl rfl
    | some v => exact inside v (.inr (List.mem_of_getElem? hn))
  | round => exact .inl rfl

/-- Values that are held elsewhere go without a trace. -/
theorem drop_of_kept {vs : List Value} (h : ∀ v ∈ vs, v.handle? = none ∨ v ∈ m.kept) :
    Machine.drop vs m = m := by
  induction vs with
  | nil => exact drop_nil m
  | cons v vs ih =>
    rw [List.forall_mem_cons] at h
    cases hv : v.handle? with
    | none => rw [drop_cons_of_handle?_eq_none vs m hv, ih h.2]
    | some g =>
      have held : v ∈ m.held := by
        have := h.1.resolve_left (by simp [hv])
        simp only [kept, held, List.mem_append] at this ⊢
        grind
      rw [drop_cons_of_holds vs m hv, ih h.2]
      rw [holds_eq_any_held, Bool.or_eq_true, List.any_eq_true, List.any_eq_true]
      exact .inr ⟨v, held, (Value.has_iff g v).mpr hv⟩

-- ---------------------------------------------------------------------------
-- Issuing a step
-- ---------------------------------------------------------------------------

/-- A machine is given a step as a command, or meets one in a body.  It makes `scene` of itself, in which
the step begins, and comes to `m'`. -/
inductive Issues (m : Machine) (s : Step) : CommandInfo → Machine → Machine → Prop
  | given (idle : m.isIdle = true) (store : Option String) (catches : Bool) :
      Issues m s { word := s.word, store, catches, isControl := false } { m with trace := [] }
        (m.start (.step s store catches))
  | met {store : Option String} {catches : Bool} {rest : List Command} {base : List Frame}
      (settled : m.orphan? = none) (stack : m.stack = .block (.step s store catches :: rest) :: base)
      (control : m.control = .signal .done) :
      Issues m s { word := s.word, store, catches, isControl := false }
        { m with stack := .block rest :: base } m.step

theorem Issues.next (h : m.Issues s info scene m') : Next m m' := by
  cases h with
  | given idle store catches => exact .start idle _
  | met _ _ _ => exact .step m

theorem Issues.loops (h : m.Issues s info scene m') : scene.loops = m.loops := by
  cases h <;> rfl

theorem Issues.begins (h : m.Issues s info scene m') : m' = scene.beginStep info s := by
  cases h with
  | given _ _ _ => rfl
  | met settled stack control =>
    rw [step_of_signal settled control stack, ← control]
    rfl

/-- What an operand names has a handle before the step as well. -/
theorem Issues.holds (h : m.Issues s info scene m') (hx : scene.evaluate x = .promise p) :
    m.holds (.promise p) = true := by
  have kept : .promise p ∈ handles scene.kept := mem_kept_of_evaluate (by rw [hx]; rfl)
  refine (has_control_held _).mp (.inl ?_)
  cases h with
  | given _ _ _ => exact kept
  | met _ stack _ =>
    rw [mem_kept] at kept ⊢
    simpa [heldByStack, heldByLoops, heldByObjects, stack, Frame.held] using kept

theorem orphan?_eq_none_of_keeps (settled : m.orphan? = none) (loops : m'.loops = m.loops)
    (keeps : ∀ j, m.keepsLoop j = true → m'.keepsLoop j = true) : m'.orphan? = none := by
  unfold orphan? at settled ⊢
  rw [loops]
  refine List.find?_eq_none.mpr fun l hl => ?_
  have kept : m.keepsLoop l.id = true := by simpa using List.find?_eq_none.mp settled l hl
  simp [keeps l.id kept]

theorem Issues.settled (h : m.Issues s info scene m') : scene.orphan? = none := by
  cases h with
  | given idle _ _ =>
    unfold isIdle at idle
    split at idle
    · exact Option.isNone_iff_eq_none.mp idle
    · cases idle
  | met settled stack _ =>
    refine orphan?_eq_none_of_keeps settled rfl fun j hj => ?_
    simpa [keepsLoop, stack, Frame.loop?] using hj

theorem Issues.spent (h : m.Issues s info scene m') : scene.control.loop? = none := by
  cases h with
  | given idle _ _ =>
    unfold isIdle at idle
    split at idle
    · rename_i hc
      exact congrArg Control.loop? hc
    · cases idle
  | met _ _ control => exact congrArg Control.loop? control

-- ---------------------------------------------------------------------------
-- Foreign handles
-- ---------------------------------------------------------------------------

/-- A command that has met with a fault shows it as its answer. -/
theorem run_fault (settled : scene.orphan? = none) (spent : scene.control.loop? = none)
    (hp : .promise p ∈ scene.kept) (f : Fault) {vs : List Value} (hvs : ∀ v ∈ vs, v.handle? = none ∨ v ∈ scene.kept) :
    run 1 (Machine.drop vs ((scene.push (.command info [.promise p])).signal (.fault f))) =
      (scene.signal (.fault f)).showAnswer info (.fault f) (.fault f) := by
  let waiting := (scene.push (.command info [.promise p])).signal (.fault f)
  have kept {v : Value} (hv : v ∈ scene.kept) : v ∈ waiting.kept := by
    simp only [kept, List.mem_append] at hv ⊢
    rcases hv with hv | hv | hv
    · exact .inl hv
    · exact .inr (.inl (List.mem_append_right _ hv))
    · exact .inr (.inr hv)
  have still : waiting.orphan? = none := orphan?_eq_none_of_keeps settled rfl fun j hj => by
    simp only [keepsLoop, spent, Bool.or_eq_true, reduceCtorEq, decide_false, Bool.false_eq_true,
      or_false] at hj ⊢
    exact hj.imp .inl fun on => List.any_cons ▸ Bool.or_eq_true_iff.mpr (.inr on)
  rw [drop_of_kept (m := waiting) fun v hv => (hvs v hv).imp_right kept, run_one,
    step_of_signal still rfl rfl]
  have gone : Machine.drop [.promise p] (scene.signal (.fault f)) = scene.signal (.fault f) :=
    drop_of_kept (m := scene.signal (.fault f)) fun v hv => .inr (List.mem_singleton.mp hv ▸ hp)
  show Machine.drop [] (((Machine.drop [.promise p] (scene.signal (.fault f))).storeValue info
    (.fault f)).showAnswer info (.fault f) _) = _
  rw [drop_nil, gone]
  rfl

theorem asPromise?_of_eq {v : Value} (h : v = .promise p) : v.asPromise? = some p := by rw [h]; rfl

/-- A question about a promise is one about its record. -/
theorem exists_askRecord (m : Machine) {q : Query} (hq : q.subject? = some (name, x)) :
    ∃ question, m.answer q = m.askRecord name x question := by
  cases q with
  | state | result | handled | info =>
    obtain ⟨rfl, rfl⟩ := Prod.mk.inj (Option.some.inj hq)
    exact ⟨_, rfl⟩
  | _ => cases hq

/-- A step that concerns a promise begins under the frame of its command. -/
theorem withPromise_eq (named : scene.named? name = some k) (hx : scene.evaluate x = .promise p)
    (act : Machine → LoopId → Promise → Machine) : scene.withPromise info name x act =
      act (scene.push (.command { info with loop := some k } [.promise p])) k p := by
  simp only [withPromise, withLoop, asPromise?_of_eq hx, named]

/-- A step that shows a loop the handle of another one is answered with a fault that names the handle,
and does nothing else. -/
theorem Issues.refused (h : m.Issues s info scene m') (hs : s.subject? = some (name, x))
    (named : scene.named? name = some k) (hl : m.loop? k = some l) (hx : scene.evaluate x = .promise p)
    {f : Fault} (hf : l.record p = .error f) :
    ∃ j ≤ 1, run j m' = (scene.signal (.fault f)).showAnswer info (.fault f) (.fault f) := by
  have found : scene.loop? k = some l := by rwa [loop?, h.loops]
  have held : .promise p ∈ scene.kept := by
    have := kept_of_evaluate scene x
    rw [hx] at this
    exact this.resolve_left (by simp [Value.handle?])
  have faulty {vs : List Value} (hvs : ∀ v ∈ vs, v.handle? = none ∨ v ∈ scene.kept) :
      run 1 (Machine.drop vs
        ((scene.push (.command { info with loop := some k } [.promise p])).signal (.fault f))) =
        (scene.signal (.fault f)).showAnswer info (.fault f) (.fault f) :=
    run_fault h.settled h.spent held f hvs
  have evaluated (y : Operand) : ∀ v ∈ [scene.evaluate y], v.handle? = none ∨ v ∈ scene.kept := by
    simpa using kept_of_evaluate scene y
  have locked : l.lock p = .error f := by rw [Loop.lock, hf]; rfl
  let begun := scene.push (.command { info with loop := some k } [.promise p])
  have found' : begun.loop? k = some l := found
  rw [h.begins]
  cases s with
  | ask q =>
    refine ⟨0, Nat.zero_le 1, ?_⟩
    have answered : scene.answer q = .error f := by
      obtain ⟨question, asked⟩ := exists_askRecord scene hs
      simp only [asked, askRecord, named, Option.bind_some, found, asPromise?_of_eq hx, hf]
      rfl
    show scene.beginStep info (.ask q) = _
    simp only [beginStep, answered]
    show Machine.drop [] ((Machine.drop [] (scene.signal (.fault f))).showAnswer info (.fault f) _) = _
    rw [drop_nil, drop_nil]
    rfl
  | resolve loop q y =>
    obtain ⟨rfl, rfl⟩ := Prod.mk.inj (Option.some.inj hs)
    refine ⟨1, Nat.le_refl 1, ?_⟩
    simp only [beginStep, withPromise_eq named hx]
    have refused : begun.resolve k p (scene.evaluate y) =
        Machine.drop [scene.evaluate y] (begun.signal (.fault f)) := by
      simp only [resolve, withLock, found', locked]
    exact refused ▸ faulty (evaluated y)
  | reject loop q y =>
    obtain ⟨rfl, rfl⟩ := Prod.mk.inj (Option.some.inj hs)
    refine ⟨1, Nat.le_refl 1, ?_⟩
    simp only [beginStep, withPromise_eq named hx]
    have refused : begun.reject k p (scene.evaluate y) =
        Machine.drop [scene.evaluate y] (begun.signal (.fault f)) := by
      simp only [reject, withLock, found', locked]
    exact refused ▸ faulty (evaluated y)
  | attach word loop q onFulfilled onRejected =>
    obtain ⟨rfl, rfl⟩ := Prod.mk.inj (Option.some.inj hs)
    refine ⟨1, Nat.le_refl 1, ?_⟩
    simp only [beginStep, withPromise_eq named hx]
    have failed (g g' : Option Value) : l.attach p g g' = .error f := by rw [Loop.attach, hf]; rfl
    have refused (g g' : Option Value) : begun.attach k p g g' [] =
        Machine.drop ([] ++ g'.toList ++ g.toList) (begun.signal (.fault f)) := by
      simp only [attach, found', failed]
    refine refused _ _ ▸ faulty fun v hv => ?_
    simp only [List.nil_append, List.mem_append, Option.mem_toList, Option.map_eq_some_iff] at hv
    obtain ⟨y, -, rfl⟩ | ⟨y, -, rfl⟩ := hv <;> exact kept_of_evaluate scene y
  | _ => cases hs

-- ---------------------------------------------------------------------------
-- Own handles
-- ---------------------------------------------------------------------------

/-- A question about a promise that has a record is answered. -/
theorem answer_of_record {q : Query} (hq : q.subject? = some (name, x)) (named : m.named? name = some k)
    (hl : m.loop? k = some l) (hx : m.evaluate x = .promise p) {r : Record} (hr : l.record p = .ok r) :
    ∃ y, m.answer q = .ok y := by
  obtain ⟨question, asked⟩ := exists_askRecord m hq
  refine ⟨question r, ?_⟩
  simp only [asked, askRecord, named, Option.bind_some, hl, asPromise?_of_eq hx, hr]
  rfl

/-- A step that shows a loop one of its own handles is sealed. -/
theorem Issues.sealed_own (h : m.Issues s info scene m') (hs : s.subject? = some (name, x))
    (named : scene.named? name = some k) (own : m.Records k p) (hx : scene.evaluate x = .promise p)
    (asks : ∀ q, s ≠ .ask q) :
    Sealed (.command { info with loop := some k } [.promise p] :: scene.stack) m' := by
  have own : (scene.push (.command { info with loop := some k } [.promise p])).Records k p :=
    fun l hl => own l (by rwa [loop?, ← h.loops])
  rw [h.begins]
  cases s with
  | ask q => exact absurd rfl (asks q)
  | resolve loop q y =>
    obtain ⟨rfl, rfl⟩ := Prod.mk.inj (Option.some.inj hs)
    simp only [beginStep, withPromise_eq named hx]
    exact sealed_resolve own _
  | reject loop q y =>
    obtain ⟨rfl, rfl⟩ := Prod.mk.inj (Option.some.inj hs)
    simp only [beginStep, withPromise_eq named hx]
    exact sealed_reject own _
  | attach word loop q onFulfilled onRejected =>
    obtain ⟨rfl, rfl⟩ := Prod.mk.inj (Option.some.inj hs)
    simp only [beginStep, withPromise_eq named hx]
    exact sealed_attach own _ _ _
  | _ => cases hs

/-- A promise that has just been created has a record. -/
theorem record_newPromise (wf : l.heap.Wf) (room : l.heap.slots.length < 2 ^ 32) :
    l.newPromise.2.record l.newPromise.1 = .ok .pending := by
  refine Loop.record_eq_ok.mpr ⟨rfl, (Heap.get?_allocate_self wf .pending ?_).2⟩
  exact Nat.le_trans (Heap.slots_allocate_le _ _) room

theorem records_setLoop_newPromise (hl : m.loop? k = some l) (id : l.id = k) (wf : l.heap.Wf)
    (room : l.heap.slots.length < 2 ^ 32) : (m.setLoop l.newPromise.2).Records k l.newPromise.1 := by
  subst id
  intro l' hl'
  have found : (m.setLoop l.newPromise.2).loop? l.id = some l.newPromise.2 := loop?_setLoop_self hl rfl
  obtain rfl := Option.some.inj (found.symm.trans hl')
  exact ⟨_, record_newPromise wf room⟩

theorem sealed_promiseResolve (v : Value) (new : ∀ l, m.loop? k = some l →
    (m.setLoop l.newPromise.2).Records k l.newPromise.1) : Sealed m.stack (m.promiseResolve k v) := by
  unfold promiseResolve
  split
  · exact sealed_signal m rfl
  · rename_i l hl
    split
    · exact sealed_signal m rfl
    · exact (sealed_resolve (m := (m.setLoop l.newPromise.2).push (.give (.promise l.newPromise.1) []))
        (new l hl) v).under rfl

theorem sealed_promiseReject (v : Value) (new : ∀ l, m.loop? k = some l →
    (m.setLoop l.newPromise.2).Records k l.newPromise.1) : Sealed m.stack (m.promiseReject k v) := by
  unfold promiseReject
  split
  · exact sealed_signal m rfl
  · rename_i l hl
    exact (sealed_reject (m := (m.setLoop l.newPromise.2).push (.give (.promise l.newPromise.1) []))
      (new l hl) v).under rfl

/-- Making a promise of a value is sealed. -/
theorem Issues.sealed_made (h : m.Issues s info scene m') (hm : Reachable m) (room : m.Roomy)
    (hs : s = .promiseResolve name x ∨ s = .promiseReject name x) (named : scene.named? name = some k) :
    Sealed (.command { info with loop := some k } [] :: scene.stack) m' := by
  let begun := scene.push (.command { info with loop := some k } [])
  have new (l : Loop) (hl : begun.loop? k = some l) :
      (begun.setLoop l.newPromise.2).Records k l.newPromise.1 := by
    have hl' : m.loop? k = some l := by rwa [loop?, ← h.loops]
    exact records_setLoop_newPromise hl (hm.placed k l hl') (hm.wf hl') (room k l hl')
  rw [h.begins]
  rcases hs with rfl | rfl
  · simp only [beginStep, withLoop, named]
    exact sealed_promiseResolve _ new
  · simp only [beginStep, withLoop, named]
    exact sealed_promiseReject _ new

-- ---------------------------------------------------------------------------
-- Faults
-- ---------------------------------------------------------------------------

/-- As long as slots have indices, what has been begun above some frames hands no fault to them. -/
def Unfailing (base : List Frame) (m : Machine) : Prop :=
  ∀ n s, (∀ i < n, (run i m).Roomy) → m.HandsBack base n s → s.isFault = false

theorem Sealed.unfailing {base : List Frame} (h : Sealed base m) (hm : Reachable m) : Unfailing base m :=
  fun _ _ room back => h.hands_back hm room back

/-- The only faults, apart from those of the host, are those of foreign handles, as long as slots have
indices.  In every reachable machine:

* a loop refuses its record to a handle exactly if the handle is one of another loop, alive or not, and
  then with a fault that names the handle; no record is ever missing for want of a handle, nor to a
  captured resolving function;
* a step that shows a loop the handle of another one is answered with that fault, and all loops are as
  they were; one that shows a loop one of its own handles does not fail;
* making a promise of a value does not fail;
* no job of a promise or of background work hands a fault to the drain that has started it;
* a drain fails with the fault of a microtask of the host, which has just handed it to the drain. -/
theorem only_foreign_handles_fault (hm : Reachable m) (room : m.Roomy) :
    (∀ k l p f, m.loop? k = some l → m.holds (.promise p) = true →
      (l.record p = .error f ↔ p.home ≠ k ∧ f = .foreignPromise p.id)) ∧
    (∀ r, .function (.resolver r) ∈ m.held → ∃ accepted m', m.claim r = .ok (accepted, m')) ∧
    (∀ s info scene m' name x k l p, m.Issues s info scene m' → s.subject? = some (name, x) →
      scene.named? name = some k → m.loop? k = some l → scene.evaluate x = .promise p →
      (p.home ≠ k → ∃ f j, f = .foreignPromise p.id ∧ j ≤ 1 ∧
        run j m' = (scene.signal (.fault f)).showAnswer info (.fault f) (.fault f) ∧
        (run j m').loops = m.loops) ∧
      (p.home = k → (∀ q, s = .ask q → ∃ y, scene.answer q = .ok y) ∧
        ((∀ q, s ≠ .ask q) →
          Unfailing (.command { info with loop := some k } [.promise p] :: scene.stack) m'))) ∧
    (∀ s info scene m' name x k, m.Issues s info scene m' →
      s = .promiseResolve name x ∨ s = .promiseReject name x → scene.named? name = some k →
      Unfailing (.command { info with loop := some k } [] :: scene.stack) m') ∧
    (∀ k base j, Picks k base j m → (∀ w, j ≠ .host w) → Unfailing (.draining k :: base) m.step) ∧
    ∀ k base t n f, m.stack = .draining k :: base → m.control = .signal t → t.isFault = false →
      (∀ i < n, (run i m).Roomy) → m.HandsBack base n (.fault f) →
      ∃ i w d, i + 1 + d < n ∧ Picks k base (.host w) (run i m) ∧
        (run (i + 1) m).HandsBack (.draining k :: base) d (.fault f) := by
  have refuses (k l p f) (hl : m.loop? k = some l) (held : m.holds (.promise p) = true) :=
    hm.record_eq_error_iff hl (room k l hl) held f
  refine ⟨refuses, fun r hr => hm.claim_eq_ok hr (room _), ?_, ?_, ?_, ?_⟩
  · intro s info scene m' name x k l p issued hs named hl hx
    have held := issued.holds hx
    refine ⟨fun foreign => ?_, fun home => ?_⟩
    · obtain ⟨j, hj, shown⟩ := issued.refused hs named hl hx
        ((refuses k l p (.foreignPromise p.id) hl held).mpr ⟨foreign, rfl⟩)
      refine ⟨_, j, rfl, hj, shown, ?_⟩
      rw [shown, ← issued.loops]
      unfold showAnswer
      split
      · rfl
      · exact loops_traceEntry (m := scene.signal _) _
    · have own := hm.record_of_held hl (room k l hl) home ((has_control_held _).mpr held)
      refine ⟨fun q hq => ?_, fun asks => ?_⟩
      · obtain ⟨r, hr⟩ := own
        subst hq
        exact answer_of_record (q := q) hs named (by rwa [loop?, issued.loops]) hx hr
      · refine (issued.sealed_own hs named (fun l' hl' => ?_) hx asks).unfailing ?_
        · exact Option.some.inj (hl.symm.trans hl') ▸ own
        · exact hm.runs (.single issued.next)
  · intro s info scene m' name x k issued hs named
    exact (issued.sealed_made hm room hs named).unfailing (hm.runs (.single issued.next))
  · exact fun k base j picks own => (sealed_picked picks hm room own).unfailing hm.step
  · exact fun k base t n f hs hc ok room back => exists_host_of_fault hm hs hc ok room back

/-- A machine with two loops and a promise of the second one. -/
def twoLoops : Machine :=
  (boot {} .log .native).obey
    [.step (.openLoop "other" {} .log .native) none false,
      .step (.newPromise "other") (some "p") false]

theorem reachable_twoLoops : Reachable twoLoops := .obey (.boot _ _ _) _

/-- The promise of `twoLoops`. -/
def ofOther : Promise := ⟨⟨1⟩, 0, ⟨0, 0⟩⟩

theorem only_foreign_handles_fault_twoLoops :
    (∃ l, twoLoops.loop? ⟨0⟩ = some l ∧ l.record ofOther = .error (.foreignPromise ⟨0, 0⟩)) ∧
      ∃ j ≤ 1, (run j (twoLoops.start
        (.step (.resolve "main" (.variable "p") (.variable "p")) none false))).loops = twoLoops.loops := by
  obtain ⟨l, hl⟩ := Option.isSome_iff_exists.mp (by cbv : (twoLoops.loop? ⟨0⟩).isSome = true)
  have held : twoLoops.holds (.promise ofOther) = true := by cbv
  obtain ⟨refuses, -, issues, -⟩ := only_foreign_handles_fault reachable_twoLoops
    (roomy_of_all (by cbv))
  refine ⟨⟨l, hl, (refuses ⟨0⟩ l ofOther _ hl held).mpr ⟨by decide, rfl⟩⟩, ?_⟩
  obtain ⟨f, j, -, hj, -, same⟩ := (issues (.resolve "main" (.variable "p") (.variable "p")) _ _ _ "main"
    (.variable "p") ⟨0⟩ l ofOther (.given (by cbv) none false) rfl (by cbv) hl (by cbv)).1 (by decide)
  exact ⟨j, hj, same⟩

end Machine
end PromiseLoop

import PromiseLoop.Machine.Basic

/-!
# Who holds what

A handle is counted wherever a value with it occurs: in a variable, a property, a frame, a record,
a queue or a log.  When a value is let go and its handle occurs nowhere else, the promise behind it
is queued for release in its loop, and an object is taken apart, which lets go of its properties in
their order.  Handles that hold each other in a ring are never let go this way.

Main results:

* `holds_eq_any_held`: the search of a handle finds it exactly if a held value has it.
* `exists_drop_eq`: letting go changes loops and objects only.
* `exists_loop?_drop`: and a loop only by adding to its queue of releases.
-/

namespace PromiseLoop

/-- Whether a handle is one on the given promise. -/
def Handle.isOn (p : Promise) : Handle → Bool
  | .promise q => p = q
  | .object _ => false

/-- Whether a value has the given handle. -/
def Value.has (h : Handle) (v : Value) : Bool :=
  match v with
  | .object o => match h with
    | .object o' => o = o'
    | .promise _ => false
  | .promise p => h.isOn p
  | .function (.resolver r) => h.isOn r.promise
  | _ => false

theorem Value.has_promise (h : Handle) (p : Promise) : (Value.promise p).has h = h.isOn p := rfl

theorem Handle.isOn_iff (h : Handle) (p : Promise) : h.isOn p = true ↔ .promise p = h := by
  cases h <;> simp [Handle.isOn]

theorem Value.has_iff (h : Handle) (v : Value) : v.has h = true ↔ v.handle? = some h := by
  cases v with
  | object o => cases h <;> simp [Value.has, Value.handle?]
  | promise p => simp [Value.has, Value.handle?, Handle.isOn_iff]
  | function f =>
    cases f with
    | resolver r => simp [Value.has, Value.handle?, Handle.isOn_iff]
    | _ => simp [Value.has, Value.handle?]
  | _ => simp [Value.has, Value.handle?]

namespace Machine

/-! ## Held values -/

/-- The values held by the objects, newest object first. -/
def heldByObjects (m : Machine) : List Value := m.objects.flatMap fun e => e.2.held

/-- The values held by the loops, by number. -/
def heldByLoops (m : Machine) : List Value :=
  m.loops.flatMap fun l => (l.map Loop.held).getD []

/-- The values held by the begun activities. -/
def heldByStack (m : Machine) : List Value := m.stack.flatMap Frame.held

/-- All values that the machine holds. -/
def held (m : Machine) : List Value :=
  m.control.held ++ m.vars.held ++ m.heldByStack ++ m.heldByLoops ++ m.heldByObjects

/-! ## Searching a handle -/

/-- Whether a reaction holds a handle. -/
def reactionHolds (h : Handle) (x : Reaction) : Bool := x.handler.any (·.has h) || h.isOn x.derived

/-- Whether a record holds a handle. -/
def recordHolds (h : Handle) (r : Record) : Bool :=
  r.value.any (·.has h) || r.fulfillReactions.any (reactionHolds h)
    || r.rejectReactions.any (reactionHolds h)

/-- Whether a waiting job holds a handle. -/
def jobHolds (h : Handle) : Job → Bool
  | .reaction r argument => reactionHolds h r || argument.has h
  | .adoption p thenable thenFunction => h.isOn p || thenable.has h || thenFunction.has h
  | .settlement _ => false
  | .host _ => false

/-- Whether a loop holds a handle. -/
def loopHolds (h : Handle) (l : Loop) : Bool :=
  l.inFlight.any h.isOn
    || l.microtasks.entries.any (jobHolds h)
    || l.log.any (fun e => e.held.any (·.has h))
    || l.heap.slots.any (fun s => s.record.any (recordHolds h))

/-- Whether the machine holds a handle.  The likely places are searched first. -/
def holds (m : Machine) (h : Handle) : Bool :=
  m.control.held.any (·.has h)
    || m.vars.entries.any (fun e => e.2.has h)
    || m.stack.any (fun f => f.held.any (·.has h))
    || m.loops.any (fun l => l.any (loopHolds h))
    || m.objects.any (fun e => e.2.entries.any (fun p => p.2.held.has h))

theorem any_held_reaction (h : Handle) (x : Reaction) :
    x.held.any (·.has h) = reactionHolds h x := by
  cases hv : x.handler <;> simp [reactionHolds, Reaction.held, Value.has_promise, hv]

theorem any_held_record (h : Handle) (r : Record) :
    r.held.any (·.has h) = recordHolds h r := by
  cases hv : r.value <;>
    simp [recordHolds, Record.held, heldByReactions, any_held_reaction, List.any_append,
      List.any_flatMap, hv, Bool.or_assoc]

theorem any_held_job (h : Handle) (j : Job) : j.held.any (·.has h) = jobHolds h j := by
  cases j <;>
    simp [jobHolds, Job.held, any_held_reaction, Value.has_promise, Bool.or_assoc]

theorem any_held_heap (h : Handle) (heap : Heap) :
    heap.held.any (·.has h) = heap.slots.any (fun s => s.record.any (recordHolds h)) := by
  simp only [Heap.held, Heap.records, List.any_flatMap, any_held_record]
  induction heap.slots with
  | nil => rfl
  | cons s rest ih =>
    cases hs : s.record with
    | none => rw [List.filterMap_cons_none hs, ih, List.any_cons, hs]; rfl
    | some r => rw [List.filterMap_cons_some hs, List.any_cons, ih, List.any_cons, hs]; rfl

theorem any_held_loop (h : Handle) (l : Loop) : l.held.any (·.has h) = loopHolds h l := by
  have flight : (l.inFlight.map Value.promise).any (·.has h) = l.inFlight.any h.isOn := by
    simp [List.any_map, Value.has_promise, Function.comp_def]
  simp only [loopHolds, Loop.held, List.any_append, List.any_flatMap, any_held_heap, any_held_job,
    flight]
  ac_rfl

/-- The search of a handle finds it exactly if a held value has it. -/
theorem holds_eq_any_held (m : Machine) (h : Handle) : m.holds h = m.held.any (·.has h) := by
  have loops : m.heldByLoops.any (·.has h) = m.loops.any (fun l => l.any (loopHolds h)) := by
    simp only [heldByLoops, List.any_flatMap]
    congr 1
    funext l
    cases l <;> simp [any_held_loop]
  simp only [holds, held, heldByStack, heldByObjects, Variables.held, Properties.held,
    List.any_append, List.any_flatMap, List.any_map, loops, Function.comp_def]

/-! ## Letting go -/

/-- Takes an object apart. -/
def takeObject? (m : Machine) (o : ObjectId) : Option (Properties × Machine) :=
  match m.objects.find? fun e => e.1 = o with
  | none => none
  | some e => some (e.2, { m with objects := m.objects.filter fun e => e.1 ≠ o })

/-- Taking an object apart changes the objects only. -/
theorem eq_of_takeObject? {m m' : Machine} {o : ObjectId} {ps : Properties}
    (h : m.takeObject? o = some (ps, m')) :
    m' = { m with objects := m.objects.filter fun e => e.1 ≠ o } := by
  unfold takeObject? at h
  split at h
  · exact absurd h (by simp)
  · exact (Prod.mk.inj (Option.some.inj h)).2.symm

theorem length_objects_takeObject? {m m' : Machine} {o : ObjectId} {ps : Properties}
    (h : m.takeObject? o = some (ps, m')) : m'.objects.length < m.objects.length := by
  rw [eq_of_takeObject? h]
  unfold takeObject? at h
  split at h
  · exact absurd h (by simp)
  · rename_i e he
    have hmem := List.mem_of_find?_eq_some he
    have hkey := List.find?_some he
    simp only [decide_eq_true_eq] at hkey
    exact List.length_filter_lt_length_iff_exists.mpr ⟨e, hmem, by simp [hkey]⟩

/-- Lets values go, in their order.  A value that is still to be let go counts as held until its
turn comes.  Where an object is taken apart, `more` goes on with its properties and the rest. -/
def dropEach (more : List Value → Machine → Machine) : List Value → Machine → Machine
  | [], m => m
  | v :: vs, m =>
    match v.handle? with
    | none => dropEach more vs m
    | some h =>
      -- another handle is left, in the machine or further down this list
      if vs.any (·.has h) || m.holds h then dropEach more vs m
      else
        match h with
        | .promise p => dropEach more vs (m.modifyLoop p.home fun l => l.release p.id)
        | .object o =>
          -- the properties go before whatever is still waiting to go
          match m.takeObject? o with
          | none => dropEach more vs m
          | some (ps, m) => more (ps.held ++ vs) m

/-- Lets values go, taking at most `count` objects apart. -/
def dropUpTo : Nat → List Value → Machine → Machine
  | 0 => dropEach fun _ m => m
  | count + 1 => dropEach (dropUpTo count)

/-- Lets values go, in their order, with all that goes with them.  No more objects can be taken
apart than there are. -/
def drop (vs : List Value) (m : Machine) : Machine := dropUpTo m.objects.length vs m

/-! ### How letting go unfolds -/

theorem dropEach_congr {f g : List Value → Machine → Machine} (vs : List Value) (m : Machine)
    (h : ∀ ws m', m'.objects.length < m.objects.length → f ws m' = g ws m') :
    dropEach f vs m = dropEach g vs m := by
  induction vs generalizing m with
  | nil => rfl
  | cons v vs ih =>
    unfold dropEach
    split
    · exact ih m h
    · split
      · exact ih m h
      · split
        · exact ih _ h
        · split
          · exact ih m h
          · rename_i hm
            exact h _ _ (length_objects_takeObject? hm)

theorem dropUpTo_succ (n : Nat) (vs : List Value) (m : Machine) (h : m.objects.length ≤ n) :
    dropUpTo (n + 1) vs m = dropUpTo n vs m := by
  induction n generalizing vs m with
  | zero => exact dropEach_congr vs m fun ws m' hlt => absurd hlt (by omega)
  | succ n ih => exact dropEach_congr vs m fun ws m' hlt => ih ws m' (by omega)

/-- Taking apart more objects than there are makes no difference. -/
theorem dropUpTo_eq_drop (n : Nat) (vs : List Value) (m : Machine) (h : m.objects.length ≤ n) :
    dropUpTo n vs m = drop vs m := by
  induction n with
  | zero => rw [drop, Nat.le_zero.mp h]
  | succ n ih =>
    rcases Nat.lt_or_eq_of_le h with hlt | heq
    · rw [dropUpTo_succ n vs m (by omega), ih (by omega)]
    · rw [drop, heq]

theorem drop_nil (m : Machine) : drop [] m = m := by
  unfold drop
  cases m.objects.length <;> rfl

/-- A value without a handle goes without a trace. -/
theorem drop_cons_of_handle?_eq_none {v : Value} (vs : List Value) (m : Machine)
    (h : v.handle? = none) : drop (v :: vs) m = drop vs m := by
  unfold drop
  cases m.objects.length <;> simp [dropUpTo, dropEach, h]

/-- A value whose handle occurs elsewhere goes without a trace. -/
theorem drop_cons_of_holds {v : Value} {h : Handle} (vs : List Value) (m : Machine)
    (hv : v.handle? = some h) (held : (vs.any (·.has h) || m.holds h) = true) :
    drop (v :: vs) m = drop vs m := by
  unfold drop
  cases m.objects.length <;> simp only [dropUpTo, dropEach, hv, held, if_true]

/-- The last handle on a promise queues its release. -/
theorem drop_cons_promise {v : Value} {p : Promise} (vs : List Value) (m : Machine)
    (hv : v.handle? = some (.promise p))
    (last : (vs.any (·.has (.promise p)) || m.holds (.promise p)) = false) :
    drop (v :: vs) m = drop vs (m.modifyLoop p.home fun l => l.release p.id) := by
  unfold drop
  cases hn : m.objects.length <;>
    simp [dropUpTo, dropEach, hv, last, modifyLoop, hn]

/-- The last handle on an object takes it apart. -/
theorem drop_cons_object {v : Value} {o : ObjectId} {ps : Properties} {m' : Machine}
    (vs : List Value) (m : Machine) (hv : v.handle? = some (.object o))
    (last : (vs.any (·.has (.object o)) || m.holds (.object o)) = false)
    (hm : m.takeObject? o = some (ps, m')) :
    drop (v :: vs) m = drop (ps.held ++ vs) m' := by
  have hlt := length_objects_takeObject? hm
  rw [← dropUpTo_eq_drop (m.objects.length - 1) _ m' (by omega), drop]
  cases hn : m.objects.length with
  | zero => omega
  | succ n => simp [dropUpTo, dropEach, hv, last, hm]

/-- What every release and every taking apart keeps, letting go keeps. -/
theorem drop_induction {P : Machine → Prop}
    (release : ∀ m (p : Promise), P m → P (m.modifyLoop p.home fun l => l.release p.id))
    (take : ∀ m o ps m', P m → m.takeObject? o = some (ps, m') → P m')
    (vs : List Value) (m : Machine) (h : P m) : P (drop vs m) := by
  have each : ∀ (more : List Value → Machine → Machine),
      (∀ vs m, P m → P (more vs m)) → ∀ vs m, P m → P (dropEach more vs m) := by
    intro more hmore vs
    induction vs with
    | nil => exact fun m hm => hm
    | cons v vs ih =>
      intro m hm
      unfold dropEach
      split
      · exact ih m hm
      · split
        · exact ih m hm
        · split
          · exact ih _ (release m _ hm)
          · split
            · exact ih m hm
            · rename_i htake
              exact hmore _ _ (take m _ _ _ hm htake)
  have upTo : ∀ n vs m, P m → P (dropUpTo n vs m) := by
    intro n
    induction n with
    | zero => exact each _ fun _ _ hm => hm
    | succ n ih => exact each _ ih
  exact upTo _ vs m h

/-! ### What letting go leaves alone -/

/-- Letting go changes loops and objects only. -/
theorem exists_drop_eq (vs : List Value) (m : Machine) :
    ∃ loops objects, drop vs m = { m with loops := loops, objects := objects } := by
  apply drop_induction (P := fun m' => ∃ loops objects, m' = { m with loops, objects })
  · rintro _ p ⟨loops, objects, rfl⟩
    exact ⟨_, objects, rfl⟩
  · rintro _ o ps m' ⟨loops, objects, rfl⟩ ht
    exact ⟨loops, _, eq_of_takeObject? ht⟩
  · exact ⟨m.loops, m.objects, rfl⟩

@[simp] theorem control_drop (vs : List Value) (m : Machine) :
    (drop vs m).control = m.control := by
  obtain ⟨_, _, h⟩ := exists_drop_eq vs m
  rw [h]

@[simp] theorem stack_drop (vs : List Value) (m : Machine) : (drop vs m).stack = m.stack := by
  obtain ⟨_, _, h⟩ := exists_drop_eq vs m
  rw [h]

@[simp] theorem vars_drop (vs : List Value) (m : Machine) : (drop vs m).vars = m.vars := by
  obtain ⟨_, _, h⟩ := exists_drop_eq vs m
  rw [h]

@[simp] theorem pairs_drop (vs : List Value) (m : Machine) : (drop vs m).pairs = m.pairs := by
  obtain ⟨_, _, h⟩ := exists_drop_eq vs m
  rw [h]

@[simp] theorem names_drop (vs : List Value) (m : Machine) : (drop vs m).names = m.names := by
  obtain ⟨_, _, h⟩ := exists_drop_eq vs m
  rw [h]

@[simp] theorem trace_drop (vs : List Value) (m : Machine) : (drop vs m).trace = m.trace := by
  obtain ⟨_, _, h⟩ := exists_drop_eq vs m
  rw [h]

/-- Letting go changes a loop by adding to its queue of releases, and in no other way. -/
theorem exists_loop?_drop (vs : List Value) (m : Machine) (id : LoopId) :
    ∃ released, (drop vs m).loop? id =
      (m.loop? id).map fun l => { l with releases := l.releases ++ released } := by
  apply drop_induction (P := fun m' => ∃ released, m'.loop? id =
    (m.loop? id).map fun l => { l with releases := l.releases ++ released })
  · rintro m' p ⟨released, h⟩
    by_cases hp : p.home = id
    · -- one more release of this loop
      refine ⟨released ++ [p.id], ?_⟩
      rw [hp, loop?_modifyLoop_self, h]
      cases m.loop? id with
      | none => rfl
      | some l => simp [Loop.release]
    · exact ⟨released, by rw [loop?_modifyLoop_of_ne m' hp, h]⟩
  · rintro m' o ps m'' ⟨released, h⟩ ht
    refine ⟨released, ?_⟩
    rw [eq_of_takeObject? ht, ← h]
    rfl
  · refine ⟨[], ?_⟩
    cases m.loop? id <;> simp

/-! ## Variables -/

/-- Gives a variable a value and lets the old one go. -/
def assign (m : Machine) (name : String) (v : Value) : Machine :=
  drop (m.vars.lookup? name).toList { m with vars := m.vars.assign name v }

/-- Removes a variable and lets its value go. -/
def removeVariable (m : Machine) (name : String) : Machine :=
  drop (m.vars.lookup? name).toList { m with vars := m.vars.remove name }

/-! ## Dropping loops -/

/-- Whether a loop is kept alive by its name or by a begun activity. -/
def keepsLoop (m : Machine) (id : LoopId) : Bool :=
  m.names.any (fun e => e.2 = id) || m.control.loop? = some id
    || m.stack.any (fun f => f.loop? = some id)

/-- A loop that nothing keeps alive. -/
def orphan? (m : Machine) : Option Loop :=
  (m.loops.filterMap fun l => l).find? fun l => !m.keepsLoop l.id

/-- Removes a loop and lets go of all it held. -/
def removeLoop (m : Machine) (l : Loop) : Machine :=
  drop l.held { m with loops := m.loops.modify l.id.number fun _ => none }

end Machine
end PromiseLoop

import PromiseLoop.Proofs.Handles.Books
import PromiseLoop.Proofs.Views.Runs

/-!
# How updates keep the books

Values that are under way are let go, given to variables and properties, or taken from them; loops
are opened and removed.  None of this upsets the books of a loop.  The last handle on a promise that
goes puts its id in the queue of releases, which is just what the ledger asks for.

## Results

* `Machine.drop_cases`: what letting values go does, one value at a time.
* `Machine.Books.drop`: letting values go keeps the books.
-/

namespace PromiseLoop

-- ---------------------------------------------------------------------------
-- Variables and properties
-- ---------------------------------------------------------------------------

namespace Variables

variable {name : String} {v : Value} {es : List (String × Value)} {a : Handle}

theorem mem_handles_of_find? (h : a ∈ handles
    ((es.find? fun e => e.1 = name).map Prod.snd).toList) : a ∈ handles (es.map Prod.snd) := by
  cases hf : es.find? fun e => e.1 = name with
  | none => simp [hf] at h
  | some e =>
    rw [hf] at h
    exact mem_handles.mpr ⟨e.2, List.mem_map_of_mem (List.mem_of_find?_eq_some hf), by simpa using h⟩

/-- Giving a variable a value exchanges the old one for it. -/
theorem mem_handles_insert : (a ∈ handles ((insert name v es).map Prod.snd) ∨
      a ∈ handles ((es.find? fun e => e.1 = name).map Prod.snd).toList) ↔
    (a ∈ handles (es.map Prod.snd) ∨ v.handle? = some a) := by
  induction es with
  | nil => simp [insert]
  | cons e es ih =>
    have old := @mem_handles_of_find? name es a
    unfold insert
    by_cases he : e.1 = name
    · simp [he]
      grind
    · by_cases lt : name < e.1
      · simp [he, lt]
        grind
      · simp only [he, lt, if_false, List.map_cons, mem_handles_cons, decide_false,
          List.find?_cons_of_neg, Bool.false_eq_true, not_false_eq_true]
        grind

/-- Removing a variable gives its value. -/
theorem mem_handles_filter (sorted : es.Pairwise fun a b => a.1 < b.1) :
    (a ∈ handles ((es.filter fun e => e.1 ≠ name).map Prod.snd) ∨
      a ∈ handles ((es.find? fun e => e.1 = name).map Prod.snd).toList) ↔
    a ∈ handles (es.map Prod.snd) := by
  induction es with
  | nil => simp
  | cons e es ih =>
    rw [List.pairwise_cons] at sorted
    by_cases he : e.1 = name
    · -- no other variable has the name
      have rest : es.filter (fun x => x.1 ≠ name) = es :=
        List.filter_eq_self.mpr fun x hx => by simpa [he] using (sorted.1 x hx).ne'
      rw [List.filter_cons_of_neg (by simp [he]), rest, List.find?_cons_of_pos (by simp [he])]
      simp [or_comm]
    · rw [List.filter_cons_of_pos (by simp [he]), List.find?_cons_of_neg (by simp [he])]
      simp only [List.map_cons, mem_handles_cons, or_assoc, ih sorted.2]

theorem mem_insert {e : String × Value} (h : e ∈ insert name v es) : e = (name, v) ∨ e ∈ es := by
  induction es with
  | nil => simpa [insert] using h
  | cons x es ih =>
    unfold insert at h
    split at h
    · exact (List.mem_cons.mp h).imp_right (List.mem_cons_of_mem _)
    · split at h
      · exact List.mem_cons.mp h
      · rcases List.mem_cons.mp h with rfl | h
        · exact .inr (List.mem_cons_self ..)
        · exact (ih h).imp_right (List.mem_cons_of_mem _)

theorem sorted_insert (sorted : es.Pairwise fun a b => a.1 < b.1) :
    (insert name v es).Pairwise fun a b => a.1 < b.1 := by
  induction es with
  | nil => exact List.pairwise_singleton ..
  | cons e es ih =>
    have greater := List.pairwise_cons.mp sorted
    unfold insert
    split
    · rename_i he
      exact List.pairwise_cons.mpr ⟨fun x hx => he ▸ greater.1 x hx, greater.2⟩
    · split
      · rename_i lt
        refine List.pairwise_cons.mpr ⟨fun x hx => ?_, sorted⟩
        rcases List.mem_cons.mp hx with rfl | hx
        · exact lt
        · exact lt.trans (greater.1 x hx)
      · rename_i ne le
        refine List.pairwise_cons.mpr ⟨fun x hx => ?_, ih greater.2⟩
        rcases mem_insert hx with rfl | hx
        · exact lt_of_le_of_ne (not_lt.mp le) ne
        · exact greater.1 x hx

end Variables

theorem Properties.mem_handles_of_lookup? {ps : Properties} {key : String} {q : Property} {a : Handle}
    (hq : ps.lookup? key = some q) (ha : q.held.handle? = some a) : a ∈ handles ps.held := by
  obtain ⟨e, he, rfl⟩ := Option.map_eq_some_iff.mp hq
  exact mem_handles.mpr ⟨_, List.mem_map_of_mem (List.mem_of_find?_eq_some he), ha⟩

/-- Putting a property exchanges the old one for it. -/
theorem Properties.mem_handles_put {ps : Properties} {key : String} {q : Property} {a : Handle} :
    (a ∈ handles (ps.put key q).held ∨
      a ∈ handles ((ps.lookup? key).map Property.held).toList) ↔
    (a ∈ handles ps.held ∨ q.held.handle? = some a) := by
  obtain ⟨es⟩ := ps
  simp only [Properties.held, put, lookup?]
  induction es with
  | nil => simp [putEntry]
  | cons e es ih =>
    obtain ⟨key', x⟩ := e
    unfold putEntry
    by_cases he : key' = key
    · simp [he]
      grind
    · rw [if_neg he, List.find?_cons_of_neg (by simp [he])]
      simp only [List.map_cons, mem_handles_cons, or_assoc, ih]

namespace Machine

variable {m m' : Machine} {k : LoopId} {extra extra' : List Value} {due : List PromiseId}

-- ---------------------------------------------------------------------------
-- Letting values go
-- ---------------------------------------------------------------------------

/-- A handle on an object that does not exist goes without a trace. -/
theorem drop_cons_of_takeObject?_eq_none {v : Value} {o : ObjectId} (vs : List Value) (m : Machine)
    (hv : v.handle? = some (.object o)) (hm : m.takeObject? o = none) :
    drop (v :: vs) m = drop vs m := by
  unfold drop
  cases m.objects.length <;> simp only [dropUpTo, dropEach, hv] <;> split <;> simp only [hm]

/-- Letting values go, one value at a time: a value goes without a trace if it has no handle, if its handle
is found elsewhere, or if the handle is one on an object that does not exist; the last handle on a promise
releases it; and the last one on an object takes the object apart. -/
theorem drop_cases {P : List Value → Machine → Prop}
    (skip : ∀ v vs m, (∀ a, v.handle? = some a → a ∈ handles vs ∨ m.holds a = true) →
      P (v :: vs) m → P vs m)
    (lose : ∀ v vs m o, v.handle? = some (.object o) → m.takeObject? o = none → P (v :: vs) m → P vs m)
    (release : ∀ v vs m p, v.handle? = some (.promise p) → .promise p ∉ handles vs →
      ¬ m.holds (.promise p) = true → P (v :: vs) m → P vs (m.modifyLoop p.home fun l => l.release p.id))
    (take : ∀ v vs m o ps m', v.handle? = some (.object o) → .object o ∉ handles vs →
      ¬ m.holds (.object o) = true → m.takeObject? o = some (ps, m') →
      P (v :: vs) m → P (ps.held ++ vs) m')
    (vs : List Value) (m : Machine) (h : P vs m) : P [] (drop vs m) := by
  -- an object that is taken apart leaves fewer objects; otherwise fewer values are left
  induction hn : m.objects.length using Nat.strongRecOn generalizing m vs with
  | ind n ih =>
    induction vs generalizing m with
    | nil => rwa [drop_nil]
    | cons v vs ihvs =>
      cases hv : v.handle? with
      | none =>
        rw [drop_cons_of_handle?_eq_none vs m hv]
        exact ihvs m (skip v vs m (fun a ha => nomatch hv.symm.trans ha) h) hn
      | some a =>
        by_cases found : (vs.any (·.has a) || m.holds a) = true
        · rw [drop_cons_of_holds vs m hv found]
          refine ihvs m (skip v vs m (fun b hb => ?_) h) hn
          obtain rfl := Option.some.inj (hv.symm.trans hb)
          rwa [Bool.or_eq_true, any_has_iff] at found
        · have last := Bool.eq_false_iff.mpr found
          rw [Bool.or_eq_true, any_has_iff, not_or] at found
          cases a with
          | promise p =>
            rw [drop_cons_promise vs m hv last]
            exact ihvs _ (release v vs m p hv found.1 found.2 h) hn
          | object o =>
            cases hm : m.takeObject? o with
            | none =>
              rw [drop_cons_of_takeObject?_eq_none vs m hv hm]
              exact ihvs m (lose v vs m o hv hm h) hn
            | some taken =>
              obtain ⟨ps, m'⟩ := taken
              rw [drop_cons_object vs m hv last hm]
              exact ih _ (hn ▸ length_objects_takeObject? hm) _ m'
                (take v vs m o ps m' hv found.1 found.2 hm h) rfl

/-- A machine without one of its objects. -/
theorem exists_of_takeObject? {o : ObjectId} {ps : Properties} (h : m.takeObject? o = some (ps, m')) :
    ∃ e ∈ m.objects, e.1 = o ∧ ps = e.2 ∧
      m' = { m with objects := m.objects.filter fun e => e.1 ≠ o } := by
  have heq := eq_of_takeObject? h
  unfold takeObject? at h
  split at h
  · cases h
  · rename_i e he
    exact ⟨e, List.mem_of_find?_eq_some he, by simpa using List.find?_some he,
      (Prod.mk.inj (Option.some.inj h)).1.symm, heq⟩

/-- What exists can be taken apart. -/
theorem not_mem_objects_of_takeObject?_eq_none {o : ObjectId} (h : m.takeObject? o = none) :
    o ∉ m.objects.map Prod.fst := fun mem => by
  obtain ⟨e, he, rfl⟩ := List.mem_map.mp mem
  unfold takeObject? at h
  split at h
  · rename_i absent
    simpa using List.find?_eq_none.mp absent e he
  · cases h

/-- Of the objects with one number there is at most one. -/
theorem Tidy.eq_of_number (h : m.Tidy) {e x : ObjectId × Properties} (he : e ∈ m.objects)
    (hx : x ∈ m.objects) (same : e.1 = x.1) : e = x :=
  List.inj_on_of_nodup_map h.objects he hx same

/-- What the objects give is what one of them gives and what the others do. -/
theorem Tidy.mem_objects (h : m.Tidy) {e : ObjectId × Properties} (he : e ∈ m.objects)
    (g : ObjectId × Properties → List Handle) (a : Handle) :
    a ∈ m.objects.flatMap g ↔ (∃ x ∈ m.objects, x.1 ≠ e.1 ∧ a ∈ g x) ∨ a ∈ g e := by
  rw [List.mem_flatMap]
  constructor
  · rintro ⟨x, hx, ha⟩
    by_cases same : x.1 = e.1
    · exact .inr (h.eq_of_number hx he same ▸ ha)
    · exact .inl ⟨x, hx, same, ha⟩
  · rintro (⟨x, hx, -, ha⟩ | ha)
    · exact ⟨x, hx, ha⟩
    · exact ⟨e, he, ha⟩

/-- An object that is taken apart gives what it held. -/
theorem has_takeObject? (h : m.Tidy) {o : ObjectId} {ps : Properties}
    (ht : m.takeObject? o = some (ps, m')) (a : Handle) : m'.Has (ps.held ++ extra) a ↔ m.Has extra a := by
  obtain ⟨e, he, rfl, rfl, rfl⟩ := exists_of_takeObject? ht
  have objects : (a ∈ handles (heldByObjects { m with objects := m.objects.filter fun x => x.1 ≠ e.1 }) ∨
      a ∈ handles e.2.held) ↔ a ∈ handles m.heldByObjects := by
    rw [heldByObjects, heldByObjects, handles_flatMap, handles_flatMap,
      h.mem_objects he fun x => handles x.2.held]
    simp [List.mem_flatMap, and_assoc]
  simp only [Has, mem_kept, handles_append, List.mem_append, ← objects, heldByStack, heldByLoops]
  grind

theorem Tidy.takeObject? (h : m.Tidy) {o : ObjectId} {ps : Properties}
    (ht : m.takeObject? o = some (ps, m')) : m'.Tidy := by
  rw [eq_of_takeObject? ht]
  have fewer : (m.objects.filter fun e => e.1 ≠ o).Sublist m.objects := List.filter_sublist
  exact ⟨h.placed, h.sound, h.objects.sublist (fewer.map Prod.fst),
    fun e he => h.young e (fewer.subset he), h.sorted, h.anchored⟩

/-- The last handle on a promise goes, and its id is released. -/
theorem Books.release {p : Promise} (h : m.Books k extra due) (hp : m.Has extra (.promise p))
    (last : ∀ a, m.Has extra' a ↔ m.Has extra a ∧ a ≠ .promise p) :
    (m.modifyLoop p.home fun l => l.release p.id).Books k extra' due := by
  have lastPromise (q : Promise) : m.Has extra' (.promise q) ↔ m.Has extra (.promise q) ∧ q ≠ p := by
    simpa using last (.promise q)
  have objects (o : ObjectId) : m.Has extra' (.object o) ↔ m.Has extra (.object o) := by
    simpa using last (.object o)
  cases hl : m.loop? p.home with
  | none =>
    rw [modifyLoop_of_gone hl]
    refine ⟨h.tidy, fun q hq => h.homed q ((lastPromise q).mp hq).1,
      fun o => (objects o).trans (h.owned o), h.begun, fun l hk room => ?_⟩
    refine (h.ledger l hk room).congr (fun _ => Iff.rfl) (fun q => ?_) (.refl _)
    -- the promise belongs to a loop that is gone
    refine and_congr_right fun hq => (lastPromise q).trans (and_iff_left fun e => ?_)
    rw [← e, hq, hk] at hl
    cases hl
  | some l =>
    have id := h.tidy.placed _ l hl
    rw [← id] at hl ⊢
    have sound := h.tidy.sound _ l hl
    have has (a : Handle) : (m.setLoop (l.release p.id)).Has extra' a ↔ m.Has extra' a :=
      has_setLoop [] [] extra' hl (l.id_release p.id) (fun _ => Iff.rfl) a
    have last' (q : Promise) := (has (.promise q)).trans (lastPromise q)
    rw [modifyLoop_of_found _ hl (l.id_release p.id)]
    refine h.of_setLoop hl (l.id_release p.id) ⟨sound.wf, sound.valueless⟩
      (fun q hq => h.homed q ((last' q).mp hq).1) (fun o => (has _).trans (objects o))
      (fun hk => ⟨rfl, fun q hq => ?_⟩) fun hk room => ?_
    · exact (last' q).trans (and_iff_left fun e => hk (by rw [id, ← e, hq]))
    · have released : Ledger l.heap
          (fun q => q.home = k ∧ (m.setLoop (l.release p.id)).Has extra' (.promise q)) (_ ++ [p.id]) :=
        (h.ledger l (hk ▸ hl) room).released ⟨id.symm.trans hk, hp⟩ fun q => by
          rw [last', and_assoc]
      simpa [Loop.release] using released

/-- What is under way before the last handle of a value goes. -/
theorem has_cons_of_last {v : Value} {vs ws : List Value} {a : Handle} (hv : v.handle? = some a)
    (fresh : a ∉ handles vs) (free : ¬ m.Has ws a) (b : Handle) :
    m.Has (vs ++ ws) b ↔ m.Has (v :: vs ++ ws) b ∧ b ≠ a := by
  rw [List.cons_append, ← List.singleton_append, has_append [v], has_append]
  simp only [mem_handles_cons, hv, handles_nil, List.not_mem_nil, or_false, Option.some.injEq]
  refine ⟨fun hb => ⟨.inr hb, ?_⟩, fun hb => hb.1.resolve_left fun e => hb.2 e.symm⟩
  rintro rfl
  exact hb.elim fresh free

/-- The last handle on an object goes, and the object is taken apart. -/
theorem Books.takeObject? {v : Value} {vs ws : List Value} {o : ObjectId} {ps : Properties}
    (h : m.Books k (v :: vs ++ ws) due) (hv : v.handle? = some (.object o))
    (fresh : .object o ∉ handles vs) (free : ¬ m.Has ws (.object o))
    (ht : m.takeObject? o = some (ps, m')) : m'.Books k (ps.held ++ (vs ++ ws)) due := by
  have has (a : Handle) : m'.Has (ps.held ++ (vs ++ ws)) a ↔ m.Has (v :: vs ++ ws) a ∧ a ≠ .object o := by
    rw [has_takeObject? h.tidy ht, has_cons_of_last hv fresh free]
  have heq := eq_of_takeObject? ht
  refine h.of_promises (h.tidy.takeObject? ht) (by rw [heq]) (by rw [heq]; rfl)
    (fun p => (has _).trans (by simp)) fun x => ?_
  rw [has, h.owned, heq]
  simp only [List.mem_map, List.mem_filter]
  grind

/-- Letting values go keeps the books. -/
theorem Books.drop {vs : List Value} (h : m.Books k (vs ++ m.control.held) due) :
    (drop vs m).Books k (drop vs m).control.held due := by
  have dropped := drop_cases
    (P := fun vs m => m.Books k (vs ++ m.control.held) due)
    (fun v vs m found h => h.alike fun a => ?_) (fun v vs m o hv absent h => ?_)
    (fun v vs m p hv fresh free h => ?_) (fun v vs m o ps m' hv fresh free ht h => ?_) vs m h
  · exact dropped
  · rw [List.cons_append, ← List.singleton_append, has_append [v]]
    refine ⟨.inr, fun ha => ha.elim (fun ha => ?_) id⟩
    rcases found a (by simpa using ha) with ha | ha
    · exact (has_append ..).mpr (.inl ha)
    · exact (has_append ..).mpr (.inr ((has_control_held a).mpr ha))
  · -- what has a handle exists
    refine absurd ((h.owned o).mp (.inr ?_)) (not_mem_objects_of_takeObject?_eq_none absent)
    simp [hv]
  · rw [← has_control_held] at free
    refine h.release (.inr (by simp [hv])) fun a => ?_
    exact has_cons_of_last hv fresh free a
  · rw [← has_control_held] at free
    have control : m'.control = m.control := by rw [eq_of_takeObject? ht]
    rw [control, List.append_assoc]
    exact h.takeObject? hv fresh free ht

-- ---------------------------------------------------------------------------
-- Other updates
-- ---------------------------------------------------------------------------

/-- Changes of anything that neither holds values nor concerns loops. -/
theorem Books.of_eq (h : m.Books k extra due) (loops : m'.loops = m.loops) (stack : m'.stack = m.stack)
    (vars : m'.vars = m.vars) (objects : m'.objects = m.objects)
    (nextObject : m'.nextObject = m.nextObject) : m'.Books k extra due := by
  refine h.of_loops (h.tidy.of_eq loops objects nextObject vars (stack ▸ List.Subset.refl _)) loops
    (by rw [objects]) (by rw [pendingOf, pendingOf, stack]) fun a => ?_
  simp only [Has, mem_kept, heldByStack, heldByLoops, heldByObjects, loops, stack, vars, objects]

/-- Giving a variable a copy of a value lets the old one go. -/
theorem Books.assign (h : m.Books k m.control.held due) (name : String) {v : Value}
    (copied : ∀ a, v.handle? = some a → m.Has m.control.held a) :
    (m.assign name v).Books k (m.assign name v).control.held due := by
  refine Books.drop (h.of_loops
    ⟨h.tidy.placed, h.tidy.sound, h.tidy.objects, h.tidy.young,
      Variables.sorted_insert h.tidy.sorted, h.tidy.anchored⟩
    rfl rfl rfl fun a => ?_)
  have exchanged := @Variables.mem_handles_insert name v m.vars.entries a
  have copied := copied a
  rw [has_append]
  simp only [Has, mem_kept, heldByStack, heldByLoops, heldByObjects, Variables.assign,
    Variables.lookup?, Variables.held] at copied ⊢
  grind

theorem Books.removeVariable (h : m.Books k m.control.held due) (name : String) :
    (m.removeVariable name).Books k (m.removeVariable name).control.held due := by
  refine Books.drop (h.of_loops
    ⟨h.tidy.placed, h.tidy.sound, h.tidy.objects, h.tidy.young, h.tidy.sorted.filter _,
      h.tidy.anchored⟩
    rfl rfl rfl fun a => ?_)
  have given := @Variables.mem_handles_filter name m.vars.entries a h.tidy.sorted
  rw [has_append]
  simp only [Has, mem_kept, heldByStack, heldByLoops, heldByObjects, Variables.remove,
    Variables.lookup?, Variables.held]
  grind

/-- A new object takes copies of values, and a handle on it is under way. -/
theorem Books.newObject (h : m.Books k extra due) (ps : Properties)
    (copied : ∀ a ∈ handles ps.held, m.Has extra a) :
    (m.newObject ps).2.Books k (.object (m.newObject ps).1 :: extra) due := by
  have has (a : Handle) : (m.newObject ps).2.Has (.object (m.newObject ps).1 :: extra) a ↔
      a = .object (m.newObject ps).1 ∨ m.Has extra a := by
    have copied := copied a
    simp only [Has, mem_kept, heldByStack, heldByLoops, heldByObjects, Machine.newObject,
      List.flatMap_cons, handles_append, List.mem_append, mem_handles_cons, Value.handle?_object,
      Option.some.injEq] at copied ⊢
    grind
  refine h.of_promises ⟨h.tidy.placed, h.tidy.sound, ?_, fun e he => ?_, h.tidy.sorted,
    h.tidy.anchored⟩ rfl rfl (fun p => (has _).trans (by simp)) fun o => ?_
  · refine List.nodup_cons.mpr ⟨fun hmem => ?_, h.tidy.objects⟩
    obtain ⟨e, he, heq⟩ := List.mem_map.mp hmem
    have := h.tidy.young e he
    rw [heq] at this
    exact Nat.lt_irrefl _ this
  · rcases List.mem_cons.mp he with rfl | he
    · exact Nat.lt_succ_self _
    · exact Nat.lt_succ_of_lt (h.tidy.young e he)
  · rw [has, h.owned]
    exact (or_congr_left (by rw [Handle.object.injEq]; rfl)).trans List.mem_cons.symm

/-- Putting a copy of a value on an object lets the old one go. -/
theorem Books.replaceProperty (h : m.Books k m.control.held due) (o : ObjectId) (key : String)
    {q : Property} (copied : ∀ a, q.held.handle? = some a → m.Has m.control.held a) :
    (m.replaceProperty o key q).Books k (m.replaceProperty o key q).control.held due := by
  refine Books.drop ?_
  cases hf : m.objects.find? fun e => e.1 = o with
  | none =>
    -- there is no such object
    have absent (e) (he : e ∈ m.objects) : e.1 ≠ o := by simpa using List.find?_eq_none.mp hf e he
    have same : m.putProperty o key q = m := by
      have objects : m.objects.map (fun e => if e.1 = o then (e.1, e.2.put key q) else e) = m.objects :=
        (List.map_congr_left fun e he => if_neg (absent e he)).trans m.objects.map_id
      rw [putProperty, objects]
    rw [same, properties, hf]
    exact h
  | some e =>
    have he := List.mem_of_find?_eq_some hf
    obtain rfl : e.1 = o := by simpa using List.find?_some hf
    have fst : (m.putProperty e.1 key q).objects.map Prod.fst = m.objects.map Prod.fst := by
      rw [putProperty, List.map_map]
      refine List.map_congr_left fun x _ => ?_
      show (if _ then _ else _ : ObjectId × Properties).1 = x.1
      split <;> rfl
    have objects (a : Handle) : (a ∈ handles (m.putProperty e.1 key q).heldByObjects ∨
        a ∈ handles ((e.2.lookup? key).map Property.held).toList) ↔
        (a ∈ handles m.heldByObjects ∨ q.held.handle? = some a) := by
      have exchanged := @Properties.mem_handles_put e.2 key q a
      rw [heldByObjects, heldByObjects, handles_flatMap, handles_flatMap, putProperty,
        List.flatMap_map, h.tidy.mem_objects he, h.tidy.mem_objects he, if_pos rfl]
      have others : (∃ x ∈ m.objects, x.1 ≠ e.1 ∧
          a ∈ handles (if x.1 = e.1 then (x.1, x.2.put key q) else x).2.held) ↔
          ∃ x ∈ m.objects, x.1 ≠ e.1 ∧ a ∈ handles x.2.held :=
        exists_congr fun x => and_congr_right fun _ => and_congr_right fun ne => by rw [if_neg ne]
      rw [others]
      grind
    refine h.of_loops ⟨h.tidy.placed, h.tidy.sound, fst ▸ h.tidy.objects, fun x hx => ?_,
      h.tidy.sorted, h.tidy.anchored⟩ rfl fst rfl fun a => ?_
    · obtain ⟨y, hy, heq⟩ := List.mem_map.mp (fst ▸ List.mem_map_of_mem hx)
      exact heq ▸ h.tidy.young y hy
    · have copied := copied a
      have objects := objects a
      have kept : a ∈ handles (m.putProperty e.1 key q).kept ↔ a ∈ handles m.vars.held ∨
          a ∈ handles m.heldByStack ∨ a ∈ handles m.heldByLoops ∨
            a ∈ handles (m.putProperty e.1 key q).heldByObjects := mem_kept
      rw [has_append, properties, hf, Option.map_some, Option.getD_some, Has, kept]
      rw [Has, mem_kept] at copied ⊢
      show _ ∨ _ ∨ a ∈ handles m.control.held ↔ _
      grind

theorem Books.useCompleter (h : m.Books k extra due) (name : String) (result : WorkResult) :
    (m.useCompleter name result).Books k extra due := by
  unfold Machine.useCompleter
  cases hc : m.takeCompleter name with
  | none => exact h
  | some taken =>
    obtain ⟨e, -, rfl⟩ := Option.map_eq_some_iff.mp hc
    have other : ({ m with completers := m.completers.filter fun e => e.1 ≠ name } : Machine).Books k
        extra due := h.of_eq rfl rfl rfl rfl rfl
    exact other.modifyLoop _ fun sound => Loop.trades_post sound _

theorem Books.keepCompleter (h : m.Books k extra due) (name : String) (c : Completer) :
    (m.keepCompleter name c).Books k extra due :=
  (h.useCompleter name .abandoned).of_eq rfl rfl rfl rfl rfl

-- ---------------------------------------------------------------------------
-- Looking values up
-- ---------------------------------------------------------------------------

/-- The value of a variable is held. -/
theorem mem_kept_of_lookup? {name : String} {v : Value} {a : Handle}
    (hv : m.vars.lookup? name = some v) (ha : v.handle? = some a) : a ∈ handles m.kept := by
  refine mem_kept.mpr (.inl (@Variables.mem_handles_of_find? name _ _ ?_))
  rw [show (m.vars.entries.find? fun e => e.1 = name).map Prod.snd = some v from hv]
  simp [ha]

/-- The receiver and the arguments of the running body are held by the frame of its call. -/
theorem mem_heldByStack_of_scope {v : Value} (hv : v = m.scope.1 ∨ v ∈ m.scope.2) {a : Handle}
    (ha : v.handle? = some a) : a ∈ handles m.heldByStack := by
  unfold scope at hv
  generalize hf : m.stack.findSome? _ = found at hv
  cases found with
  | none =>
    obtain rfl : v = .undefined := by simpa using hv
    cases ha
  | some scope =>
    obtain ⟨f, hmem, heq⟩ := List.exists_of_findSome?_eq_some hf
    refine mem_handles.mpr ⟨v, List.mem_flatMap.mpr ⟨f, hmem, ?_⟩, ha⟩
    split at heq
    · rw [← Option.some.inj heq] at hv
      exact List.mem_cons.mpr hv
    · rw [← Option.some.inj heq] at hv
      obtain rfl : v = .undefined := by simpa using hv
      cases ha
    · cases heq

/-- What an operand names is held, unless the script has written it down. -/
theorem mem_kept_of_evaluateIn {scope : Value × List Value} {x : Operand} {a : Handle}
    (inside : ∀ v, v = scope.1 ∨ v ∈ scope.2 → v.handle? = some a → a ∈ handles m.kept)
    (ha : (m.evaluateIn scope x).handle? = some a) : a ∈ handles m.kept := by
  match x, ha with
  | .literal x, ha =>
    rw [evaluateIn, Value.handle?_of_isPlain x.isPlain] at ha
    cases ha
  | .variable name, ha =>
    rw [evaluateIn] at ha
    cases hv : m.vars.lookup? name with
    | none =>
      rw [hv] at ha
      cases ha
    | some v =>
      rw [hv] at ha
      exact mem_kept_of_lookup? hv ha
  | .receiver, ha => exact inside _ (.inl rfl) ha
  | .argument n, ha =>
    rw [evaluateIn] at ha
    cases hn : scope.2[n]? with
    | none =>
      rw [hn] at ha
      cases ha
    | some v =>
      rw [hn] at ha
      exact inside v (.inr (List.mem_of_getElem? hn)) ha
  | .round, ha => cases ha

theorem mem_kept_of_evaluate {x : Operand} {a : Handle} (ha : (m.evaluate x).handle? = some a) :
    a ∈ handles m.kept :=
  mem_kept_of_evaluateIn
    (fun _ hv ha => mem_kept.mpr (.inr (.inl (mem_heldByStack_of_scope hv ha)))) ha

-- ---------------------------------------------------------------------------
-- Opening and removing loops
-- ---------------------------------------------------------------------------

/-- A new loop has neither records nor promises. -/
theorem Books.openLoop (h : m.Books k extra due) (name : String) (config : Config) (tracker : Tracker)
    (bridge : Bridge) : (m.openLoop name config tracker bridge).Books k extra due := by
  have has (a : Handle) : (m.openLoop name config tracker bridge).Has extra a ↔ m.Has extra a := by
    simp [Has, mem_kept, Machine.openLoop, heldByStack, heldByLoops, heldByObjects, Loop.held,
      Heap.held, Heap.records, Heap.empty, Queue.empty]
  have size : (m.openLoop name config tracker bridge).loops.length = m.loops.length + 1 := by
    simp [Machine.openLoop]
  refine ⟨⟨fun j l hl => ?_, fun j l hl => ?_, h.tidy.objects, h.tidy.young, h.tidy.sorted,
    fun f hf j hj => ?_⟩, fun p hp => ?_, fun o => (has _).trans (h.owned o), fun hk => ?_,
    fun l hl room => ?_⟩
  · rw [loop?_openLoop] at hl
    split at hl
    · rw [← Option.some.inj hl]
    · exact h.tidy.placed j l hl
  · rw [loop?_openLoop] at hl
    split at hl
    · rw [← Option.some.inj hl]
      exact Loop.sound_new ..
    · exact h.tidy.sound j l hl
  · obtain ⟨l, hl⟩ := h.tidy.anchored f hf j hj
    exact ⟨l, by rw [loop?_openLoop, if_neg (Nat.ne_of_lt (number_lt_of_loop? hl)), hl]⟩
  · rw [size]
    exact Nat.lt_succ_of_lt (h.homed p ((has _).mp hp))
  · rw [size] at hk
    exact h.begun (Nat.le_of_succ_le hk)
  · rw [loop?_openLoop] at hl
    split at hl
    · rename_i hk
      rw [← Option.some.inj hl]
      have none := h.begun (Nat.le_of_eq hk.symm)
      show Ledger .empty _ (due ++ (m.pendingOf k ++ []))
      rw [List.append_nil, none]
      refine .empty fun p held => ?_
      have older := h.homed p ((has _).mp held.2)
      rw [held.1, hk] at older
      exact Nat.lt_irrefl _ older
    · exact (h.ledger l hl room).congr (fun _ => Iff.rfl) (fun _ => and_congr_right fun _ => has _)
        (.refl _)

/-- A loop that is removed lets go of all that it held. -/
theorem Books.removeLoop (h : m.Books k m.control.held due) {l : Loop} (hl : m.loop? l.id = some l)
    (orphan : ∀ f ∈ m.stack, f.anchor? ≠ some l.id) :
    (m.removeLoop l).Books k (m.removeLoop l).control.held due := by
  refine Books.drop ?_
  obtain ⟨others, split⟩ := exists_others hl
  generalize hcut : ({ m with loops := m.loops.modify l.id.number fun _ => none } : Machine) = cut
  have look (j : LoopId) : cut.loop? j = if j = l.id then none else m.loop? j := by
    rw [← hcut, loop?_modify_none]
  have size : cut.loops.length = m.loops.length := by
    rw [← hcut]
    exact List.length_modify ..
  have has (a : Handle) : cut.Has (l.held ++ m.control.held) a ↔ m.Has m.control.held a := by
    have before := (split a).1
    have after := (split a).2.2
    rw [hcut] at after
    rw [has_append, Has, Has, before, after]
    grind
  have pending : cut.pendingOf k = m.pendingOf k := by rw [← hcut]; rfl
  have control : cut.control = m.control := by rw [← hcut]
  rw [control]
  have kept {j : LoopId} {x : Loop} (hx : cut.loop? j = some x) : m.loop? j = some x := by
    rw [look] at hx
    split at hx
    · cases hx
    · exact hx
  refine ⟨⟨fun j x hx => h.tidy.placed j x (kept hx), fun j x hx => h.tidy.sound j x (kept hx),
      ?_, ?_, ?_, fun f hf j hj => ?_⟩, fun p hp => size ▸ h.homed p ((has _).mp hp), fun o => ?_,
    fun hk => ?_, fun x hx room => ?_⟩
  · rw [← hcut]; exact h.tidy.objects
  · rw [← hcut]; exact h.tidy.young
  · rw [← hcut]; exact h.tidy.sorted
  · have hf : f ∈ m.stack := by rwa [← hcut] at hf
    obtain ⟨x, hx⟩ := h.tidy.anchored f hf j hj
    have other : j ≠ l.id := fun e => orphan f hf (hj.trans (congrArg some e))
    exact ⟨x, by rw [look, if_neg other, hx]⟩
  · rw [has, ← hcut]; exact h.owned o
  · rw [pending]; exact h.begun (size ▸ hk)
  · rw [pending]
    exact (h.ledger x (kept hx) room).congr (fun _ => Iff.rfl)
      (fun _ => and_congr_right fun _ => has _) (.refl _)

end Machine
end PromiseLoop

import PromiseLoop.Proofs.Background.Runs
import PromiseLoop.Proofs.Twins.Basic
import PromiseLoop.Proofs.Warrants.Runs

/-!
# Letting go in another order

What is let go depends on the handles that are left elsewhere and on nothing else.  So values with other
handles on the stack or in a loop may be let go as well, and it makes no difference whether a loop is changed
before or after values are let go, as long as the change concerns none of their handles.

## Results

* `drop_append_of_kept`, `drop_append_of_frame`: values that are held elsewhere may be let go at the end.
* `drop_modifyLoop`: letting go and changing a loop may be done in either order.
-/

namespace PromiseLoop.Machine

variable {m m' : Machine} {k : LoopId} {l : Loop} {fs : List Frame}

-- ---------------------------------------------------------------------------
-- What stays while values are let go
-- ---------------------------------------------------------------------------

/-- The stack is as given, and so is a loop, apart from the releases that it has been told of. -/
structure Still (k : LoopId) (l : Loop) (fs : List Frame) (m : Machine) : Prop where
  stack : m.stack = fs
  loop : ∃ releases, m.loop? k = some { l with releases }

namespace Still

theorem release (h : m.Still k l fs) (p : Promise) :
    (m.modifyLoop p.home fun l => l.release p.id).Still k l fs := by
  obtain ⟨releases, hl⟩ := h.loop
  refine ⟨h.stack, ?_⟩
  by_cases home : p.home = k
  · subst home
    exact ⟨releases ++ [p.id], by rw [loop?_modifyLoop_self, hl]; rfl⟩
  · exact ⟨releases, by rw [loop?_modifyLoop_of_ne m home, hl]⟩

theorem take (h : m.Still k l fs) (o : ObjectId) :
    ({ m with objects := m.objects.filter fun e => e.1 ≠ o } : Machine).Still k l fs :=
  ⟨h.stack, h.loop⟩

/-- What the loop holds is held. -/
theorem holds_of_loop (h : m.Still k l fs) {a : Handle} (ha : loopHolds a l = true) :
    m.holds a = true := by
  obtain ⟨releases, hl⟩ := h.loop
  have place : m.loops[k.number]? = some (some { l with releases }) := Option.join_eq_some_iff.mp hl
  have found : (m.loops.any fun l => l.any (loopHolds a)) = true :=
    List.any_eq_true.mpr ⟨_, List.mem_of_getElem? place, ha⟩
  simp [Machine.holds, found]

end Still

-- ---------------------------------------------------------------------------
-- Values that are held elsewhere
-- ---------------------------------------------------------------------------

/-- Values whose handles are held elsewhere, come what may, go without a trace. -/
theorem drop_append_of_kept {Q : Machine → Prop} {ys : List Value}
    (release : ∀ m (p : Promise), Q m → Q (m.modifyLoop p.home fun l => l.release p.id))
    (take : ∀ m (o : ObjectId), Q m → Q { m with objects := m.objects.filter fun e => e.1 ≠ o })
    (kept : ∀ m, Q m → ∀ y ∈ ys, ∀ a, y.handle? = some a → m.holds a = true) (xs : List Value) (h : Q m) :
    drop (xs ++ ys) m = drop xs m := by
  have none (more : List Value → Machine → Machine) (m : Machine) (h : Q m) : dropEach more ys m = m := by
    have all := kept m h
    revert all
    generalize ys = zs
    intro all
    induction zs with
    | nil => rfl
    | cons y zs ih =>
      rw [List.forall_mem_cons] at all
      unfold dropEach
      cases ha : y.handle? with
      | none => exact ih all.2
      | some a =>
        dsimp only
        rw [all.1 a ha, Bool.or_true, if_pos rfl]
        exact ih all.2
  have each : ∀ (more : List Value → Machine → Machine),
      (∀ xs m, Q m → more (xs ++ ys) m = more xs m) →
      ∀ xs m, Q m → dropEach more (xs ++ ys) m = dropEach more xs m := by
    intro more hmore xs
    induction xs with
    | nil => exact fun m h => none more m h
    | cons x xs ih =>
      intro m h
      rw [List.cons_append]
      unfold dropEach
      cases ha : x.handle? with
      | none => exact ih m h
      | some a =>
        have elsewhere : ((xs ++ ys).any (·.has a) || m.holds a) = (xs.any (·.has a) || m.holds a) := by
          rw [List.any_append, Bool.or_assoc]
          cases hy : ys.any (·.has a) with
          | false => rw [Bool.false_or]
          | true =>
            obtain ⟨y, mem, has⟩ := List.any_eq_true.mp hy
            rw [kept m h y mem a ((Value.has_iff a y).mp has), Bool.or_true]
        dsimp only
        rw [elsewhere]
        split
        · exact ih m h
        · cases a with
          | promise p => exact ih _ (release m p h)
          | object o =>
            dsimp only
            unfold takeObject?
            cases hf : m.objects.find? fun e => e.1 = o with
            | none => exact ih m h
            | some e =>
              dsimp only
              rw [← List.append_assoc]
              exact hmore _ _ (take m o h)
  have upTo : ∀ n xs m, Q m → dropUpTo n (xs ++ ys) m = dropUpTo n xs m := by
    intro n
    induction n with
    | zero => exact each _ fun _ _ _ => rfl
    | succ n ih => exact each _ ih
  exact upTo _ xs m h

/-- What a frame holds goes without a trace. -/
theorem drop_append_of_frame {f : Frame} (mem : f ∈ m.stack) {ys : List Value} (held : ∀ y ∈ ys, y ∈ f.held)
    (xs : List Value) : drop (xs ++ ys) m = drop xs m :=
  drop_append_of_kept (Q := fun m' => m'.stack = m.stack) (fun _ _ same => same) (fun _ _ same => same)
    (fun _ same y hy _ ha => holds_of_stack (same ▸ mem) (held y hy) ha) xs rfl

theorem drop_of_frame {f : Frame} (mem : f ∈ m.stack) {ys : List Value} (held : ∀ y ∈ ys, y ∈ f.held) :
    drop ys m = m := (drop_append_of_frame mem held []).trans (drop_nil m)

-- ---------------------------------------------------------------------------
-- Changing a loop
-- ---------------------------------------------------------------------------

/-- A change of a loop after which it holds the same handles leaves the machine with the same handles. -/
theorem holds_modifyLoop {F : Loop → Loop} {a : Handle} (hl : m.loop? k = some l)
    (same : loopHolds a (F l) = loopHolds a l) : (m.modifyLoop k F).holds a = m.holds a := by
  have place : m.loops[k.number]? = some (some l) := Option.join_eq_some_iff.mp hl
  have loops : ((m.modifyLoop k F).loops.any fun l => l.any (loopHolds a)) =
      m.loops.any fun l => l.any (loopHolds a) := by
    unfold modifyLoop
    dsimp only
    generalize k.number = n at place
    revert place
    generalize m.loops = xs
    intro place
    induction xs generalizing n with
    | nil => simp at place
    | cons x xs ih =>
      cases n with
      | zero =>
        obtain rfl : x = some l := by simpa using place
        simp [same]
      | succ n => simp [ih n (by simpa using place)]
  unfold Machine.holds
  rw [loops]
  rfl

/-- Letting values go and changing a loop may be done in either order, if the change neither looks at what has
been released nor concerns the handles of the values. -/
theorem drop_modifyLoop {P : Handle → Prop} {Q : Machine → Prop} {F : Loop → Loop}
    (release : ∀ m (p : Promise), Q m → Q (m.modifyLoop p.home fun l => l.release p.id))
    (take : ∀ m (o : ObjectId), Q m → Q { m with objects := m.objects.filter fun e => e.1 ≠ o })
    (comm : ∀ l id, F (Loop.release l id) = (F l).release id)
    (holds : ∀ m a, Q m → P a → (m.modifyLoop k F).holds a = m.holds a)
    (inner : ∀ m, Q m → ∀ v ∈ m.heldByObjects, ∀ a, v.handle? = some a → P a) (vs : List Value)
    (outer : ∀ v ∈ vs, ∀ a, v.handle? = some a → P a) (h : Q m) :
    drop vs (m.modifyLoop k F) = (drop vs m).modifyLoop k F := by
  have both : Q (drop vs m) ∧ drop vs (m.modifyLoop k F) = (drop vs m).modifyLoop k F :=
    drop_lockstep (R := fun m m' => Q m ∧ m' = m.modifyLoop k F) (P := P)
      (fun _ _ h => by rw [h.2]; rfl) (fun m m' a h ha => by rw [h.2, holds m a h.1 ha])
      (fun m m' p h => ⟨release m p h.1, by
        rw [h.2]
        exact modifyLoop_comm m k p.home fun l => (comm l p.id).symm⟩)
      (fun m m' o h => ⟨take m o h.1, by rw [h.2]; rfl⟩)
      (fun m m' h v hv a ha => inner m h.1 v hv a ha) vs outer ⟨h, rfl⟩
  exact both.2

end PromiseLoop.Machine

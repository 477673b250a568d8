import PromiseLoop.Proofs.Twins.Loops
import PromiseLoop.Proofs.Views.Turns

/-!
# Twin machines

Two machines are *twins* if they differ in nothing but alike loops.  Whatever is done to both keeps them
twins, so no script can tell one from the other.  As a machine is its own twin as long as no promise was
fulfilled with another promise of its loop, what is kept along the way is true of every machine: a
resolution that waits for its value to answer has not been given a promise of the same loop, except where
that promise has answered already; and the one-shot pairs grow out of the earlier ones.

## Results

* `drop_lockstep`: values are let go in the same way wherever the same handles are held.
* `Paired.found`, `Paired.holds`: what two twins have in common.
* `Twins.drop`, `Twins.modifyLoop`, `Twins.setLoop`: what is done to both of two twins.
-/

namespace PromiseLoop

-- ---------------------------------------------------------------------------
-- Lists that are related element by element
-- ---------------------------------------------------------------------------

section

variable {α β : Type} {R : α → β → Prop}

theorem forall₂_modify {f : α → α} {g : β → β} (hf : ∀ a b, R a b → R (f a) (g b)) {xs : List α}
    {ys : List β} (h : List.Forall₂ R xs ys) (n : Nat) : List.Forall₂ R (xs.modify n f) (ys.modify n g) := by
  induction h generalizing n with
  | nil => simp
  | cons hab _ ih =>
    cases n with
    | zero => exact .cons (hf _ _ hab) ‹_›
    | succ n => exact .cons hab (ih n)

theorem forall₂_getElem? {xs : List α} {ys : List β} (h : List.Forall₂ R xs ys) (n : Nat) :
    Option.Rel R xs[n]? ys[n]? := by
  induction h generalizing n with
  | nil => exact .none
  | cons hab _ ih =>
    cases n with
    | zero => exact .some hab
    | succ n => exact ih n

end

namespace Machine

variable {gap : Gap} {past : List Pair} {m m' n n' : Machine}

-- ---------------------------------------------------------------------------
-- Letting go side by side
-- ---------------------------------------------------------------------------

/-- Two machines that hold the same handles, as far as values with certain handles are concerned, let them
go in the same way. -/
theorem drop_lockstep {R : Machine → Machine → Prop} {P : Handle → Prop}
    (objects : ∀ m m', R m m' → m'.objects = m.objects)
    (holds : ∀ m m' a, R m m' → P a → m'.holds a = m.holds a)
    (release : ∀ m m' (p : Promise), R m m' →
      R (m.modifyLoop p.home fun l => l.release p.id) (m'.modifyLoop p.home fun l => l.release p.id))
    (take : ∀ m m' (o : ObjectId), R m m' →
      R { m with objects := m.objects.filter fun e => e.1 ≠ o }
        { m' with objects := m'.objects.filter fun e => e.1 ≠ o })
    (inner : ∀ m m', R m m' → ∀ v ∈ m.heldByObjects, ∀ a, v.handle? = some a → P a) (vs : List Value)
    (outer : ∀ v ∈ vs, ∀ a, v.handle? = some a → P a) (h : R m m') : R (drop vs m) (drop vs m') := by
  have each : ∀ (more : List Value → Machine → Machine),
      (∀ vs m m', (∀ v ∈ vs, ∀ a, v.handle? = some a → P a) → R m m' → R (more vs m) (more vs m')) →
      ∀ vs m m', (∀ v ∈ vs, ∀ a, v.handle? = some a → P a) → R m m' →
        R (dropEach more vs m) (dropEach more vs m') := by
    intro more hmore vs
    induction vs with
    | nil => exact fun m m' _ h => h
    | cons v vs ih =>
      intro m m' hvs h
      rw [List.forall_mem_cons] at hvs
      unfold dropEach
      cases ha : v.handle? with
      | none => exact ih m m' hvs.2 h
      | some a =>
        dsimp only
        rw [holds m m' a h (hvs.1 a ha)]
        split
        · exact ih m m' hvs.2 h
        · cases a with
          | promise p => exact ih _ _ hvs.2 (release m m' p h)
          | object o =>
            dsimp only
            unfold takeObject?
            rw [objects m m' h]
            cases hf : m.objects.find? fun e => e.1 = o with
            | none => exact ih m m' hvs.2 h
            | some e =>
              have taken := take m m' o h
              rw [objects m m' h] at taken
              refine hmore _ _ _ (fun w hw => ?_) taken
              rcases List.mem_append.mp hw with hw | hw
              · exact inner m m' h w (List.mem_flatMap.mpr ⟨e, List.mem_of_find?_eq_some hf, hw⟩)
              · exact hvs.2 w hw
  have upTo : ∀ n vs m m', (∀ v ∈ vs, ∀ a, v.handle? = some a → P a) → R m m' →
      R (dropUpTo n vs m) (dropUpTo n vs m') := by
    intro n
    induction n with
    | zero => exact each _ fun _ _ _ _ h => h
    | succ n ih => exact each _ ih
  unfold drop
  rw [objects m m' h]
  exact upTo _ vs m m' outer h

-- ---------------------------------------------------------------------------
-- Twins
-- ---------------------------------------------------------------------------

/-- Two machines differ in nothing but alike loops, and their pairs have grown out of earlier ones. -/
structure Paired (gap : Gap) (past : List Pair) (m m' : Machine) : Prop where
  same : m' = { m with loops := m'.loops }
  loops : List.Forall₂ (Option.Rel (Loop.Alike gap)) m.loops m'.loops
  placed : m.Placed
  pairs : past <+: m.pairs

end Machine

/-- If a frame waits for a value to answer, the value is no promise of the loop that asks; and if it waits
for a `then`, it can reject the promise by a function of a one-shot pair. -/
def Frame.Asks : Frame → Prop
  | .resolving p v => ∀ q, v = .promise q → q.home ≠ p.home
  | .adopting p resolver _ => ∃ n, resolver = .function (.resolver ⟨p, .flag n, .reject⟩)
  | _ => True

namespace Machine

variable {gap : Gap} {past : List Pair} {m m' n n' : Machine}

/-- No script can tell one machine from the other. -/
structure Twins (gap : Gap) (past : List Pair) (m m' : Machine) : Prop extends Paired gap past m m' where
  asks : ∀ f ∈ m.stack, f.Asks

/-- If a promise of the same loop is asked for an answer, it has answered already, or the loop is gone. -/
def Answers (m : Machine) : Prop := ∀ f rest, m.stack = f :: rest →
  f.Asks ∨ ∃ p v s, f = .resolving p v ∧ m.control = .signal s ∧
    ((∃ t, s = .value t) ∨ m.loop? p.home = none)

/-- Twins, at a point where a resolution may have been answered at once. -/
structure Ends (gap : Gap) (past : List Pair) (m m' : Machine) : Prop extends Paired gap past m m' where
  asks : ∀ f ∈ m.stack.tail, f.Asks
  answers : m.Answers

theorem Twins.ends (h : Twins gap past m m') : Ends gap past m m' where
  toPaired := h.toPaired
  asks f hf := h.asks f (List.mem_of_mem_tail hf)
  answers _ _ hs := .inl (h.asks _ (hs ▸ List.mem_cons_self ..))

-- What twins share

namespace Paired

theorem stack (h : Paired gap past m m') : m'.stack = m.stack := by rw [h.same]

theorem control (h : Paired gap past m m') : m'.control = m.control := by rw [h.same]

theorem vars (h : Paired gap past m m') : m'.vars = m.vars := by rw [h.same]

theorem objects (h : Paired gap past m m') : m'.objects = m.objects := by rw [h.same]

theorem samePairs (h : Paired gap past m m') : m'.pairs = m.pairs := by rw [h.same]

theorem routines (h : Paired gap past m m') : m'.routines = m.routines := by rw [h.same]

theorem completers (h : Paired gap past m m') : m'.completers = m.completers := by rw [h.same]

theorem properties (h : Paired gap past m m') : m'.properties = m.properties := by rw [h.same]; rfl

theorem named? (h : Paired gap past m m') (name : String) : m'.named? name = m.named? name := by
  rw [h.same]
  rfl

theorem shown (h : Paired gap past m m') (v : Value) : m'.shown v = m.shown v := by rw [h.same]; rfl

theorem evaluateIn (h : Paired gap past m m') (scope : Value × List Value) (x : Operand) :
    m'.evaluateIn scope x = m.evaluateIn scope x := by
  rw [h.same]
  cases x <;> rfl

theorem evaluate (h : Paired gap past m m') (x : Operand) : m'.evaluate x = m.evaluate x := by
  rw [h.same]
  cases x <;> rfl

theorem keepsLoop (h : Paired gap past m m') (k : LoopId) : m'.keepsLoop k = m.keepsLoop k := by
  rw [h.same]
  rfl

theorem found (h : Paired gap past m m') (k : LoopId) : m.loop? k = none ∧ m'.loop? k = none ∨
    ∃ l l', m.loop? k = some l ∧ m'.loop? k = some l' ∧ l.Alike gap l' := by
  have rel : Option.Rel (Loop.Alike gap) (m.loop? k) (m'.loop? k) := by
    have place := forall₂_getElem? h.loops k.number
    unfold loop?
    revert place
    generalize m.loops[k.number]? = a
    generalize m'.loops[k.number]? = b
    rintro (hab | -)
    · exact hab
    · exact .none
  cases hl : m.loop? k with
  | none =>
    rw [hl] at rel
    cases hl' : m'.loop? k with
    | none => exact .inl ⟨rfl, rfl⟩
    | some l' => rw [hl'] at rel; cases rel
  | some l =>
    rw [hl] at rel
    cases hl' : m'.loop? k with
    | none => rw [hl'] at rel; cases rel
    | some l' =>
      rw [hl'] at rel
      cases rel with
      | some alike => exact .inr ⟨l, l', rfl, rfl, alike⟩

theorem exists_alike (h : Paired gap past m m') {k : LoopId} {l : Loop} (hl : m.loop? k = some l) :
    ∃ l', m'.loop? k = some l' ∧ l.Alike gap l' := by
  rcases h.found k with ⟨gone, -⟩ | ⟨x, l', hx, hl', alike⟩
  · rw [hl] at gone
    cases gone
  · rw [hl] at hx
    exact ⟨l', hl', Option.some.inj hx ▸ alike⟩

theorem holds (h : Paired gap past m m') (a : Handle) : m'.holds a = m.holds a := by
  have loops : m'.loops.any (fun l => l.any (loopHolds a)) = m.loops.any (fun l => l.any (loopHolds a)) := by
    have rel := h.loops
    revert rel
    generalize m.loops = xs
    generalize m'.loops = ys
    intro rel
    induction rel with
    | nil => rfl
    | cons hl _ ih =>
      rw [List.any_cons, List.any_cons, ih]
      cases hl with
      | none => rfl
      | some alike => rw [Option.any_some, Option.any_some, alike.loopHolds]
  have rest : m'.control = m.control ∧ m'.vars = m.vars ∧ m'.stack = m.stack ∧ m'.objects = m.objects :=
    ⟨h.control, h.vars, h.stack, h.objects⟩
  unfold Machine.holds
  rw [loops, rest.1, rest.2.1, rest.2.2.1, rest.2.2.2]

-- What is done to both

theorem of_eq (h : Paired gap past m m') (same : n' = { n with loops := n'.loops }) (loops : n.loops = m.loops)
    (loops' : n'.loops = m'.loops) (pairs : n.pairs = m.pairs) : Paired gap past n n' where
  same := same
  loops := by rw [loops, loops']; exact h.loops
  placed k l hl := h.placed k l (by rw [loop?, ← loops]; exact hl)
  pairs := pairs ▸ h.pairs

theorem modifyLoop (h : Paired gap past m m') (k : LoopId) {f f' : Loop → Loop}
    (alike : ∀ l l', m.loop? k = some l → m'.loop? k = some l' → l.Alike gap l' → (f l).Alike gap (f' l'))
    (id : ∀ l, m.loop? k = some l → (f l).id = l.id) :
    Paired gap past (m.modifyLoop k f) (m'.modifyLoop k f') where
  same := by rw [h.same]; rfl
  loops := by
    -- the place of the loop is the only one that is changed
    rcases h.found k with ⟨hl, hl'⟩ | ⟨l, l', hl, hl', hall⟩
    · rw [modifyLoop_of_gone hl, modifyLoop_of_gone hl']
      exact h.loops
    · have replaced : ∀ a b, Option.Rel (Loop.Alike gap) a b →
          Option.Rel (Loop.Alike gap) (a.map fun _ => f l) (b.map fun _ => f' l') := by
        intro a b hab
        cases hab with
        | none => exact .none
        | some _ => exact .some (alike l l' hl hl' hall)
      have id' : l'.id = k := hall.id.trans (h.placed k l hl)
      rw [modifyLoop_of_found f hl ((id l hl).trans (h.placed k l hl))]
      have found' : m'.modifyLoop k f' = m'.modifyLoop k fun _ => f' l' := by
        have place : m'.loops[k.number]? = some (some l') := Option.join_eq_some_iff.mp hl'
        unfold Machine.modifyLoop
        congr 1
        refine List.ext_getElem? fun i => ?_
        rw [List.getElem?_modify, List.getElem?_modify]
        split
        · rename_i hi
          rw [← hi, place]
          rfl
        · rfl
      rw [found', setLoop, (id l hl).trans (h.placed k l hl)]
      exact forall₂_modify replaced h.loops k.number
  placed := h.placed.modifyLoop k id
  pairs := h.pairs

theorem setLoop (h : Paired gap past m m') {k : LoopId} {l x x' : Loop} (found : m.loop? k = some l)
    (alike : x.Alike gap x') (id : x.id = l.id) : Paired gap past (m.setLoop x) (m'.setLoop x') := by
  have place : x.id = k := id.trans (h.placed k l found)
  have place' : x'.id = k := alike.id.trans place
  rw [Machine.setLoop, Machine.setLoop, place, place']
  refine h.modifyLoop k (fun _ _ _ _ _ => alike) fun y hy => ?_
  rw [found] at hy
  rw [← Option.some.inj hy, id]

theorem drop (h : Paired gap past m m') (vs : List Value) :
    Paired gap past (Machine.drop vs m) (Machine.drop vs m') :=
  drop_lockstep (P := fun _ => True) (fun _ _ h => h.objects) (fun _ _ a h _ => h.holds a)
    (fun _ _ p h => h.modifyLoop p.home (fun _ _ _ _ alike => alike.release p.id) fun _ _ => rfl)
    (fun m m' o h => h.of_eq (by rw [h.same]) rfl rfl rfl) (fun _ _ _ _ _ _ _ => trivial) vs
    (fun _ _ _ _ => trivial) h

end Paired

-- ---------------------------------------------------------------------------
-- What is done to twins
-- ---------------------------------------------------------------------------

namespace Twins

theorem of_eq (h : Twins gap past m m') (same : n' = { n with loops := n'.loops }) (loops : n.loops = m.loops)
    (loops' : n'.loops = m'.loops) (pairs : n.pairs = m.pairs) (stack : n.stack = m.stack) :
    Twins gap past n n' :=
  ⟨h.toPaired.of_eq same loops loops' pairs, stack ▸ h.asks⟩

theorem signal (h : Twins gap past m m') (s : Signal) : Twins gap past (m.signal s) (m'.signal s) :=
  h.of_eq (by rw [h.same]; rfl) rfl rfl rfl rfl

theorem idle (h : Twins gap past m m') (a : Answer) :
    Twins gap past { m with control := .idle a } { m' with control := .idle a } :=
  h.of_eq (by rw [h.same]) rfl rfl rfl rfl

theorem willCall (h : Twins gap past m m') (f : Callable) (this : Value) (arguments : List Value) :
    Twins gap past (m.willCall f this arguments) (m'.willCall f this arguments) :=
  h.of_eq (by rw [h.same]; rfl) rfl rfl rfl rfl

theorem sweep (h : Twins gap past m m') (k : LoopId) (s : Sweep) :
    Twins gap past (m.sweep k s) (m'.sweep k s) := h.of_eq (by rw [h.same]; rfl) rfl rfl rfl rfl

/-- What is done to the pairs is done in both. -/
theorem withPairs (h : Twins gap past m m') {past' pairs : List Pair} (grown : past' <+: pairs) :
    Twins gap past' { m with pairs } { m' with pairs } :=
  ⟨⟨by rw [h.same], h.loops, h.placed, grown⟩, h.asks⟩

theorem push (h : Twins gap past m m') {f : Frame} (asks : f.Asks) :
    Twins gap past (m.push f) (m'.push f) where
  toPaired := h.toPaired.of_eq (by rw [h.same]; rfl) rfl rfl rfl
  asks := List.forall_mem_cons.mpr ⟨asks, h.asks⟩

theorem drop (h : Twins gap past m m') (vs : List Value) :
    Twins gap past (Machine.drop vs m) (Machine.drop vs m') :=
  ⟨h.toPaired.drop vs, by rw [stack_drop]; exact h.asks⟩

theorem drop_signal (h : Twins gap past m m') (vs : List Value) (s : Signal) :
    Twins gap past (Machine.drop vs (m.signal s)) (Machine.drop vs (m'.signal s)) := (h.signal s).drop vs

theorem traceEntry (h : Twins gap past m m') (e : Entry) :
    Twins gap past (m.traceEntry e) (m'.traceEntry e) := by
  have quiet : m'.isQuiet = m.isQuiet := by rw [Machine.isQuiet, Machine.isQuiet, h.stack]
  unfold Machine.traceEntry
  rw [quiet]
  split
  · exact h
  · exact h.of_eq (by rw [h.same]) rfl rfl rfl rfl

theorem modifyLoop (h : Twins gap past m m') (k : LoopId) {f : Loop → Loop}
    (alike : ∀ l l', l.Alike gap l' → (f l).Alike gap (f l')) (id : ∀ l, (f l).id = l.id) :
    Twins gap past (m.modifyLoop k f) (m'.modifyLoop k f) :=
  ⟨h.toPaired.modifyLoop k (fun l l' _ _ => alike l l') fun l _ => id l, h.asks⟩

theorem setLoop (h : Twins gap past m m') {k : LoopId} {l x x' : Loop} (found : m.loop? k = some l)
    (alike : x.Alike gap x') (id : x.id = l.id) : Twins gap past (m.setLoop x) (m'.setLoop x') :=
  ⟨h.toPaired.setLoop found alike id, h.asks⟩

end Twins

end Machine
end PromiseLoop

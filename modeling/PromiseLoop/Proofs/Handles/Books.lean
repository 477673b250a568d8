import PromiseLoop.Proofs.Handles.Loops

/-!
# The books of a loop

While an operation runs, some values are under way: they have been taken from one place and not yet
been put in another.  The *books* of a loop account for all handles, those in the machine and those in
values under way.  They are balanced if the records of the loop, the handles on its promises, and the
ids that are released agree as in a `Ledger`, and if the objects that exist are those that have a
handle.  Every update of a machine keeps the books, as long as it is told which values it puts in and
which it takes out.

## Results

* `Machine.Books.setLoop`, `Machine.Books.newPromise`, `Machine.Books.freed`: changes of a loop.
* `Machine.Books.drop`: letting values go that are under way.
-/

namespace PromiseLoop

-- ---------------------------------------------------------------------------
-- Releases under way
-- ---------------------------------------------------------------------------

/-- The releases of a loop that a frame has still to look at. -/
def Frame.pendingOf (loop : LoopId) : Frame → List PromiseId
  | .collecting l s _ => if l = loop then s.pending else []
  | _ => []

/-- The releases of a loop that the control has still to look at. -/
def Control.pendingOf (loop : LoopId) : Control → List PromiseId
  | .collect l s => if l = loop then s.pending else []
  | _ => []

/-- The loop that takes what a frame holds when the frame goes on. -/
def Frame.anchor? : Frame → Option LoopId
  | .resolving p _ => some p.home
  | .attaching derived _ => some derived.home
  | _ => none

namespace Machine

/-- The releases of a loop that begun collections have still to look at. -/
def pendingOf (m : Machine) (loop : LoopId) : List PromiseId := m.stack.flatMap (Frame.pendingOf loop)

-- ---------------------------------------------------------------------------
-- Handles in a machine
-- ---------------------------------------------------------------------------

/-- The values that a machine holds apart from its control. -/
def kept (m : Machine) : List Value :=
  m.vars.held ++ (m.heldByStack ++ (m.heldByLoops ++ m.heldByObjects))

/-- Whether a handle is there, in a machine or in values under way. -/
def Has (m : Machine) (extra : List Value) (a : Handle) : Prop :=
  a ∈ handles m.kept ∨ a ∈ handles extra

variable {m m' : Machine} {k : LoopId} {extra extra' : List Value} {due due' : List PromiseId}

/-- Between operations the values under way are those of the control. -/
theorem has_control_held_iff (a : Handle) : m.Has m.control.held a ↔ a ∈ handles m.held := by
  simp only [Has, kept, held, handles_append, List.mem_append]
  grind

theorem has_control_held (a : Handle) : m.Has m.control.held a ↔ m.holds a = true := by
  rw [has_control_held_iff, holds_eq_any_held, any_has_iff]

theorem mem_kept {a : Handle} : a ∈ handles m.kept ↔
    a ∈ handles m.vars.held ∨ a ∈ handles m.heldByStack ∨ a ∈ handles m.heldByLoops ∨
      a ∈ handles m.heldByObjects := by
  simp [kept]

@[simp] theorem has_push (f : Frame) (a : Handle) :
    (m.push f).Has extra a ↔ m.Has (f.held ++ extra) a := by
  simp only [Has, mem_kept, push, heldByStack, heldByLoops, heldByObjects, List.flatMap_cons,
    handles_append, List.mem_append]
  grind

theorem pendingOf_push (f : Frame) :
    (m.push f).pendingOf k = f.pendingOf k ++ m.pendingOf k := List.flatMap_cons

theorem has_append (vs ws : List Value) (a : Handle) :
    m.Has (vs ++ ws) a ↔ a ∈ handles vs ∨ m.Has ws a := by
  simp only [Has, handles_append, List.mem_append]
  grind

/-- What a machine holds is what one loop holds and what the rest does. -/
theorem exists_others {j : LoopId} {l : Loop} (hl : m.loop? j = some l) :
    ∃ others : List Handle, ∀ a, (a ∈ handles m.kept ↔ a ∈ others ∨ a ∈ handles l.held) ∧
      (∀ f : Loop → Loop,
        a ∈ handles (m.modifyLoop j f).kept ↔ a ∈ others ∨ a ∈ handles (f l).held) ∧
      (a ∈ handles ({ m with loops := m.loops.modify j.number fun _ => none } : Machine).kept ↔
        a ∈ others) := by
  have found : m.loops[j.number]? = some (some l) := by
    unfold loop? at hl
    cases hn : m.loops[j.number]? with
    | none => rw [hn] at hl; cases hl
    | some x => rw [hn] at hl; exact congrArg some hl
  let inside (x : Option Loop) : List Handle := handles ((x.map Loop.held).getD [])
  have loops (m : Machine) : handles m.heldByLoops = m.loops.flatMap inside := handles_flatMap ..
  obtain ⟨others, split⟩ := mem_flatMap_modify found inside
  refine ⟨others ++ handles (m.vars.held ++ (m.heldByStack ++ m.heldByObjects)), fun a =>
    ⟨?_, fun f => ?_, ?_⟩⟩
  · rw [mem_kept, loops, (split a).1]
    simp only [inside, handles_append, List.mem_append, Option.map_some, Option.getD_some]
    grind
  · have modified := (split a).2 (Option.map f)
    rw [mem_kept, loops]
    simp only [modifyLoop, heldByStack, heldByObjects] at modified ⊢
    rw [modified]
    simp only [inside, handles_append, List.mem_append, Option.map_some, Option.getD_some]
    grind
  · have removed := (split a).2 fun _ => none
    rw [mem_kept, loops]
    simp only [heldByStack, heldByObjects] at removed ⊢
    rw [removed]
    simp only [inside, handles_append, List.mem_append, Option.map_none, Option.getD_none,
      handles_nil, List.not_mem_nil]
    grind

-- ---------------------------------------------------------------------------
-- Books
-- ---------------------------------------------------------------------------

/-- The parts of a machine are in order. -/
structure Tidy (m : Machine) : Prop where
  placed : m.Placed
  sound : ∀ j l, m.loop? j = some l → l.Sound
  objects : (m.objects.map Prod.fst).Nodup
  young : ∀ e ∈ m.objects, e.1.number < m.nextObject
  sorted : m.vars.entries.Pairwise fun a b => a.1 < b.1
  /-- The loops that begun activities hand values to are alive. -/
  anchored : ∀ f ∈ m.stack, ∀ j, f.anchor? = some j → ∃ l, m.loop? j = some l

/-- The books of a loop, where the values `extra` are under way and the releases `due` are still to be
looked at. -/
structure Books (m : Machine) (k : LoopId) (extra : List Value) (due : List PromiseId) : Prop where
  tidy : m.Tidy
  /-- Promises belong to loops that have been created. -/
  homed : ∀ p, m.Has extra (.promise p) → p.home.number < m.loops.length
  /-- An object is there as long as it has a handle. -/
  owned : ∀ o, m.Has extra (.object o) ↔ o ∈ m.objects.map Prod.fst
  begun : m.loops.length ≤ k.number → due ++ m.pendingOf k = []
  ledger : ∀ l, m.loop? k = some l → l.heap.slots.length < 2 ^ 32 →
    Ledger l.heap (fun p => p.home = k ∧ m.Has extra (.promise p)) (due ++ (m.pendingOf k ++ l.releases))

theorem Tidy.of_eq (h : m.Tidy) (loops : m'.loops = m.loops) (objects : m'.objects = m.objects)
    (nextObject : m'.nextObject = m.nextObject) (vars : m'.vars = m.vars)
    (stack : m'.stack ⊆ m.stack) : m'.Tidy where
  placed j l hl := h.placed j l (by rwa [loop?, loops] at hl)
  sound j l hl := h.sound j l (by rwa [loop?, loops] at hl)
  objects := objects ▸ h.objects
  young := by rw [objects, nextObject]; exact h.young
  sorted := vars ▸ h.sorted
  anchored f hf j hj := by
    rw [loop?, loops]
    exact h.anchored f (stack hf) j hj

theorem Tidy.push (h : m.Tidy) {f : Frame}
    (alive : ∀ j, f.anchor? = some j → ∃ l, m.loop? j = some l) : (m.push f).Tidy where
  placed := h.placed
  sound := h.sound
  objects := h.objects
  young := h.young
  sorted := h.sorted
  anchored g hg j hj := by
    rcases List.mem_cons.mp hg with rfl | hg
    · exact alive j hj
    · exact h.anchored g hg j hj

/-- Where neither loops nor collections change, only the handles matter. -/
theorem Books.of_promises (h : m.Books k extra due) (tidy : m'.Tidy) (loops : m'.loops = m.loops)
    (pending : m'.pendingOf k = m.pendingOf k)
    (same : ∀ p, m'.Has extra' (.promise p) ↔ m.Has extra (.promise p))
    (owned : ∀ o, m'.Has extra' (.object o) ↔ o ∈ m'.objects.map Prod.fst) :
    m'.Books k extra' due where
  tidy := tidy
  homed p hp := loops ▸ h.homed p ((same p).mp hp)
  owned := owned
  begun := by rw [loops, pending]; exact h.begun
  ledger l hl room := by
    rw [loop?, loops] at hl
    rw [pending]
    simpa only [same] using h.ledger l hl room

/-- Where no object comes or goes either, the handles have to be the same. -/
theorem Books.of_loops (h : m.Books k extra due) (tidy : m'.Tidy) (loops : m'.loops = m.loops)
    (objects : m'.objects.map Prod.fst = m.objects.map Prod.fst)
    (pending : m'.pendingOf k = m.pendingOf k) (same : ∀ a, m'.Has extra' a ↔ m.Has extra a) :
    m'.Books k extra' due :=
  h.of_promises tidy loops pending (fun p => same (.promise p)) fun o => by
    rw [same, objects]
    exact h.owned o

/-- The same handles may be under way in other values. -/
theorem Books.alike (h : m.Books k extra due) (same : ∀ a, m.Has extra' a ↔ m.Has extra a) :
    m.Books k extra' due := h.of_loops h.tidy rfl rfl rfl same

/-- Copies of values that the machine holds, or that are under way, may be under way as well. -/
theorem Books.copy (h : m.Books k extra due) {vs : List Value}
    (copied : ∀ a ∈ handles vs, m.Has extra a) : m.Books k (vs ++ extra) due :=
  h.alike fun a => by
    rw [has_append]
    exact ⟨fun ha => ha.elim (copied a) id, .inr⟩

/-- Values may be under way in any order, and those without a handle do not matter. -/
theorem Books.regroup (h : m.Books k extra due)
    (same : ∀ a, a ∈ handles extra' ↔ a ∈ handles extra) : m.Books k extra' due :=
  h.alike fun a => or_congr_right (same a)

/-- What the machine holds may be under way as well. -/
theorem Books.borrow (h : m.Books k extra due) {vs : List Value}
    (held : ∀ a ∈ handles vs, a ∈ handles m.kept) : m.Books k (vs ++ extra) due :=
  h.copy fun a ha => .inl (held a ha)

theorem Books.lend (h : m.Books k extra due) {v : Value}
    (held : ∀ a, v.handle? = some a → a ∈ handles m.kept) : m.Books k (v :: extra) due :=
  (show m.Books k ([v] ++ extra) due from h.borrow fun a ha => held a (by simpa using ha))

theorem Books.unlend {v : Value} (h : m.Books k (v :: extra) due)
    (held : ∀ a, v.handle? = some a → a ∈ handles m.kept) : m.Books k extra due :=
  h.alike fun a => by
    rw [← List.singleton_append, has_append]
    exact ⟨.inr, fun ha => ha.elim (fun hv => .inl (held a (by simpa using hv))) id⟩

/-- The control does not matter. -/
theorem Books.control (h : m.Books k extra due) (c : Control) :
    ({ m with control := c } : Machine).Books k extra due :=
  h.of_loops (h.tidy.of_eq rfl rfl rfl rfl (List.Subset.refl _)) rfl rfl rfl fun _ => Iff.rfl

theorem Books.signal (h : m.Books k extra due) (s : Signal) : (m.signal s).Books k extra due :=
  h.control _

theorem Books.trace (h : m.Books k extra due) (es : List Entry) :
    ({ m with trace := es } : Machine).Books k extra due :=
  h.of_loops (h.tidy.of_eq rfl rfl rfl rfl (List.Subset.refl _)) rfl rfl rfl fun _ => Iff.rfl

theorem Books.traceEntry (h : m.Books k extra due) (e : Entry) :
    (m.traceEntry e).Books k extra due := by
  unfold Machine.traceEntry
  split
  · exact h
  · exact h.trace _

/-- A frame takes the values that it holds. -/
theorem Books.push_anchored {f : Frame} (h : m.Books k (f.held ++ extra) due)
    (hf : f.pendingOf k = []) (alive : ∀ j, f.anchor? = some j → ∃ l, m.loop? j = some l) :
    (m.push f).Books k extra due :=
  h.of_loops (h.tidy.push alive) rfl rfl (by simp [pendingOf, Machine.push, hf]) fun a => has_push f a

theorem Books.push {f : Frame} (h : m.Books k (f.held ++ extra) due) (hf : f.pendingOf k = [])
    (free : f.anchor? = none) : (m.push f).Books k extra due :=
  h.push_anchored hf fun j hj => absurd (free.symm.trans hj) (Option.some_ne_none j).symm

/-- The frame of a collection takes the releases that it has still to look at as well. -/
theorem Books.push_due {f : Frame} (h : m.Books k (f.held ++ extra) (f.pendingOf k))
    (free : f.anchor? = none) : (m.push f).Books k extra [] where
  tidy := h.tidy.push fun j hj => absurd (free.symm.trans hj) (Option.some_ne_none j).symm
  homed p hp := h.homed p ((has_push f _).mp hp)
  owned o := (has_push f _).trans (h.owned o)
  begun := by simpa [pendingOf, Machine.push] using h.begun
  ledger l hl room := by
    simpa only [has_push, pendingOf_push, List.nil_append, List.append_assoc] using h.ledger l hl room

theorem Books.pop_due {f : Frame} {rest : List Frame} (h : m.Books k extra [])
    (hs : m.stack = f :: rest) :
    ({ m with stack := rest } : Machine).Books k (f.held ++ extra) (f.pendingOf k) := by
  have has (a : Handle) : ({ m with stack := rest } : Machine).Has (f.held ++ extra) a ↔
      m.Has extra a := by
    rw [← has_push, Machine.push, ← hs]
  have fewer : rest ⊆ m.stack := hs ▸ List.subset_cons_self f rest
  refine ⟨h.tidy.of_eq rfl rfl rfl rfl fewer, fun p hp => h.homed p ((has _).mp hp),
    fun o => (has _).trans (h.owned o), ?_, ?_⟩
  · simpa [pendingOf, hs] using h.begun
  · intro l hl room
    simpa [pendingOf, hs, has] using h.ledger l hl room

-- ---------------------------------------------------------------------------
-- Changes of a loop
-- ---------------------------------------------------------------------------

variable {l l' : Loop}

/-- A loop that is put back exchanges what it has taken for what it gives. -/
theorem has_setLoop (taken given extra : List Value) (hl : m.loop? l.id = some l)
    (id : l'.id = l.id) (held : ∀ a, (a ∈ handles l'.held ∨ a ∈ handles given) ↔
      (a ∈ handles l.held ∨ a ∈ handles taken)) (a : Handle) :
    (m.setLoop l').Has (given ++ extra) a ↔ m.Has (taken ++ extra) a := by
  obtain ⟨others, split⟩ := exists_others hl
  have before := (split a).1
  have after : a ∈ handles (m.setLoop l').kept ↔ a ∈ others ∨ a ∈ handles l'.held := by
    rw [Machine.setLoop, id]
    exact (split a).2.1 _
  have exchanged := held a
  simp only [Has, handles_append, List.mem_append, before, after]
  grind

theorem Tidy.setLoop (h : m.Tidy) (hl : m.loop? l.id = some l) (id : l'.id = l.id)
    (sound : l'.Sound) : (m.setLoop l').Tidy where
  placed := h.placed.setLoop hl id
  sound j x hx := by
    by_cases hj : l'.id = j
    · subst hj
      rw [loop?_setLoop (id ▸ hl)] at hx
      exact Option.some.inj hx ▸ sound
    · exact h.sound j x (by rwa [Machine.setLoop, loop?_modifyLoop_of_ne m hj] at hx)
  objects := h.objects
  young := h.young
  sorted := h.sorted
  anchored f hf j hj := by
    obtain ⟨x, hx⟩ := h.anchored f hf j hj
    by_cases hj : l'.id = j
    · subst hj
      exact ⟨l', loop?_setLoop hx⟩
    · exact ⟨x, by rwa [Machine.setLoop, loop?_modifyLoop_of_ne m hj]⟩

/-- Changes of a loop keep the books if they keep its ledger. -/
theorem Books.of_setLoop (h : m.Books k extra due) (hl : m.loop? l.id = some l) (id : l'.id = l.id)
    (sound : l'.Sound) (homed : ∀ p, (m.setLoop l').Has extra' (.promise p) →
      p.home.number < m.loops.length)
    (owned : ∀ o, (m.setLoop l').Has extra' (.object o) ↔ m.Has extra (.object o))
    (other : l.id ≠ k → due' = due ∧
      ∀ p, p.home = k → ((m.setLoop l').Has extra' (.promise p) ↔ m.Has extra (.promise p)))
    (own : l.id = k → l'.heap.slots.length < 2 ^ 32 →
      Ledger l'.heap (fun p => p.home = k ∧ (m.setLoop l').Has extra' (.promise p))
        (due' ++ (m.pendingOf k ++ l'.releases))) : (m.setLoop l').Books k extra' due' := by
  have size : (m.setLoop l').loops.length = m.loops.length := List.length_modify ..
  refine ⟨h.tidy.setLoop hl id sound, fun p hp => size ▸ homed p hp,
    fun o => (owned o).trans (h.owned o), fun hk => ?_, fun x hx room => ?_⟩
  · -- the loop has been created
    have created := number_lt_of_loop? hl
    have hne : l.id ≠ k := fun e => absurd (e ▸ created) (Nat.not_lt.mpr (size ▸ hk))
    rw [(other hne).1]
    exact h.begun (size ▸ hk)
  · by_cases hk : l.id = k
    · rw [← hk, loop?_setLoop_self hl id] at hx
      obtain rfl := Option.some.inj hx
      exact own hk room
    · obtain ⟨rfl, same⟩ := other hk
      rw [Machine.setLoop, loop?_modifyLoop_of_ne m (id ▸ hk)] at hx
      exact (h.ledger x hx room).congr (fun _ => Iff.rfl) (fun a => and_congr_right (same a)) (.refl _)

/-- A loop trades values. -/
theorem Books.setLoop {taken given : List Value} (h : m.Books k (taken ++ extra) due)
    (hl : m.loop? l.id = some l) (ht : l.Trades l' taken given) :
    (m.setLoop l').Books k (given ++ extra) due := by
  have has := has_setLoop taken given extra hl ht.id ht.held
  refine h.of_setLoop hl ht.id ht.sound (fun p hp => h.homed p ((has _).mp hp)) (fun _ => has _)
    (fun _ => ⟨rfl, fun _ _ => has _⟩) fun hk room => ?_
  rw [ht.releases]
  exact (h.ledger l (hk ▸ hl) (Nat.lt_of_le_of_lt ht.slots room)).congr ht.live
    (fun _ => and_congr_right fun _ => has _) (.refl _)

/-- A loop changes without taking or giving anything. -/
theorem Books.update (h : m.Books k extra due) (hl : m.loop? l.id = some l)
    (ht : l.Trades l' [] []) : (m.setLoop l').Books k extra due :=
  (show m.Books k ([] ++ extra) due from h).setLoop hl ht

theorem Books.sound (h : m.Books k extra due) {j : LoopId} (hl : m.loop? j = some l) : l.Sound :=
  h.tidy.sound j l hl

theorem Books.loop?_id (h : m.Books k extra due) {j : LoopId} (hl : m.loop? j = some l) :
    m.loop? l.id = some l := by
  rw [h.tidy.placed j l hl]
  exact hl

/-- A loop changes and gives back what it takes. -/
theorem Books.modifyLoop_lending {vs : List Value} (h : m.Books k (vs ++ extra) due) (id : LoopId)
    {f : Loop → Loop} (ht : ∀ {l : Loop}, l.Sound → l.Trades (f l) vs vs) :
    (m.modifyLoop id f).Books k (vs ++ extra) due := by
  cases hl : m.loop? id with
  | none => rwa [modifyLoop_of_gone hl]
  | some l =>
    obtain rfl := h.tidy.placed id l hl
    have trade := ht (h.sound hl)
    rw [modifyLoop_of_found f hl trade.id]
    exact h.setLoop hl trade

theorem Books.modifyLoop (h : m.Books k extra due) (id : LoopId) {f : Loop → Loop}
    (ht : ∀ {l : Loop}, l.Sound → l.Trades (f l) [] []) : (m.modifyLoop id f).Books k extra due :=
  (show m.Books k ([] ++ extra) due from h).modifyLoop_lending id ht

/-- A promise is created, and a handle on it is under way. -/
theorem Books.newPromise (h : m.Books k extra due) (hl : m.loop? l.id = some l) :
    (m.setLoop l.newPromise.2).Books k (.promise l.newPromise.1 :: extra) due := by
  have sound := h.tidy.sound _ l hl
  have has (a : Handle) : (m.setLoop l.newPromise.2).Has (.promise l.newPromise.1 :: extra) a ↔
      a = .promise l.newPromise.1 ∨ m.Has extra a := by
    have same := has_setLoop [] [] extra hl l.id_newPromise
      (fun a => or_congr_left (Loop.mem_handles_held_newPromise sound a)) a
    rw [show (Value.promise l.newPromise.1 :: extra) = [.promise l.newPromise.1] ++ extra from rfl,
      has_append]
    simp only [List.nil_append] at same
    rw [same]
    simp [eq_comm]
  have has' (p : Promise) : (m.setLoop l.newPromise.2).Has (.promise l.newPromise.1 :: extra) (.promise p) ↔
      p = l.newPromise.1 ∨ m.Has extra (.promise p) := (has _).trans (by simp)
  refine h.of_setLoop hl rfl sound.newPromise (fun p hp => ?_) (fun o => (has _).trans (by simp))
    (fun hk => ⟨rfl, fun p hp => ?_⟩) fun hk room => ?_
  · rcases (has' p).mp hp with rfl | hp
    · exact number_lt_of_loop? hl
    · exact h.homed p hp
  · -- the promise belongs to another loop
    rw [has']
    exact or_iff_right fun e => hk (by rw [← hp, e]; rfl)
  · obtain ⟨new, live⟩ := Loop.live_newPromise sound room
    have before := h.ledger l (hk ▸ hl) (Nat.lt_of_le_of_lt (Heap.slots_allocate ..) room)
    refine before.created new live fun q => ?_
    rw [has']
    constructor
    · rintro ⟨hq, rfl | hp⟩
      · exact .inl rfl
      · exact .inr ⟨hq, hp⟩
    · rintro (rfl | ⟨hq, hp⟩)
      · exact ⟨hk, .inl rfl⟩
      · exact ⟨hq, .inr hp⟩

/-- A record that has been released is freed, and what it held is under way. -/
theorem Books.freed {id : PromiseId} {rest : List PromiseId} {r : Record}
    (h : m.Books k extra (if l.id = k then id :: rest else due)) (hl : m.loop? l.id = some l)
    (hf : l.free? id = some (r, l')) :
    (m.setLoop l').Books k (r.held ++ extra) (if l.id = k then rest else due) := by
  have sound := h.tidy.sound _ l hl
  have free := Loop.frees_of_free? sound hf
  have has := has_setLoop [] r.held extra hl free.id
    fun a => (free.held a).trans (by simp)
  refine h.of_setLoop hl free.id free.sound (fun p hp => h.homed p ((has _).mp hp)) (fun _ => has _)
    (fun hk => ⟨by rw [if_neg hk, if_neg hk], fun _ _ => has _⟩) fun hk room => ?_
  have before := h.ledger l (hk ▸ hl) (Nat.lt_of_le_of_lt free.slots room)
  rw [if_pos hk] at before ⊢
  rw [free.releases]
  rw [List.cons_append] at before
  exact (before.freed free.live).congr
    (fun _ => Iff.rfl) (fun _ => and_congr_right fun _ => has _) (.refl _)

/-- A collection takes over what has been released. -/
theorem Books.takeReleases (h : m.Books k extra due) (hl : m.loop? l.id = some l)
    (nothing : l.id = k → due = []) :
    (m.setLoop l.takeReleases.2).Books k extra (if l.id = k then l.releases else due) := by
  have sound := h.tidy.sound _ l hl
  have has (a : Handle) : (m.setLoop l.takeReleases.2).Has extra a ↔ m.Has extra a :=
    has_setLoop [] [] extra hl l.id_takeReleases (fun a => Iff.rfl) a
  refine h.of_setLoop hl rfl ⟨sound.wf, sound.valueless⟩ (fun p hp => h.homed p ((has _).mp hp))
    (fun _ => has _) (fun hk => ⟨if_neg hk, fun _ _ => has _⟩) fun hk room => ?_
  have before := h.ledger l (hk ▸ hl) room
  rw [nothing hk] at before
  rw [if_pos hk]
  refine before.congr (fun _ => Iff.rfl) (fun _ => and_congr_right fun _ => has _) ?_
  simpa [Loop.takeReleases] using List.perm_append_comm

end Machine
end PromiseLoop

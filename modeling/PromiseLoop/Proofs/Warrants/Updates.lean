import PromiseLoop.Proofs.Warrants.Basic

/-!
# How updates deal with warrants

While an operation runs, the warrant for a promise may be under way: it has been taken from the lock, a
job, a pair or a frame, and has not been handed on or used up yet.  `Machine.Warranted` says that every
loop is guarded when the warrant under way is counted in, and that no value has a mark that is not
known.  Here it is shown of every update of a machine that it keeps this, and what becomes of the
warrant under way.

## Results

* `Warranted.lock`, `Warranted.pop`, `Warranted.dequeue`, `Warranted.fire`: where warrants come from.
* `Warranted.settle`, `Warranted.adopt`, `Warranted.hand`, `Warranted.newPair`: where they go.
-/

namespace PromiseLoop.Machine

/-- Whether a promise of a loop is known. -/
def Knows (ks : List Mark) (k : LoopId) (p : Promise) : Prop := p.home = k ∧ ∃ g, ⟨p, g⟩ ∈ ks

/-- The marks of all values are known, and a loop is guarded if the warrant for `right` is counted in,
which is under way. -/
structure Warranted (m : Machine) (k : LoopId) (ks : List Mark) (right : Option Promise) : Prop where
  placed : m.Placed
  sound : ∀ j l, m.loop? j = some l → l.Sound
  vars : Known ks m.vars.held
  stack : Known ks m.heldByStack
  loops : ∀ j l, m.loop? j = some l → Known ks l.held
  objects : Known ks m.heldByObjects
  /-- An adoption waits in the queue of the loop that its promise belongs to. -/
  native : ∀ j l, m.loop? j = some l → ∀ p ∈ l.adoptions, p.home = j
  /-- A function with the mark of a pair belongs to that pair. -/
  fit : ∀ p n, ⟨p, some n⟩ ∈ ks → ∃ x, m.pairs[n]? = some x ∧ x.promise = p
  mine : ∀ p, right = some p → ∃ g, ⟨p, g⟩ ∈ ks
  homed : ∀ x ∈ ks, x.promise.home.number < m.loops.length
  paired : ∀ x ∈ m.pairs, x.promise.home.number < m.loops.length
  guarded : ∀ l, m.loop? k = some l → l.heap.slots.length < 2 ^ 32 →
    l.Guarded (Knows ks k) (right.toList ++ m.warrants l)

variable {m m' : Machine} {k : LoopId} {ks ks' : List Mark} {right : Option Promise} {l l' : Loop}
  {p : Promise} {v : Value} {vs : List Value}

namespace Warranted

-- ---------------------------------------------------------------------------
-- The scene
-- ---------------------------------------------------------------------------

/-- Changes that concern neither loops, frames nor pairs. -/
theorem of_eq (h : m.Warranted k ks right) (loops : m'.loops = m.loops) (stack : m'.stack = m.stack)
    (pairs : m'.pairs = m.pairs) (vars : Known ks m'.vars.held) (objects : Known ks m'.heldByObjects) :
    m'.Warranted k ks right := by
  have look (j : LoopId) : m'.loop? j = m.loop? j := by rw [loop?, loop?, loops]
  have warrants (l : Loop) : m'.warrants l = m.warrants l := by
    simp only [Machine.warrants, openPairs, resolutions, pairs, stack]
  refine ⟨fun j l hl => h.placed j l (look j ▸ hl), fun j l hl => h.sound j l (look j ▸ hl), vars, ?_,
    fun j l hl => h.loops j l (look j ▸ hl), objects, fun j l hl => h.native j l (look j ▸ hl),
    pairs ▸ h.fit, h.mine, loops ▸ h.homed, by rw [pairs, loops]; exact h.paired, fun l hl room => ?_⟩
  · rw [heldByStack, stack]
    exact h.stack
  · rw [warrants]
    exact h.guarded l (look k ▸ hl) room

/-- Changes of anything that neither holds values nor concerns warrants. -/
theorem of_same (h : m.Warranted k ks right) (loops : m'.loops = m.loops) (stack : m'.stack = m.stack)
    (pairs : m'.pairs = m.pairs) (vars : m'.vars = m.vars) (objects : m'.objects = m.objects) :
    m'.Warranted k ks right :=
  h.of_eq loops stack pairs (vars ▸ h.vars) (by rw [heldByObjects, objects]; exact h.objects)

theorem control (h : m.Warranted k ks right) (c : Control) :
    ({ m with control := c } : Machine).Warranted k ks right := h.of_same rfl rfl rfl rfl rfl

theorem signal (h : m.Warranted k ks right) (s : Signal) : (m.signal s).Warranted k ks right :=
  h.control _

theorem trace (h : m.Warranted k ks right) (es : List Entry) :
    ({ m with trace := es } : Machine).Warranted k ks right := h.of_same rfl rfl rfl rfl rfl

theorem traceEntry (h : m.Warranted k ks right) (e : Entry) :
    (m.traceEntry e).Warranted k ks right := by
  unfold Machine.traceEntry
  split
  · exact h
  · exact h.trace _

/-- The warrant under way lapses if the loop is gone. -/
theorem waive (h : m.Warranted k ks (some p)) (gone : m.loop? p.home = none) :
    m.Warranted k ks none :=
  { h with
    mine := fun _ hp => (nomatch hp)
    guarded := fun l hl room => (h.guarded l hl room).congr (fun _ => id) fun q home => by
      have ne : p ≠ q := fun e => by
        rw [e, home, h.placed k l hl, hl] at gone
        cases gone
      simp [ne] }

-- ---------------------------------------------------------------------------
-- Loops
-- ---------------------------------------------------------------------------

theorem loop?_id (h : m.Warranted k ks right) {j : LoopId} (hl : m.loop? j = some l) :
    m.loop? l.id = some l := by
  rw [h.placed j l hl]
  exact hl

/-- A warrant for a promise of one loop does not count for the promises of others. -/
theorem count_other {p q : Promise} {j : LoopId} (home : p.home = j) (hq : q.home ≠ j) :
    (some p).toList.count q = 0 := by
  have ne : p ≠ q := fun e => hq (e ▸ home)
  simp [ne]

/-- A loop is put back.  The other loops are still guarded, as long as their warrants stay as they are. -/
theorem of_setLoop {right' : Option Promise} (h : m.Warranted k ks right) (hl : m.loop? l.id = some l)
    (id : l'.id = l.id) (sound : l'.Sound) (more : ks ⊆ ks')
    (new : ∀ x ∈ ks', x ∈ ks ∨ x.pair = none ∧ x.promise.home = l.id) (held : Known ks' l'.held)
    (native : ∀ p ∈ l'.adoptions, p.home = l.id) (mine : ∀ p, right' = some p → ∃ g, ⟨p, g⟩ ∈ ks')
    (other : ∀ p, p.home ≠ l.id → right'.toList.count p = right.toList.count p)
    (own : l.id = k → l'.heap.slots.length < 2 ^ 32 →
      l'.Guarded (Knows ks' l.id) (right'.toList ++ m.warrants l')) :
    (m.setLoop l').Warranted k ks' right' := by
  have look {j : LoopId} {x : Loop} (hx : (m.setLoop l').loop? j = some x) :
      (j = l.id ∧ x = l') ∨ (j ≠ l.id ∧ m.loop? j = some x) := by
    by_cases hj : j = l.id
    · rw [hj, loop?_setLoop_self hl id] at hx
      exact .inl ⟨hj, (Option.some.inj hx).symm⟩
    · exact .inr ⟨hj, by rwa [Machine.setLoop, loop?_modifyLoop_of_ne m (id ▸ Ne.symm hj)] at hx⟩
  have size : (m.setLoop l').loops.length = m.loops.length := List.length_modify ..
  refine ⟨h.placed.setLoop hl id, fun j x hx => ?_, h.vars.mono more, h.stack.mono more,
    fun j x hx => ?_, h.objects.mono more, fun j x hx => ?_, fun p n hp => ?_, mine, fun x hx => ?_,
    size ▸ h.paired, fun x hx room => ?_⟩
  · rcases look hx with ⟨-, rfl⟩ | ⟨-, hx⟩
    · exact sound
    · exact h.sound j x hx
  · rcases look hx with ⟨-, rfl⟩ | ⟨-, hx⟩
    · exact held
    · exact (h.loops j x hx).mono more
  · rcases look hx with ⟨rfl, rfl⟩ | ⟨-, hx⟩
    · exact native
    · exact h.native j x hx
  · rcases new _ hp with hp | ⟨hp, -⟩
    · exact h.fit p n hp
    · cases hp
  · rw [size]
    rcases new _ hx with hx | ⟨-, hx⟩
    · exact h.homed x hx
    · exact hx ▸ number_lt_of_loop? hl
  · rcases look hx with ⟨rfl, rfl⟩ | ⟨hk, hx⟩
    · exact own rfl room
    · refine (h.guarded x hx room).congr (fun p held => ?_) fun p home => ?_
      · obtain ⟨home, g, hg⟩ := held
        exact ⟨home, g, (new _ hg).resolve_right fun e => hk (home.symm.trans e.2)⟩
      · rw [List.count_append, List.count_append]
        exact congrArg (· + _) (other p fun e => hk (by rw [← h.placed k x hx, ← home, e]))

/-- A loop is put back without any new promise or warrant. -/
theorem setLoop (h : m.Warranted k ks right) (hl : m.loop? l.id = some l) (hm : l.Mild l')
    (held : Known ks l'.held) : (m.setLoop l').Warranted k ks right := by
  refine h.of_setLoop hl hm.id (hm.sound (h.sound _ l hl)) (List.Subset.refl _) (fun _ => .inl) held
    (by rw [hm.adoptions]; exact h.native _ l hl) h.mine (fun _ _ => rfl) fun hk room => ?_
  subst hk
  have guarded := (h.guarded l hl (hm.slots ▸ room)).mild hm
  rwa [Machine.warrants, ← hm.adoptions] at guarded

theorem modifyLoop (h : m.Warranted k ks right) (id : LoopId) {f : Loop → Loop}
    (hm : ∀ l : Loop, l.Mild (f l)) (held : ∀ l : Loop, Known ks l.held → Known ks (f l).held) :
    (m.modifyLoop id f).Warranted k ks right := by
  cases hl : m.loop? id with
  | none => rwa [modifyLoop_of_gone hl]
  | some l =>
    obtain rfl := h.placed id l hl
    rw [modifyLoop_of_found f hl (hm l).id]
    exact h.setLoop hl (hm l) (held l (h.loops _ l hl))

theorem note (h : m.Warranted k ks right) (id : LoopId) {e : Loop → Event} :
    (m.modifyLoop id fun l => l.note (e l)).Warranted k ks right :=
  h.modifyLoop id (fun l => l.mild_note (e l)) fun _ held => held

/-- A promise is created. -/
theorem newPromise (h : m.Warranted k ks none) (hl : m.loop? l.id = some l) :
    (m.setLoop l.newPromise.2).Warranted k (⟨l.newPromise.1, none⟩ :: ks) none := by
  have sound := h.sound _ l hl
  have more : ks ⊆ ⟨l.newPromise.1, none⟩ :: ks := List.subset_cons_self ..
  refine h.of_setLoop hl rfl sound.newPromise more (fun x hx => ?_)
    (Loop.known_newPromise ((h.loops _ l hl).mono more)) (h.native _ l hl) (fun _ hp => (nomatch hp))
    (fun _ _ => rfl) fun hk room => ?_
  · rcases List.mem_cons.mp hx with rfl | hx
    · exact .inr ⟨rfl, rfl⟩
    · exact .inl hx
  · subst hk
    refine (h.guarded l hl (Nat.lt_of_le_of_lt (Heap.slots_allocate ..) room)).newPromise sound room
      fun p => ⟨fun ⟨home, g, hg⟩ => ?_, fun hp => ?_⟩
    · rcases List.mem_cons.mp hg with heq | hg
      · exact .inl (congrArg Mark.promise heq)
      · exact .inr ⟨home, g, hg⟩
    · rcases hp with rfl | ⟨home, g, hg⟩
      · exact ⟨rfl, none, List.mem_cons_self ..⟩
      · exact ⟨home, g, List.mem_cons_of_mem _ hg⟩

/-- The lock of a promise is taken, which issues a warrant. -/
theorem lock (h : m.Warranted k ks none) (hl : m.loop? l.id = some l) {accepted : Bool}
    (hp : ∃ g, ⟨p, g⟩ ∈ ks) (ht : l.lock p = .ok (accepted, l')) :
    (m.setLoop l').Warranted k ks (if accepted then some p else none) := by
  obtain ⟨r, hr, -, heq⟩ := Loop.lock_eq_ok.mp ht
  have home := (Loop.record_eq_ok.mp hr).1
  have held : Known ks l'.held := by
    rw [heq]
    exact Loop.known_of_heap (h.loops _ l hl) rfl rfl rfl
      (Loop.known_modify (h.loops _ l hl) _ _ known_nil fun _ _ => by simp [Record.held])
  cases accepted with
  | false => exact h.setLoop hl (Loop.mild_of_lock_refused ht) held
  | true =>
    have slots : l'.heap.slots.length = l.heap.slots.length := by
      rw [heq]
      exact Heap.slots_modify ..
    have adoptions : l'.adoptions = l.adoptions := by rw [heq]; rfl
    refine h.of_setLoop hl (Loop.id_lock ht) (Loop.trades_lock (h.sound _ l hl) ht).sound
      (List.Subset.refl _) (fun _ => .inl) held (by rw [adoptions]; exact h.native _ l hl)
      (fun q hq => Option.some.inj hq ▸ hp) (fun q hq => count_other home hq) fun hk room => ?_
    · subst hk
      have guarded := (h.guarded l hl (slots ▸ room)).lock ⟨home, hp⟩ ht
      rwa [Machine.warrants, ← adoptions] at guarded

/-- A promise is settled, which uses its warrant up. -/
theorem settle (h : m.Warranted k ks (some p)) (hl : m.loop? p.home = some l) {s : State}
    (hs : s ≠ .pending) (hv : v.Known ks) :
    (m.setLoop (l.settle p.id s v).1).Warranted k ks none := by
  have home := h.placed _ l hl
  rw [← home] at hl
  have adoptions : (l.settle p.id s v).1.adoptions = l.adoptions := by
    rcases Loop.settle_cases l p.id s v with heq | ⟨r, -, -, -, heq⟩
    · rw [heq]
    · rw [heq]
      simp [Loop.adoptions, List.filterMap_append, Job.warrant?]
  have slots := (Loop.trades_settle (h.sound _ l hl) p.id s v).slots
  refine h.of_setLoop hl (by simp) (Loop.trades_settle (h.sound _ l hl) p.id s v).sound
    (List.Subset.refl _) (fun _ => .inl) (Loop.known_settle (h.loops _ l hl) p.id s hv).1
    (by rw [adoptions]; exact h.native _ l hl) (fun _ hq => by cases hq)
    (fun q hq => (count_other home.symm hq).symm) fun hk room => ?_
  subst hk
  have guarded := (h.guarded l hl (Nat.lt_of_le_of_lt slots room)).settle
    ⟨home.symm, h.mine p rfl⟩ hs v
  rwa [Machine.warrants, ← adoptions] at guarded

/-- An adoption is queued, which takes the warrant over. -/
theorem adopt (h : m.Warranted k ks (some p)) (hl : m.loop? p.home = some l) {t : Value}
    (hv : Known ks [v, t]) (hp : ⟨p, none⟩ ∈ ks) :
    (m.setLoop (l.enqueue (.adoption p v t))).Warranted k ks none := by
  have home := h.placed _ l hl
  rw [← home] at hl
  have held : Known ks (l.enqueue (.adoption p v t)).held :=
    Loop.known_enqueue (h.loops _ l hl) (by simpa [Job.held, hp] using hv)
  have adoptions : (l.enqueue (.adoption p v t)).adoptions = l.adoptions ++ [p] :=
    Loop.adoptions_enqueue ..
  refine h.of_setLoop hl rfl ⟨(h.sound _ l hl).wf, (h.sound _ l hl).valueless⟩ (List.Subset.refl _)
    (fun _ => .inl) held (fun q hq => ?_) (fun _ hq => by cases hq)
    (fun q hq => (count_other home.symm hq).symm) fun hk room => ?_
  · rw [adoptions, List.mem_append, List.mem_singleton] at hq
    rcases hq with hq | rfl
    · exact h.native _ l hl q hq
    · exact home.symm
  · subst hk
    have same : l.Guarded (Knows ks l.id) _ := h.guarded l hl room
    have queued : (l.enqueue (.adoption p v t)).Guarded (Knows ks l.id) _ :=
      ⟨same.home, same.live, same.distinct, same.young, same.once, same.waits, same.locked⟩
    refine queued.congr (fun _ => id) fun q _ => ?_
    simp only [Machine.warrants, adoptions, List.count_append, Option.toList, List.count_nil]
    omega

/-- A job leaves the queue, and the warrant that it has is under way. -/
theorem dequeue (h : m.Warranted k ks none) (hl : m.loop? l.id = some l) {j : Job}
    (hd : l.dequeue? = some (j, l')) :
    (m.setLoop l').Warranted k ks j.warrant? ∧ Known ks j.held ∧
      ∀ p, j.warrant? = some p → p.home = l.id := by
  obtain ⟨⟨j', q⟩, hq, heq⟩ := Option.map_eq_some_iff.mp hd
  obtain ⟨rfl, rfl⟩ := Prod.mk.inj heq
  have entries := (Queue.dequeue?_eq_some_iff _ _ _).mp hq
  have job : Known ks j'.held := Loop.known_job (h.loops _ l hl) (by rw [entries]; simp)
  have adoptions : l.adoptions = j'.warrant?.toList ++ q.entries.filterMap Job.warrant? := by
    rw [Loop.adoptions, entries, List.filterMap_cons]
    cases j'.warrant? <;> rfl
  have own (p : Promise) (hp : j'.warrant? = some p) : p.home = l.id :=
    h.native _ l hl p (by rw [adoptions, hp]; exact List.mem_cons_self ..)
  refine ⟨?_, job, own⟩
  refine h.of_setLoop hl rfl ⟨(h.sound _ l hl).wf, (h.sound _ l hl).valueless⟩ (List.Subset.refl _)
    (fun _ => .inl) ?_ (fun p hp => ?_) (fun p hp => ?_) (fun p hp => ?_) fun hk room => ?_
  · have held := h.loops _ l hl
    rw [Loop.known_held, entries] at held
    rw [Loop.known_held]
    refine ⟨held.1, held.2.1, held.2.2.1, ?_⟩
    have rest := held.2.2.2
    simp only [List.flatMap_cons, known_append] at rest
    exact rest.2
  · exact h.native _ l hl p (by rw [adoptions]; exact List.mem_append_right _ hp)
  · -- the queue held the promise
    cases j' with
    | adoption p' thenable thenFunction =>
      cases hp
      exact ⟨none, by simpa using job _ (List.mem_cons_self ..)⟩
    | _ => cases hp
  · cases hw : j'.warrant? with
    | none => simp
    | some p' => exact count_other (own p' hw) hp
  · subst hk
    have same := h.guarded l hl room
    have taken : (Loop.note { l with microtasks := q } (.started j')).Guarded (Knows ks l.id) _ :=
      ⟨same.home, same.live, same.distinct, same.young, same.once, same.waits, same.locked⟩
    refine taken.congr (fun _ => id) fun p _ => ?_
    simp only [Machine.warrants, adoptions, Option.toList_none, List.nil_append, List.append_assoc]
    rfl

/-- A record is freed that belongs to no promise that is known. -/
theorem freed (h : m.Warranted k ks right) (hl : m.loop? l.id = some l) {id : PromiseId} {r : Record}
    (hf : l.free? id = some (r, l'))
    (loose : l.id = k → l.heap.slots.length < 2 ^ 32 → ∀ p, Knows ks k p → p.id ≠ id) :
    (m.setLoop l').Warranted k ks right := by
  have adoptions : l'.adoptions = l.adoptions := by
    obtain ⟨-, rfl⟩ := Loop.free?_eq_some.mp hf
    split
    · rw [Loop.report_eq]
      rfl
    · rfl
  have slots : l'.heap.slots.length = l.heap.slots.length := by
    rw [Loop.heap_free? hf]
    exact List.length_modify ..
  refine h.of_setLoop hl (Loop.id_free? hf) (Loop.frees_of_free? (h.sound _ l hl) hf).sound
    (List.Subset.refl _) (fun _ => .inl) (Loop.known_free? (h.loops _ l hl) hf).1
    (by rw [adoptions]; exact h.native _ l hl) h.mine (fun _ _ => rfl) fun hk room => ?_
  have found := h.guarded l (hk ▸ hl) (slots ▸ room)
  have guarded := found.freed hf (loose hk (slots ▸ room))
  rw [hk]
  rwa [Machine.warrants, ← adoptions] at guarded

-- ---------------------------------------------------------------------------
-- Letting values go
-- ---------------------------------------------------------------------------

theorem drop (h : m.Warranted k ks right) (vs : List Value) :
    (Machine.drop vs m).Warranted k ks right := by
  refine drop_induction (P := fun m => m.Warranted k ks right) (fun m p h => ?_)
    (fun m o ps m' h ht => ?_) vs m h
  · exact h.modifyLoop p.home (fun l => Loop.mild_of_heap rfl rfl rfl rfl) fun _ held => held
  · rw [eq_of_takeObject? ht]
    refine h.of_eq rfl rfl rfl h.vars (h.objects.subset fun v hv => ?_)
    obtain ⟨e, he, hv⟩ := List.mem_flatMap.mp hv
    exact List.mem_flatMap.mpr ⟨e, (List.mem_filter.mp he).1, hv⟩

-- ---------------------------------------------------------------------------
-- Frames
-- ---------------------------------------------------------------------------

theorem of_push {f : Frame} {right' : Option Promise} (h : m.Warranted k ks right)
    (held : Known ks f.held) (mine : ∀ p, right' = some p → ∃ g, ⟨p, g⟩ ∈ ks)
    (same : f.warrant?.toList ++ right'.toList = right.toList) :
    (m.push f).Warranted k ks right' where
  placed := h.placed
  sound := h.sound
  vars := h.vars
  stack := by
    rw [heldByStack, stack_push, List.flatMap_cons, known_append]
    exact ⟨held, h.stack⟩
  loops := h.loops
  objects := h.objects
  native := h.native
  fit := h.fit
  mine := mine
  homed := h.homed
  paired := h.paired
  guarded l hl room := by
    refine (h.guarded l hl room).congr (fun _ => id) fun q _ => ?_
    have pushed : (m.push f).resolutions = f.warrant?.toList ++ m.resolutions := by
      rw [resolutions, stack_push, List.filterMap_cons, resolutions]
      cases f.warrant? <;> rfl
    have same : (m.push f).openPairs = m.openPairs := rfl
    simp only [Machine.warrants, pushed, ‹_ = right.toList›.symm, same, List.count_append]
    omega

theorem push {f : Frame} (h : m.Warranted k ks right) (held : Known ks f.held)
    (hf : f.warrant? = none) : (m.push f).Warranted k ks right :=
  h.of_push held h.mine (by simp [hf])

/-- The frame of a resolution takes the warrant over. -/
theorem hand (h : m.Warranted k ks (some p)) (hv : v.Known ks) (hp : ⟨p, none⟩ ∈ ks) :
    (m.push (.resolving p v)).Warranted k ks none :=
  h.of_push (by simp [Frame.held, hv, hp]) (fun _ hq => by cases hq) rfl

/-- A frame is taken off the stack, and the warrant that it has is under way. -/
theorem pop {f : Frame} {rest : List Frame} (h : m.Warranted k ks none) (hs : m.stack = f :: rest) :
    ({ m with stack := rest } : Machine).Warranted k ks f.warrant? ∧ Known ks f.held := by
  have held := h.stack
  rw [heldByStack, hs, List.flatMap_cons, known_append] at held
  refine ⟨⟨h.placed, h.sound, h.vars, held.2, h.loops, h.objects, h.native, h.fit, fun p hp => ?_,
    h.homed, h.paired, fun l hl room => ?_⟩, held.1⟩
  · cases f with
    | resolving q v =>
      obtain rfl := Option.some.inj hp
      exact ⟨none, by simpa using held.1 (.promise q) (by simp [Frame.held])⟩
    | _ => cases hp
  · refine (h.guarded l hl room).congr (fun _ => id) fun q _ => ?_
    have popped : m.resolutions = f.warrant?.toList ++ rest.filterMap Frame.warrant? := by
      rw [resolutions, hs, List.filterMap_cons]
      cases f.warrant? <;> rfl
    have same : ({ m with stack := rest } : Machine).openPairs = m.openPairs := rfl
    have rest : ({ m with stack := rest } : Machine).resolutions = rest.filterMap Frame.warrant? := rfl
    simp only [Machine.warrants, popped, same, rest, List.count_append, Option.toList_none,
      List.count_nil]
    omega

-- ---------------------------------------------------------------------------
-- Pairs
-- ---------------------------------------------------------------------------

/-- A pair of one-shot functions takes the warrant over. -/
theorem newPair (h : m.Warranted k ks (some p)) :
    (m.newPair p).2.Warranted k (⟨p, some m.pairs.length⟩ :: ks) none := by
  have more : ks ⊆ ⟨p, some m.pairs.length⟩ :: ks := List.subset_cons_self ..
  obtain ⟨g₀, mine⟩ := h.mine p rfl
  have homed := h.homed _ mine
  have pairs : (m.newPair p).2.pairs = m.pairs ++ [{ promise := p }] := rfl
  refine ⟨h.placed, h.sound, h.vars.mono more, h.stack.mono more, fun j l hl => (h.loops j l hl).mono more,
    h.objects.mono more, h.native, fun q n hq => ?_, fun _ hq => (nomatch hq), fun x hx => ?_,
    fun x hx => ?_, fun l hl room => ?_⟩
  · rw [pairs]
    rcases List.mem_cons.mp hq with heq | hq
    · cases heq
      exact ⟨{ promise := p }, by simp, rfl⟩
    · obtain ⟨x, hx, home⟩ := h.fit q n hq
      exact ⟨x, by rw [List.getElem?_append_left (List.getElem?_eq_some_iff.mp hx).1, hx], home⟩
  · rcases List.mem_cons.mp hx with rfl | hx
    · exact homed
    · exact h.homed x hx
  · rw [pairs, List.mem_append, List.mem_singleton] at hx
    rcases hx with hx | rfl
    · exact h.paired x hx
    · exact homed
  · refine (h.guarded l hl room).congr (fun q ⟨home, g, hg⟩ => ?_) fun q _ => ?_
    · rcases List.mem_cons.mp hg with heq | hg
      · cases heq
        exact ⟨home, g₀, mine⟩
      · exact ⟨home, g, hg⟩
    · have opened : (m.newPair p).2.openPairs = m.openPairs ++ [p] := by
        rw [openPairs, pairs, List.filterMap_append]
        rfl
      have same : (m.newPair p).2.resolutions = m.resolutions := rfl
      simp only [Machine.warrants, opened, same, List.count_append, Option.toList, List.count_nil]
      omega

/-- Using a pair up takes its warrant out of the list. -/
theorem count_filterMap_fire {xs : List Pair} {n : Nat} {x : Pair} (hx : xs[n]? = some x) (q : Promise) :
    (xs.filterMap Pair.warrant?).count q =
      x.warrant?.toList.count q +
        ((xs.modify n fun x => { x with fired := true }).filterMap Pair.warrant?).count q := by
  induction xs generalizing n with
  | nil => cases hx
  | cons y xs ih =>
    have head (z : Pair) (zs : List Pair) :
        ((z :: zs).filterMap Pair.warrant?).count q =
          z.warrant?.toList.count q + (zs.filterMap Pair.warrant?).count q := by
      rw [List.filterMap_cons]
      cases z.warrant? with
      | none => simp
      | some w => rw [← List.count_append]; rfl
    cases n with
    | zero =>
      obtain rfl : y = x := by simpa using hx
      rw [List.modify_zero_cons, head, head]
      simp [Pair.warrant?]
    | succ n =>
      rw [List.modify_succ_cons, head, head, ih (by simpa using hx)]
      omega

/-- A function of a pair uses the pair up, and the warrant that the pair has is under way. -/
theorem fire (h : m.Warranted k ks none) {n : Nat} (hp : ⟨p, some n⟩ ∈ ks) :
    ({ m with pairs := m.pairs.modify n fun pair => { pair with fired := true } } : Machine).Warranted k
      ks (if m.pairs[n]?.any (fun pair => !pair.fired) then some p else none) := by
  obtain ⟨x, hx, rfl⟩ := h.fit p n hp
  have right : (if m.pairs[n]?.any (fun pair => !pair.fired) then some x.promise else none) =
      x.warrant? := by
    rw [hx, Pair.warrant?, Option.any_some]
    cases x.fired <;> rfl
  rw [right]
  refine ⟨h.placed, h.sound, h.vars, h.stack, h.loops, h.objects, h.native, fun q i hq => ?_,
    fun q hq => ?_, h.homed, fun y hy => ?_, fun l hl room => ?_⟩
  · obtain ⟨y, hy, home⟩ := h.fit q i hq
    have look : (m.pairs.modify n fun pair => { pair with fired := true })[i]? =
        some (if n = i then { y with fired := true } else y) := by
      rw [List.getElem?_modify, hy]
      split <;> rfl
    refine ⟨_, look, ?_⟩
    split <;> exact home
  · unfold Pair.warrant? at hq
    split at hq
    · cases hq
    · exact ⟨_, Option.some.inj hq ▸ hp⟩
  · rcases Heap.mem_of_mem_modify hy with hy | ⟨z, hz, rfl⟩
    · exact h.paired y hy
    · exact h.paired z (List.mem_of_getElem? hz)
  · refine (h.guarded l hl room).congr (fun _ => id) fun q _ => ?_
    have fired := count_filterMap_fire hx q
    simp only [Machine.warrants, openPairs, resolutions, List.count_append, Option.toList_none,
      List.count_nil] at fired ⊢
    omega

-- ---------------------------------------------------------------------------
-- Opening and removing loops
-- ---------------------------------------------------------------------------

/-- A new loop has no promises yet, and so nobody has a warrant for one of them. -/
theorem openLoop (h : m.Warranted k ks none) (name : String) (config : Config) (tracker : Tracker)
    (bridge : Bridge) : (m.openLoop name config tracker bridge).Warranted k ks none := by
  have size : (m.openLoop name config tracker bridge).loops.length = m.loops.length + 1 := by
    simp [Machine.openLoop]
  have look {j : LoopId} {x : Loop} (hx : (m.openLoop name config tracker bridge).loop? j = some x) :
      (j.number = m.loops.length ∧ x = { id := j, config, tracker, bridge }) ∨ m.loop? j = some x := by
    rw [loop?_openLoop] at hx
    split at hx
    · exact .inl ⟨‹_›, (Option.some.inj hx).symm⟩
    · exact .inr hx
  refine ⟨fun j x hx => ?_, fun j x hx => ?_, h.vars, h.stack, fun j x hx => ?_, h.objects,
    fun j x hx => ?_, h.fit, h.mine, fun x hx => ?_, fun x hx => ?_, fun x hx room => ?_⟩
  · rcases look hx with ⟨-, rfl⟩ | hx
    · rfl
    · exact h.placed j x hx
  · rcases look hx with ⟨-, rfl⟩ | hx
    · exact Loop.sound_new ..
    · exact h.sound j x hx
  · rcases look hx with ⟨-, rfl⟩ | hx
    · simp [Loop.held, Heap.held, Heap.records, Heap.empty, Queue.empty]
    · exact h.loops j x hx
  · rcases look hx with ⟨-, rfl⟩ | hx
    · simp [Loop.adoptions]
    · exact h.native j x hx
  · exact size ▸ Nat.lt_succ_of_lt (h.homed x hx)
  · exact size ▸ Nat.lt_succ_of_lt (h.paired x hx)
  · rcases look hx with ⟨hk, rfl⟩ | hx
    · have unknown (p : Promise) (hp : Knows ks k p) : False := by
        obtain ⟨rfl, g, hg⟩ := hp
        exact absurd hk (Nat.ne_of_lt (h.homed _ hg))
      have unwarranted (p : Promise) (home : p.home = k) : p ∉ (m.openPairs ++ m.resolutions) := by
        intro hp
        rcases List.mem_append.mp hp with hp | hp
        · obtain ⟨x, hx, hw⟩ := List.mem_filterMap.mp hp
          unfold Pair.warrant? at hw
          split at hw
          · cases hw
          · have := h.paired x hx
            rw [Option.some.inj hw, home, hk] at this
            exact Nat.lt_irrefl _ this
        · obtain ⟨f, hf, hw⟩ := List.mem_filterMap.mp hp
          cases f with
          | resolving q v =>
            cases hw
            have held := h.stack (.promise p) (List.mem_flatMap.mpr ⟨_, hf, by simp [Frame.held]⟩)
            exact unknown p ⟨home, none, by simpa using held⟩
          | _ => cases hw
      have none (p : Promise) (home : p.home = k) :
          p ∉ (m.openLoop name config tracker bridge).warrants { id := k, config, tracker, bridge } :=
        unwarranted p home
      exact ⟨fun p hp => hp.1, fun p hp => (unknown p hp).elim, fun p _ hp => (unknown p hp).elim,
        fun p hp => hp.elim (fun hp => (unknown p hp).elim) fun hp => absurd hp.1 (none p hp.2),
        fun p home => Nat.le_of_lt_succ (Nat.lt_of_le_of_lt
          (Nat.le_of_eq (List.count_eq_zero.mpr (none p home))) (by decide)),
        fun p hp => (unknown p hp).elim, fun i r hr => by simp at hr⟩
    · exact h.guarded x hx room

theorem removeLoop (h : m.Warranted k ks right) (l : Loop) : (m.removeLoop l).Warranted k ks right := by
  refine Warranted.drop ?_ l.held
  have kept {j : LoopId} {x : Loop}
      (hx : ({ m with loops := m.loops.modify l.id.number fun _ => none } : Machine).loop? j = some x) :
      m.loop? j = some x := by
    rw [loop?_modify_none] at hx
    split at hx
    · cases hx
    · exact hx
  have size : (m.loops.modify l.id.number fun _ => none).length = m.loops.length :=
    List.length_modify ..
  exact ⟨fun j x hx => h.placed j x (kept hx), fun j x hx => h.sound j x (kept hx), h.vars, h.stack,
    fun j x hx => h.loops j x (kept hx), h.objects, fun j x hx => h.native j x (kept hx), h.fit, h.mine,
    fun x hx => size ▸ h.homed x hx, fun x hx => size ▸ h.paired x hx,
    fun x hx room => h.guarded x (kept hx) room⟩

-- ---------------------------------------------------------------------------
-- Variables, objects and completers
-- ---------------------------------------------------------------------------

theorem assign (h : m.Warranted k ks right) (name : String) (hv : v.Known ks) :
    (m.assign name v).Warranted k ks right := by
  have assigned : ({ m with vars := m.vars.assign name v } : Machine).Warranted k ks right :=
    h.of_eq rfl rfl rfl (fun w hw => by
      obtain ⟨e, he, rfl⟩ := List.mem_map.mp hw
      rcases Variables.mem_insert he with rfl | he
      · exact hv
      · exact h.vars _ (List.mem_map_of_mem he)) h.objects
  exact assigned.drop _

theorem removeVariable (h : m.Warranted k ks right) (name : String) :
    (m.removeVariable name).Warranted k ks right := by
  have removed : ({ m with vars := m.vars.remove name } : Machine).Warranted k ks right :=
    h.of_eq rfl rfl rfl (fun w hw => by
      obtain ⟨e, he, rfl⟩ := List.mem_map.mp hw
      exact h.vars _ (List.mem_map_of_mem (List.mem_filter.mp he).1)) h.objects
  exact removed.drop _

/-- Properties that are put on others are the only new ones. -/
theorem known_put {ps : Properties} (h : Known ks ps.held) (key : String) {q : Property}
    (hq : q.held.Known ks) : Known ks (ps.put key q).held := by
  obtain ⟨es⟩ := ps
  simp only [Properties.held, Properties.put] at h ⊢
  induction es with
  | nil => simpa [Properties.putEntry] using hq
  | cons e es ih =>
    obtain ⟨key', x⟩ := e
    simp only [List.map_cons, known_cons] at h
    unfold Properties.putEntry
    split
    · simpa [hq] using h.2
    · simpa [h.1] using ih h.2

theorem newObject (h : m.Warranted k ks right) {ps : Properties} (hps : Known ks ps.held) :
    (m.newObject ps).2.Warranted k ks right := by
  refine h.of_eq rfl rfl rfl h.vars ?_
  show Known ks (((⟨m.nextObject⟩, ps) :: m.objects).flatMap fun e => e.2.held)
  rw [List.flatMap_cons, known_append]
  exact ⟨hps, h.objects⟩

theorem replaceProperty (h : m.Warranted k ks right) (o : ObjectId) (key : String) {q : Property}
    (hq : q.held.Known ks) : (m.replaceProperty o key q).Warranted k ks right := by
  have put : (m.putProperty o key q).Warranted k ks right := by
    refine h.of_eq rfl rfl rfl h.vars fun w hw => ?_
    obtain ⟨e, he, hw⟩ := List.mem_flatMap.mp hw
    obtain ⟨x, hx, rfl⟩ := List.mem_map.mp he
    have held : Known ks x.2.held := h.objects.subset fun u hu => List.mem_flatMap.mpr ⟨x, hx, hu⟩
    split at hw
    · exact known_put held key hq w hw
    · exact held w hw
  exact put.drop _

theorem useCompleter (h : m.Warranted k ks right) (name : String) (result : WorkResult) :
    (m.useCompleter name result).Warranted k ks right := by
  unfold Machine.useCompleter
  cases hc : m.takeCompleter name with
  | none => exact h
  | some taken =>
    obtain ⟨e, -, rfl⟩ := Option.map_eq_some_iff.mp hc
    have other : ({ m with completers := m.completers.filter fun e => e.1 ≠ name } : Machine).Warranted k
        ks right := h.of_same rfl rfl rfl rfl rfl
    exact other.modifyLoop _ (fun l => Loop.mild_of_heap rfl rfl rfl rfl) fun _ held => held

theorem keepCompleter (h : m.Warranted k ks right) (name : String) (c : Completer) :
    (m.keepCompleter name c).Warranted k ks right :=
  (h.useCompleter name .abandoned).of_same rfl rfl rfl rfl rfl

-- ---------------------------------------------------------------------------
-- Looking values up
-- ---------------------------------------------------------------------------

theorem lookup? (h : m.Warranted k ks right) {name : String} (hv : m.vars.lookup? name = some v) :
    v.Known ks := by
  obtain ⟨e, he, rfl⟩ := Option.map_eq_some_iff.mp hv
  exact h.vars _ (List.mem_map_of_mem (List.mem_of_find?_eq_some he))

theorem property (h : m.Warranted k ks right) {o : ObjectId} {key : String} {q : Property}
    (hq : (m.properties o).lookup? key = some q) : q.held.Known ks := by
  obtain ⟨e, he, rfl⟩ := Option.map_eq_some_iff.mp hq
  have held : e.2.held ∈ (m.properties o).held :=
    List.mem_map_of_mem (List.mem_of_find?_eq_some he)
  unfold properties at held
  cases hx : m.objects.find? fun e => e.1 = o with
  | none =>
    rw [hx] at held
    cases held
  | some x =>
    rw [hx] at held
    exact h.objects _ (List.mem_flatMap.mpr ⟨x, List.mem_of_find?_eq_some hx, held⟩)

/-- The receiver and the arguments of the running body are held by the frame of its call. -/
theorem scope (h : m.Warranted k ks right) : Known ks (m.scope.1 :: m.scope.2) := by
  unfold Machine.scope
  generalize hf : m.stack.findSome? _ = found
  cases found with
  | none => simp
  | some scope =>
    obtain ⟨f, hmem, heq⟩ := List.exists_of_findSome?_eq_some hf
    split at heq
    · rw [← Option.some.inj heq]
      exact h.stack.subset fun v hv => List.mem_flatMap.mpr ⟨_, hmem, hv⟩
    · rw [← Option.some.inj heq]
      simp
    · cases heq

theorem evaluateIn (h : m.Warranted k ks right) {scope : Value × List Value}
    (inside : Known ks (scope.1 :: scope.2)) (x : Operand) : (m.evaluateIn scope x).Known ks := by
  match x with
  | .literal x => exact Value.known_of_isPlain x.isPlain
  | .variable name =>
    show ((m.vars.lookup? name).getD .undefined).Known ks
    cases hv : m.vars.lookup? name with
    | none => simp
    | some v => exact h.lookup? hv
  | .receiver => exact (known_cons.mp inside).1
  | .argument n =>
    show (scope.2[n]?.getD .undefined).Known ks
    cases hn : scope.2[n]? with
    | none => simp
    | some v => simpa using (known_cons.mp inside).2 v (List.mem_of_getElem? hn)
  | .round => exact Value.known_of_isPlain rfl

theorem evaluate (h : m.Warranted k ks right) (x : Operand) : (m.evaluate x).Known ks :=
  h.evaluateIn h.scope x

theorem evaluations (h : m.Warranted k ks right) (xs : List Operand) :
    Known ks (xs.map m.evaluate) := by
  intro v hv
  obtain ⟨x, -, rfl⟩ := List.mem_map.mp hv
  exact h.evaluate x

theorem initialProperties (h : m.Warranted k ks right) (ps : List (String × Operand)) :
    Known ks (m.initialProperties ps).held := by
  have fold (ps : List (String × Operand)) : ∀ acc : Properties, Known ks acc.held →
      Known ks (ps.foldl (fun acc e => acc.put e.1 (.data (m.evaluate e.2))) acc).held := by
    induction ps with
    | nil => exact fun _ hacc => hacc
    | cons e ps ih => exact fun acc hacc => ih _ (known_put hacc e.1 (h.evaluate e.2))
  exact fold ps .empty (by simp [Properties.held, Properties.empty])

end Warranted
end PromiseLoop.Machine

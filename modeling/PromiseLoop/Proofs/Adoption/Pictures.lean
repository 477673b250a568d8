import PromiseLoop.Proofs.Adoption.Webs
import PromiseLoop.Proofs.Drains
import PromiseLoop.Proofs.Scenes.Jobs

/-!
# Loops that picture webs

A loop pictures a web if the records of the promises are as the web says: each has settled or not, each
holds the reactions of those that wait for it, and every registration has an unused one-shot pair and a
fresh derived promise.  The operations of the loop then picture those of the web.

## Results

* `Pictures.settle`, `Pictures.register`: settling and registering, and what is enqueued.
-/

namespace PromiseLoop

variable {n : Nat}

namespace Phase

/-- Whether the promise has not been resolved. -/
def isFresh : Phase → Bool
  | fresh => true
  | _ => false

theorem isFresh_iff {x : Phase} : x.isFresh = true ↔ x = .fresh := by
  cases x <;> simp [isFresh]

def state : Phase → State
  | settled side _ => side.state
  | _ => .pending

def value? : Phase → Option Value
  | settled _ v => some v
  | _ => none

/-- Whether a promise may still register on another one. -/
def isUnlinked : Phase → Bool
  | fresh | asking => true
  | _ => false

variable (side : Side) (v : Value) (x : Phase)

@[simp] theorem link?_tell : (x.tell side v).link? = x.link? := by cases x <;> rfl
@[simp] theorem state_tell : (x.tell side v).state = x.state := by cases x <;> rfl
@[simp] theorem value?_tell : (x.tell side v).value? = x.value? := by cases x <;> rfl
@[simp] theorem isFresh_tell : (x.tell side v).isFresh = x.isFresh := by cases x <;> rfl
@[simp] theorem isUnlinked_tell : (x.tell side v).isUnlinked = x.isUnlinked := by cases x <;> rfl

end Phase

/-- The reaction by which a registration settles its promise. -/
def Link.reaction (link : Link) (p : Promise) (side : Side) : Reaction :=
  ⟨side, some (.function (p.oneShot link.guard side)), link.derived⟩

namespace Web

variable (w : Web n) (p : Fin n → Promise)

/-- The reaction of a promise that has registered. -/
def reaction (side : Side) (i : Fin n) : Reaction :=
  ((w.phase i).link?.getD default).reaction (p i) side

/-- The record of a promise whose lock has been taken or not, and that has been handled or not. -/
def record (i : Fin n) (locked handled : Bool) : Record where
  state := (w.phase i).state
  value := (w.phase i).value?
  fulfillReactions := (w.waiters i).map (w.reaction p .fulfill)
  rejectReactions := (w.waiters i).map (w.reaction p .reject)
  isHandled := handled
  alreadyResolved := locked

theorem record_congr {w w' : Web n} {i : Fin n} (state : (w'.phase i).state = (w.phase i).state)
    (value : (w'.phase i).value? = (w.phase i).value?) (waiters : w'.waiters i = w.waiters i)
    (links : ∀ j ∈ w.waiters i, (w'.phase j).link? = (w.phase j).link?) (locked handled : Bool) :
    w'.record p i locked handled = w.record p i locked handled := by
  have reactions : ∀ side, (w'.waiters i).map (w'.reaction p side) =
      (w.waiters i).map (w.reaction p side) := fun side => by
    rw [waiters]
    exact List.map_congr_left fun j hj => by rw [reaction, reaction, links j hj]
  simp only [record, state, value, reactions]

end Web

/-- Registering the two functions of a one-shot pair on a record makes a promise wait, or be told. -/
theorem Web.registered_record {w : Web n} (p : Fin n → Promise) {i j : Fin n} (ne : j ≠ i) (link : Link)
    (away : i ∉ w.waiters j) (locked handled : Bool) :
    (w.record p j locked handled).registered (some (.function ((p i).oneShot link.guard .fulfill)))
        (some (.function ((p i).oneShot link.guard .reject))) link.derived =
      (w.register i j link).record p j locked true ∧
    (w.record p j locked handled).reactionJob (some (.function ((p i).oneShot link.guard .fulfill)))
        (some (.function ((p i).oneShot link.guard .reject))) link.derived =
      match w.phase j with
      | .settled side v => some (.reaction (link.reaction (p i) side) v)
      | _ => none := by
  have other : ∀ x : Phase, Function.update w.phase i x j = w.phase j := fun x => Function.update_of_ne ne ..
  have links : ∀ x : Phase, ∀ a ∈ w.waiters j, (Function.update w.phase i x a).link? = (w.phase a).link? :=
    fun x a ha => by
      have apart : a ≠ i := fun e => away (e ▸ ha)
      rw [Function.update_of_ne apart]
  cases hp : w.phase j with
  | settled side v =>
    have registered : w.register i j link =
        { w with
          phase := Function.update w.phase i (.told link side v)
          queue := w.queue.erase i ++ [i] } := by
      unfold Web.register
      rw [hp]
    have phase : (w.register i j link).phase = Function.update w.phase i (.told link side v) := by
      rw [registered]
    have same : (w.register i j link).record p j locked true = w.record p j locked true :=
      record_congr p (by rw [phase, other]) (by rw [phase, other]) (by rw [registered])
        (fun a ha => by rw [phase, links _ a ha]) locked true
    constructor
    · rw [same]
      cases side <;> simp [Record.registered, record, hp, Phase.state, Side.state, Record.isPending]
    · cases side <;> simp [Record.reactionJob, record, hp, Phase.state, Side.state, Record.reason,
        Phase.value?, Link.reaction]
  | _ =>
    have registered : w.register i j link =
        { phase := Function.update w.phase i (.waiting link)
          waiters := Function.update w.waiters j (w.waiters j ++ [i]), queue := w.queue.erase i } := by
      unfold Web.register
      rw [hp]
    have reactions : ∀ side, (w.waiters j ++ [i]).map ((w.register i j link).reaction p side) =
        (w.waiters j).map (w.reaction p side) ++ [link.reaction (p i) side] := fun side => by
      rw [List.map_append, registered]
      refine congrArg₂ (· ++ ·) (List.map_congr_left fun a ha => ?_) ?_
      · rw [reaction, reaction]
        exact congrArg (fun x : Option Link => (x.getD default).reaction (p a) side) (links _ a ha)
      · simp [reaction, Phase.link?]
    refine ⟨?_, by simp [Record.reactionJob, record, hp, Phase.state]⟩
    have now : (w.register i j link).waiters j = w.waiters j ++ [i] := by
      rw [registered]
      exact Function.update_self ..
    have still : (w.register i j link).phase j = w.phase j := by
      rw [registered]
      exact other _
    simp only [record, now, still, reactions, hp]
    simp [Record.registered, Record.isPending, Phase.state, Record.addReaction, Link.reaction]

theorem Web.Sound.link?_settle {w : Web n} {fate : Fin n → Fate n} {i j : Fin n} (h : w.Sound fate)
    (side : Side) (v : Value) (hj : j ≠ i) :
    ((w.settle i side v).phase j).link? = (w.phase j).link? := by
  rw [h.phase_settle side v hj]
  split
  · rw [Phase.link?_tell]
  · rfl

theorem Web.Sound.of_link?_settle {w : Web n} {fate : Fin n → Fate n} {i j : Fin n} {side : Side}
    {v : Value} {link : Link} (h : w.Sound fate)
    (hl : ((w.settle i side v).phase j).link? = some link) : j ≠ i ∧ (w.phase j).link? = some link := by
  have hj : j ≠ i := fun e => by
    have self : (w.settle i side v).phase j = .settled side v := if_pos e
    rw [self] at hl
    cases hl
  exact ⟨hj, h.link?_settle side v hj ▸ hl⟩

/-- A loop and its one-shot pairs show how far the promises of a web have come, and the locks of their
records. -/
structure Pictures (k : LoopId) (p : Fin n → Promise) (l : Loop) (pairs : List Pair) (w : Web n)
    (locked : Fin n → Bool) : Prop where
  id : l.id = k
  native : l.bridge = .native
  wf : l.heap.Wf
  home : ∀ i, (p i).home = k
  inj : ∀ i j, (p i).id = (p j).id → i = j
  /-- There is an index left for every derived promise that is still to come. -/
  room : l.heap.slots.length + (Finset.univ.filter fun i => (w.phase i).isUnlinked).card ≤ 2 ^ 32
  records : ∀ i, ∃ handled, l.heap.get? (p i).id = some (w.record p i (locked i) handled)
  links : ∀ i link, (w.phase i).link? = some link →
    pairs[link.guard]? = some { promise := p i } ∧ link.derived.home = k ∧
      l.heap.get? link.derived.id = some .pending ∧ ∀ j, (p j).id ≠ link.derived.id
  apart : ∀ i j link link', (w.phase i).link? = some link → (w.phase j).link? = some link' → i ≠ j →
    link.derived.id ≠ link'.derived.id

namespace Pictures

variable {k : LoopId} {p : Fin n → Promise} {l l' : Loop} {pairs pairs' : List Pair} {w w' : Web n}
  {locked : Fin n → Bool} {fate : Fin n → Fate n} {i j : Fin n} {side : Side} {v : Value} {link : Link}

/-- What does not touch the records that are shown does not change the picture. -/
theorem of_look (h : Pictures k p l pairs w locked) (id : l'.id = l.id) (bridge : l'.bridge = l.bridge)
    (wf : l'.heap.Wf) (slots : l'.heap.slots.length = l.heap.slots.length)
    (records : ∀ i, l'.heap.get? (p i).id = l.heap.get? (p i).id)
    (derived : ∀ i link, (w.phase i).link? = some link →
      l'.heap.get? link.derived.id = l.heap.get? link.derived.id) :
    Pictures k p l' pairs w locked where
  id := id.trans h.id
  native := bridge.trans h.native
  wf := wf
  home := h.home
  inj := h.inj
  room := slots ▸ h.room
  records i := (h.records i).imp fun _ hr => (records i).trans hr
  links i link hl :=
    have ⟨guard, home, fresh, others⟩ := h.links i link hl
    ⟨guard, home, (derived i link hl).trans fresh, others⟩
  apart := h.apart

theorem of_heap (h : Pictures k p l pairs w locked) (heap : l'.heap = l.heap) (id : l'.id = l.id)
    (bridge : l'.bridge = l.bridge) : Pictures k p l' pairs w locked :=
  h.of_look id bridge (heap ▸ h.wf) (by rw [heap]) (fun _ => by rw [heap]) fun _ _ _ => by rw [heap]

theorem record_eq_ok (h : Pictures k p l pairs w locked) (i : Fin n) :
    ∃ handled, l.record (p i) = .ok (w.record p i (locked i) handled) := by
  obtain ⟨handled, hr⟩ := h.records i
  exact ⟨handled, Loop.record_eq_ok.mpr ⟨(h.home i).trans h.id.symm, hr⟩⟩

/-- The lock of a promise is taken. -/
theorem lock (h : Pictures k p l pairs w locked) (i : Fin n) :
    Pictures k p (Machine.locked l (p i)) pairs w (Function.update locked i true) where
  id := h.id
  native := h.native
  wf := h.wf.modify _ _
  home := h.home
  inj := h.inj
  room := by
    have same : (Machine.locked l (p i)).heap.slots.length = l.heap.slots.length :=
      List.length_modify ..
    rw [same]
    exact h.room
  records := fun j => by
    obtain ⟨handled, hr⟩ := h.records j
    refine ⟨handled, ?_⟩
    show (l.heap.modify (p i).id _).get? (p j).id = _
    rw [Heap.get?_modify_ite, hr]
    by_cases hj : j = i
    · subst hj
      rw [if_pos rfl, Function.update_self]
      rfl
    · rw [if_neg fun e => hj (h.inj _ _ e), Function.update_of_ne hj]
  links := fun j link hl => by
    obtain ⟨guard, home, fresh, other⟩ := h.links j link hl
    refine ⟨guard, home, ?_, other⟩
    show (l.heap.modify (p i).id _).get? link.derived.id = _
    rw [Heap.get?_modify_ite, if_neg (Ne.symm (other i)), fresh]
  apart := h.apart

/-- A promise starts to follow another one. -/
theorem ask (h : Pictures k p l pairs w locked) (fresh : w.phase i = .fresh) :
    Pictures k p l pairs (w.ask i) locked := by
  have self : (w.ask i).phase i = .asking := Function.update_self ..
  have other : ∀ j, j ≠ i → (w.ask i).phase j = w.phase j := fun j hj => Function.update_of_ne hj ..
  have links : ∀ j, ((w.ask i).phase j).link? = (w.phase j).link? := fun j => by
    by_cases hj : j = i
    · rw [hj, self, fresh]
      rfl
    · rw [other j hj]
  refine { h with room := ?_, records := fun j => ?_, links := fun j link hl => h.links j link (links j ▸ hl),
                  apart := fun j a link link' hj ha => h.apart j a link link' (links j ▸ hj) (links a ▸ ha) }
  · have same : (Finset.univ.filter fun j => ((w.ask i).phase j).isUnlinked) =
        Finset.univ.filter fun j => (w.phase j).isUnlinked := by
      refine Finset.filter_congr fun j _ => ?_
      by_cases hj : j = i
      · rw [hj, self, fresh]
        rfl
      · rw [other j hj]
    rw [same]
    exact h.room
  · obtain ⟨handled, hr⟩ := h.records j
    have state : ((w.ask i).phase j).state = (w.phase j).state := by
      by_cases hj : j = i
      · rw [hj, self, fresh]
        rfl
      · rw [other j hj]
    have value : ((w.ask i).phase j).value? = (w.phase j).value? := by
      by_cases hj : j = i
      · rw [hj, self, fresh]
        rfl
      · rw [other j hj]
    have same := Web.record_congr p state value rfl (fun a _ => links a) (locked j) handled
    exact ⟨handled, by rw [hr, same]⟩

/-- A promise settles, and the jobs of those that wait for it are enqueued. -/
theorem settle (h : Pictures k p l pairs w locked) (sound : w.Sound fate)
    (ready : (w.phase i).isWaiting = false) (unsettled : (w.phase i).isSettled = false) (side : Side)
    (v : Value)
    (kept : ∀ j link, j ≠ i → (w.phase j).link? = some link → pairs'[link.guard]? = pairs[link.guard]?) :
    Pictures k p (l.settle (p i).id side.state v).1 pairs' (w.settle i side v) locked ∧
      (l.settle (p i).id side.state v).1.microtasks.entries =
        l.microtasks.entries ++ (w.waiters i).map fun j => .reaction (w.reaction p side j) v := by
  obtain ⟨handled, hr⟩ := h.records i
  have pending : (w.record p i (locked i) handled).state = .pending := by
    show (w.phase i).state = _
    cases hp : w.phase i with
    | settled s x =>
      rw [hp] at unsettled
      cases unsettled
    | _ => rfl
  have fires : ((w.record p i (locked i) handled).released side.state).fire =
      (w.waiters i).map (w.reaction p side) := by
    cases side <;> rfl
  -- what becomes of the other promises
  have self : (w.settle i side v).phase i = .settled side v := if_pos rfl
  have other : ∀ j, j ≠ i → (w.settle i side v).phase j =
      if (w.phase j).isWaiting ∧ fate j = .follows i then (w.phase j).tell side v else w.phase j :=
    fun j hj => sound.phase_settle side v hj
  have links : ∀ j, j ≠ i → ((w.settle i side v).phase j).link? = (w.phase j).link? :=
    fun j hj => sound.link?_settle side v hj
  have unlinked : ∀ j link, ((w.settle i side v).phase j).link? = some link →
      j ≠ i ∧ (w.phase j).link? = some link := fun _ _ => sound.of_link?_settle
  have look := Loop.get?_settle hr pending side v
  refine ⟨⟨?_, ?_, ?_, h.home, h.inj, ?_, fun j => ?_, fun j link hl => ?_,
    fun j a link link' hj ha => h.apart j a link link' (unlinked j link hj).2 (unlinked a link' ha).2⟩, ?_⟩
  · rw [Loop.id_settle, h.id]
  · rw [Loop.bridge_settle, h.native]
  · exact Loop.wf_settle h.wf _ _ _
  · rw [Loop.slots_settle]
    refine Nat.le_trans (Nat.add_le_add_left (Finset.card_le_card fun j hj => ?_) _) h.room
    rw [Finset.mem_filter] at hj ⊢
    refine ⟨hj.1, ?_⟩
    have ne : j ≠ i := fun e => by
      rw [e, self] at hj
      cases hj.2
    rw [other j ne] at hj
    split at hj
    · rw [Phase.isUnlinked_tell] at hj
      exact hj.2
    · exact hj.2
  · rw [look]
    by_cases hj : j = i
    · subst hj
      refine ⟨handled, ?_⟩
      rw [if_pos rfl]
      simp [Web.record, Record.settled, Web.settle, Phase.state, Phase.value?]
    · obtain ⟨handled', hr'⟩ := h.records j
      refine ⟨handled', ?_⟩
      rw [if_neg fun e => hj (h.inj _ _ e), hr']
      refine congrArg some (Eq.symm (Web.record_congr p ?_ ?_ (Function.update_of_ne hj ..) (fun a ha => ?_) _ _))
      · rw [other j hj]
        split <;> simp
      · rw [other j hj]
        split <;> simp
      · refine links a fun e => ?_
        have waits := (sound.mem_waiters.mp ha).1
        rw [e, ready] at waits
        cases waits
  · obtain ⟨ne, hl⟩ := unlinked j link hl
    obtain ⟨guard, home, fresh, others⟩ := h.links j link hl
    refine ⟨(kept j link ne hl).trans guard, home, ?_, others⟩
    rw [look, if_neg (Ne.symm (others i)), fresh]
  · rw [Loop.entries_settle hr pending, fires]
    simp

theorem settledAs (h : Pictures k p l pairs w locked) (sound : w.Sound fate)
    (ready : (w.phase i).isWaiting = false) (unsettled : (w.phase i).isSettled = false) (side : Side)
    (v : Value)
    (kept : ∀ j link, j ≠ i → (w.phase j).link? = some link → pairs'[link.guard]? = pairs[link.guard]?) :
    Pictures k p (l.settledAs (p i) side v) pairs' (w.settle i side v) locked ∧
      (l.settledAs (p i) side v).microtasks.entries =
        l.microtasks.entries ++ (w.waiters i).map fun j => .reaction (w.reaction p side j) v := by
  cases side with
  | fulfill =>
    have asked := h.of_heap (l.heap_asked v) (l.id_asked v) (l.bridge_asked v)
    have settled := asked.settle sound ready unsettled .fulfill v kept
    rw [l.microtasks_asked v] at settled
    exact settled
  | reject => exact h.settle sound ready unsettled .reject v kept

/-- The derived promise of a registration that has been used is resolved, which nobody notices. -/
theorem resolved {d : Promise} (h : Pictures k p l pairs w locked)
    (fresh : l.heap.get? d.id = some .pending) (others : ∀ j, (p j).id ≠ d.id)
    (unused : ∀ j link, (w.phase j).link? = some link → link.derived.id ≠ d.id) :
    Pictures k p (l.resolved d .fulfill .undefined) pairs w locked ∧
      (l.resolved d .fulfill .undefined).microtasks.entries = l.microtasks.entries := by
  have taken : (Machine.locked l d).heap.get? d.id = some { Record.pending with alreadyResolved := true } := by
    show (l.heap.modify d.id _).get? d.id = _
    rw [Heap.get?_modify, fresh]
    rfl
  have look : ∀ id, id ≠ d.id → (l.resolved d .fulfill .undefined).heap.get? id = l.heap.get? id :=
    fun id hid => by
      refine (Loop.get?_settle taken rfl .fulfill .undefined id).trans ?_
      rw [if_neg hid]
      show (l.heap.modify d.id _).get? id = _
      rw [Heap.get?_modify_ite, if_neg hid]
  constructor
  · refine h.of_look ?_ ?_ (Loop.wf_settle (h.wf.modify _ _) _ _ _) ?_ (fun i => look _ (others i))
      fun i link hl => look _ (unused i link hl)
    · exact Loop.id_settle _ _ _ _
    · exact Loop.bridge_settle _ _ _ _
    · exact (Loop.slots_settle _ _ _).trans (List.length_modify ..)
  · refine (Loop.entries_settle taken rfl .fulfill .undefined).trans ?_
    exact List.append_nil _

/-- A promise registers on the one that it follows. -/
theorem register {r : Record} (h : Pictures k p l pairs w locked) (sound : w.Sound fate)
    (asking : w.phase i = .asking) (follows : fate i = .follows j) (hr : l.record (p j) = .ok r) :
    let link : Link := { guard := pairs.length, derived := l.newPromise.1 }
    Pictures k p (l.followed (p j) (p i) pairs.length r) (pairs ++ [{ promise := p i }])
        (w.register i j link) locked ∧
      (l.followed (p j) (p i) pairs.length r).microtasks.entries = l.microtasks.entries ++
        match w.phase j with
        | .settled side v => [.reaction (link.reaction (p i) side) v]
        | _ => [] := by
  intro link
  obtain ⟨handled, found⟩ := h.records j
  obtain rfl : r = w.record p j (locked j) handled :=
    Option.some.inj ((Loop.record_eq_ok.mp hr).2.symm.trans found)
  have ne : j ≠ i := sound.ne_of_asking asking follows
  -- the derived promise gets an id of its own
  have unlinked : i ∈ Finset.univ.filter fun a => (w.phase a).isUnlinked :=
    Finset.mem_filter.mpr ⟨Finset.mem_univ i, by rw [asking]; rfl⟩
  have more := Heap.slots_allocate_le l.heap .pending
  have room : (l.heap.allocate .pending).2.slots.length ≤ 2 ^ 32 := by
    have := Finset.card_pos.mpr ⟨i, unlinked⟩
    have := h.room
    omega
  obtain ⟨free, new⟩ := Heap.get?_allocate_self h.wf .pending room
  have apart : ∀ {id x}, l.heap.get? id = some x → id ≠ link.derived.id := fun hx e => by
    rw [e] at hx
    exact absurd (free.symm.trans hx) (by simp)
  -- what is found then
  have look : ∀ id, (l.followed (p j) (p i) pairs.length (w.record p j (locked j) handled)).heap.get? id =
      if id = (p j).id then some ((w.record p j (locked j) handled).registered
        (some (.function ((p i).oneShot pairs.length .fulfill)))
        (some (.function ((p i).oneShot pairs.length .reject))) link.derived)
      else (l.heap.allocate .pending).2.get? id := fun id => by
    rw [Loop.followed, Loop.chained, Loop.heap_endAttach]
    exact Loop.get?_registered (l := l.note _) h.wf found id
  have keep : ∀ {id x}, id ≠ (p j).id → l.heap.get? id = some x →
      (l.followed (p j) (p i) pairs.length (w.record p j (locked j) handled)).heap.get? id = some x :=
    fun hid hx => by rw [look, if_neg hid, Heap.get?_allocate_of_some h.wf .pending hx]
  -- what becomes of the web
  obtain ⟨x, phase, linked, linkless, state, value⟩ : ∃ x : Phase,
      (w.register i j link).phase = Function.update w.phase i x ∧ x.link? = some link ∧
        x.isUnlinked = false ∧ x.state = .pending ∧ x.value? = none := by
    unfold Web.register
    split <;> exact ⟨_, rfl, rfl, rfl, rfl, rfl⟩
  have self : (w.register i j link).phase i = x := by rw [phase, Function.update_self]
  have other : ∀ a, a ≠ i → (w.register i j link).phase a = w.phase a := fun a ha => by
    rw [phase, Function.update_of_ne ha]
  have waiters : ∀ a, a ≠ j → (w.register i j link).waiters a = w.waiters a := fun a ha => by
    unfold Web.register
    split
    · rfl
    · exact Function.update_of_ne ha ..
  have away : ∀ a, ∀ b ∈ w.waiters a, b ≠ i := fun a b hb e => by
    have waits := (sound.mem_waiters.mp hb).1
    rw [e, asking] at waits
    cases waits
  refine ⟨⟨?_, ?_, ?_, h.home, h.inj, ?_, fun a => ?_, fun a link' hl => ?_,
    fun a b link' link'' ha hb hab => ?_⟩, ?_⟩
  · exact (Loop.id_chained ..).trans h.id
  · exact (Loop.bridge_chained ..).trans h.native
  · rw [Loop.followed, Loop.heap_chained]
    exact (h.wf.allocate .pending).modify _ _
  · have fewer : (Finset.univ.filter fun a => ((w.register i j link).phase a).isUnlinked) =
        (Finset.univ.filter fun a => (w.phase a).isUnlinked).erase i := by
      ext a
      rw [Finset.mem_erase, Finset.mem_filter, Finset.mem_filter]
      by_cases ha : a = i
      · simp [ha, self, linkless]
      · simp [ha, other a ha]
    have size : (l.followed (p j) (p i) pairs.length
        (w.record p j (locked j) handled)).heap.slots.length =
          (l.heap.allocate .pending).2.slots.length := by
      rw [Loop.followed, Loop.heap_chained]
      exact List.length_modify ..
    rw [fewer, size, Finset.card_erase_of_mem unlinked]
    have := Finset.card_pos.mpr ⟨i, unlinked⟩
    have := h.room
    omega
  · by_cases ha : a = j
    · subst ha
      refine ⟨true, ?_⟩
      rw [look, if_pos rfl]
      exact congrArg some
        (Web.registered_record p ne link (fun hi => away a i hi rfl) (locked a) handled).1
    · obtain ⟨handled', hr'⟩ := h.records a
      refine ⟨handled', (keep (fun e => ha (h.inj _ _ e)) hr').trans (congrArg some ?_)⟩
      have states : ((w.register i j link).phase a).state = (w.phase a).state ∧
          ((w.register i j link).phase a).value? = (w.phase a).value? := by
        by_cases he : a = i
        · rw [he, self, asking, state, value]
          exact ⟨rfl, rfl⟩
        · rw [other a he]
          exact ⟨rfl, rfl⟩
      exact (Web.record_congr p states.1 states.2 (waiters a ha)
        (fun b hb => by rw [other b (away a b hb)]) _ _).symm
  · by_cases ha : a = i
    · subst ha
      rw [self, linked] at hl
      obtain rfl := Option.some.inj hl
      refine ⟨List.getElem?_concat_length .., h.id, ?_, fun b => ?_⟩
      · obtain ⟨handled', hr'⟩ := h.records j
        rw [look, if_neg (Ne.symm (apart hr'))]
        exact new
      · obtain ⟨handled', hr'⟩ := h.records b
        exact apart hr'
    · rw [other a ha] at hl
      obtain ⟨guard, home, fresh, others⟩ := h.links a link' hl
      refine ⟨?_, home, keep (Ne.symm (others j)) fresh, others⟩
      rw [List.getElem?_append_left (List.getElem?_eq_some_iff.mp guard).1]
      exact guard
  · -- an older registration has another derived promise
    have older : ∀ c, c ≠ i → ∀ x, ((w.register i j link).phase c).link? = some x →
        x.derived.id ≠ link.derived.id := fun c hc x hx =>
      apart (h.links c x (other c hc ▸ hx)).2.2.1
    by_cases hai : a = i
    · subst hai
      rw [self, linked] at ha
      obtain rfl := Option.some.inj ha
      exact (older b (Ne.symm hab) _ hb).symm
    · by_cases hbi : b = i
      · subst hbi
        rw [self, linked] at hb
        obtain rfl := Option.some.inj hb
        exact older a hai _ ha
      · exact h.apart a b link' link'' (other a hai ▸ ha) (other b hbi ▸ hb) hab
  · rw [Loop.followed, Loop.entries_chained]
    refine congrArg (l.microtasks.entries ++ ·) ?_
    refine (congrArg Option.toList
      (Web.registered_record p ne link (fun hi => away j i hi rfl) (locked j) handled).2).trans ?_
    cases w.phase j <;> rfl

end Pictures
end PromiseLoop

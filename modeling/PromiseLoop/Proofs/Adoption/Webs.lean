import PromiseLoop.Machine.Calls
import PromiseLoop.Proofs.Scenes.Promises

/-!
# Webs of promises that follow each other

Some promises of a loop are left alone, some are fulfilled or rejected, and some are resolved with another
one of them, which they then follow.  A *web* tells how far each of them has come: whether its adoption
waits to be run, where it has registered, and whether it has been told of a settlement.  What a host and a
drain do to the promises is done here to the web.

## Results

* `Fate.not_leads_of_untouched`, `Fate.not_leads_of_cycle`: what does not lead to a settlement.
* `Web.Sound.settle`, `Web.Sound.ask`, `Web.Sound.register`: what every operation keeps.
* `Web.Sound.settled_iff`: a web with nothing left to run has settled what leads to a settlement.
* `Web.Sound.cost_of_idle`: how many jobs have been run by then.
-/

namespace PromiseLoop

open Relation

-- ---------------------------------------------------------------------------
-- Fates
-- ---------------------------------------------------------------------------

/-- What the host does to one of `n` promises. -/
inductive Fate (n : Nat)
  | untouched
  | fulfilled (v : Value)
  | rejected (v : Value)
  /-- The promise is resolved with another one, or with itself. -/
  | follows (j : Fin n)
deriving DecidableEq

namespace Fate

variable {n : Nat}

/-- How a promise settles that does not follow another one. -/
def own? (i : Fin n) : Fate n → Option (Side × Value)
  | untouched => none
  | fulfilled v => some (.fulfill, v)
  | rejected v => some (.reject, v)
  | follows j => if j = i then some (.reject, Machine.cycleError) else none

/-- Whether a promise follows another one. -/
def isEdge (i : Fin n) : Fate n → Bool
  | follows j => j ≠ i
  | _ => false

theorem isEdge_iff {i : Fin n} {f : Fate n} : f.isEdge i = true ↔ ∃ j, f = .follows j ∧ j ≠ i := by
  cases f <;> simp [isEdge]

/-- The settlement that a promise leads to, by way of those that it follows, one after the other. -/
inductive Leads (fate : Fin n → Fate n) : Fin n → Side → Value → Prop
  | here {i : Fin n} {side : Side} {v : Value} (h : (fate i).own? i = some (side, v)) :
      Leads fate i side v
  | on {i j : Fin n} {side : Side} {v : Value} (h : fate i = .follows j) (ne : j ≠ i)
      (next : Leads fate j side v) : Leads fate i side v

variable {fate : Fin n → Fate n} {i j : Fin n} {side side' : Side} {v v' : Value}

theorem own?_eq_none_of_isEdge {f : Fate n} (h : f.isEdge i = true) : f.own? i = none := by
  obtain ⟨j, rfl, ne⟩ := isEdge_iff.mp h
  exact if_neg ne

theorem isEdge_of_own? {f : Fate n} (h : f.own? i = some (side, v)) : f.isEdge i = false := by
  cases he : f.isEdge i with
  | false => rfl
  | true =>
    rw [own?_eq_none_of_isEdge he] at h
    cases h

theorem eq_fulfilled_of_own? {f : Fate n} (h : f.own? i = some (.fulfill, v)) : f = .fulfilled v := by
  cases f with
  | follows j =>
    by_cases hj : j = i <;> simp [own?, hj] at h
  | _ => simp_all [own?]

/-- A promise that follows another one leads to what that one leads to. -/
theorem leads_iff_of_follows (h : fate i = .follows j) (ne : j ≠ i) :
    Leads fate i side v ↔ Leads fate j side v := by
  refine ⟨fun l => ?_, fun l => .on h ne l⟩
  cases l with
  | here own =>
    rw [own?_eq_none_of_isEdge (isEdge_iff.mpr ⟨j, h, ne⟩)] at own
    cases own
  | on h' _ next => exact Fate.follows.inj (h.symm.trans h') ▸ next

/-- A promise leads to one settlement at most. -/
theorem Leads.unique (h : Leads fate i side v) (h' : Leads fate i side' v') :
    side = side' ∧ v = v' := by
  induction h with
  | here own =>
    cases h' with
    | here own' => exact Prod.mk.inj (Option.some.inj (own.symm.trans own'))
    | on f ne _ =>
      rw [own?_eq_none_of_isEdge (isEdge_iff.mpr ⟨_, f, ne⟩)] at own
      cases own
  | on f ne _ ih => exact ih ((leads_iff_of_follows f ne).mp h')

/-- Whether a promise is resolved with another one. -/
def Follows (fate : Fin n → Fate n) (i j : Fin n) : Prop := fate i = .follows j

/-- The promises that are met when the edges are followed from one of them. -/
abbrev Reaches (fate : Fin n → Fate n) : Fin n → Fin n → Prop := ReflTransGen (Follows fate)

theorem leads_iff : Leads fate i side v ↔ ∃ j, Reaches fate i j ∧ (fate j).own? j = some (side, v) := by
  constructor
  · intro h
    induction h with
    | here own => exact ⟨_, .refl, own⟩
    | on f _ _ ih =>
      obtain ⟨j, reaches, own⟩ := ih
      exact ⟨j, .head f reaches, own⟩
  · rintro ⟨j, reaches, own⟩
    induction reaches using ReflTransGen.head_induction_on with
    | refl => exact .here own
    | head f _ ih =>
      rename_i a b _
      by_cases ne : b = a
      · exact ne ▸ ih
      · exact .on f ne ih

theorem rightUnique_follows (fate : Fin n → Fate n) : Relator.RightUnique (Follows fate) :=
  fun _ _ _ h h' => Fate.follows.inj (h.symm.trans h')

/-- From a promise that settles by itself the edges lead nowhere else. -/
theorem Reaches.eq_of_own? (h : Reaches fate i j) (own : (fate i).own? i = some (side, v)) : i = j := by
  induction h with
  | refl => rfl
  | tail _ f ih =>
    subst ih
    by_contra ne
    rw [own?_eq_none_of_isEdge (isEdge_iff.mpr ⟨_, f, Ne.symm ne⟩)] at own
    cases own

/-- A promise that leads to an untouched one does not settle. -/
theorem not_leads_of_untouched (h : Reaches fate i j) (untouched : fate j = .untouched) :
    ¬ Leads fate i side v := fun leads => by
  obtain ⟨e, reaches, own⟩ := leads_iff.mp leads
  have same : e = j := by
    rcases ReflTransGen.total_of_right_unique (rightUnique_follows fate) reaches h with on | back
    · exact Reaches.eq_of_own? on own
    · rcases ReflTransGen.cases_head back with rfl | ⟨c, f, -⟩
      · rfl
      · cases untouched.symm.trans f
  rw [same, untouched] at own
  cases own

/-- A promise that leads to a cycle of two or more does not settle. -/
theorem not_leads_of_cycle {c : Fin n} (h : Reaches fate i j) (next : fate j = .follows c) (ne : c ≠ j)
    (back : Reaches fate c j) : ¬ Leads fate i side v := fun leads => by
  -- whatever lies on the cycle does not settle by itself
  have never : ∀ {x : Fin n} {s : Side} {y : Value}, Leads fate x s y → Reaches fate x j → False := by
    intro x s y leads
    induction leads with
    | here own =>
      intro on
      have same := Reaches.eq_of_own? on own
      rw [same, own?_eq_none_of_isEdge (isEdge_iff.mpr ⟨c, next, ne⟩)] at own
      cases own
    | on f _ _ ih =>
      intro on
      rcases ReflTransGen.cases_head on with rfl | ⟨d, f', on⟩
      · exact ih (Fate.follows.inj (next.symm.trans f) ▸ back)
      · exact ih (Fate.follows.inj (f'.symm.trans f) ▸ on)
  exact never leads h

end Fate

-- ---------------------------------------------------------------------------
-- Webs
-- ---------------------------------------------------------------------------

/-- The registration of one promise on another one: the number of its one-shot pair, and the derived
promise that is thrown away. -/
structure Link where
  guard : Nat
  derived : Promise
deriving Inhabited

/-- How far a promise has come. -/
inductive Phase
  | fresh
  /-- It follows another one, which has not been asked yet. -/
  | asking
  /-- It has registered on the promise that it follows. -/
  | waiting (link : Link)
  /-- The promise that it follows has settled, and it waits to be told. -/
  | told (link : Link) (side : Side) (v : Value)
  | settled (side : Side) (v : Value)

namespace Phase

/-- Whether a job of the promise waits to be run. -/
def isQueued : Phase → Bool
  | asking | told .. => true
  | _ => false

def isWaiting : Phase → Bool
  | waiting _ => true
  | _ => false

def isSettled : Phase → Bool
  | settled .. => true
  | _ => false

theorem isWaiting_of_isQueued {x : Phase} (h : x.isQueued = true) : x.isWaiting = false := by
  cases x <;> first | rfl | cases h

/-- The registration that will still be used. -/
def link? : Phase → Option Link
  | waiting link | told link _ _ => some link
  | _ => none

/-- What becomes of a waiting promise when the one that it follows settles. -/
def tell (side : Side) (v : Value) : Phase → Phase
  | waiting link => told link side v
  | phase => phase

/-- The number of jobs that have been run for a promise. -/
def cost (edge : Bool) : Phase → Nat
  | fresh | asking => 0
  | waiting _ | told .. => 1
  | settled .. => if edge then 2 else 0

end Phase

/-- The promises, how far they have come, who waits for whom, and whose jobs wait to be run. -/
structure Web (n : Nat) where
  phase : Fin n → Phase
  /-- Who has registered on a promise, in the order of registration. -/
  waiters : Fin n → List (Fin n)
  queue : List (Fin n)

namespace Web

variable {n : Nat}

/-- A web in which nothing has happened. -/
def new (n : Nat) : Web n := { phase := fun _ => .fresh, waiters := fun _ => [], queue := [] }

/-- A promise settles, and those that wait for it are told. -/
def settle (w : Web n) (i : Fin n) (side : Side) (v : Value) : Web n where
  phase j := if j = i then .settled side v else if j ∈ w.waiters i then (w.phase j).tell side v
    else w.phase j
  waiters := Function.update w.waiters i []
  queue := w.queue.erase i ++ w.waiters i

/-- A promise is resolved with another one. -/
def ask (w : Web n) (i : Fin n) : Web n :=
  { w with phase := Function.update w.phase i .asking, queue := w.queue ++ [i] }

/-- A promise registers on the one that it follows, or is told at once. -/
def register (w : Web n) (i j : Fin n) (link : Link) : Web n :=
  match w.phase j with
  | .settled side v =>
    { w with
      phase := Function.update w.phase i (.told link side v)
      queue := w.queue.erase i ++ [i] }
  | _ =>
    { phase := Function.update w.phase i (.waiting link)
      waiters := Function.update w.waiters j (w.waiters j ++ [i])
      queue := w.queue.erase i }

/-- The number of jobs that have been run. -/
def cost (w : Web n) (fate : Fin n → Fate n) : Nat :=
  ∑ i, (w.phase i).cost ((fate i).isEdge i)

/-- The parts of a web fit together, and fit what the host does. -/
structure Sound (w : Web n) (fate : Fin n → Fate n) : Prop where
  queued : ∀ i, w.queue.count i = if (w.phase i).isQueued then 1 else 0
  waits : ∀ i j, (w.waiters j).count i =
    if (w.phase i).isWaiting ∧ fate i = .follows j then 1 else 0
  follows : ∀ i, (w.phase i).isQueued ∨ (w.phase i).isWaiting → (fate i).isEdge i
  /-- Nobody waits for a promise that has settled. -/
  unsettled : ∀ i j, (w.phase i).isWaiting → fate i = .follows j → (w.phase j).isSettled = false
  heard : ∀ i j link side v, w.phase i = .told link side v → fate i = .follows j →
    w.phase j = .settled side v
  leads : ∀ i side v, w.phase i = .settled side v → Fate.Leads fate i side v

variable {w : Web n} {fate : Fin n → Fate n} {i j : Fin n} {side : Side} {v : Value} {link : Link}

theorem sound_new (fate : Fin n → Fate n) : (new n).Sound fate where
  queued _ := rfl
  waits _ _ := by simp [new, Phase.isWaiting]
  follows _ h := by simp [new, Phase.isWaiting, Phase.isQueued] at h
  unsettled _ _ h := by simp [new, Phase.isWaiting] at h
  heard _ _ _ _ _ h := by simp [new] at h
  leads _ _ _ h := by simp [new] at h

namespace Sound

theorem mem_waiters (h : w.Sound fate) :
    i ∈ w.waiters j ↔ (w.phase i).isWaiting ∧ fate i = .follows j := by
  rw [← List.count_pos_iff, h.waits]
  split <;> simp_all

theorem mem_queue (h : w.Sound fate) : i ∈ w.queue ↔ (w.phase i).isQueued := by
  rw [← List.count_pos_iff, h.queued]
  split <;> simp_all

theorem not_mem_rest (h : w.Sound fate) {rest : List (Fin n)} (queue : w.queue = i :: rest) :
    i ∉ rest := fun mem => by
  have once := h.queued i
  rw [queue, List.count_cons_self] at once
  have more := List.count_pos_iff.mpr mem
  split at once <;> omega

theorem ne_of_mem_erase (h : w.Sound fate) (hj : j ∈ w.queue.erase i) : j ≠ i := fun e => by
  subst e
  have none := List.count_pos_iff.mpr hj
  rw [List.count_erase_self, h.queued] at none
  split at none <;> omega

/-- What becomes of the promises when one of them settles. -/
theorem phase_settle (h : w.Sound fate) (side : Side) (v : Value) (hj : j ≠ i) :
    (w.settle i side v).phase j =
      if (w.phase j).isWaiting ∧ fate j = .follows i then (w.phase j).tell side v else w.phase j := by
  show (if j = i then _ else if j ∈ w.waiters i then _ else _) = _
  simp only [hj, if_false, h.mem_waiters]

/-- A promise that does not wait settles as it has to. -/
theorem settle (h : w.Sound fate) (ready : (w.phase i).isWaiting = false)
    (unsettled : (w.phase i).isSettled = false) (leads : Fate.Leads fate i side v) : (w.settle i side v).Sound fate := by
  have self : (w.settle i side v).phase i = .settled side v := if_pos rfl
  have waiting : ∀ j, ((w.settle i side v).phase j).isWaiting = true ↔
      (w.phase j).isWaiting = true ∧ fate j ≠ .follows i := fun j => by
    by_cases hj : j = i
    · subst hj
      rw [self, ready]
      simp [Phase.isWaiting]
    · rw [h.phase_settle side v hj]
      cases hp : w.phase j <;> by_cases hf : fate j = .follows i <;>
        simp [Phase.isWaiting, Phase.tell, hf]
  have queued : ∀ j, ((w.settle i side v).phase j).isQueued = true ↔
      j ≠ i ∧ ((w.phase j).isQueued = true ∨ (w.phase j).isWaiting = true ∧ fate j = .follows i) :=
    fun j => by
      by_cases hj : j = i
      · subst hj
        simp [self, Phase.isQueued]
      · rw [h.phase_settle side v hj]
        cases hp : w.phase j <;> by_cases hf : fate j = .follows i <;>
          simp [Phase.isQueued, Phase.isWaiting, Phase.tell, hf, hj]
  have settled : ∀ j s x, (w.settle i side v).phase j = .settled s x ↔
      j = i ∧ s = side ∧ x = v ∨ j ≠ i ∧ w.phase j = .settled s x := fun j s x => by
    by_cases hj : j = i
    · subst hj
      simp [self, eq_comm]
    · rw [h.phase_settle side v hj]
      cases hp : w.phase j <;> by_cases hf : fate j = .follows i <;>
        simp [Phase.isWaiting, Phase.tell, hf, hj]
  refine ⟨fun j => ?_, fun j l => ?_, fun j hj => ?_, fun j l hw hf => ?_, fun j l link s x ht hf => ?_,
    fun j s x hs => ?_⟩
  · show (w.queue.erase i ++ w.waiters i).count j = _
    rw [List.count_append, h.waits]
    by_cases hj : j = i
    · subst hj
      rw [List.count_erase_self, h.queued, self, ready]
      cases (w.phase j).isQueued <;> simp [Phase.isQueued]
    · rw [List.count_erase_of_ne hj, h.queued, h.phase_settle side v hj]
      cases hp : w.phase j <;> by_cases hf : fate j = .follows i <;>
        simp [Phase.tell, Phase.isQueued, Phase.isWaiting, hf]
  · show (Function.update w.waiters i [] l).count j = _
    by_cases hl : l = i
    · subst hl
      rw [Function.update_self, if_neg fun hc => ((waiting j).mp hc.1).2 hc.2]
      rfl
    · rw [Function.update_of_ne hl, h.waits]
      refine if_congr ⟨fun hc => ⟨(waiting j).mpr ⟨hc.1, fun he => ?_⟩, hc.2⟩, fun hc =>
        ⟨((waiting j).mp hc.1).1, hc.2⟩⟩ rfl rfl
      rw [he] at hc
      exact hl (Fate.follows.inj hc.2).symm
  · rcases hj with hj | hj
    · rcases ((queued j).mp hj).2 with hq | hw
      · exact h.follows j (.inl hq)
      · exact h.follows j (.inr hw.1)
    · exact h.follows j (.inr ((waiting j).mp hj).1)
  · obtain ⟨hw, ne⟩ := (waiting j).mp hw
    have before := h.unsettled j l hw hf
    have hl : l ≠ i := fun e => ne (e ▸ hf)
    cases hs : (w.settle i side v).phase l with
    | settled s x =>
      rcases (settled l s x).mp hs with ⟨e, -⟩ | ⟨-, hs⟩
      · exact absurd e hl
      · rw [hs] at before
        cases before
    | _ => rfl
  · have hj : j ≠ i := fun e => by
      rw [e, self] at ht
      cases ht
    rw [h.phase_settle side v hj] at ht
    rw [settled]
    split at ht
    · rename_i hc
      obtain rfl : i = l := Fate.follows.inj (hc.2.symm.trans hf)
      cases hp : w.phase j with
      | waiting link' =>
        rw [hp] at ht
        cases ht
        exact .inl ⟨rfl, rfl, rfl⟩
      | _ => rw [hp] at hc; cases hc.1
    · have target := h.heard j l link s x ht hf
      refine .inr ⟨fun e => ?_, target⟩
      rw [← e, target] at unsettled
      cases unsettled
  · rcases (settled j s x).mp hs with ⟨rfl, rfl, rfl⟩ | ⟨-, hs⟩
    · exact leads
    · exact h.leads j s x hs

/-- A promise that follows another one comes further. -/
theorem move {w' : Web n} {x : Phase} (h : w.Sound fate) (ready : (w.phase i).isWaiting = false)
    (unsettled : (w.phase i).isSettled = false) (follows : fate i = .follows j) (ne : j ≠ i)
    (phase : w'.phase = Function.update w.phase i x) (open_ : x.isSettled = false)
    (queue : ∀ l, w'.queue.count l = if l = i then if x.isQueued then 1 else 0 else w.queue.count l)
    (waiters : ∀ a l, (w'.waiters l).count a =
      if a = i then if x.isWaiting ∧ l = j then 1 else 0 else (w.waiters l).count a)
    (waits : x.isWaiting → (w.phase j).isSettled = false)
    (heard : ∀ link side v, x = .told link side v → w.phase j = .settled side v) : w'.Sound fate := by
  have self : w'.phase i = x := by rw [phase, Function.update_self]
  have other : ∀ l, l ≠ i → w'.phase l = w.phase l := fun l hl => by rw [phase, Function.update_of_ne hl]
  have settled : ∀ l s v, w'.phase l = .settled s v ↔ w.phase l = .settled s v := fun l s v => by
    by_cases hl : l = i
    · subst hl
      rw [self]
      constructor <;> intro hs
      · rw [hs] at open_
        cases open_
      · rw [hs] at unsettled
        cases unsettled
    · rw [other l hl]
  have isSettled : ∀ l, (w'.phase l).isSettled = (w.phase l).isSettled := fun l => by
    by_cases hl : l = i
    · rw [hl, self, open_, unsettled]
    · rw [other l hl]
  refine ⟨fun l => ?_, fun a l => ?_, fun l hl => ?_, fun a l hw hf => ?_, fun a l link s v ht hf => ?_,
    fun l s v hs => h.leads l s v ((settled l s v).mp hs)⟩
  · rw [queue]
    by_cases hl : l = i
    · rw [if_pos hl, hl, self]
    · rw [if_neg hl, other l hl, h.queued]
  · rw [waiters]
    by_cases ha : a = i
    · rw [if_pos ha, ha, self]
      exact if_congr (and_congr_right fun _ =>
        ⟨fun e => by rw [e, follows], fun e => Fate.follows.inj (e.symm.trans follows)⟩) rfl rfl
    · rw [if_neg ha, other a ha, h.waits]
  · by_cases he : l = i
    · exact he ▸ Fate.isEdge_iff.mpr ⟨j, follows, ne⟩
    · exact h.follows l (other l he ▸ hl)
  · rw [isSettled]
    by_cases ha : a = i
    · subst ha
      obtain rfl : j = l := Fate.follows.inj (follows.symm.trans hf)
      exact waits (self ▸ hw)
    · exact h.unsettled a l (other a ha ▸ hw) hf
  · by_cases ha : a = i
    · subst ha
      obtain rfl : j = l := Fate.follows.inj (follows.symm.trans hf)
      exact (settled j s v).mpr (heard link s v (self.symm.trans ht))
    · exact (settled l s v).mpr (h.heard a l link s v (other a ha ▸ ht) hf)

/-- A promise is resolved with another one. -/
theorem ask (h : w.Sound fate) (fresh : w.phase i = .fresh) (follows : fate i = .follows j)
    (ne : j ≠ i) : (w.ask i).Sound fate := by
  refine h.move (by rw [fresh]; rfl) (by rw [fresh]; rfl) follows ne rfl rfl (fun l => ?_) (fun a l => ?_)
    (fun hw => by cases hw) (fun _ _ _ ht => by cases ht)
  · show (w.queue ++ [i]).count l = _
    rw [List.count_append, List.count_singleton]
    by_cases hl : l = i
    · rw [hl, h.queued, fresh]
      simp [Phase.isQueued]
    · simp [hl, Ne.symm hl]
  · by_cases ha : a = i
    · show (w.waiters l).count a = _
      rw [ha, h.waits, fresh, if_pos rfl]
      simp only [Phase.isWaiting, Bool.false_eq_true, false_and]
    · rw [if_neg ha]
      rfl

theorem ne_of_asking (h : w.Sound fate) (asking : w.phase i = .asking) (follows : fate i = .follows j) :
    j ≠ i := by
  have edge := h.follows i (.inl (by rw [asking]; rfl))
  rw [follows] at edge
  simpa [Fate.isEdge] using edge

/-- A promise registers on the one that it follows, or is told at once. -/
theorem register (h : w.Sound fate) (asking : w.phase i = .asking) (follows : fate i = .follows j)
    (link : Link) : (w.register i j link).Sound fate := by
  have ne : j ≠ i := h.ne_of_asking asking follows
  have ready : (w.phase i).isWaiting = false := by rw [asking]; rfl
  have once : w.queue.count i = 1 := by rw [h.queued, asking]; rfl
  have nowhere : ∀ l, (w.waiters l).count i = 0 := fun l => by
    rw [h.waits, ready]
    simp
  have unsettled : (w.phase i).isSettled = false := by rw [asking]; rfl
  -- the two cases of `register`
  have cases : (∃ side v, w.phase j = .settled side v ∧ w.register i j link =
        { w with phase := Function.update w.phase i (.told link side v)
                 queue := w.queue.erase i ++ [i] }) ∨
      (w.phase j).isSettled = false ∧ w.register i j link =
        { phase := Function.update w.phase i (.waiting link)
          waiters := Function.update w.waiters j (w.waiters j ++ [i]), queue := w.queue.erase i } := by
    unfold Web.register
    cases hp : w.phase j with
    | settled side v => exact .inl ⟨side, v, rfl, rfl⟩
    | _ => exact .inr ⟨rfl, rfl⟩
  rcases cases with ⟨side, v, hs, heq⟩ | ⟨hs, heq⟩
  · rw [heq]
    refine h.move ready unsettled follows ne rfl rfl (fun l => ?_) (fun a l => ?_)
      (fun hw => by cases hw) (fun _ _ _ ht => by cases ht; exact hs)
    · show (w.queue.erase i ++ [i]).count l = _
      rw [List.count_append, List.count_singleton]
      by_cases hl : l = i
      · subst hl
        rw [List.count_erase_self, once]
        simp [Phase.isQueued]
      · simp [hl, Ne.symm hl, List.count_erase_of_ne]
    · by_cases ha : a = i
      · rw [ha, if_pos rfl]
        exact nowhere l
      · rw [if_neg ha]
  · rw [heq]
    refine h.move ready unsettled follows ne rfl rfl (fun l => ?_) (fun a l => ?_)
      (fun _ => hs) (fun _ _ _ ht => by cases ht)
    · show (w.queue.erase i).count l = _
      by_cases hl : l = i
      · subst hl
        rw [List.count_erase_self, once]
        simp [Phase.isQueued]
      · rw [if_neg hl, List.count_erase_of_ne hl]
    · show (Function.update w.waiters j (w.waiters j ++ [i]) l).count a = _
      by_cases hl : l = j
      · subst hl
        rw [Function.update_self, List.count_append, List.count_singleton]
        by_cases ha : a = i
        · subst ha
          rw [nowhere]
          simp [Phase.isWaiting]
        · simp [ha, Ne.symm ha]
      · rw [Function.update_of_ne hl]
        by_cases ha : a = i
        · rw [if_pos ha, ha, nowhere, if_neg (by simp [hl])]
        · rw [if_neg ha]

-- ---------------------------------------------------------------------------
-- The end
-- ---------------------------------------------------------------------------

theorem quiet (h : w.Sound fate) (idle : w.queue = []) (i : Fin n) : (w.phase i).isQueued = false := by
  have none := h.queued i
  rw [idle] at none
  cases hq : (w.phase i).isQueued with
  | false => rfl
  | true =>
    rw [hq] at none
    cases none

/-- A web with nothing left to run has settled exactly what leads to a settlement. -/
theorem settled_iff (h : w.Sound fate) (idle : w.queue = [])
    (begun : ∀ i, w.phase i = .fresh → fate i = .untouched) :
    w.phase i = .settled side v ↔ Fate.Leads fate i side v := by
  refine ⟨h.leads i side v, fun leads => ?_⟩
  induction leads with
  | @here i side v own =>
    cases hp : w.phase i with
    | fresh =>
      rw [begun i hp] at own
      cases own
    | waiting link =>
      have edge := h.follows i (.inr (by rw [hp]; rfl))
      rw [Fate.isEdge_of_own? own] at edge
      cases edge
    | settled s x =>
      obtain ⟨rfl, rfl⟩ := (h.leads i s x hp).unique (.here own)
      rfl
    | _ => exact absurd (h.quiet idle i) (by rw [hp]; simp [Phase.isQueued])
  | @on i j side v f ne next ih =>
    cases hp : w.phase i with
    | fresh => cases f.symm.trans (begun i hp)
    | waiting link =>
      have open_ := h.unsettled i j (by rw [hp]; rfl) f
      rw [ih] at open_
      cases open_
    | settled s x =>
      obtain ⟨rfl, rfl⟩ := (h.leads i s x hp).unique (.on f ne next)
      rfl
    | _ => exact absurd (h.quiet idle i) (by rw [hp]; simp [Phase.isQueued])

/-- A promise has settled if and only if the one has that it follows. -/
theorem isSettled_iff (h : w.Sound fate) (idle : w.queue = [])
    (begun : ∀ i, w.phase i = .fresh → fate i = .untouched) (f : fate i = .follows j) (ne : j ≠ i) :
    (w.phase j).isSettled = true ↔ (w.phase i).isSettled = true := by
  have same : ∀ side v, w.phase j = .settled side v ↔ w.phase i = .settled side v := fun side v => by
    rw [h.settled_iff idle begun, h.settled_iff idle begun, Fate.leads_iff_of_follows f ne]
  cases hj : w.phase j with
  | settled side v => simp [(same side v).mp hj, Phase.isSettled]
  | _ =>
    cases hi : w.phase i with
    | settled side v =>
      have := (same side v).mpr hi
      rw [hj] at this
      cases this
    | _ => simp [Phase.isSettled]

/-- One job has been run for a promise that follows another one, and one more if that one has settled. -/
theorem cost_phase (h : w.Sound fate) (idle : w.queue = [])
    (begun : ∀ i, w.phase i = .fresh → fate i = .untouched) (i : Fin n) :
    (w.phase i).cost ((fate i).isEdge i) = (if (fate i).isEdge i then 1 else 0) +
      if ∃ j, fate i = .follows j ∧ j ≠ i ∧ (w.phase j).isSettled then 1 else 0 := by
  have met : (∃ j, fate i = .follows j ∧ j ≠ i ∧ (w.phase j).isSettled = true) ↔
      (fate i).isEdge i = true ∧ (w.phase i).isSettled = true := by
    constructor
    · rintro ⟨j, f, ne, hj⟩
      exact ⟨Fate.isEdge_iff.mpr ⟨j, f, ne⟩, (h.isSettled_iff idle begun f ne).mp hj⟩
    · rintro ⟨he, hi⟩
      obtain ⟨j, f, ne⟩ := Fate.isEdge_iff.mp he
      exact ⟨j, f, ne, (h.isSettled_iff idle begun f ne).mpr hi⟩
  simp only [met]
  cases hp : w.phase i with
  | fresh =>
    rw [begun i hp]
    simp [Fate.isEdge, Phase.cost]
  | waiting link =>
    have edge := h.follows i (.inr (by rw [hp]; rfl))
    simp [edge, Phase.cost, Phase.isSettled]
  | settled side v => cases (fate i).isEdge i <;> simp [Phase.cost, Phase.isSettled]
  | _ => exact absurd (h.quiet idle i) (by rw [hp]; simp [Phase.isQueued])

end Sound

-- ---------------------------------------------------------------------------
-- Counting
-- ---------------------------------------------------------------------------

theorem cost_of_phase {w' : Web n} {c : Nat}
    (self : (w'.phase i).cost ((fate i).isEdge i) = (w.phase i).cost ((fate i).isEdge i) + c)
    (other : ∀ j, j ≠ i → (w'.phase j).cost ((fate j).isEdge j) = (w.phase j).cost ((fate j).isEdge j)) :
    w'.cost fate = w.cost fate + c := by
  have rest : ∑ j ∈ Finset.univ.erase i, (w'.phase j).cost ((fate j).isEdge j) =
      ∑ j ∈ Finset.univ.erase i, (w.phase j).cost ((fate j).isEdge j) :=
    Finset.sum_congr rfl fun j hj => other j (Finset.ne_of_mem_erase hj)
  unfold cost
  rw [← Finset.add_sum_erase _ _ (Finset.mem_univ i), self, rest,
    ← Finset.add_sum_erase (f := fun j => (w.phase j).cost _) _ (Finset.mem_univ i)]
  omega

theorem cost_settle {c : Nat} (side : Side) (v : Value)
    (self : (Phase.settled side v).cost ((fate i).isEdge i) =
      (w.phase i).cost ((fate i).isEdge i) + c) :
    (w.settle i side v).cost fate = w.cost fate + c := by
  refine cost_of_phase (i := i) ?_ fun j hj => ?_
  · rw [← self]
    exact congrArg _ (if_pos rfl)
  · show Phase.cost _ (if j = i then _ else if j ∈ w.waiters i then _ else _) = _
    rw [if_neg hj]
    split
    · cases w.phase j <;> rfl
    · rfl

theorem cost_ask (fresh : w.phase i = .fresh) : (w.ask i).cost fate = w.cost fate := by
  refine cost_of_phase (i := i) (c := 0) ?_ fun j hj => ?_
  · show Phase.cost _ (Function.update w.phase i .asking i) = _
    rw [Function.update_self, fresh]
    rfl
  · show Phase.cost _ (Function.update w.phase i .asking j) = _
    rw [Function.update_of_ne hj]

theorem cost_register (asking : w.phase i = .asking) (j : Fin n) (link : Link) :
    (w.register i j link).cost fate = w.cost fate + 1 := by
  have phase : ∃ x : Phase, x.cost ((fate i).isEdge i) = 1 ∧
      (w.register i j link).phase = Function.update w.phase i x := by
    unfold register
    split <;> exact ⟨_, rfl, rfl⟩
  obtain ⟨x, hx, phase⟩ := phase
  refine cost_of_phase (i := i) ?_ fun j hj => ?_
  · rw [phase, Function.update_self, hx, asking]
    rfl
  · rw [phase, Function.update_of_ne hj]

/-- No more than two jobs are run for any promise. -/
theorem cost_le (w : Web n) (fate : Fin n → Fate n) : w.cost fate ≤ 2 * n := by
  have each : ∀ i ∈ Finset.univ, (w.phase i).cost ((fate i).isEdge i) ≤ 2 := fun i _ => by
    cases w.phase i <;> cases (fate i).isEdge i <;> simp [Phase.cost]
  simpa [cost, Nat.mul_comm] using Finset.sum_le_card_nsmul _ _ _ each

/-- When nothing is left to run, one job has been run for every promise that follows another one, and one
more if that one has settled. -/
theorem Sound.cost_of_idle (h : w.Sound fate) (idle : w.queue = [])
    (begun : ∀ i, w.phase i = .fresh → fate i = .untouched) :
    w.cost fate = (Finset.univ.filter fun i => (fate i).isEdge i).card +
      (Finset.univ.filter fun i => ∃ j, fate i = .follows j ∧ j ≠ i ∧ (w.phase j).isSettled).card := by
  rw [Finset.card_filter, Finset.card_filter, ← Finset.sum_add_distrib]
  exact Finset.sum_congr rfl fun i _ => h.cost_phase idle begun i

end Web
end PromiseLoop

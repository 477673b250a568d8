import PromiseLoop.Proofs.Activities
import PromiseLoop.Proofs.Reports

/-!
# Collections come to an end

A collection frees what has been released, and goes on with what that releases in turn.  Every record
that is freed is one record less, so the collection ends, as long as the tracker that hears of records
on the way returns and leaves the loop alone.  When it has ended no release is left, and so by the
balance of the books the records that are left are those of promises that still have a handle.

## Results

* `collectNext_cases`: what a collection does next.
* `collection_ends`, `collection_rests`: a collection ends, and what it has done by then.
* `handles_balance_records`: handles, records and releases in every run.
-/

namespace PromiseLoop

open Relation

-- ---------------------------------------------------------------------------
-- What a collection does to its loop
-- ---------------------------------------------------------------------------

def Event.isFreed : Event → Bool
  | .freed .. => true
  | _ => false

namespace Loop

variable {l l' l'' : Loop}

/-- Whether an event is one of those that a collection of the loop may add to the history. -/
def Sweeps (l : Loop) : Event → Prop
  | .freed id r => l.heap.get? id = some r
  | .reported id v => ∃ r, l.heap.get? id = some r ∧ l.reportsOnFree r = true ∧ v = r.reason
  | .posted _ => True
  | _ => False

/-- What a collection does to its loop in a while: records go, the others stay as they are, and the
history tells which ones went. -/
structure Thins (l l' : Loop) (count : Nat) : Prop where
  config : l'.config = l.config
  bridge : l'.bridge = l.bridge
  microtasks : l'.microtasks = l.microtasks
  inFlight : l'.inFlight = l.inFlight
  kept : ∀ id r, l'.heap.get? id = some r → l.heap.get? id = some r
  slots : l'.heap.slots.length = l.heap.slots.length
  size : l'.heap.size + count = l.heap.size
  history : ∃ newer, l'.history = newer ++ l.history ∧ newer.countP Event.isFreed = count ∧
    ∀ e ∈ newer, l.Sweeps e

theorem Thins.refl (l : Loop) : l.Thins l 0 where
  config := rfl
  bridge := rfl
  microtasks := rfl
  inFlight := rfl
  kept _ _ hr := hr
  slots := rfl
  size := rfl
  history := ⟨[], rfl, rfl, by simp⟩

theorem Thins.sweeps {c : Nat} (h : l.Thins l' c) {e : Event} (he : l'.Sweeps e) : l.Sweeps e := by
  cases e with
  | freed id r => exact h.kept id r he
  | reported id v =>
    obtain ⟨r, hr, hreports, hv⟩ := he
    exact ⟨r, h.kept id r hr, by rw [← hreports, reportsOnFree, reportsOnFree, h.config], hv⟩
  | posted r => trivial
  | _ => exact he.elim

theorem Thins.trans {c d : Nat} (h : l.Thins l' c) (h' : l'.Thins l'' d) : l.Thins l'' (c + d) where
  config := h'.config.trans h.config
  bridge := h'.bridge.trans h.bridge
  microtasks := h'.microtasks.trans h.microtasks
  inFlight := h'.inFlight.trans h.inFlight
  kept id r hr := h.kept id r (h'.kept id r hr)
  slots := h'.slots.trans h.slots
  size := by
    have := h.size
    have := h'.size
    omega
  history := by
    obtain ⟨newer, history, count, swept⟩ := h.history
    obtain ⟨newer', history', count', swept'⟩ := h'.history
    refine ⟨newer' ++ newer, by rw [history', history, List.append_assoc], ?_, fun e he => ?_⟩
    · rw [List.countP_append, count, count', Nat.add_comm]
    · exact (List.mem_append.mp he).elim (fun he => h.sweeps (swept' e he)) (swept e)

theorem thins_of_eq (config : l'.config = l.config) (bridge : l'.bridge = l.bridge)
    (microtasks : l'.microtasks = l.microtasks) (inFlight : l'.inFlight = l.inFlight)
    (heap : l'.heap = l.heap) (history : l'.history = l.history) : l.Thins l' 0 where
  config := config
  bridge := bridge
  microtasks := microtasks
  inFlight := inFlight
  kept id r hr := heap ▸ hr
  slots := by rw [heap]
  size := by rw [heap]; rfl
  history := ⟨[], history, rfl, by simp⟩

theorem Outside.thins (h : l.Outside l') : l.Thins l' 0 := by
  have posts (l : Loop) (r : Report) : l.Thins (l.post r) 0 :=
    ⟨rfl, rfl, rfl, rfl, fun _ _ hr => hr, rfl, rfl, [.posted r], rfl, rfl, by simp [Sweeps]⟩
  cases h with
  | released id => exact thins_of_eq rfl rfl rfl rfl rfl rfl
  | posted r => exact posts l r
  | workerReleased =>
    unfold releaseWorker
    split
    · exact .refl l
    · rename_i r rest _
      have shortened : l.Thins { l with waiting := rest } 0 := thins_of_eq rfl rfl rfl rfl rfl rfl
      exact shortened.trans (posts _ r)

theorem thins_of_outside (h : ReflTransGen Outside l l') : l.Thins l' 0 := by
  induction h with
  | refl => exact .refl l
  | tail _ h ih => exact ih.trans h.thins

theorem size_vacated {h : Heap} (wf : h.Wf) {id : PromiseId} {r : Record} (hr : h.get? id = some r) :
    (h.vacated id).size + 1 = h.size := by
  have count := Heap.length_records_modify_none h.slots id.index.toNat
    (fun s => { generation := s.generation + 1, record := none }) (Heap.get?_eq_some.mp hr) rfl rfl
  have live := wf.live
  simp only [Heap.size, Heap.vacated, Heap.records] at live count ⊢
  omega

theorem thins_free? {id : PromiseId} {r : Record} (wf : l.heap.Wf) (h : l.free? id = some (r, l')) :
    l.Thins l' 1 := by
  have hr : l.heap.get? id = some r := (free?_eq_some.mp h).1
  have heap := heap_free? h
  obtain ⟨config, bridge, microtasks, inFlight⟩ : l'.config = l.config ∧ l'.bridge = l.bridge ∧
      l'.microtasks = l.microtasks ∧ l'.inFlight = l.inFlight := by
    obtain ⟨-, rfl⟩ := free?_eq_some.mp h
    split <;> simp [note, report_eq]
  refine ⟨config, bridge, microtasks, inFlight, fun k x hx => ?_, ?_, ?_, _,
    (history_free? h).trans (List.append_assoc [_] _ _).symm, ?_, fun e he => ?_⟩
  · rw [heap, Heap.get?_vacated_of_get? hr] at hx
    split at hx
    · cases hx
    · exact hx
  · rw [heap]
    exact List.length_modify ..
  · rw [heap]
    exact size_vacated wf hr
  · split <;> rfl
  · rcases List.mem_cons.mp he with rfl | he
    · exact hr
    · split at he
      · rename_i reports
        rw [List.mem_singleton.mp he]
        exact ⟨r, hr, reports, rfl⟩
      · cases he

end Loop

/-- A collection that has ended has left the records of promises that have a handle, and no others. -/
theorem Ledger.thinned {l x : Loop} {c : Nat} {held : Promise → Prop} (h : Ledger x.heap held [])
    (thins : l.Thins x c) {id : PromiseId} {r : Record} :
    x.heap.get? id = some r ↔ l.heap.get? id = some r ∧ ∃ p, held p ∧ p.id = id := by
  refine ⟨fun hr => ⟨thins.kept id r hr, ?_⟩, fun ⟨hr, p, hp, heq⟩ => ?_⟩
  · exact (h.accounted id ⟨r, hr⟩).resolve_left (by simp)
  · obtain ⟨r', hr'⟩ := h.live p hp
    rw [heq] at hr'
    rw [hr', ← hr, thins.kept id r' hr']

-- ---------------------------------------------------------------------------
-- What a collection does next
-- ---------------------------------------------------------------------------

namespace Machine

variable {m m' : Machine} {k : LoopId} {l : Loop} {s : Sweep}

/-- What a collection does next: it has come to an end, takes what has been released in the meantime,
passes over an id that finds nothing, or frees a record; and then it may have to tell the tracker
first. -/
inductive NextSweep (m : Machine) (k : LoopId) (l : Loop) (s : Sweep) : Machine → Prop
  | ended (nothing : s.pending = []) (empty : l.releases = []) : NextSweep m k l s (m.endCollection k s)
  | taken (nothing : s.pending = []) (more : l.releases ≠ []) :
      NextSweep m k l s ((m.setLoop l.takeReleases.2).sweep k { s with pending := l.releases })
  | skipped {id : PromiseId} {rest : List PromiseId} (next : s.pending = id :: rest)
      (stale : l.free? id = none) : NextSweep m k l s (m.sweep k { s with pending := rest })
  | freed {id : PromiseId} {rest : List PromiseId} {r : Record} {l' : Loop}
      (next : s.pending = id :: rest) (found : l.free? id = some (r, l')) :
      NextSweep m k l s
        (drop r.held ((m.setLoop l').sweep k { s with pending := rest, count := s.count + 1 }))
  | told {id : PromiseId} {rest : List PromiseId} {r : Record} {l' : Loop}
      (next : s.pending = id :: rest) (found : l.free? id = some (r, l')) :
      NextSweep m k l s
        (((((m.setLoop l').push (.collecting k { s with pending := rest, count := s.count + 1 } r)).push
          (.hold [r.reason])).signal .done).tellUnhandled k id r.reason)

theorem collectNext_cases (hl : m.loop? k = some l) (s : Sweep) :
    NextSweep m k l s (m.collectNext k s) := by
  unfold collectNext
  cases hpend : s.pending with
  | nil =>
    cases hr : l.releases with
    | nil =>
      simp only [hl, Option.map_some, Loop.takeReleases, hr]
      exact .ended hpend hr
    | cons first rest =>
      simp only [hl, Option.map_some, Loop.takeReleases, hr]
      have taken := NextSweep.taken (m := m) (k := k) hpend (by simp [hr] : l.releases ≠ [])
      rwa [hr] at taken
  | cons id rest =>
    cases hf : l.free? id with
    | none =>
      simp only [hl, Option.bind_some, hf]
      exact .skipped hpend hf
    | some freed =>
      obtain ⟨r, l'⟩ := freed
      simp only [hl, Option.bind_some, hf]
      split
      · exact .told hpend hf
      · exact .freed hpend hf

-- ---------------------------------------------------------------------------
-- Collections end
-- ---------------------------------------------------------------------------

/-- After `n` steps a collection goes on with the sweep `s'`, and has freed `d` records on the way. -/
structure SweepsOn (k : LoopId) (m : Machine) (l : Loop) (s : Sweep) (n d : Nat) (l' : Loop)
    (s' : Sweep) : Prop where
  lasts : m.Lasts n
  stack : (run n m).stack = m.stack
  control : (run n m).control = .collect k s'
  loop : (run n m).loop? k = some l'
  thins : l.Thins l' d
  closes : s'.closes = s.closes
  count : s'.count = s.count + d

/-- After `n` steps a collection has ended, and freed `c` records on the way. -/
structure Collects (k : LoopId) (m : Machine) (l : Loop) (s : Sweep) (n c : Nat) : Prop where
  lasts : m.Lasts n
  stack : (run n m).stack = m.stack
  control : (run n m).control = .signal (if s.closes then .done else .freed (s.count + c))
  loop : ∃ x, l.Thins x c ∧ x.releases = [] ∧
    (run n m).loop? k = some (if s.closes then x.note .checked else x)

/-- Where a collection has gone on for a while, the rest of it counts as well. -/
theorem SweepsOn.collects {n d i c : Nat} {x : Loop} {s' : Sweep} (h : SweepsOn k m l s n d x s')
    (h' : Collects k (run n m) x s' i c) : Collects k m l s (n + i) (d + c) where
  lasts := h.lasts.add h.stack h'.lasts
  stack := by rw [run_add, h'.stack, h.stack]
  control := by rw [run_add, h'.control, h.closes, h.count, Nat.add_assoc]
  loop := by
    obtain ⟨y, hy, empty, found⟩ := h'.loop
    exact ⟨y, h.thins.trans hy, empty, by rw [run_add, found, h.closes]⟩

/-- A measure of what a collection has still to do. -/
def sweepMeasure (l : Loop) (s : Sweep) : Nat := 2 * l.heap.size + if s.pending = [] then 1 else 0

/-- A collection that has freed a record has less to do, whatever it still has to look at. -/
theorem sweepMeasure_lt {x : Loop} {s' : Sweep} {d : Nat} (h : x.heap.size + (d + 1) = l.heap.size) :
    sweepMeasure x s' < sweepMeasure l s := by
  unfold sweepMeasure
  split <;> split <;> omega

/-- What has been released finds a record. -/
theorem Reachable.free?_of_pending (hm : Reachable m) (hc : m.control = .collect k s)
    (hl : m.loop? k = some l) (room : l.heap.slots.length < 2 ^ 32) {id : PromiseId}
    {rest : List PromiseId} (hp : s.pending = id :: rest) : l.free? id ≠ none := fun stale => by
  have books := (hm.balanced k).1.books
  have queued : id ∈ m.control.pendingOf k := by simp [hc, Control.pendingOf, hp]
  obtain ⟨⟨r, hr⟩, -⟩ := (books.ledger l hl room).loose id (List.mem_append_left _ queued)
  simp [Loop.free?, Heap.remove?, hr] at stale

/-- When the tracker has heard of a record, the collection goes on. -/
theorem sweeps_on_of_told (hm : Reachable m) (hy : m.Yields k) {n d : Nat} {s' : Sweep} {r : Record}
    {x : Loop} (lasts : m.Lasts n) (above : .collecting k s' r :: m.stack <:+ (run n m).stack)
    (hx : (run n m).loop? k = some x) (thins : l.Thins x d) (closes : s'.closes = s.closes)
    (count : s'.count = s.count + d) : ∃ i y, SweepsOn k m l s i d y s' ∧ x.Thins y 0 := by
  obtain ⟨i, t, stack, control, aside, lasts⟩ := hy.told hm lasts (by simp [Frame.tells]) above
  have kept : (run (n + i) m).keepsLoop k = true := by simp [keepsLoop, stack, Frame.loop?]
  obtain ⟨j, settled, still⟩ := exists_run_settled (hm.run (n + i)).placed kept
  obtain ⟨y, hy, outside⟩ := (aside.trans settled.aside).stays x hx
  have stepped := step_of_signal settled.orphan (settled.control.trans control)
    (settled.stack.trans stack)
  have ended : run (n + i + j + 1) m = drop (t.held ++ r.held)
      (({ run j (run (n + i) m) with stack := m.stack, control := .signal .done } : Machine).sweep k s') := by
    rw [run_succ', run_add (n + i) j, stepped]
    rfl
  obtain ⟨released, found⟩ := loop?_drop_of (t.held ++ r.held)
    (show (({ run j (run (n + i) m) with stack := m.stack, control := .signal .done } : Machine).sweep
      k s').loop? k = some y from hy)
  have still' : ∀ a ≤ j, m.stack <:+ (run a (run (n + i) m)).stack := fun a ha => by
    rw [still a ha, stack]
    exact List.suffix_cons _ _
  have stays := Loop.thins_of_outside outside
  have released' : y.Thins { y with releases := y.releases ++ released } 0 :=
    Loop.thins_of_eq rfl rfl rfl rfl rfl rfl
  have final : (run (n + i + j + 1) m).stack = m.stack := by rw [ended, stack_drop]; rfl
  refine ⟨n + i + j + 1, _, ⟨(lasts.append still').succ (final ▸ List.suffix_rfl), final,
    by rw [ended, control_drop]; rfl, by rw [ended]; exact found,
    thins.trans (stays.trans released'), closes, count⟩, stays.trans released'⟩

/-- A collection ends, or goes on and has less to do. -/
theorem sweeps_on_or_collects (hm : Reachable m) (hc : m.control = .collect k s)
    (hl : m.loop? k = some l) (room : l.heap.slots.length < 2 ^ 32) (hy : m.Yields k) :
    (∃ n c, Collects k m l s n c) ∨
      ∃ n d l' s', SweepsOn k m l s n d l' s' ∧ sweepMeasure l' s' < sweepMeasure l s := by
  -- first whatever has to be removed is removed
  have kept : m.keepsLoop k = true := by simp [keepsLoop, hc, Control.loop?]
  obtain ⟨n, settled, still⟩ := exists_run_settled hm.placed kept
  have reachable := hm.run n
  obtain ⟨x, hx, outside⟩ := settled.aside.stays l hl
  have thins := Loop.thins_of_outside outside
  have hcx : (run n m).control = .collect k s := settled.control.trans hc
  have lasts := lasts_of_stack still
  have wf := reachable.wf hx
  have size : x.heap.size = l.heap.size := thins.size
  obtain rfl : x.id = k := reachable.placed k x hx
  have next := collectNext_cases (m := (run n m).signal .done) hx s
  rw [← step_of_collect settled.orphan hcx, ← run_succ'] at next
  have hx' : ((run n m).signal .done).loop? x.id = some x := hx
  have lasts' (h : (run (n + 1) m).stack = (run n m).stack) : m.Lasts (n + 1) :=
    lasts.succ (h.trans settled.stack ▸ List.suffix_rfl)
  generalize hrun : run (n + 1) m = m' at next lasts'
  cases next with
  | ended nothing empty =>
    have stack : (((run n m).signal .done).endCollection x.id s).stack = (run n m).stack := by
      unfold endCollection
      split <;> rfl
    refine .inl ⟨n + 1, 0, lasts' stack, ?_, ?_, x, thins, empty, ?_⟩
    · rw [hrun, stack, settled.stack]
    · rw [hrun]
      unfold endCollection
      split <;> rfl
    · rw [hrun]
      unfold endCollection endCheckpoint
      split
      · exact (loop?_modifyLoop_self _ _ _).trans (by rw [hx']; rfl)
      · exact hx'
  | taken nothing more =>
    have emptied : x.Thins x.takeReleases.2 0 := Loop.thins_of_eq rfl rfl rfl rfl rfl rfl
    refine .inr ⟨n + 1, 0, x.takeReleases.2, { s with pending := x.releases },
      ⟨lasts' rfl, ?_, ?_, ?_, thins.trans emptied, rfl, rfl⟩, ?_⟩
    · rw [hrun]
      exact settled.stack
    · rw [hrun]
      rfl
    · rw [hrun]
      exact loop?_setLoop (l := x.takeReleases.2) hx'
    · simp only [sweepMeasure, nothing, more, if_true, if_false]
      exact Nat.lt_succ_of_le (Nat.le_of_eq (by rw [← size]; rfl))
  | skipped next stale =>
    exact absurd stale (reachable.free?_of_pending hcx hx (thins.slots ▸ room) next)
  | @freed id rest r x' next found =>
    have thinned := thins.trans (Loop.thins_free? wf found)
    obtain ⟨released, hx''⟩ := loop?_drop_of r.held
      (show ((((run n m).signal .done).setLoop x').sweep x.id
        { s with pending := rest, count := s.count + 1 }).loop? x.id = some x' from
          loop?_setLoop_self hx' (Loop.id_free? found))
    have relisted : x'.Thins { x' with releases := x'.releases ++ released } 0 :=
      Loop.thins_of_eq rfl rfl rfl rfl rfl rfl
    have thinned := thinned.trans relisted
    refine .inr ⟨n + 1, 1, _, { s with pending := rest, count := s.count + 1 },
      ⟨lasts' (stack_drop ..), ?_, ?_, ?_, thinned, rfl, rfl⟩, sweepMeasure_lt thinned.size⟩
    · rw [hrun, stack_drop]
      exact settled.stack
    · rw [hrun, control_drop]
      rfl
    · rw [hrun]
      exact hx''
  | @told id rest r x' next found =>
    have thinned := thins.trans (Loop.thins_free? wf found)
    generalize hs' : ({ s with pending := rest, count := s.count + 1 } : Sweep) = s' at hrun
    have set : (((((run n m).signal .done).setLoop x').push (.collecting x.id s' r)).push
        (.hold [r.reason])).loop? x.id = some x' := loop?_setLoop_self hx' (Loop.id_free? found)
    -- the tracker is told, above the frame of the collection
    have aside : Aside x.id _ _ := aside_tellUnhandled ((((((run n m).signal .done).setLoop x').push
      (.collecting x.id s' r)).push (.hold [r.reason])).signal .done) x.id id r.reason rfl
    obtain ⟨y, hy', told⟩ := aside.stays x' set
    have above : .collecting x.id s' r :: m.stack <:+ (run (n + 1) m).stack := by
      rw [hrun, ← settled.stack]
      refine List.IsSuffix.trans ?_ (above_tellUnhandled _ _ _ _)
      exact List.suffix_cons _ _
    obtain ⟨i, z, on, stays⟩ := sweeps_on_of_told (l := l) (s := s) hm hy
      (lasts.succ ((List.suffix_cons _ _).trans above)) above (by rw [hrun]; exact hy')
      (thinned.trans (Loop.thins_of_outside told)) (by rw [← hs']) (by rw [← hs'])
    exact .inr ⟨i, _, z, s', on, sweepMeasure_lt on.thins.size⟩

/-- A collection comes to an end, if the tracker that it tells about records yields. -/
theorem collection_ends (hm : Reachable m) (hc : m.control = .collect k s) (hl : m.loop? k = some l)
    (room : l.heap.slots.length < 2 ^ 32) (hy : m.Yields k) : ∃ n c, Collects k m l s n c := by
  induction hN : sweepMeasure l s using Nat.strongRecOn generalizing m l s with
  | ind N ih =>
    rcases sweeps_on_or_collects hm hc hl room hy with ended | ⟨n, d, l', s', on, less⟩
    · exact ended
    · obtain ⟨i, c, h⟩ := ih _ (hN ▸ less) (hm.run n) on.control on.loop (on.thins.slots ▸ room)
        (hy.later on.lasts on.stack) rfl
      exact ⟨_, _, on.collects h⟩

-- ---------------------------------------------------------------------------
-- Handles, records and releases
-- ---------------------------------------------------------------------------

/-- Whether a collection of a loop is under way. -/
def IsCollecting (m : Machine) (k : LoopId) : Prop :=
  m.control.loop? = some k ∨ ∃ s r, .collecting k s r ∈ m.stack

/-- The promises of a loop that have a handle somewhere, each of them once. -/
def rooted (m : Machine) (k : LoopId) : List Promise :=
  ((promises m.held).filter fun p => p.home = k).dedup

theorem mem_rooted {p : Promise} : p ∈ m.rooted k ↔ p.home = k ∧ m.Has m.control.held (.promise p) := by
  rw [rooted, List.mem_dedup, List.mem_filter, decide_eq_true_eq, has_control_held_iff, mem_promises,
    and_comm]

theorem pendingOf_eq_nil (h : ∀ s r, .collecting k s r ∉ m.stack) : m.pendingOf k = [] := by
  refine List.flatMap_eq_nil_iff.mpr fun f hf => ?_
  cases f with
  | collecting j s r =>
    refine if_neg fun e => ?_
    subst e
    exact h s r hf
  | _ => rfl

/-- Outside of collections, the releases are those in the queue of the loop. -/
theorem Reachable.ledger (hm : Reachable m) (hl : m.loop? k = some l)
    (room : l.heap.slots.length < 2 ^ 32) (control : m.control.pendingOf k = [])
    (stack : m.pendingOf k = []) : Ledger l.heap (· ∈ m.rooted k) l.releases := by
  have books := (hm.balanced k).1.books.ledger l hl room
  rw [control, stack, List.nil_append, List.nil_append] at books
  exact books.congr (fun _ => .rfl) (fun _ => mem_rooted) (.refl _)

/-- A collection that begins comes to an end, and with it the releases. -/
theorem collection_rests (hm : Reachable m) (hl : m.loop? k = some l)
    (room : l.heap.slots.length < 2 ^ 32) {closes : Bool} (hc : m.control = .collect k { closes })
    (hy : m.Yields k) : ∃ n count x, m.Lasts n ∧ (run n m).stack = m.stack ∧
      (run n m).control = .signal (if closes then .done else .freed count) ∧
      (run n m).loop? k = some x ∧ x.releases = [] ∧ ∃ y, l.Thins y count ∧ x.heap = y.heap := by
  obtain ⟨n, c, h⟩ := collection_ends hm hc hl room hy
  obtain ⟨y, thins, empty, found⟩ := h.loop
  -- the end of a checkpoint is one more line in the history, and changes no record
  have same : (if closes then y.note .checked else y).heap = y.heap ∧
      (if closes then y.note .checked else y).releases = y.releases := by
    split <;> exact ⟨rfl, rfl⟩
  refine ⟨n, c, _, h.lasts, h.stack, ?_, found, same.2.trans empty, y, thins, same.1⟩
  rw [h.control, Nat.zero_add]

/-- As long as its slots have indices, the records of a loop are in balance with the handles on its
promises in every run:

* outside of collections, a promise with a handle has a record, two of them have two ids, every record
  either is that of a promise with a handle or is queued for release, once, and so the number of records
  is that of the promises with handles and of the queued releases;
* a collection, if what the tracker does about it returns and leaves the loop alone, comes to an end, has
  freed exactly the records to whose promises no handle is left by then, leaves no release in the queue,
  and says how many records it has freed. -/
theorem handles_balance_records (hm : Reachable m) (hl : m.loop? k = some l)
    (room : l.heap.slots.length < 2 ^ 32) :
    (¬ m.IsCollecting k →
      (∀ p ∈ m.rooted k, l.heap.Live p.id) ∧
      (∀ p ∈ m.rooted k, ∀ q ∈ m.rooted k, p.id = q.id → p = q) ∧
      (∀ id, l.heap.Live id →
        (∃ p ∈ m.rooted k, p.id = id) ∧ l.releases.count id = 0 ∨
          (¬ ∃ p ∈ m.rooted k, p.id = id) ∧ l.releases.count id = 1) ∧
      l.heap.size = (m.rooted k).length + l.releases.length) ∧
    (∀ closes, m.control = .collect k { closes } → (∀ s r, .collecting k s r ∉ m.stack) →
      m.Yields k → ∃ n count x, m.Lasts n ∧ (run n m).stack = m.stack ∧
        (run n m).control = .signal (if closes then .done else .freed count) ∧
        (run n m).loop? k = some x ∧ x.releases = [] ∧
        (∀ id r, x.heap.get? id = some r ↔
          l.heap.get? id = some r ∧ ∃ p ∈ (run n m).rooted k, p.id = id) ∧
        x.heap.size + count = l.heap.size) := by
  refine ⟨fun outside => ?_, fun closes hc unbegun hy => ?_⟩
  · have control : m.control.pendingOf k = [] := by
      cases hc : m.control with
      | collect j s => exact if_neg fun e => outside (.inl (by rw [hc, Control.loop?, e]))
      | _ => rfl
    have stack := pendingOf_eq_nil fun s r hf => outside (.inr ⟨s, r, hf⟩)
    have ledger := hm.ledger hl room control stack
    exact ⟨ledger.live, fun p hp q hq => ledger.distinct p q hp hq, fun id => ledger.count_eq,
      ledger.count (hm.wf hl) (Nat.le_of_lt room) (List.nodup_dedup _) fun _ => .rfl⟩
  · obtain ⟨n, count, x, lasts, stack, control, found, empty, y, thins, heap⟩ :=
      collection_rests hm hl room hc hy
    have ledger := (hm.run n).ledger found (by rw [heap, thins.slots]; exact room) (by rw [control]; rfl)
      (pendingOf_eq_nil (stack ▸ unbegun))
    rw [heap, empty] at ledger
    refine ⟨n, count, x, lasts, stack, control, found, empty, fun id r => ?_, ?_⟩
    · rw [heap]
      exact ledger.thinned thins
    · rw [heap]
      exact thins.size

/-- A machine whose script has let go of two promises: one was rejected with the other as its reason, and
the other has a derived promise that nobody kept. -/
def letGo : Machine :=
  let act (s : Step) (store : Option String) : Command := .step s store false
  (boot {} .console .native).obey
    [act (.newPromise "main") (some "p"), act (.newPromise "main") (some "q"),
      act (.attach .then_ "main" (.variable "q") none none) none,
      act (.reject "main" (.variable "p") (.variable "q")) none, act (.drop ["q", "p"]) none]

/-- The machine when its script begins a collection. -/
def sweptUp : Machine := letGo.start (.step (.collect "main") none false)

theorem reachable_sweptUp : Reachable sweptUp := .start (.obey (.boot _ _ _) _) (by cbv) _

theorem yields_sweptUp : sweptUp.Yields ⟨0⟩ :=
  (alwaysYields_of_isCalmFor (n := 10) (by cbv) (by cbv) (by cbv)).yields 0

theorem handles_balance_records_sweptUp :
    ∃ n count x, (run n sweptUp).control = .signal (.freed count) ∧
      (run n sweptUp).loop? ⟨0⟩ = some x ∧ x.releases = [] ∧
      (∀ id, x.heap.Live id → ∃ p ∈ (run n sweptUp).rooted ⟨0⟩, p.id = id) ∧
      x.heap.size + count = 3 := by
  obtain ⟨l, hl⟩ := Option.isSome_iff_exists.mp (by cbv : (sweptUp.loop? ⟨0⟩).isSome = true)
  have slots : (sweptUp.loop? ⟨0⟩).map (fun l => l.heap.slots.length) = some 3 := by cbv
  have size : (sweptUp.loop? ⟨0⟩).map (fun l => l.heap.size) = some 3 := by cbv
  rw [hl] at slots size
  have unbegun : sweptUp.turnsOf ⟨0⟩ = [] := by cbv
  obtain ⟨-, ends⟩ := handles_balance_records reachable_sweptUp hl
    (Nat.lt_of_le_of_lt (Nat.le_of_eq (Option.some.inj slots)) (by decide))
  obtain ⟨n, count, x, -, -, control, found, empty, left, freed⟩ := ends false (by cbv)
    (fun s r hf => List.filter_eq_nil_iff.mp unbegun _ hf rfl) yields_sweptUp
  refine ⟨n, count, x, control, found, empty, fun id live => ?_, freed.trans (Option.some.inj size)⟩
  obtain ⟨r, hr⟩ := live
  exact ((left id r).mp hr).2

end Machine
end PromiseLoop

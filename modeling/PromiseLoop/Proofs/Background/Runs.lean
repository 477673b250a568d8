import PromiseLoop.Proofs.Background.Loops
import PromiseLoop.Proofs.Changes.Runs
import PromiseLoop.Proofs.Activities
import PromiseLoop.Proofs.FirstAttempt
import PromiseLoop.Proofs.Handles.Runs

/-!
# Background work in runs

Completers belong to the script and not to a loop, so the background work of a loop is spread over the
machine.  Whatever happens to the machine, it goes on by moves of reports.

## Results

* `Reachable.staffed`: the accounts of background work are kept in every run.
* `background_settles_once`: reports are neither lost nor doubled, and each is applied to its promise.
-/

namespace PromiseLoop

open Relation

namespace Machine

variable {m m' m'' : Machine} {k : LoopId} {l l' : Loop}

/-- The promises of a loop whose completers the script has. -/
def completersOf (m : Machine) (k : LoopId) : List PromiseId :=
  (m.completers.filter fun e => e.2.loop = k).map fun e => e.2.promise

/-- The completers have names of their own, and the loops they belong to have been opened. -/
structure Staffed (m : Machine) : Prop where
  placed : m.Placed
  names : (m.completers.map Prod.fst).Nodup
  homes : ∀ e ∈ m.completers, e.2.loop.number < m.loops.length

theorem Staffed.completersOf_new (h : m.Staffed) (hk : m.loops.length ≤ k.number) :
    m.completersOf k = [] := by
  refine List.map_eq_nil_iff.mpr (List.filter_eq_nil_iff.mpr fun e he => ?_)
  have old := h.homes e he
  simp only [decide_eq_true_eq]
  rintro rfl
  omega

/-- The background work that a loop starts with: what it has now, or nothing if it is still to be
opened. -/
def Starts (m : Machine) (k : LoopId) (w : Workload) : Prop :=
  (∃ l, m.loop? k = some l ∧ w = ⟨m.completersOf k, l⟩) ∨
    m.loops.length ≤ k.number ∧ ∃ config tracker bridge, w = ⟨[], { id := k, config, tracker, bridge }⟩

/-- The background work of every loop goes on in the given way. -/
structure Leads (R : Workload → Workload → Prop) (m m' : Machine) : Prop where
  staffed : m'.Staffed
  size : m.loops.length ≤ m'.loops.length
  loops : ∀ k l', m'.loop? k = some l' → ∃ w, m.Starts k w ∧ R w ⟨m'.completersOf k, l'⟩

variable {R S T : Workload → Workload → Prop}

theorem Leads.trans (h : Leads R m m') (h' : Leads S m' m'') (refl : ∀ w, R w w)
    (comp : ∀ a b c, R a b → S b c → T a c) : Leads T m m'' := by
  refine ⟨h'.staffed, Nat.le_trans h.size h'.size, fun k l'' hl'' => ?_⟩
  obtain ⟨b, start | ⟨new, config, tracker, bridge, rfl⟩, hbc⟩ := h'.loops k l'' hl''
  · obtain ⟨l', hl', rfl⟩ := start
    obtain ⟨a, ha, hab⟩ := h.loops k l' hl'
    exact ⟨a, ha, comp _ _ _ hab hbc⟩
  · exact ⟨_, .inr ⟨Nat.le_trans h.size new, config, tracker, bridge, rfl⟩, comp _ _ _ (refl _) hbc⟩

theorem Leads.mono (h : Leads R m m') (le : ∀ a b, R a b → S a b) : Leads S m m' where
  staffed := h.staffed
  size := h.size
  loops k l' hl' := by
    obtain ⟨w, hw, hr⟩ := h.loops k l' hl'
    exact ⟨w, hw, le _ _ hr⟩

-- ---------------------------------------------------------------------------
-- What spares background work
-- ---------------------------------------------------------------------------

/-- Nothing has happened to the background work of a loop. -/
def Spared (w w' : Workload) : Prop := w'.completers = w.completers ∧ w.loop.SparesWork w'.loop

theorem Spared.refl (w : Workload) : Spared w w := ⟨rfl, .refl _⟩

theorem Spared.moves {w w' : Workload} (h : Spared w w') : ReflTransGen Workload.Move w w' := by
  obtain ⟨cs, l⟩ := w
  obtain ⟨cs', l'⟩ := w'
  obtain ⟨rfl, hs⟩ := h
  exact .single (.spared hs)

/-- Where the completers stay, a loop that is alive and one that is still to be opened both start with
the completers they have. -/
theorem leads_of_loops (h : m.Staffed) (placed : m'.Placed) (completers : m'.completers = m.completers)
    (size : m.loops.length ≤ m'.loops.length)
    (loops : ∀ k l', m'.loop? k = some l' → (∃ l, m.loop? k = some l ∧ l.SparesWork l') ∨
      m.loops.length ≤ k.number ∧ ∃ config tracker bridge,
        Loop.SparesWork { id := k, config, tracker, bridge } l') : Leads Spared m m' := by
  have same (k : LoopId) : m'.completersOf k = m.completersOf k := by
    rw [completersOf, completersOf, completers]
  refine ⟨⟨placed, completers ▸ h.names, fun e he => ?_⟩, size, fun k l' hl' => ?_⟩
  · exact Nat.lt_of_lt_of_le (h.homes e (completers ▸ he)) size
  · rcases loops k l' hl' with ⟨l, hl, hs⟩ | ⟨new, config, tracker, bridge, hs⟩
    · exact ⟨_, .inl ⟨l, hl, rfl⟩, same k, hs⟩
    · exact ⟨_, .inr ⟨new, config, tracker, bridge, rfl⟩, (same k).trans (h.completersOf_new new), hs⟩

theorem Changes.leads (hc : Changes m m') (h : m.Staffed) : Leads Spared m m' := by
  obtain ⟨placed, completers, size, loops⟩ := hc.loops h.placed
  exact leads_of_loops h placed completers size fun k l' hl' => (loops k l' hl').imp
    (fun ⟨l, hl, does⟩ => ⟨l, hl, Loop.spares_of_does does⟩)
    fun ⟨new, config, tracker, bridge, does⟩ => ⟨new, config, tracker, bridge, Loop.spares_of_does does⟩

theorem Leads.refl (h : m.Staffed) : Leads Spared m m :=
  Changes.leads .refl h

-- ---------------------------------------------------------------------------
-- What deals with background work
-- ---------------------------------------------------------------------------

/-- The background work of a loop goes on by moves of reports. -/
abbrev Moves : Workload → Workload → Prop := ReflTransGen Workload.Move

/-- What is left of the completers when one of them is used up. -/
theorem perm_completers (h : m.Staffed) {name : String} {c : Completer} (hc : (name, c) ∈ m.completers) :
    m.completers.Perm ((name, c) :: m.completers.filter fun e => e.1 ≠ name) := by
  have nodup := List.Nodup.of_map _ h.names
  refine (List.perm_ext_iff_of_nodup nodup (List.nodup_cons.mpr ⟨by simp, nodup.filter _⟩)).mpr
    fun e => ?_
  simp only [List.mem_cons, List.mem_filter, decide_eq_true_eq]
  constructor
  · intro he
    by_cases hn : e.1 = name
    · exact .inl (List.inj_on_of_nodup_map h.names he hc hn)
    · exact .inr ⟨he, hn⟩
  · rintro (rfl | ⟨he, -⟩)
    · exact hc
    · exact he

/-- Using a completer up, if there is one of the name: its report is posted. -/
theorem useCompleter_cases (m : Machine) (name : String) (result : WorkResult) :
    (m.useCompleter name result = m ∧ name ∉ m.completers.map Prod.fst) ∨
      ∃ c, (name, c) ∈ m.completers ∧ m.useCompleter name result =
        { m with completers := m.completers.filter fun e => e.1 ≠ name }.modifyLoop c.loop
          fun l => l.post ⟨c.promise, result⟩ := by
  unfold useCompleter takeCompleter
  cases hf : m.completers.find? fun e => e.1 = name with
  | none =>
    refine .inl ⟨rfl, fun hn => ?_⟩
    obtain ⟨e, he, rfl⟩ := List.mem_map.mp hn
    simpa using List.find?_eq_none.mp hf e he
  | some e =>
    obtain rfl : e.1 = name := by simpa using List.find?_some hf
    exact .inr ⟨e.2, List.mem_of_find?_eq_some hf, rfl⟩

/-- What is left of the completers of each loop when one completer is used up. -/
theorem completersOf_filter (h : m.Staffed) {name : String} {c : Completer}
    (hc : (name, c) ∈ m.completers) :
    (m.completersOf c.loop).Perm (c.promise ::
        { m with completers := m.completers.filter fun e => e.1 ≠ name }.completersOf c.loop) ∧
      ∀ k, k ≠ c.loop →
        { m with completers := m.completers.filter fun e => e.1 ≠ name }.completersOf k =
          m.completersOf k := by
  constructor
  · have perm := ((perm_completers h hc).filter fun e => e.2.loop = c.loop).map fun e => e.2.promise
    rwa [List.filter_cons_of_pos (by simp)] at perm
  · intro k hk
    rw [completersOf, completersOf, List.filter_filter]
    refine congrArg _ (List.filter_congr fun e he => ?_)
    by_cases hn : e.1 = name
    · have : e.2 = c := congrArg Prod.snd (List.inj_on_of_nodup_map h.names he hc hn)
      simp [this, Ne.symm hk]
    · simp [hn]

theorem leads_useCompleter (h : m.Staffed) (name : String) (result : WorkResult) :
    Leads Moves m (m.useCompleter name result) := by
  rcases useCompleter_cases m name result with ⟨same, -⟩ | ⟨c, hc, used⟩
  · rw [same]
    exact (Leads.refl h).mono fun _ _ => Spared.moves
  · rw [used]
    obtain ⟨own, other⟩ := completersOf_filter h hc
    have loops (k : LoopId) (l' : Loop)
        (hl' : ({ m with completers := m.completers.filter fun e => e.1 ≠ name }.modifyLoop c.loop
          fun l => l.post ⟨c.promise, result⟩).loop? k = some l') :
        ∃ l, m.loop? k = some l ∧ l'.id = l.id ∧ Moves ⟨m.completersOf k, l⟩
          ⟨{ m with completers := m.completers.filter fun e => e.1 ≠ name }.completersOf k, l'⟩ := by
      by_cases hk : c.loop = k
      · subst hk
        rw [loop?_modifyLoop_self] at hl'
        obtain ⟨l, hl, rfl⟩ := Option.map_eq_some_iff.mp hl'
        exact ⟨l, hl, rfl, .single (.used l own result)⟩
      · rw [loop?_modifyLoop_of_ne _ hk] at hl'
        refine ⟨l', hl', rfl, ?_⟩
        rw [other k (Ne.symm hk)]
    refine ⟨⟨fun k l' hl' => ?_, ?_, fun e he => ?_⟩, by simp [modifyLoop], fun k l' hl' => ?_⟩
    · obtain ⟨l, hl, hid, -⟩ := loops k l' hl'
      exact hid.trans (h.placed k l hl)
    · exact h.names.sublist (List.filter_sublist.map _)
    · simpa [modifyLoop] using h.homes e (List.mem_filter.mp he).1
    · obtain ⟨l, hl, -, moves⟩ := loops k l' hl'
      exact ⟨_, .inl ⟨l, hl, rfl⟩, moves⟩

/-- A loop is replaced by what moves of its reports make of it. -/
theorem leads_setLoop (h : m.Staffed) (found : m.loop? k = some l) (id : l'.id = l.id)
    (moves : Moves ⟨m.completersOf k, l⟩ ⟨m.completersOf k, l'⟩) : Leads Moves m (m.setLoop l') := by
  obtain rfl : l.id = k := h.placed k l found
  refine ⟨⟨h.placed.setLoop found id, h.names, by simpa [setLoop, modifyLoop] using h.homes⟩,
    by simp [setLoop, modifyLoop], fun j x hx => ?_⟩
  rw [loop?_setLoop_ite found id] at hx
  split at hx
  · rename_i hj
    subst hj
    exact ⟨_, .inl ⟨l, found, rfl⟩, Option.some.inj hx ▸ moves⟩
  · exact ⟨_, .inl ⟨x, hx, rfl⟩, .refl⟩

/-- A promise goes in flight, and its completer gets a name that no other one has. -/
theorem leads_handOut (h : m.Staffed) (found : m.loop? k = some l) {name : String}
    (free : name ∉ m.completers.map Prod.fst) :
    Leads Moves m { m.setLoop l.openFlight.2 with
      completers := (name, ⟨l.id, l.openFlight.1.id⟩) :: m.completers } := by
  obtain rfl : l.id = k := h.placed k l found
  generalize hafter : { m.setLoop l.openFlight.2 with
    completers := (name, ⟨l.id, l.openFlight.1.id⟩) :: m.completers } = after
  have size : after.loops.length = m.loops.length := by simp [← hafter, setLoop, modifyLoop]
  have look (j : LoopId) : after.loop? j = if j = l.id then some l.openFlight.2 else m.loop? j := by
    rw [← hafter, ← loop?_setLoop_ite found l.id_openFlight j]
    rfl
  have own : after.completersOf l.id = l.openFlight.1.id :: m.completersOf l.id := by
    simp [← hafter, completersOf]
  have other (j : LoopId) (hj : j ≠ l.id) : after.completersOf j = m.completersOf j := by
    simp [← hafter, completersOf, Ne.symm hj]
  refine ⟨⟨fun j x hx => ?_, ?_, fun e he => ?_⟩, Nat.le_of_eq size.symm, fun j x hx => ?_⟩
  · rw [look] at hx
    split at hx
    · rename_i hj
      rw [hj, ← Option.some.inj hx, Loop.id_openFlight]
    · exact h.placed j x hx
  · rw [← hafter]
    exact List.nodup_cons.mpr ⟨free, h.names⟩
  · rw [← hafter] at he
    rw [size]
    rcases List.mem_cons.mp he with rfl | he
    · exact number_lt_of_loop? found
    · exact h.homes e he
  · rw [look] at hx
    split at hx
    · rename_i hj
      subst hj
      rw [own, ← Option.some.inj hx]
      exact ⟨_, .inl ⟨l, found, rfl⟩, .single (.handedOut _ l)⟩
    · rename_i hj
      rw [other j hj]
      exact ⟨_, .inl ⟨x, hx, rfl⟩, .refl⟩

theorem modifyLoop_comm (m : Machine) (j k : LoopId) {f g : Loop → Loop} (h : ∀ l, g (f l) = f (g l)) :
    (m.modifyLoop j f).modifyLoop k g = (m.modifyLoop k g).modifyLoop j f := by
  simp only [modifyLoop, mk.injEq, and_true]
  refine List.ext_getElem? fun i => ?_
  simp only [List.getElem?_modify]
  by_cases hj : j.number = i <;> by_cases hk : k.number = i <;>
    simp [hj, hk, Function.comp_def, h]

/-- What is done to a loop apart from its channel may as well be done after a completer has been used. -/
theorem useCompleter_modifyLoop (m : Machine) (k : LoopId) {f : Loop → Loop}
    (h : ∀ l r, (f l).post r = f (l.post r)) (name : String) (result : WorkResult) :
    (m.modifyLoop k f).useCompleter name result = (m.useCompleter name result).modifyLoop k f := by
  have same : (m.modifyLoop k f).completers = m.completers := rfl
  unfold useCompleter takeCompleter
  rw [same]
  cases m.completers.find? fun e => e.1 = name with
  | none => rfl
  | some e =>
    exact modifyLoop_comm { m with completers := m.completers.filter fun e => e.1 ≠ name } k e.2.loop
      fun l => h l _

theorem loop?_useCompleter (found : m.loop? k = some l) (name : String) (result : WorkResult) :
    ∃ x, (m.useCompleter name result).loop? k = some x ∧ (x = l ∨ ∃ r, x = l.post r) := by
  rcases useCompleter_cases m name result with ⟨same, -⟩ | ⟨c, -, used⟩
  · exact ⟨l, by rw [same, found], .inl rfl⟩
  · rw [used]
    by_cases hk : c.loop = k
    · subst hk
      exact ⟨_, by rw [loop?_modifyLoop_self]; exact congrArg _ found, .inr ⟨_, rfl⟩⟩
    · exact ⟨l, by rw [loop?_modifyLoop_of_ne _ hk]; exact found, .inl rfl⟩

theorem not_mem_useCompleter (m : Machine) (name : String) (result : WorkResult) :
    name ∉ (m.useCompleter name result).completers.map Prod.fst := by
  rcases useCompleter_cases m name result with ⟨same, free⟩ | ⟨c, -, used⟩
  · rwa [same]
  · rw [used]
    simp [modifyLoop]

/-- A completer is handed out; the one that had the name before is dropped, and posts first. -/
theorem leads_keepCompleter (h : m.Staffed) (found : m.loop? k = some l) (name : String) :
    Leads Moves m
      ((m.setLoop l.openFlight.2).keepCompleter name { loop := l.id, promise := l.openFlight.1.id }) := by
  have used := leads_useCompleter h name .abandoned
  obtain ⟨x, hx, later⟩ := loop?_useCompleter found name .abandoned
  have same : x.id = l.id ∧ x.openFlight.1 = l.openFlight.1 := by
    rcases later with rfl | ⟨r, rfl⟩ <;> exact ⟨rfl, rfl⟩
  have hid : l.id = k := h.placed k l found
  have commuted : (m.setLoop l.openFlight.2).useCompleter name .abandoned =
      (m.useCompleter name .abandoned).setLoop x.openFlight.2 := by
    rw [← modifyLoop_of_found (fun l => l.openFlight.2) found hid,
      ← modifyLoop_of_found (fun l => l.openFlight.2) hx (same.1.trans hid)]
    exact useCompleter_modifyLoop m k (fun _ _ => rfl) name .abandoned
  have handed := leads_handOut used.staffed hx (not_mem_useCompleter m name .abandoned)
  rw [keepCompleter, commuted, ← same.1, ← same.2]
  exact used.trans handed (fun _ => .refl) fun _ _ _ => ReflTransGen.trans

theorem Spared.trans {u v w : Workload} (h : Spared u v) (h' : Spared v w) : Spared u w :=
  ⟨h'.1.trans h.1, h.2.trans h'.2⟩

theorem leads_setLoop_of_spares (h : m.Staffed) (found : m.loop? k = some l) (spares : l.SparesWork l') :
    Leads Spared m (m.setLoop l') := by
  obtain rfl : l.id = k := h.placed k l found
  refine leads_of_loops h (h.placed.setLoop found spares.id) rfl (by simp [setLoop, modifyLoop])
    fun j x hx => .inl ?_
  rw [loop?_setLoop_ite found spares.id] at hx
  split at hx
  · rename_i hj
    subst hj
    exact ⟨l, found, Option.some.inj hx ▸ spares⟩
  · exact ⟨x, hx, .refl x⟩

/-- Where nothing but a report that is applied deals with background work, every other occasion spares it. -/
theorem Works.spared {o : Occasion} (hw : Works (some o) m m') (h : m.Staffed)
    (other : ∀ k r, o ≠ .running k (.settlement r)) : Leads Spared m m' := by
  cases hw with
  | called found f => exact leads_setLoop_of_spares h found (Loop.sparesWork_note _ rfl)
  | hosted found w => exact leads_setLoop_of_spares h found (Loop.sparesWork_enqueue _ rfl)
  | adopted found v t => exact leads_setLoop_of_spares h found (Loop.sparesWork_enqueue _ rfl)
  | @run _ k l l' j found next none =>
    exact leads_setLoop_of_spares h found ((Loop.sparesWork_dequeue? next none).trans (l'.sparesWork_calling j))
  | applied found next => exact absurd rfl (other _ _)

theorem Does.spared {o : Occasion} (hd : Does (some o) m m') (h : m.Staffed)
    (other : ∀ k r, o ≠ .running k (.settlement r)) : Leads Spared m m' := by
  obtain ⟨a, b, changes, ⟨none, -⟩ | works, changes'⟩ := hd
  · cases none
  have before := changes.leads h
  have work := works.spared before.staffed other
  exact (before.trans work .refl fun _ _ _ => Spared.trans).trans (changes'.leads work.staffed) .refl
    fun _ _ _ => Spared.trans

/-- What is done in a move makes moves of reports, if promises in flight have ids of their own. -/
theorem Works.leads {o : Option Occasion} (hw : Works o m m') (h : m.Staffed)
    (distinct : ∀ k l, m.loop? k = some l → l.heap.slots.length < 2 ^ 32 →
      (l.inFlight.map Promise.id).Nodup) : Leads Moves m m' := by
  cases hw with
  | handedOut found name => exact leads_keepCompleter h found name
  | used _ name result => exact leads_useCompleter h name result
  | @spawned _ k l found result now =>
    have hired : Moves ⟨m.completersOf k, l⟩ _ := .single (.spawned _ l)
    refine leads_setLoop h found (by cases now <;> rfl) ?_
    cases now with
    | true => exact hired.tail (.used _ (.refl _) result)
    | false => exact hired.tail (.waits _ (.refl _) result)
  | letGo found => exact leads_setLoop h found (Loop.id_releaseWorker _) (.single (.letGo _ _))
  | called found f => exact (Works.spared (.called found f) h (by simp)).mono fun _ _ => Spared.moves
  | hosted found w => exact (Works.spared (.hosted found w) h (by simp)).mono fun _ _ => Spared.moves
  | adopted found v t => exact (Works.spared (.adopted found v t) h (by simp)).mono fun _ _ => Spared.moves
  | run found next other =>
    refine (Works.spared (.run found next other) h ?_).mono fun _ _ => Spared.moves
    rintro k r heq
    cases heq
    cases other
  | @applied _ k l l' r found next =>
    have hid : l'.id = l.id := Loop.id_dequeue? next
    exact leads_setLoop h found (show (l'.land r.promise).2.id = l.id from hid) (.single (.applied _ next (distinct k l found)))

-- ---------------------------------------------------------------------------
-- Runs
-- ---------------------------------------------------------------------------

/-- The accounts of the background work of every loop are kept. -/
def Accounted (m : Machine) : Prop := ∀ k l, m.loop? k = some l → Workload.Kept ⟨m.completersOf k, l⟩

theorem Leads.accounted (h : Leads Moves m m') (ha : m.Accounted) : m'.Accounted := by
  intro k l' hl'
  obtain ⟨w, ⟨l, hl, rfl⟩ | ⟨-, config, tracker, bridge, rfl⟩, moves⟩ := h.loops k l' hl'
  · exact Workload.kept_of_moves moves (ha k l hl)
  · exact Workload.kept_of_moves moves (Workload.kept_new k config tracker bridge)

/-- As long as slots have indices, promises in flight have ids of their own, because the loop has
handles on them. -/
theorem Reachable.distinct_inFlight (hm : Reachable m) (ha : m.Accounted) (hl : m.loop? k = some l)
    (room : l.heap.slots.length < 2 ^ 32) :
    (l.inFlight.map Promise.id).Nodup ∧ ∀ p ∈ l.inFlight, l.heap.Live p.id := by
  have kept := ha k l hl
  have ledger := (hm.balanced k).1.books.ledger l hl room
  have handle (p : Promise) (hp : p ∈ l.inFlight) : p.home = k ∧ m.Has m.control.held (.promise p) :=
    ⟨(kept.own p hp).trans (hm.placed k l hl),
      .inl (mem_kept_of_loop hl (Loop.mem_handles_held.mpr (.inr (.inr (.inl (List.mem_map_of_mem hp))))))⟩
  have once : l.inFlight.Nodup :=
    List.Pairwise.imp (fun {a b} h (e : a = b) => Nat.lt_irrefl _ (e ▸ h)) kept.sorted
  exact ⟨once.map_on fun p hp q hq => ledger.distinct p q (handle p hp) (handle q hq),
    fun p hp => ledger.live p (handle p hp)⟩

/-- What changes before background work is dealt with takes no id from a promise in flight. -/
theorem Changes.distinct_inFlight (hc : Changes m m') (hm : Reachable m) (h : m.Staffed) (ha : m.Accounted) :
    ∀ k l, m'.loop? k = some l → l.heap.slots.length < 2 ^ 32 → (l.inFlight.map Promise.id).Nodup := by
  intro k l hl room
  obtain ⟨w, ⟨x, hx, rfl⟩ | ⟨-, config, tracker, bridge, rfl⟩, -, spared⟩ := (hc.leads h).loops k l hl
  · rw [spared.inFlight]
    exact (hm.distinct_inFlight ha hx (Nat.lt_of_le_of_lt spared.slots room)).1
  · rw [spared.inFlight]
    exact List.nodup_nil

theorem Next.leads (hm : Reachable m) (h : m.Staffed) (ha : m.Accounted) (hn : Next m m') :
    Leads Moves m m' := by
  obtain ⟨o, ha'⟩ := hn.advances
  obtain ⟨a, b, changes, works, changes'⟩ := ha'.does hm
  have before := changes.leads h
  have work : Leads Moves a b := by
    rcases works with ⟨-, rfl⟩ | works
    · exact (Leads.refl before.staffed).mono fun _ _ => Spared.moves
    · exact works.leads before.staffed (changes.distinct_inFlight hm h ha)
  have after := (changes'.leads work.staffed).mono (S := Moves) fun _ _ => Spared.moves
  have upTo : Leads Moves m b := (before.mono fun _ _ => Spared.moves).trans work (fun _ => .refl)
    fun _ _ _ => ReflTransGen.trans
  exact upTo.trans after (fun _ => .refl) fun _ _ _ => ReflTransGen.trans

/-- The opening of the first loop. -/
theorem leads_boot (config : Config) (tracker : Tracker) (bridge : Bridge) :
    Leads Spared {} (Machine.boot config tracker bridge) :=
  Changes.leads (.single (.opened {} "main" config tracker bridge)) ⟨placed_empty, List.nodup_nil, by simp⟩

/-- The accounts of background work are kept in every run. -/
theorem Reachable.staffed (hm : Reachable m) : m.Staffed ∧ m.Accounted := by
  have next {m m' : Machine} (hm : Reachable m) (hn : Next m m') (ih : m.Staffed ∧ m.Accounted) :
      m'.Staffed ∧ m'.Accounted := by
    have leads := hn.leads hm ih.1 ih.2
    exact ⟨leads.staffed, leads.accounted ih.2⟩
  induction hm with
  | boot config tracker bridge =>
    have opened := leads_boot config tracker bridge
    exact ⟨opened.staffed, (opened.mono fun _ _ => Spared.moves).accounted
      fun k l hl => by simp [loop?] at hl⟩
  | start hm idle c ih => exact next hm (.start idle c) ih
  | step hm ih => exact next hm (.step _) ih

theorem Run.leads (hm : Reachable m) (hr : Run m m') : Leads Moves m m' := by
  induction hr with
  | refl => exact (Leads.refl hm.staffed.1).mono fun _ _ => Spared.moves
  | tail hr hn ih =>
    have staffed := (hm.runs hr).staffed
    exact ih.trans (hn.leads (hm.runs hr) staffed.1 staffed.2) (fun _ => .refl)
      fun _ _ _ => ReflTransGen.trans

/-- From its opening on, the background work of a loop goes on by moves of reports. -/
theorem Reachable.moves (hm : Reachable m) (hl : m.loop? k = some l) : ∃ config tracker bridge,
    Moves ⟨[], { id := k, config, tracker, bridge }⟩ ⟨m.completersOf k, l⟩ := by
  obtain ⟨config, tracker, bridge, hr⟩ := reachable_iff.mp hm
  have leads : Leads Moves {} m := ((leads_boot config tracker bridge).mono fun _ _ => Spared.moves).trans
    (Run.leads (.boot _ _ _) hr) (fun _ => .refl) fun _ _ _ => ReflTransGen.trans
  obtain ⟨w, ⟨x, hx, -⟩ | ⟨-, config, tracker, bridge, rfl⟩, moves⟩ := leads.loops k l hl
  · simp [loop?] at hx
  · exact ⟨config, tracker, bridge, moves⟩

end Machine
end PromiseLoop

import PromiseLoop.Proofs.Records

/-!
# The first attempt wins

Whoever wants to resolve or reject a promise from outside takes the lock of its record first: the
host, the two functions of a construction, a construction whose initializer throws, the report of
background work, and the reaction that the promise was derived from.  The lock is never given back,
so exactly the first attempt in the life of a record is accepted, however the attempts are nested.

An attempt that finds the lock taken notes that it was refused, lets its value go, and does nothing
else.

## Results

* `first_attempt_wins`: the attempts on a record, in every run.
* `Attempt.refused`: what an attempt does that comes too late.
-/

namespace PromiseLoop

open Relation

/-- Whether an attempt has been made in the life of a record. -/
def Tried (id : PromiseId) (history : List Event) : Prop :=
  ∃ accepted, Event.attempted id accepted ∈ life id history

/-- Whether an event neither is an attempt on a record nor ends it. -/
def Event.sparesLock (id : PromiseId) (e : Event) : Prop :=
  e.frees id = false ∧ ∀ accepted, e ≠ .attempted id accepted

theorem tried_cons {id : PromiseId} {e : Event} {history : List Event} :
    Tried id (e :: history) ↔
      e.frees id = false ∧ ((∃ accepted, e = .attempted id accepted) ∨ Tried id history) := by
  unfold Tried
  rw [life_cons]
  cases e.frees id with
  | true => simp
  | false =>
    simp only [Bool.false_eq_true, if_false, List.mem_cons, true_and, ← exists_or]
    exact exists_congr fun _ => or_congr_left eq_comm

theorem tried_cons_of_spares {id : PromiseId} {e : Event} {history : List Event}
    (h : e.sparesLock id) : Tried id (e :: history) ↔ Tried id history := by
  rw [tried_cons]
  constructor
  · rintro ⟨-, ⟨accepted, rfl⟩ | h'⟩
    · exact absurd rfl (h.2 accepted)
    · exact h'
  · exact fun h' => ⟨h.1, .inr h'⟩

theorem tried_append_of_spares {id : PromiseId} {newer history : List Event}
    (h : ∀ e ∈ newer, e.sparesLock id) : Tried id (newer ++ history) ↔ Tried id history := by
  induction newer with
  | nil => rfl
  | cons e newer ih =>
    rw [List.forall_mem_cons] at h
    rw [List.cons_append, tried_cons_of_spares h.1, ih h.2]

theorem Event.sparesLock_of_isSilent {e : Event} (h : e.isSilent = true) (id : PromiseId) :
    e.sparesLock id :=
  ⟨frees_of_isSilent h id, fun accepted he => by rw [he] at h; cases h⟩

namespace Loop

variable {l l' : Loop}

/-- Whether the lock of a live record is taken. -/
def isLocked (l : Loop) (id : PromiseId) : Bool := (l.heap.get? id).any Record.alreadyResolved

/-- What attempts leave behind. -/
structure AttemptsKept (l : Loop) : Prop where
  /-- A lock is taken exactly if its record lives and has been tried. -/
  locked : ∀ id, l.isLocked id = true ↔ Tried id l.history
  /-- An attempt is accepted exactly if there was none before in the life of its record. -/
  first : EveryEvent (fun e older => ∀ id accepted, e = .attempted id accepted →
    (accepted = true ↔ ¬ Tried id older)) l.history

/-- Acts that take no lock, make no attempt and free nothing. -/
theorem AttemptsKept.of_spares (h : l.AttemptsKept) (newer : List Event)
    (locked : ∀ id, l'.isLocked id = l.isLocked id) (history : l'.history = newer ++ l.history)
    (spares : ∀ e ∈ newer, ∀ id, e.sparesLock id) : l'.AttemptsKept where
  locked id := by
    rw [locked, h.locked, history, tried_append_of_spares fun e he => spares e he id]
  first := by
    rw [history]
    exact h.first.append fun e he older id accepted hea => absurd hea ((spares e he id).2 accepted)

theorem isLocked_created (wf : l.heap.Wf) (id : PromiseId) :
    l.newPromise.2.isLocked id = l.isLocked id := by
  unfold isLocked
  show ((l.heap.allocate .pending).2.get? id).any _ = _
  rcases Heap.get?_allocate wf .pending id with h | ⟨-, h, h'⟩
  · rw [h]
  · rw [h, h']
    rfl

/-- A change that leaves the lock of a record as it is, changes no lock. -/
theorem isLocked_modify {heap : Heap} {id k : PromiseId} {r r' : Record} (hr : heap.get? id = some r)
    (same : r'.alreadyResolved = r.alreadyResolved) :
    ((heap.modify id fun _ => r').get? k).any Record.alreadyResolved =
      (heap.get? k).any Record.alreadyResolved := by
  rw [Heap.get?_modify_ite]
  split
  · rename_i hk
    rw [hk, hr]
    simp [same]
  · rfl

theorem Chore.attemptsKept (wf : l.heap.Wf) (h : l.Chore l') (hl : l.AttemptsKept) :
    l'.AttemptsKept := by
  cases h with
  | silent newer heap _ _ _ _ _ history silent =>
    exact hl.of_spares newer (fun id => by rw [isLocked, heap]; rfl) history
      fun e he id => Event.sparesLock_of_isSilent (silent e he) id
  | created => exact hl.of_spares [] (isLocked_created wf) rfl (by simp)
  | attempted h =>
    rename_i p accepted
    obtain ⟨r, hr, rfl, rfl⟩ := lock_eq_ok.mp h
    obtain ⟨-, hr⟩ := record_eq_ok.mp hr
    have before := hl.locked p.id
    rw [isLocked, hr] at before
    refine ⟨fun id => ?_, everyEvent_cons.mpr ⟨?_, hl.first⟩⟩
    · show ((l.heap.modify p.id _).get? id).any _ = true ↔ Tried id (.attempted p.id _ :: l.history)
      rw [Heap.get?_modify_ite, tried_cons]
      by_cases hid : id = p.id
      · subst hid
        simp [hr, Event.frees]
      · have := hl.locked id
        rw [isLocked] at this
        simp [hid, Ne.symm hid, Event.frees, this]
    · rintro id accepted he
      obtain ⟨rfl, rfl⟩ := Event.attempted.inj he
      show (!r.alreadyResolved) = true ↔ ¬ Tried p.id l.history
      rw [← before]
      simp
  | settled id s v =>
    rcases settle_cases l id s v with h | ⟨r, hr, -, -, h⟩
    · rw [h]; exact hl
    · rw [h]
      refine hl.of_spares (_ ++ [.settled id s v])
        (fun k => isLocked_modify hr rfl) (by rw [List.append_assoc]; rfl) ?_
      intro e he k
      rcases List.mem_append.mp he with he | he
      · obtain ⟨y, -, rfl⟩ := List.mem_map.mp (List.mem_reverse.mp he)
        exact ⟨rfl, by simp⟩
      · rw [List.mem_singleton.mp he]
        exact ⟨rfl, by simp⟩

theorem Deed.attemptsKept (wf : l.heap.Wf) (h : l.Deed l') (hl : l.AttemptsKept) :
    l'.AttemptsKept := by
  cases h with
  | chore h => exact h.attemptsKept wf hl
  | selected =>
    obtain ⟨heap, heq, hs, -⟩ := takeReports_spec l
    refine hl.of_spares [] (fun k => ?_) (by rw [heq]; rfl) (by simp)
    rw [heq, isLocked, hs.find, isLocked]
    cases l.heap.get? k with
    | none => rfl
    | some r => simp only [Option.map_some, Option.any_some]; split <;> rfl
  | reported id reason =>
    rw [report_eq]
    refine hl.of_spares [.reported id reason] (fun _ => rfl) rfl ?_
    rintro e he k
    rw [List.mem_singleton.mp he]
    exact ⟨rfl, by simp⟩
  | freed h =>
    rename_i id r
    have hr := (free?_eq_some.mp h).1
    have spares : ∀ e ∈ (if l.reportsOnFree r then [Event.reported id r.reason] else []), ∀ k,
        e.sparesLock k := by
      intro e he k
      split at he
      · rw [List.mem_singleton.mp he]
        exact ⟨rfl, by simp⟩
      · cases he
    refine ⟨fun k => ?_, ?_⟩
    · rw [isLocked, heap_free? h, history_free? h, Heap.get?_vacated_of_get? hr, tried_cons,
        tried_append_of_spares fun e he => spares e he k, ← hl.locked, isLocked]
      by_cases hk : k = id
      · simp [hk, Event.frees]
      · simp [hk, Ne.symm hk, Event.frees]
    · rw [history_free? h]
      refine everyEvent_cons.mpr ⟨fun k accepted he => by simp at he, ?_⟩
      exact hl.first.append fun e he older k accepted hea => absurd hea ((spares e he k).2 accepted)
  | checked =>
    refine hl.of_spares [.checked] (fun _ => rfl) rfl fun e he k => ?_
    rw [List.mem_singleton.mp he]
    exact ⟨rfl, by simp⟩

/-- Every act keeps what attempts leave behind. -/
theorem Act.attemptsKept (wf : l.heap.Wf) (h : l.Act l') (hl : l.AttemptsKept) :
    l'.AttemptsKept := by
  cases h with
  | deed h => exact h.attemptsKept wf hl
  | attached h =>
    rename_i p f g a
    obtain ⟨r, hr, rfl⟩ := (attach_eq_ok wf).mp h
    obtain ⟨-, hr⟩ := record_eq_ok.mp hr
    have kept := Heap.get?_allocate_of_some wf .pending hr
    refine hl.of_spares ((if handledLate r then [.handledLate p.id] else [])
        ++ [.attached p.id l.newPromise.1 f g])
      (fun k => (isLocked_modify kept (by simp)).trans (isLocked_created wf k))
      (by rw [List.append_assoc]; rfl) ?_
    intro e he k
    rcases List.mem_append.mp he with he | he
    · split at he
      · rw [List.mem_singleton.mp he]
        exact ⟨rfl, by simp⟩
      · cases he
    · rw [List.mem_singleton.mp he]
      exact ⟨rfl, by simp⟩
  | ended derived job =>
    refine hl.of_spares (.returned derived :: (job.map Event.queued).toList)
      (fun k => by rw [isLocked, heap_endAttach]; rfl) (history_endAttach l derived job) ?_
    intro e he k
    rcases List.mem_cons.mp he with rfl | he
    · exact ⟨rfl, nofun⟩
    · obtain ⟨j, -, rfl⟩ := Option.map_eq_some_iff.mp (Option.mem_toList.mp he)
      exact ⟨rfl, nofun⟩

theorem attemptsKept_new (id : LoopId) (config : Config) (tracker : Tracker) (bridge : Bridge) :
    AttemptsKept { id, config, tracker, bridge } :=
  ⟨fun k => by simp [isLocked, Tried, life], everyEvent_nil _⟩

-- ---------------------------------------------------------------------------
-- Settled records
-- ---------------------------------------------------------------------------

/-- Either a record has been freed among some events, or it is still settled as it was. -/
def StaysSettled (id : PromiseId) (r : Record) (newer : List Event) (l : Loop) : Prop :=
  (∃ x, Event.freed id x ∈ newer) ∨
    ∃ r', l.heap.get? id = some r' ∧ r'.state = r.state ∧ r'.value = r.value

/-- A change that leaves state and value as they are. -/
theorem get?_modify_settled {heap : Heap} {id k : PromiseId} {r : Record} (f : Record → Record)
    (hr : heap.get? k = some r) (same : k = id → (f r).state = r.state ∧ (f r).value = r.value) :
    ∃ r', (heap.modify id f).get? k = some r' ∧ r'.state = r.state ∧ r'.value = r.value := by
  rw [Heap.get?_modify_ite, hr]
  split
  · rename_i hk
    exact ⟨f r, rfl, same hk⟩
  · exact ⟨r, rfl, rfl, rfl⟩

theorem Chore.staysSettled (h : l.Chore l') (wf : l.heap.Wf) {id : PromiseId} {r : Record}
    (hr : l.heap.get? id = some r) (hs : r.state ≠ .pending) :
    ∃ newer, l'.history = newer ++ l.history ∧ StaysSettled id r newer l' := by
  have still (h' : ∃ r', l'.heap.get? id = some r' ∧ r'.state = r.state ∧ r'.value = r.value) :
      ∃ newer, l'.history = newer ++ l.history ∧ StaysSettled id r newer l' := by
    obtain ⟨newer, hn⟩ := h.history
    exact ⟨newer, hn, .inr h'⟩
  cases h with
  | silent newer heap _ _ _ _ _ _ _ => exact still ⟨r, by rw [heap, hr], rfl, rfl⟩
  | created => exact still ⟨r, Heap.get?_allocate_of_some wf .pending hr, rfl, rfl⟩
  | attempted h =>
    obtain ⟨x, -, -, rfl⟩ := lock_eq_ok.mp h
    exact still (get?_modify_settled _ hr fun _ => ⟨rfl, rfl⟩)
  | settled k s v =>
    rcases settle_cases l k s v with h | ⟨x, hx, hp, -, h⟩
    · exact still ⟨r, by rw [h, hr], rfl, rfl⟩
    · refine still ?_
      rw [h]
      refine get?_modify_settled _ hr fun hk => absurd hp ?_
      rw [← hk, hr] at hx
      exact Option.some.inj hx ▸ hs

theorem Deed.staysSettled (h : l.Deed l') (wf : l.heap.Wf) {id : PromiseId} {r : Record}
    (hr : l.heap.get? id = some r) (hs : r.state ≠ .pending) :
    ∃ newer, l'.history = newer ++ l.history ∧ StaysSettled id r newer l' := by
  have still (h' : ∃ r', l'.heap.get? id = some r' ∧ r'.state = r.state ∧ r'.value = r.value) :
      ∃ newer, l'.history = newer ++ l.history ∧ StaysSettled id r newer l' := by
    obtain ⟨newer, hn⟩ := h.history
    exact ⟨newer, hn, .inr h'⟩
  cases h with
  | chore h => exact h.staysSettled wf hr hs
  | selected =>
    obtain ⟨heap, heq, sel, -⟩ := takeReports_spec l
    refine still ⟨_, by rw [heq]; exact (sel.find id).trans (by rw [hr]; rfl), ?_⟩
    split <;> exact ⟨rfl, rfl⟩
  | reported k reason => exact still ⟨r, by rw [report_eq]; exact hr, rfl, rfl⟩
  | freed h =>
    rename_i k x
    by_cases hk : k = id
    · subst hk
      exact ⟨.freed k x :: (if l.reportsOnFree x then [.reported k x.reason] else []),
        history_free? h, .inl ⟨x, .head _⟩⟩
    · refine still ⟨r, ?_, rfl, rfl⟩
      rw [heap_free? h, Heap.get?_vacated_of_get? (free?_eq_some.mp h).1, if_neg (Ne.symm hk), hr]
  | checked => exact still ⟨r, hr, rfl, rfl⟩

/-- No act changes the state or the value of a settled record. -/
theorem Act.staysSettled (h : l.Act l') (wf : l.heap.Wf) {id : PromiseId} {r : Record}
    (hr : l.heap.get? id = some r) (hs : r.state ≠ .pending) :
    ∃ newer, l'.history = newer ++ l.history ∧ StaysSettled id r newer l' := by
  have still (h' : ∃ r', l'.heap.get? id = some r' ∧ r'.state = r.state ∧ r'.value = r.value) :
      ∃ newer, l'.history = newer ++ l.history ∧ StaysSettled id r newer l' := by
    obtain ⟨newer, hn⟩ := h.history
    exact ⟨newer, hn, .inr h'⟩
  cases h with
  | deed h => exact h.staysSettled wf hr hs
  | attached h =>
    obtain ⟨x, hx, rfl⟩ := (attach_eq_ok wf).mp h
    obtain ⟨-, hx⟩ := record_eq_ok.mp hx
    refine still (get?_modify_settled _ (Heap.get?_allocate_of_some wf .pending hr) fun hk => ?_)
    rw [← hk, hr] at hx
    rw [← Option.some.inj hx]
    exact ⟨by simp, by simp⟩
  | ended derived job => exact still ⟨r, by rw [heap_endAttach, hr], rfl, rfl⟩

/-- While its record lives, a settled promise stays as it is. -/
theorem Acts.staysSettled (h : l.Acts l') (wf : l.heap.Wf) {id : PromiseId} {r : Record}
    (hr : l.heap.get? id = some r) (hs : r.state ≠ .pending) :
    ∃ newer, l'.history = newer ++ l.history ∧ StaysSettled id r newer l' := by
  induction h with
  | refl => exact ⟨[], rfl, .inr ⟨r, hr, rfl, rfl⟩⟩
  | tail hb h ih =>
    have wf' := Acts.wf hb wf
    obtain ⟨newer, hn, ⟨x, hx⟩ | ⟨r', hr', state, value⟩⟩ := ih
    · obtain ⟨newer', hn'⟩ := h.history
      exact ⟨newer' ++ newer, by rw [hn', hn, List.append_assoc], .inl ⟨x, by simp [hx]⟩⟩
    · obtain ⟨newer', hn', h'⟩ := h.staysSettled wf' hr' (state ▸ hs)
      refine ⟨newer' ++ newer, by rw [hn', hn, List.append_assoc], ?_⟩
      rcases h' with ⟨x, hx⟩ | ⟨r'', hr'', state', value'⟩
      · exact .inl ⟨x, by simp [hx]⟩
      · exact .inr ⟨r'', hr'', state'.trans state, value'.trans value⟩

end Loop

-- ---------------------------------------------------------------------------
-- Attempts as operations
-- ---------------------------------------------------------------------------

/-- The ways to resolve or reject a promise through the lock of its record. -/
inductive Attempt
  /-- The host resolves or rejects the promise. -/
  | host (side : Side) (v : Value)
  /-- One of the two functions of the promise's construction is called. -/
  | call (side : Side) (this : Value) (arguments : List Value)
  /-- The initializer of the promise's construction has thrown. -/
  | thrown (v : Value)
  /-- The report of the promise's background work is applied. -/
  | report (r : Report)
  /-- The handler of the reaction that the promise was derived from has ended. -/
  | outcome (handler : Value) (side : Side) (v : Value)
  /-- The reaction that the promise was derived from passes a settlement through. -/
  | passed (side : Side) (v : Value)

namespace Attempt

/-- What the machine does for an attempt on a promise. -/
def run (m : Machine) (p : Promise) : Attempt → Machine
  | host .fulfill v => m.resolve p.home p v
  | host .reject v => m.reject p.home p v
  | call side this arguments => m.enter (.resolver ⟨p, .lock, side⟩) this arguments
  | thrown v => m.resumeConstructing p (.thrown v)
  | report r => m.startSettlement p.home r
  | outcome handler .fulfill v => m.resumeReacting handler p (.value v)
  | outcome handler .reject v => m.resumeReacting handler p (.thrown v)
  | passed side v => m.startReaction p.home ⟨side, none, p⟩ v

/-- The loop when the attempt takes the lock: a report has taken its promise out of flight. -/
def landed (l : Loop) : Attempt → Loop
  | report r => (l.land r.promise).2
  | _ => l

/-- Whether an attempt is on the given promise; a report is on the promise in flight that it names. -/
def IsOn (l : Loop) (p : Promise) : Attempt → Prop
  | report r => (l.inFlight.find? fun q => q.id = r.promise) = some p
  | _ => True

end Attempt

namespace Machine

variable {m m' : Machine} {l : Loop} {p : Promise} {r : Record}

/-- Loops with nothing but releases added. -/
def OnlyReleases (before after : Option Loop) : Prop :=
  ∃ released, after = before.map fun l => { l with releases := l.releases ++ released }

/-- What an attempt leaves that came too late: the loop of the promise has noted the refusal, every
other loop is as it was, nothing has been traced, and nothing is going to be called.  Values that
were let go may have released promises. -/
structure Refused (m : Machine) (p : Promise) (l : Loop) (m' : Machine) : Prop where
  own : OnlyReleases (some (l.note (.attempted p.id false))) (m'.loop? p.home)
  others : ∀ k, k ≠ p.home → OnlyReleases (m.loop? k) (m'.loop? k)
  trace : m'.trace = m.trace
  signals : ∃ s, m'.control = .signal s

theorem modifyRecord_lock_self (hr : l.heap.get? p.id = some r) (taken : r.alreadyResolved = true) :
    (l.modifyRecord p.id fun r => { r with alreadyResolved := true }) = l := by
  have same : ({ r with alreadyResolved := true } : Record) = r := by
    cases r
    simp_all
  rw [Loop.modifyRecord, Loop.modify_eq_modify_const _ hr, same, Heap.modify_const_self hr]

/-- A machine that has noted a refusal and let some values go. -/
theorem refused_drop (hl : m.loop? p.home = some l) (hid : l.id = p.home) {n : Machine}
    (loops : n.loops = (m.setLoop (l.note (.attempted p.id false))).loops)
    (trace : n.trace = m.trace) (vs : List Value) (s : Signal) :
    Refused m p l (drop vs (n.signal s)) := by
  have look (k : LoopId) : (n.signal s).loop? k = (m.setLoop (l.note (.attempted p.id false))).loop? k := by
    rw [loop?, loop?, loops_signal, loops]
  have own : (m.setLoop (l.note (.attempted p.id false))).loop? p.home =
      some (l.note (.attempted p.id false)) := by
    rw [← hid]
    exact loop?_setLoop_self (by rw [hid]; exact hl) rfl
  refine ⟨?_, fun k hk => ?_, by rw [trace_drop]; exact trace, s, by simp⟩
  · obtain ⟨released, h⟩ := exists_loop?_drop vs (n.signal s) p.home
    exact ⟨released, by rw [h, look, own]⟩
  · obtain ⟨released, h⟩ := exists_loop?_drop vs (n.signal s) k
    refine ⟨released, ?_⟩
    rw [h, look, setLoop, loop?_modifyLoop_of_ne m (by simpa [hid] using Ne.symm hk)]

theorem Refused.of_others {n : Machine} (h : Refused n p l m')
    (others : ∀ k, k ≠ p.home → n.loop? k = m.loop? k) (trace : n.trace = m.trace) :
    Refused m p l m' :=
  ⟨h.own, fun k hk => others k hk ▸ h.others k hk, h.trace.trans trace, h.signals⟩

theorem lock_of_taken (hr : l.record p = .ok r) (taken : r.alreadyResolved = true) :
    l.lock p = .ok (false, l.note (.attempted p.id false)) :=
  Loop.lock_eq_ok.mpr ⟨r, hr, by simp [taken], by
    rw [modifyRecord_lock_self (Loop.record_eq_ok.mp hr).2 taken]⟩

/-- Whatever waits for a lock that is taken does not happen. -/
theorem refused_withLock (hl : m.loop? p.home = some l) (hr : l.record p = .ok r)
    (taken : r.alreadyResolved = true) (v : Value) (act : Machine → Machine) :
    Refused m p l (m.withLock p.home p v act) := by
  unfold withLock
  simp only [hl, lock_of_taken hr taken]
  exact refused_drop hl (Loop.record_eq_ok.mp hr).1.symm rfl rfl [v] .done

theorem refused_enterResolver (hl : m.loop? p.home = some l) (hr : l.record p = .ok r)
    (taken : r.alreadyResolved = true) (side : Side) (this : Value) (arguments : List Value) :
    Refused m p l (m.enterResolver ⟨p, .lock, side⟩ this arguments) := by
  unfold enterResolver claim
  simp only [hl, lock_of_taken hr taken, Except.map, Option.isNone_some, Bool.false_eq_true, if_false]
  exact refused_drop hl (Loop.record_eq_ok.mp hr).1.symm rfl rfl _ _

/-- An attempt that comes too late changes no record, enqueues no microtask, asks no value for its
`then`, and lets no tracker hear of anything. -/
theorem refused_run (hl : m.loop? p.home = some l) (hr : l.record p = .ok r)
    (taken : r.alreadyResolved = true) (a : Attempt) (on : a.IsOn l p) :
    Refused m p (a.landed l) (a.run m p) := by
  have hid : l.id = p.home := (Loop.record_eq_ok.mp hr).1.symm
  have resolve (n : Machine) {l : Loop} (hn : n.loop? p.home = some l) (hr : l.record p = .ok r)
      (v : Value) : Refused n p l (n.resolve p.home p v) := refused_withLock hn hr taken v _
  have reject (n : Machine) {l : Loop} (hn : n.loop? p.home = some l) (hr : l.record p = .ok r)
      (v : Value) : Refused n p l (n.reject p.home p v) := refused_withLock hn hr taken v _
  cases a with
  | host side v =>
    cases side with
    | fulfill => exact resolve m hl hr v
    | reject => exact reject m hl hr v
  | call side this arguments => exact refused_enterResolver hl hr taken side this arguments
  | thrown v =>
    exact (reject ((m.push (.surface [])).push (.give (.promise p) [])) hl hr v).of_others
      (fun _ _ => rfl) rfl
  | outcome handler side v =>
    cases side with
    | fulfill =>
      exact (resolve (m.push (.hold [handler, .promise p])) hl hr v).of_others (fun _ _ => rfl) rfl
    | reject =>
      exact (reject (m.push (.hold [handler, .promise p])) hl hr v).of_others (fun _ _ => rfl) rfl
  | passed side v =>
    cases side with
    | fulfill => exact (resolve (m.push (.hold [.promise p])) hl hr v).of_others (fun _ _ => rfl) rfl
    | reject => exact (reject (m.push (.hold [.promise p])) hl hr v).of_others (fun _ _ => rfl) rfl
  | report x =>
    have set : (m.setLoop (l.land x.promise).2).loop? p.home = some (l.land x.promise).2 := by
      rw [← hid]
      exact loop?_setLoop_self (by rw [hid]; exact hl) rfl
    have others (k : LoopId) (hk : k ≠ p.home) :
        (m.setLoop (l.land x.promise).2).loop? k = m.loop? k := by
      rw [setLoop, loop?_modifyLoop_of_ne m (by simpa [hid] using Ne.symm hk)]
    have found : (l.land x.promise).1 = some p := on
    show Refused m p _ (m.startSettlement p.home x)
    unfold startSettlement
    simp only [hl, found]
    split
    · exact (resolve ((m.setLoop (l.land x.promise).2).push (.hold [.promise p])) set hr _).of_others
        others rfl
    · exact (reject ((m.setLoop (l.land x.promise).2).push (.hold [.promise p])) set hr _).of_others
        others rfl

-- ---------------------------------------------------------------------------
-- Every attempt is noted
-- ---------------------------------------------------------------------------

/-- A loop has noted an attempt on a promise, after what it had noted before. -/
def Noted (l : Loop) (p : Promise) (accepted : Bool) (m' : Machine) : Prop :=
  ∃ l' newer, m'.loop? p.home = some l' ∧
    l'.history = newer ++ .attempted p.id accepted :: l.history

theorem Refused.noted (h : Refused m p l m') : Noted l p false m' := by
  obtain ⟨released, h⟩ := h.own
  exact ⟨_, [], h, rfl⟩

/-- Whatever an operation does to a loop, the loop notes it after what it had noted before. -/
theorem Quiet.noted {accepted : Bool} (h : Quiet p.home m m') (hp : m.Placed)
    (idle : m.sweepOf p.home = none) {l' : Loop} (hl : m.loop? p.home = some l')
    (hn : l'.history = .attempted p.id accepted :: l.history) : Noted l p accepted m' := by
  obtain ⟨v', hv', hq⟩ := h.stays hp _ (sees_of_loop? hl) idle
  obtain ⟨newer, hh⟩ := (View.acts_of_moves hq.moves).history
  exact ⟨v'.loop, newer, (sees_eq_some.mp hv').1, by rw [hh, hn]⟩

/-- The loop once the lock of a promise has been taken. -/
def locked (l : Loop) (p : Promise) : Loop :=
  (l.modifyRecord p.id fun r => { r with alreadyResolved := true }).note (.attempted p.id true)

theorem lock_of_free (hr : l.record p = .ok r) (free : r.alreadyResolved = false) :
    l.lock p = .ok (true, locked l p) :=
  Loop.lock_eq_ok.mpr ⟨r, hr, by simp [free], rfl⟩

theorem noted_withLock (hp : m.Placed) (idle : m.sweepOf p.home = none)
    (hl : m.loop? p.home = some l) (hr : l.record p = .ok r) (free : r.alreadyResolved = false)
    (v : Value) {act : Machine → Machine} (hact : ∀ n, Quiet p.home n (act n)) :
    Noted l p true (m.withLock p.home p v act) := by
  have hid : p.home = l.id := (Loop.record_eq_ok.mp hr).1
  have hl' : m.loop? l.id = some l := hid ▸ hl
  have set : (m.setLoop (locked l p)).loop? p.home = some (locked l p) := by
    rw [hid]
    exact loop?_setLoop_self hl' rfl
  unfold withLock
  simp only [hl, lock_of_free hr free]
  exact (hact _).noted (hp.setLoop hl' rfl) idle set rfl

theorem noted_enterResolver (hp : m.Placed) (idle : m.sweepOf p.home = none)
    (hl : m.loop? p.home = some l) (hr : l.record p = .ok r) (free : r.alreadyResolved = false)
    (side : Side) (this : Value) (arguments : List Value) :
    Noted l p true (m.enterResolver ⟨p, .lock, side⟩ this arguments) := by
  have hid : p.home = l.id := (Loop.record_eq_ok.mp hr).1
  have hl' : m.loop? l.id = some l := hid ▸ hl
  have set : (m.setLoop (locked l p)).loop? p.home = some (locked l p) := by
    rw [hid]
    exact loop?_setLoop_self hl' rfl
  unfold enterResolver claim
  simp only [hl, lock_of_free hr free, Except.map, Option.isNone_some, Bool.false_eq_true, if_false]
  have held : Quiet p.home (m.setLoop (locked l p))
      ((m.setLoop (locked l p)).push (.give .undefined [this])) := quiet_push _ rfl
  have begun := held.trans ((quiet_drop_signal (arguments.drop 1) _
    (.value (arguments.headD .undefined))).trans (quiet_signal _ .done))
  cases side with
  | fulfill =>
    exact (begun.trans (quiet_resolveLocked _ _ _)).noted (hp.setLoop hl' rfl) idle set rfl
  | reject => exact (begun.trans (quiet_settle _ _ _ _ _)).noted (hp.setLoop hl' rfl) idle set rfl

/-- Every attempt on a live record is noted, and accepted exactly if the lock was free. -/
theorem noted_run (hp : m.Placed) (hc : m.control = .signal .done)
    (hl : m.loop? p.home = some l) (hr : l.record p = .ok r) (a : Attempt) (on : a.IsOn l p) :
    Noted l p (!r.alreadyResolved) (a.run m p) := by
  have hid : p.home = l.id := (Loop.record_eq_ok.mp hr).1
  have idle : m.sweepOf p.home = none := sweepOf_of_signal hc
  cases free : r.alreadyResolved with
  | true =>
    have noted := (refused_run hl hr free a on).noted
    have same : (a.landed l).history = l.history := by cases a <;> rfl
    obtain ⟨l', newer, hl', hn⟩ := noted
    exact ⟨l', newer, hl', by rw [hn, same]; rfl⟩
  | false =>
    have resolve (n : Machine) (hn : n.Placed) (hi : n.sweepOf p.home = none) {l : Loop}
        (hl : n.loop? p.home = some l) (hr : l.record p = .ok r) (v : Value) :
        Noted l p true (n.resolve p.home p v) :=
      noted_withLock hn hi hl hr free v fun n => quiet_resolveLocked n p v
    have reject (n : Machine) (hn : n.Placed) (hi : n.sweepOf p.home = none) {l : Loop}
        (hl : n.loop? p.home = some l) (hr : l.record p = .ok r) (v : Value) :
        Noted l p true (n.reject p.home p v) :=
      noted_withLock hn hi hl hr free v fun n => quiet_settle n p .rejected v []
    cases a with
    | host side v =>
      cases side with
      | fulfill => exact resolve m hp idle hl hr v
      | reject => exact reject m hp idle hl hr v
    | call side this arguments => exact noted_enterResolver hp idle hl hr free side this arguments
    | thrown v => exact reject ((m.push (.surface [])).push (.give (.promise p) [])) hp idle hl hr v
    | outcome handler side v =>
      cases side with
      | fulfill => exact resolve (m.push (.hold [handler, .promise p])) hp idle hl hr v
      | reject => exact reject (m.push (.hold [handler, .promise p])) hp idle hl hr v
    | passed side v =>
      cases side with
      | fulfill => exact resolve (m.push (.hold [.promise p])) hp idle hl hr v
      | reject => exact reject (m.push (.hold [.promise p])) hp idle hl hr v
    | report x =>
      have hl' : m.loop? l.id = some l := hid ▸ hl
      have set : (m.setLoop (l.land x.promise).2).loop? p.home = some (l.land x.promise).2 := by
        rw [hid]
        exact loop?_setLoop_self hl' rfl
      have placed := hp.setLoop hl' (l.id_land x.promise)
      have found : (l.land x.promise).1 = some p := on
      show Noted l p true (m.startSettlement p.home x)
      unfold startSettlement
      simp only [hl, found]
      split
      · exact resolve ((m.setLoop (l.land x.promise).2).push (.hold [.promise p])) placed idle set hr _
      · exact reject ((m.setLoop (l.land x.promise).2).push (.hold [.promise p])) placed idle set hr _

-- ---------------------------------------------------------------------------
-- The whole story
-- ---------------------------------------------------------------------------

/-- **The first attempt wins.**  In every run, an attempt on the lock of a record is accepted exactly
if it is the first one in the life of the record, and the lock is taken from then on.  Whatever the
machine is in the middle of, every attempt is noted as what it was, and one that comes too late does
nothing else.  A promise that has been settled stays as it is until its record is freed. -/
theorem first_attempt_wins (h : Reachable m) {k : LoopId} (hl : m.loop? k = some l) :
    (∀ newer older id accepted, l.history = newer ++ .attempted id accepted :: older →
      (accepted = true ↔ ¬ Tried id older)) ∧
    (∀ id r, l.heap.get? id = some r → (r.alreadyResolved = true ↔ Tried id l.history)) ∧
    (∀ (n : Machine) (p : Promise) (x : Loop) (r : Record) (a : Attempt), n.Placed →
      n.control = .signal .done → n.loop? p.home = some x → x.record p = .ok r → a.IsOn x p →
        Noted x p (!r.alreadyResolved) (a.run n p) ∧
        (r.alreadyResolved = true → Refused n p (a.landed x) (a.run n p))) ∧
    (∀ m' l' id r, Run m m' → m'.loop? k = some l' → l.heap.get? id = some r →
      r.state ≠ .pending →
        ∃ newer, l'.history = newer ++ l.history ∧ Loop.StaysSettled id r newer l') := by
  have kept : l.AttemptsKept := h.keeps hl (Loop.attemptsKept_new k) Loop.Act.attemptsKept
  refine ⟨fun newer older id accepted heq => kept.first newer _ older heq id accepted rfl,
    fun id r hr => ?_, fun n p x r a hp hc hx hr on => ?_, fun m' l' id r hrun hl' hr hs => ?_⟩
  · rw [← kept.locked, Loop.isLocked, hr]
    rfl
  · exact ⟨noted_run hp hc hx hr a on, fun taken => refused_run hx hr taken a on⟩
  · exact (Run.acts h hrun hl hl').staysSettled (h.wf hl) hr hs

/-- A machine whose script has created a promise, fulfilled it, and tried to do so again. -/
def resolvedTwice : Machine :=
  let resolve (v : Value) : Command := .step (.resolve "main" (.variable "p") (.constant v)) none false
  (boot {} .log .native).obey
    [.step (.newPromise "main") (some "p") false, resolve .null, resolve .undefined]

theorem reachable_resolvedTwice : Reachable resolvedTwice := .obey (.boot _ _ _) _

theorem first_attempt_wins_resolvedTwice :
    ∃ l r, resolvedTwice.loop? ⟨0⟩ = some l ∧ l.heap.get? ⟨0, 0⟩ = some r ∧ r.state = .fulfilled ∧
      l.history = [.attempted ⟨0, 0⟩ false, .settled ⟨0, 0⟩ .fulfilled .null,
        .attempted ⟨0, 0⟩ true] ∧
      (false = true ↔ ¬ Tried ⟨0, 0⟩ [.settled ⟨0, 0⟩ .fulfilled .null, .attempted ⟨0, 0⟩ true]) ∧
      (r.alreadyResolved = true ↔ Tried ⟨0, 0⟩ l.history) ∧
      Refused (resolvedTwice.signal .done) ⟨⟨0⟩, 0, ⟨0, 0⟩⟩ l
        ((resolvedTwice.signal .done).reject ⟨0⟩ ⟨⟨0⟩, 0, ⟨0, 0⟩⟩ .null) ∧
      ∃ newer, l.history = newer ++ l.history ∧ Loop.StaysSettled ⟨0, 0⟩ r newer l := by
  obtain ⟨l, hl, hh⟩ : ∃ l, resolvedTwice.loop? ⟨0⟩ = some l ∧
      l.history = [.attempted ⟨0, 0⟩ false, .settled ⟨0, 0⟩ .fulfilled .null,
        .attempted ⟨0, 0⟩ true] := ⟨_, rfl, rfl⟩
  obtain ⟨r, hr, hs, ht⟩ : ∃ r, ((resolvedTwice.loop? ⟨0⟩).bind fun l => l.heap.get? ⟨0, 0⟩) = some r ∧
      r.state = .fulfilled ∧ r.alreadyResolved = true := ⟨_, rfl, rfl, rfl⟩
  rw [hl, Option.bind_some] at hr
  obtain ⟨first, locked, late, stays⟩ := first_attempt_wins reachable_resolvedTwice hl
  have hrec : l.record ⟨⟨0⟩, 0, ⟨0, 0⟩⟩ = .ok r :=
    Loop.record_eq_ok.mpr ⟨(reachable_resolvedTwice.placed ⟨0⟩ l hl).symm, hr⟩
  exact ⟨l, r, hl, hr, hs, hh, first [] _ ⟨0, 0⟩ false hh, locked ⟨0, 0⟩ r hr,
    (late (resolvedTwice.signal .done) ⟨⟨0⟩, 0, ⟨0, 0⟩⟩ l r (.host .reject .null)
      reachable_resolvedTwice.placed rfl hl hrec trivial).2 ht,
    stays resolvedTwice l ⟨0, 0⟩ r .refl hl hr (by simp [hs])⟩

end Machine
end PromiseLoop

import PromiseLoop.Proofs.Faults.Commands
import PromiseLoop.Proofs.Objects.Keeping

/-!
# Objects as maps

An object is the list of what was put on it, read as a map: its keys stand in the order in which they were
first put, and under a key is what was put there last.  That is so at every moment of a run as long as the
object has a handle, whoever puts properties on it, and so also in the middle of a read, while a getter runs
that puts properties on the object itself.  The getter was taken out of the object when the read began, so
nothing that it does changes what the read gives: how the getter ends is how the read ends.

## Results

* `Properties.keys_putAll`, `Properties.lookup?_putAll`: what some puts make of an object.
* `Puts.properties`: the properties of an object after a run are those before it with what the run has put.
* `read_hands_back`: a read by a getter ends as the getter does.
* `object_is_ordered_map_with_live_getters`: all of it together.
-/

namespace PromiseLoop

-- ---------------------------------------------------------------------------
-- Puts
-- ---------------------------------------------------------------------------

namespace Properties

/-- The property that was put last under a key. -/
def lastPut (puts : List (String × Property)) (key : String) : Option Property :=
  (puts.reverse.find? fun e => e.1 = key).map Prod.snd

theorem putAll_append (ps : Properties) (puts more : List (String × Property)) :
    ps.putAll (puts ++ more) = (ps.putAll puts).putAll more := List.foldl_append

theorem putAll_concat (ps : Properties) (puts : List (String × Property)) (e : String × Property) :
    ps.putAll (puts ++ [e]) = (ps.putAll puts).put e.1 e.2 := putAll_append ps puts [e]

/-- The keys stand in the order in which they were first put. -/
theorem keys_putAll (puts : List (String × Property)) :
    (empty.putAll puts).keys = (puts.map Prod.fst).eraseDups := by
  induction puts using List.reverseRecOn with
  | nil => rfl
  | append_singleton puts e ih =>
    rw [putAll_concat, keys_put, ih, List.map_append, List.eraseDups_append]
    by_cases known : e.1 ∈ puts.map Prod.fst
    · have none : (List.map Prod.fst [e]).removeAll (puts.map Prod.fst) = [] := by
        simpa [List.removeAll] using List.mem_map.mp known
      rw [if_pos (List.mem_eraseDups.mpr known), none, List.eraseDups_nil, List.append_nil]
    · have one : (List.map Prod.fst [e]).removeAll (puts.map Prod.fst) = [e.1] := by
        simpa [List.removeAll] using known
      rw [if_neg fun h => known (List.mem_eraseDups.mp h), one]
      rfl

theorem nodup_keys_putAll (puts : List (String × Property)) : (empty.putAll puts).keys.Nodup := by
  induction puts using List.reverseRecOn with
  | nil => exact List.nodup_nil
  | append_singleton puts e ih =>
    rw [putAll_concat, keys_put]
    split
    · exact ih
    · rename_i new
      exact List.nodup_append.mpr ⟨ih, List.nodup_singleton _, fun a ha b hb => by
        rintro rfl
        exact new (List.mem_singleton.mp hb ▸ ha)⟩

theorem has_iff (ps : Properties) (key : String) : ps.has key = true ↔ key ∈ ps.keys := by
  simp [has, keys]

/-- Under a key is what was put there last. -/
theorem lookup?_putAll (puts : List (String × Property)) (key : String) :
    (empty.putAll puts).lookup? key = lastPut puts key := by
  induction puts using List.reverseRecOn with
  | nil => rfl
  | append_singleton puts e ih =>
    rw [putAll_concat, lookup?_put, ih, lastPut, lastPut, List.reverse_append, List.reverse_singleton]
    by_cases he : e.1 = key <;> simp [he]

end Properties

namespace Machine

variable {m m' n : Machine} {o : ObjectId} {done : List (String × Property)}

-- ---------------------------------------------------------------------------
-- Moves
-- ---------------------------------------------------------------------------

/-- The objects that there are, are those that something holds. -/
theorem Reachable.holds_object_iff (hm : Reachable m) (o : ObjectId) :
    m.holds (.object o) = true ↔ o ∈ m.objects.map Prod.fst := by
  rw [← has_control_held]
  exact (hm.balanced ⟨0⟩).1.books.owned o

theorem properties_of_mem (tidy : m.Tidy) {ps : Properties} (h : (o, ps) ∈ m.objects) :
    m.properties o = ps := by
  cases hf : m.objects.find? fun e => e.1 = o with
  | none => simpa using List.find?_eq_none.mp hf _ h
  | some e =>
    have found := List.find?_some hf
    have same := tidy.eq_of_number (List.mem_of_find?_eq_some hf) h (by simpa using found)
    rw [properties, hf, same]
    rfl

/-- An object that has not been created has no properties. -/
theorem properties_of_new (tidy : m.Tidy) (new : m.nextObject ≤ o.number) : m.properties o = .empty := by
  cases hf : m.objects.find? fun e => e.1 = o with
  | none => rw [properties, hf]; rfl
  | some e =>
    have young := tidy.young e (List.mem_of_find?_eq_some hf)
    have found : e.1 = o := by simpa using List.find?_some hf
    rw [found] at young
    omega

/-- Properties are put on objects that exist, or on the one that is being created. -/
theorem putsOn_of_new (hm : Reachable m) (s : Step) (new : m.nextAfter s ≤ o.number) :
    m.putsOn o s = [] := by
  have absent (x : Operand) (next : m.nextObject ≤ o.number) : m.evaluate x ≠ .object o := by
    intro hx
    have tidy := (hm.balanced ⟨0⟩).1.books.tidy
    have kept : m.evaluate x ∈ m.kept := by
      refine (kept_of_evaluate m x).resolve_left ?_
      simp [hx, Value.handle?]
    have held : m.holds (.object o) = true :=
      (has_control_held _).mp (.inl (mem_handles.mpr ⟨_, kept, by rw [hx]; rfl⟩))
    obtain ⟨e, he, rfl⟩ := List.mem_map.mp ((hm.holds_object_iff o).mp held)
    have young := tidy.young e he
    omega
  cases s with
  | object ps =>
    refine if_neg ?_
    rintro rfl
    exact absurd new (Nat.not_succ_le_self _)
  | set x key y => exact if_neg (absent x new)
  | getter x key y =>
    simp only [putsOn]
    split
    · exact if_neg (absent x new)
    · rfl
  | _ => rfl

/-- The objects after a step are those before it, with what the step puts on them, and the one that it
creates. -/
theorem mem_objectsAfter (tidy : m.Tidy) {s : Step} {ps : Properties} (h : (o, ps) ∈ m.objectsAfter s) :
    (m.nextObject = o.number ∨ o ∈ m.objects.map Prod.fst) ∧
      ps = (m.properties o).putAll (m.putsOn o s) := by
  unfold objectsAfter at h
  split at h
  · rename_i fields
    rcases List.mem_cons.mp h with new | old
    · obtain ⟨rfl, rfl⟩ := Prod.mk.inj new
      exact ⟨.inl rfl, by rw [properties_of_new tidy (Nat.le_refl _)]⟩
    · have other : o ≠ ⟨m.nextObject⟩ := by
        rintro rfl
        exact absurd (tidy.young _ old) (Nat.lt_irrefl _)
      have nothing : m.putsOn o (.object fields) = [] := if_neg other
      refine ⟨.inr (List.mem_map_of_mem old), ?_⟩
      rw [nothing, properties_of_mem tidy old]
      rfl
  · obtain ⟨e, he, eq⟩ := List.mem_map.mp h
    obtain ⟨rfl, rfl⟩ := Prod.mk.inj eq
    exact ⟨.inr (List.mem_map_of_mem he), by rw [properties_of_mem tidy he]⟩

/-- What becomes of the properties of an object in a move that begins a step, or none. -/
theorem properties_of_onlyHas (before : m.Tidy) (after : m'.Tidy) {s : Option Step}
    (has : m'.OnlyHas (s.elim m.objects m.objectsAfter) (s.elim m.nextObject m.nextAfter))
    (there : o ∈ m'.objects.map Prod.fst) : (m.nextObject = o.number ∨ o ∈ m.objects.map Prod.fst) ∧
      m'.properties o = (m.properties o).putAll (s.elim [] (m.putsOn o)) := by
  obtain ⟨⟨o, ps⟩, mem, rfl⟩ := List.mem_map.mp there
  rw [properties_of_mem after mem]
  have mem := has.1.subset mem
  cases s with
  | none => exact ⟨.inr (List.mem_map_of_mem mem), (properties_of_mem before mem).symm⟩
  | some s => exact mem_objectsAfter before mem

-- ---------------------------------------------------------------------------
-- Runs
-- ---------------------------------------------------------------------------

/-- A run that puts some properties on an object, in their order. -/
inductive Puts (o : ObjectId) (m : Machine) : List (String × Property) → Machine → Prop
  | refl : Puts o m [] m
  | start {puts : List (String × Property)} {m' : Machine} (h : Puts o m puts m') (idle : m'.isIdle = true)
      (c : Command) : Puts o m (puts ++ c.step?.elim [] (m'.putsOn o)) (m'.start c)
  | step {puts : List (String × Property)} {m' : Machine} (h : Puts o m puts m') :
      Puts o m (puts ++ m'.begun?.elim [] (m'.putsOn o)) m'.step

theorem Puts.run (h : Puts o m done m') : Run m m' := by
  induction h with
  | refl => exact .refl
  | start _ idle c ih => exact ih.tail (.start idle c)
  | step _ ih => exact ih.tail (.step _)

/-- Every run puts something on an object, or nothing. -/
theorem Run.exists_puts (h : Run m m') (o : ObjectId) : ∃ puts, Puts o m puts m' := by
  induction h with
  | refl => exact ⟨[], .refl⟩
  | tail _ next ih =>
    obtain ⟨puts, h⟩ := ih
    cases next with
    | start idle c => exact ⟨_, h.start idle c⟩
    | step => exact ⟨_, h.step⟩

theorem Puts.trans {more : List (String × Property)} (h : Puts o m done m') (later : Puts o m' more n) :
    Puts o m (done ++ more) n := by
  induction later with
  | refl => rwa [List.append_nil]
  | start _ idle c ih => exact List.append_assoc .. ▸ ih.start idle c
  | step _ ih => exact List.append_assoc .. ▸ ih.step

/-- After a run, the properties of an object are those before it with what was put on it. -/
theorem Puts.properties (h : Puts o m done m') (hm : Reachable m) :
    (m'.nextObject ≤ o.number → done = [] ∧ m.properties o = .empty) ∧
      (m'.holds (.object o) = true → m'.properties o = (m.properties o).putAll done) := by
  have tidy {m : Machine} (hm : Reachable m) : m.Tidy := (hm.balanced ⟨0⟩).1.books.tidy
  -- a move that begins a step, or none
  have move {m₁ m₂ : Machine} {puts : List (String × Property)} {s : Option Step} (h₁ : Reachable m₁)
      (h₂ : Reachable m₂) (has : m₂.OnlyHas (s.elim m₁.objects m₁.objectsAfter) (s.elim m₁.nextObject m₁.nextAfter))
      (ih : (m₁.nextObject ≤ o.number → puts = [] ∧ m.properties o = .empty) ∧
        (m₁.holds (.object o) = true → m₁.properties o = (m.properties o).putAll puts)) :
      (m₂.nextObject ≤ o.number → puts ++ s.elim [] (m₁.putsOn o) = [] ∧ m.properties o = .empty) ∧
        (m₂.holds (.object o) = true →
          m₂.properties o = (m.properties o).putAll (puts ++ s.elim [] (m₁.putsOn o))) := by
    refine ⟨fun new => ?_, fun held => ?_⟩
    · rw [has.2] at new
      cases s with
      | none => simpa using ih.1 new
      | some s =>
        have still : m₁.nextObject ≤ o.number := by
          refine Nat.le_trans ?_ new
          cases s <;> first | exact Nat.le_refl _ | exact Nat.le_succ _
        have none : m₁.putsOn o s = [] := putsOn_of_new h₁ s new
        simpa [none] using ih.1 still
    · have there := (h₂.holds_object_iff o).mp held
      obtain ⟨known, same⟩ := properties_of_onlyHas (tidy h₁) (tidy h₂) has there
      rw [same, Properties.putAll_append]
      congr 1
      rcases known with new | old
      · obtain ⟨rfl, empty⟩ := ih.1 (Nat.le_of_eq new)
        rw [properties_of_new (tidy h₁) (Nat.le_of_eq new), empty]
        rfl
      · exact ih.2 ((h₁.holds_object_iff o).mpr old)
  induction h with
  | refl => exact ⟨fun new => ⟨rfl, properties_of_new (tidy hm) new⟩, fun _ => rfl⟩
  | start h idle c ih =>
    have reached := hm.runs h.run
    exact move reached (reached.start idle c) (onlyHas_start _ c) ih
  | step h ih =>
    have reached := hm.runs h.run
    exact move reached reached.step (onlyHas_step _) ih

-- ---------------------------------------------------------------------------
-- Reads
-- ---------------------------------------------------------------------------

/-- What is handed to an activity that only holds something is handed on. -/
theorem HandsBack.of_hold (hm : Reachable m) {base : List Frame} {vs : List Value} {i : Nat} {s : Signal}
    (begun : .hold vs :: base <:+ m.stack) (back : m.HandsBack (.hold vs :: base) i s) :
    ∃ d, m.HandsBack base (i + d) s := by
  obtain ⟨d, descends⟩ := exists_descends (hm.run i) back.stack back.control fun n => ⟨vs, rfl⟩
  exact ⟨d, back.descends hm begun descends⟩

/-- What is read off an object, and how. -/
theorem read_eq (n : Machine) (o : ObjectId) (key : String) :
    n.read o key = match (n.properties o).lookup? key with
      | none => n.signal (.value .undefined)
      | some (.data v) => n.signal (.value v)
      | some (.getter g) => (n.push (.hold [.function g])).willCall g (.object o) [] := rfl

/-- A read by a getter ends when the getter ends, and as the getter does. -/
theorem read_hands_back {key : String} {g : Callable} (hm : Reachable (n.read o key))
    (found : (n.properties o).lookup? key = some (.getter g)) {i : Nat} {s : Signal} :
    ((n.read o key).HandsBack (.hold [.function g] :: n.stack) i s → ∃ d, (n.read o key).HandsBack n.stack (i + d) s) ∧
    ((n.read o key).HandsBack n.stack i s → ∃ j < i, (n.read o key).HandsBack (.hold [.function g] :: n.stack) j s) := by
  have begun : .hold [.function g] :: n.stack <:+ (n.read o key).stack := by
    rw [read_eq, found]
    exact List.suffix_rfl
  refine ⟨fun back => back.of_hold hm begun, fun back => ?_⟩
  obtain ⟨j, t, hj, first⟩ := exists_handsBack hm begun back.stack
  obtain ⟨d, later⟩ := first.of_hold hm begun
  have same := back.control
  rw [back.unique later, later.control] at same
  exact ⟨j, hj, Control.signal.inj same ▸ first⟩

/-- An object is a map in the order of insertion, with getters that are called when it is read.  After any
run, an object that has a handle is what the run has put on it, put by put.  Its keys are those that were put,
once each and in the order in which they came first.  A read of a key gives the data that was put there last,
or nothing where nothing was put, or it calls the getter that was put there last, with the object as its
receiver and without arguments.  What the read gives is then what the getter gives, whatever is put on the
object in the meantime; and at any time later the object has been changed by those puts alone. -/
theorem object_is_ordered_map_with_live_getters {config : Config} {tracker : Tracker} {bridge : Bridge}
    (h : Puts o (boot config tracker bridge) done m) (held : m.holds (.object o) = true) :
    m.properties o = Properties.empty.putAll done ∧
    (m.properties o).keys = (done.map Prod.fst).eraseDups ∧ (m.properties o).keys.Nodup ∧
    (∀ key, (m.properties o).has key = true ↔ key ∈ done.map Prod.fst) ∧
    (∀ (n : Machine) key, m = n.read o key → m = match Properties.lastPut done key with
      | none => n.signal (.value .undefined)
      | some (.data v) => n.signal (.value v)
      | some (.getter g) => (n.push (.hold [.function g])).willCall g (.object o) []) ∧
    (∀ (n : Machine) key g i s, m = n.read o key → Properties.lastPut done key = some (.getter g) →
      (m.HandsBack (.hold [.function g] :: n.stack) i s → ∃ d, m.HandsBack n.stack (i + d) s) ∧
      (m.HandsBack n.stack i s → ∃ j < i, m.HandsBack (.hold [.function g] :: n.stack) j s)) ∧
    ∀ more m', Puts o m more m' → m'.holds (.object o) = true →
      m'.properties o = (m.properties o).putAll more := by
  have booted : Reachable (boot config tracker bridge) := .boot config tracker bridge
  have reached := booted.runs h.run
  have empty : (boot config tracker bridge).properties o = .empty := rfl
  have all : m.properties o = Properties.empty.putAll done := empty ▸ (h.properties booted).2 held
  have looked (n : Machine) (key : String) (hn : m = n.read o key) :
      (n.properties o).lookup? key = Properties.lastPut done key := by
    rw [← Properties.lookup?_putAll, ← all, hn]
    unfold read
    split <;> rfl
  refine ⟨all, all ▸ Properties.keys_putAll done, all ▸ Properties.nodup_keys_putAll done, fun key => ?_,
    fun n key hn => ?_, fun n key g i s hn last => ?_, fun more m' later still => ?_⟩
  · rw [Properties.has_iff, all, Properties.keys_putAll, List.mem_eraseDups]
  · rw [← looked n key hn]
    exact hn
  · subst hn
    exact read_hands_back reached ((looked n key rfl).trans last)
  · exact (later.properties reached).2 still

/-- Obeying commands is a run. -/
theorem runs_obey (m : Machine) (cs : List Command) : Run m (m.obey cs) := by
  unfold obey
  induction cs generalizing m with
  | nil => exact .refl
  | cons c cs ih =>
    rw [List.foldl_cons]
    split
    · rename_i idle
      exact .head (.start idle c) ((runs_run 9 _).trans (ih _))
    · exact ih m

/-- A machine whose script has given an object a getter that puts two properties on the object, the one that
is being read among them. -/
def selfChanging : Machine :=
  let act (s : Step) (store : Option String) : Command := .step s store false
  (boot {} .console .native).obey
    [act (.routine "get" [act (.set .receiver "k" (.constant (.small 5))) none,
        act (.set .receiver "b" (.constant (.small 6))) none, .ret (.constant (.small 7))] true) (some "g"),
      act (.object [("a", .constant (.small 1)), ("k", .constant (.small 2))]) (some "o"),
      act (.getter (.variable "o") "k" (.variable "g")) none]

/-- The machine with the command on its stack to read the getter. -/
def changing : Machine :=
  ({ selfChanging with trace := [] } : Machine).push
    (.command { word := "get", store := none, catches := false, isControl := false } [.object ⟨0⟩])

theorem runs_changing : Run (boot {} .console .native) (changing.read ⟨0⟩ "k") := by
  have idle : selfChanging.isIdle = true := by cbv
  have named : ({ selfChanging with trace := [] } : Machine).evaluate (.variable "o") = .object ⟨0⟩ := by cbv
  have begun : selfChanging.start (.step (.get (.variable "o") "k") none false) = changing.read ⟨0⟩ "k" := by
    unfold start beginStep
    dsimp only
    rw [named]
    rfl
  rw [← begun]
  exact (runs_obey _ _).tail (.start idle _)

theorem object_is_ordered_map_with_live_getters_changing : ∃ done more d,
    Puts ⟨0⟩ (boot {} .console .native) done (changing.read ⟨0⟩ "k") ∧
    (changing.read ⟨0⟩ "k").holds (.object ⟨0⟩) = true ∧
    Properties.lastPut done "k" = some (.getter (.routine 0 "get")) ∧
    (changing.read ⟨0⟩ "k").HandsBack (.hold [.function (.routine 0 "get")] :: changing.stack) 6 (.value (.small 7)) ∧
    (changing.read ⟨0⟩ "k").HandsBack changing.stack (6 + d) (.value (.small 7)) ∧
    Puts ⟨0⟩ (changing.read ⟨0⟩ "k") more (run 6 (changing.read ⟨0⟩ "k")) ∧
    (run 6 (changing.read ⟨0⟩ "k")).holds (.object ⟨0⟩) = true ∧
    (run 6 (changing.read ⟨0⟩ "k")).properties ⟨0⟩ =
      ((changing.read ⟨0⟩ "k").properties ⟨0⟩).putAll more ∧
    (run 6 (changing.read ⟨0⟩ "k")).properties ⟨0⟩ =
      ⟨[("a", .data (.small 1)), ("k", .data (.small 5)), ("b", .data (.small 6))]⟩ := by
  obtain ⟨done, puts⟩ := Run.exists_puts runs_changing ⟨0⟩
  obtain ⟨more, later⟩ := Run.exists_puts (runs_run 6 (changing.read ⟨0⟩ "k")) ⟨0⟩
  have held : (changing.read ⟨0⟩ "k").holds (.object ⟨0⟩) = true := by cbv
  have still : (run 6 (changing.read ⟨0⟩ "k")).holds (.object ⟨0⟩) = true := by cbv
  have stack : (run 6 (changing.read ⟨0⟩ "k")).stack =
      .hold [.function (.routine 0 "get")] :: changing.stack := by cbv
  have control : (run 6 (changing.read ⟨0⟩ "k")).control = .signal (.value (.small 7)) := by cbv
  have after : (run 6 (changing.read ⟨0⟩ "k")).properties ⟨0⟩ =
      ⟨[("a", .data (.small 1)), ("k", .data (.small 5)), ("b", .data (.small 6))]⟩ := by cbv
  have getter : ((changing.read ⟨0⟩ "k").properties ⟨0⟩).lookup? "k" = some (.getter (.routine 0 "get")) := by cbv
  obtain ⟨all, -, -, -, -, reads, changes⟩ := object_is_ordered_map_with_live_getters puts held
  have last : Properties.lastPut done "k" = some (.getter (.routine 0 "get")) := by
    rw [← Properties.lookup?_putAll, ← all, getter]
  have back : (changing.read ⟨0⟩ "k").HandsBack (.hold [.function (.routine 0 "get")] :: changing.stack) 6
      (.value (.small 7)) := handsBack_of_isDownTo stack control (by cbv)
  obtain ⟨d, ended⟩ := (reads changing "k" _ 6 _ rfl last).1 back
  exact ⟨done, more, d, puts, held, last, back, ended, later, still, changes more _ later still, after⟩

end Machine
end PromiseLoop

import PromiseLoop.Proofs.Registrations

/-!
# Trees of registrations

The registrations on a promise, those on the promises derived from it, and so on, form a tree.  When the
promise settles, every registration answers what its promise has settled with: by the reply of the handler
of that side, or by passing it on.  The registrations are visited breadth first, those on one promise in the
order in which they were made.

## Results

* `breadthFirst_perm`: every registration is visited once.
* `breadthFirst_append`: several trees are visited together as they are one after the other.
* `exists_visit_of_isPath`: the visit of a registration answers with the fold along the path to it.
-/

namespace PromiseLoop

-- ---------------------------------------------------------------------------
-- Trees
-- ---------------------------------------------------------------------------

/-- A registration in a tree, with those on its derived promise, oldest first. -/
structure Branch where
  registration : Registration
  branches : List Branch

/-- What functions reply with that are called for a registration, which is named by its derived promise. -/
abbrev Replies := Promise → Callable → Value → Completion

namespace Registration

/-- The handler of one side. -/
def handler (x : Registration) (side : Side) : Option Value := (x.reaction side).handler

/-- What a registration makes of the completion of its promise: the reply of its function of that side,
or the same completion if it has none. -/
def answer (x : Registration) (reply : Replies) (c : Completion) : Completion :=
  match x.handler c.side with
  | some (.function f) => reply x.derived f c.value
  | _ => c

end Registration

namespace Branch

/-- The promise that is settled by a branch. -/
def promise (b : Branch) : Promise := b.registration.derived

/-- All branches of some trees. -/
def all : List Branch → List Branch
  | [] => []
  | ⟨x, bs⟩ :: rest => ⟨x, bs⟩ :: (all bs ++ all rest)

theorem all_nil : all [] = [] := by rw [all]

theorem all_cons (b : Branch) (rest : List Branch) :
    all (b :: rest) = b :: (all b.branches ++ all rest) := by
  cases b
  rw [all]

theorem all_append (bs rest : List Branch) : all (bs ++ rest) = all bs ++ all rest := by
  induction bs with
  | nil => rw [all_nil]; rfl
  | cons b bs ih => rw [List.cons_append, all_cons, all_cons, ih, List.cons_append, List.append_assoc]

/-- The branches of some trees are the trees themselves and the branches one level further. -/
theorem all_perm (bs : List Branch) : (all bs).Perm (bs ++ all (bs.flatMap branches)) := by
  induction bs with
  | nil =>
    rw [all_nil]
    exact .of_eq all_nil.symm
  | cons b bs ih =>
    rw [all_cons, List.flatMap_cons, all_append]
    refine List.Perm.cons b ((ih.append_left _).trans ?_)
    rw [← List.append_assoc, List.append_eq, ← List.append_assoc]
    exact List.perm_append_comm.append_right _

theorem all_perm_of_perm {bs cs : List Branch} (h : bs.Perm cs) : (all bs).Perm (all cs) := by
  induction h with
  | nil => exact .refl _
  | cons b _ ih =>
    rw [all_cons, all_cons]
    exact (ih.append_left _).cons b
  | swap b c bs =>
    have split (b c : Branch) : all (b :: c :: bs) = all [b] ++ (all [c] ++ all bs) := by
      rw [← all_append, ← all_append]
      rfl
    rw [split, split]
    exact (List.perm_append_comm_assoc _ _ _)
  | trans _ _ ih ih' => exact ih.trans ih'

theorem mem_all_of_mem {b : Branch} {bs : List Branch} (h : b ∈ bs) : b ∈ all bs :=
  (all_perm bs).mem_iff.mpr (List.mem_append_left _ h)

end Branch

/-- A promise from which branches grow, and how it has completed. -/
structure Stem where
  promise : Promise
  branches : List Branch
  completion : Completion

/-- The derived promise of a branch, when it has completed. -/
def Branch.stem (b : Branch) (c : Completion) : Stem := ⟨b.promise, b.branches, c⟩

@[simp] theorem Branch.promise_stem (b : Branch) (c : Completion) : (b.stem c).promise = b.promise := rfl

/-- The visit of a branch, which is told how its promise has completed. -/
structure Visit where
  branch : Branch
  told : Completion

/-- The visits for which a promise is the reason. -/
def Stem.visits (s : Stem) : List Visit := s.branches.map fun b => ⟨b, s.completion⟩

namespace Visit

/-- The job of a visit. -/
def job (t : Visit) : Job := .reaction (t.branch.registration.reaction t.told.side) t.told.value

/-- The function that is called at a visit. -/
def called (t : Visit) : Option Value := t.branch.registration.handler t.told.side

/-- The derived promise after a visit. -/
def stem (reply : Replies) (t : Visit) : Stem := t.branch.stem (t.branch.registration.answer reply t.told)

/-- The visits that follow from some visits. -/
def next (reply : Replies) (ts : List Visit) : List Visit := ts.flatMap fun t => (t.stem reply).visits

theorem map_branch_next (reply : Replies) (ts : List Visit) :
    (next reply ts).map branch = (ts.map branch).flatMap Branch.branches := by
  simp [next, Stem.visits, stem, Branch.stem, List.map_flatMap, List.flatMap_map, Function.comp_def]

/-- The next visits leave fewer branches to visit. -/
theorem length_all_next_lt (reply : Replies) {ts : List Visit} (h : ts ≠ []) :
    (Branch.all ((next reply ts).map branch)).length < (Branch.all (ts.map branch)).length := by
  have length := (Branch.all_perm (ts.map branch)).length_eq
  have some : 0 < ts.length := List.length_pos_iff.mpr h
  rw [map_branch_next, length, List.length_append, List.length_map]
  omega

end Visit

-- ---------------------------------------------------------------------------
-- Breadth first
-- ---------------------------------------------------------------------------

/-- The visits that some visits lead to, level by level. -/
def breadthFirst (reply : Replies) (ts : List Visit) : List Visit :=
  match ts with
  | [] => []
  | t :: ts => t :: ts ++ breadthFirst reply (Visit.next reply (t :: ts))
termination_by (Branch.all (ts.map Visit.branch)).length
decreasing_by exact Visit.length_all_next_lt reply (List.cons_ne_nil _ _)

variable {reply : Replies} {ts : List Visit} {t : Visit}

theorem breadthFirst_nil : breadthFirst reply [] = [] := by rw [breadthFirst]

theorem breadthFirst_eq (ts : List Visit) :
    breadthFirst reply ts = ts ++ breadthFirst reply (Visit.next reply ts) := by
  cases ts with
  | nil =>
    rw [breadthFirst_nil]
    exact breadthFirst_nil.symm
  | cons t ts => rw [breadthFirst]

/-- What holds for no visits, and for some visits if it holds for the next ones, holds for all. -/
theorem visits_induction {P : List Visit → Prop} (reply : Replies) (nil : P [])
    (level : ∀ ts, ts ≠ [] → P (Visit.next reply ts) → P ts) (ts : List Visit) : P ts := by
  induction hn : (Branch.all (ts.map Visit.branch)).length using Nat.strongRecOn generalizing ts with
  | ind n ih =>
    by_cases h : ts = []
    · exact h ▸ nil
    · exact level ts h (ih _ (hn ▸ Visit.length_all_next_lt reply h) _ rfl)

/-- Visits that are made together lead to the visits to which they lead one after the other. -/
theorem breadthFirst_append (ts us : List Visit) :
    (breadthFirst reply (ts ++ us)).Perm (breadthFirst reply ts ++ breadthFirst reply us) := by
  induction hn : (Branch.all ((ts ++ us).map Visit.branch)).length using Nat.strongRecOn
    generalizing ts us with
  | ind n ih =>
    by_cases h : ts ++ us = []
    · obtain ⟨rfl, rfl⟩ := List.append_eq_nil_iff.mp h
      simp [breadthFirst_nil]
    · have next : Visit.next reply (ts ++ us) = Visit.next reply ts ++ Visit.next reply us :=
        List.flatMap_append
      have less := Visit.length_all_next_lt reply h
      rw [next, hn] at less
      rw [breadthFirst_eq (ts ++ us), next, breadthFirst_eq ts, breadthFirst_eq us]
      -- the levels of the two are brought side by side
      have levels := (ih _ less (Visit.next reply ts) (Visit.next reply us) rfl).append_left (ts ++ us)
      refine levels.trans ?_
      rw [List.append_assoc, List.append_assoc]
      exact (List.perm_append_comm_assoc _ _ _).append_left ts

theorem breadthFirst_flatMap (reply : Replies) (ss : List Stem) : (breadthFirst reply (ss.flatMap Stem.visits)).Perm
    (ss.flatMap fun s => breadthFirst reply s.visits) := by
  induction ss with
  | nil => exact .of_eq breadthFirst_nil
  | cons s ss ih =>
    rw [List.flatMap_cons, List.flatMap_cons]
    exact (breadthFirst_append _ _).trans (ih.append_left _)

/-- Every branch is visited once. -/
theorem breadthFirst_perm (ts : List Visit) :
    ((breadthFirst reply ts).map Visit.branch).Perm (Branch.all (ts.map Visit.branch)) := by
  induction ts using visits_induction reply with
  | nil => rw [breadthFirst_nil, List.map_nil, Branch.all_nil]
  | level ts _ ih =>
    rw [breadthFirst_eq, List.map_append]
    rw [Visit.map_branch_next] at ih
    exact ((List.Perm.refl _).append ih).trans (Branch.all_perm _).symm

theorem mem_breadthFirst_of_mem (h : t ∈ ts) : t ∈ breadthFirst reply ts := by
  rw [breadthFirst_eq]
  exact List.mem_append_left _ h

/-- What a visit leads to is visited too. -/
theorem mem_breadthFirst_of_mem_visits {t' : Visit} (h : t ∈ breadthFirst reply ts)
    (h' : t' ∈ (t.stem reply).visits) : t' ∈ breadthFirst reply ts := by
  induction ts using visits_induction reply with
  | nil =>
    rw [breadthFirst_nil] at h
    cases h
  | level ts _ ih =>
    rw [breadthFirst_eq] at h ⊢
    refine List.mem_append_right _ ?_
    rcases List.mem_append.mp h with h | h
    · exact mem_breadthFirst_of_mem (List.mem_flatMap.mpr ⟨t, h, h'⟩)
    · exact ih h

-- ---------------------------------------------------------------------------
-- Paths
-- ---------------------------------------------------------------------------

/-- Whether branches lead from one to the next, the first of them being one of some trees. -/
def IsPath : List Branch → List Branch → Prop
  | _, [] => True
  | bs, b :: path => b ∈ bs ∧ IsPath b.branches path

/-- What the registrations on a path make of a completion, one after the other. -/
def foldPath (reply : Replies) (path : List Branch) (c : Completion) : Completion :=
  path.foldl (fun c b => b.registration.answer reply c) c

/-- The visit at the end of a path answers with the fold along the path. -/
theorem exists_visit_of_isPath {s : Stem} {path : List Branch} {b : Branch}
    (h : IsPath s.branches (path ++ [b])) : ∃ t ∈ breadthFirst reply s.visits,
      t.branch = b ∧ (t.stem reply).completion = foldPath reply (path ++ [b]) s.completion := by
  -- the visits are those of the whole tree, and the path starts at any of its promises
  suffices H : ∀ ts, (∀ t ∈ s.visits, t ∈ breadthFirst reply ts) → ∃ t ∈ breadthFirst reply ts,
      t.branch = b ∧ (t.stem reply).completion = foldPath reply (path ++ [b]) s.completion from
    H _ fun t ht => mem_breadthFirst_of_mem ht
  intro ts
  induction path generalizing s with
  | nil =>
    intro visited
    exact ⟨⟨b, s.completion⟩, visited _ (List.mem_map_of_mem h.1), rfl, rfl⟩
  | cons a path ih =>
    intro visited
    have first := visited _ (List.mem_map_of_mem h.1)
    exact ih (s := (Visit.mk a s.completion).stem reply) h.2 fun t ht =>
      mem_breadthFirst_of_mem_visits first ht

end PromiseLoop

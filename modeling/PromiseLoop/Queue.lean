import PromiseLoop.Text.Debug

/-!
# Queues

Both queues of a loop are strictly first in, first out: there are no priorities, and an entry
cannot be taken back.

Main results:

* `dequeue?_enqueue`: an entry added to a queue leaves it after all that were there before.
-/

namespace PromiseLoop

/-- A queue, oldest entry first. -/
structure Queue (α : Type) where
  entries : List α
deriving DecidableEq, Repr, Inhabited

namespace Queue

variable {α : Type}

def empty : Queue α := ⟨[]⟩

/-- Adds an entry at the end. -/
def enqueue (q : Queue α) (a : α) : Queue α := ⟨q.entries ++ [a]⟩

/-- Takes the oldest entry. -/
def dequeue? (q : Queue α) : Option (α × Queue α) :=
  match q.entries with
  | [] => none
  | a :: rest => some (a, ⟨rest⟩)

def size (q : Queue α) : Nat := q.entries.length

def isEmpty (q : Queue α) : Bool := q.entries.isEmpty

/-- The text of a queue with the given name, whose entries show no more than their own name. -/
def debug (name entryName : String) (q : Queue α) : String :=
  Text.fields name [("queue", Text.list (q.entries.map fun _ => Text.hidden entryName))]

@[simp] theorem entries_empty : (empty : Queue α).entries = [] := rfl

@[simp] theorem entries_enqueue (q : Queue α) (a : α) :
    (q.enqueue a).entries = q.entries ++ [a] := rfl

theorem dequeue?_eq_none_iff (q : Queue α) : q.dequeue? = none ↔ q.isEmpty := by
  obtain ⟨_ | _⟩ := q <;> simp [dequeue?, isEmpty]

theorem dequeue?_eq_some_iff (q r : Queue α) (a : α) :
    q.dequeue? = some (a, r) ↔ q.entries = a :: r.entries := by
  obtain ⟨_ | ⟨b, rest⟩⟩ := q <;> obtain ⟨es⟩ := r <;> simp [dequeue?]

theorem dequeue?_enqueue (q : Queue α) (a : α) :
    (q.enqueue a).dequeue? =
      match q.dequeue? with
      | none => some (a, empty)
      | some (b, r) => some (b, r.enqueue a) := by
  obtain ⟨_ | ⟨b, rest⟩⟩ := q <;> rfl

end Queue
end PromiseLoop

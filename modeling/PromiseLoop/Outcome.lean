/-!
# Outcomes of background work

Work away from the loop either succeeds with a value or fails with a payload.  A failure is marked
as such, so that a success whose value happens to describe a failure stays a success.

Main results:

* `isSuccess_map`: mapping the content keeps the mark.
-/

namespace PromiseLoop

/-- The result of a unit of background work. -/
inductive Outcome (α : Type)
  | success (a : α)
  | failure (a : α)
deriving DecidableEq, Repr, Inhabited

namespace Outcome

variable {α β : Type}

def isSuccess : Outcome α → Bool
  | success _ => true
  | failure _ => false

/-- The value of a success or the payload of a failure. -/
def content : Outcome α → α
  | success a => a
  | failure a => a

def map (f : α → β) : Outcome α → Outcome β
  | success a => success (f a)
  | failure a => failure (f a)

/-- An outcome from a result whose two cases carry the same type. -/
def ofExcept : Except α α → Outcome α
  | .ok a => success a
  | .error a => failure a

/-- The debug text, given that of the content. -/
def debug (content : α → String) : Outcome α → String
  | success a => "Success(" ++ content a ++ ")"
  | failure a => "Failure(RejectionSignal \x7b payload: " ++ content a ++ " \x7d)"

theorem isSuccess_map (f : α → β) (o : Outcome α) : (o.map f).isSuccess = o.isSuccess := by
  cases o <;> rfl

theorem content_map (f : α → β) (o : Outcome α) : (o.map f).content = f o.content := by
  cases o <;> rfl

end Outcome
end PromiseLoop

import PromiseLoop.Value.Basic

/-!
# Faults

A fault is a failure that concerns the host and not the script: a handle of another loop, a record
that is gone, a worker that could not be started, or a task of the host that failed.
-/

namespace PromiseLoop

inductive Fault
  | foreignPromise (id : PromiseId)
  | collected (id : PromiseId)
  | spawn (message : String)
  | task (message : String)
deriving DecidableEq, Repr, Inhabited

namespace Fault

def message : Fault → String
  | foreignPromise id => id.text ++ " does not belong to this event loop"
  | collected id => id.text ++ " has already been collected"
  | spawn message => "failed to spawn background worker: " ++ message
  | task message => "task failed: " ++ message

/-- The error that scripts get to see where a fault surfaces in one of their calls. -/
def thrown (f : Fault) : Value := .typeError f.message

end Fault
end PromiseLoop

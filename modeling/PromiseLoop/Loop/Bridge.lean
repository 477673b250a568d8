import PromiseLoop.Value.Properties

/-!
# Bridges

A loop does not call script values itself.  It asks its bridge whether a value can be called, how
to call it, and whether it has a `then`.  A bridge answers by looking at the value; where it has to
read a member, the reading is left to the caller, because a getter may run.
-/

namespace PromiseLoop

/-- How a value is called. -/
inductive CallPlan
  /-- A function is called as it is, and any other value throws a `TypeError`. -/
  | direct
  /-- The function found under a key of the value is called in its place. -/
  | member (key : String)
deriving DecidableEq, Repr, Inhabited

/-- How a value is asked for its `then`. -/
inductive ProbePlan
  /-- The value is no thenable. -/
  | none
  /-- The member under a key is the answer, if it is a function. -/
  | member (key : String)
  /-- Asking fails, and the value itself is thrown. -/
  | throws
deriving DecidableEq, Repr, Inhabited

/-- The decisions of a host about calling values. -/
structure Bridge where
  /-- Whether the loop's calls are counted. -/
  counts : Bool
  /-- Whether a value can be called, given the properties of the objects. -/
  isCallable : (ObjectId → Properties) → Value → Bool
  /-- How a value is called.  Only objects have members. -/
  callPlan : Value → CallPlan
  /-- How a value is asked for its `then`.  Only objects have members. -/
  probePlan : Value → ProbePlan
deriving Inhabited

namespace Bridge

/-- Functions alone are callable. -/
def functionsOnly (_ : ObjectId → Properties) : Value → Bool
  | .function _ => true
  | _ => false

/-- Objects are thenables if their `then` is a function. -/
def objectsOnly : Value → ProbePlan
  | .object _ => .member "then"
  | _ => .none

/-- The bridge of a host whose callables are functions and whose thenables are objects. -/
def native : Bridge :=
  { counts := false
    isCallable := functionsOnly
    callPlan := fun _ => .direct
    probePlan := objectsOnly }

/-- The native bridge with its calls counted. -/
def counting : Bridge := { native with counts := true }

/-- A bridge under which an object with a `call` member is callable, and asking an error value for
its `then` throws that error. -/
def custom : Bridge :=
  { counts := true
    isCallable := fun properties v =>
      match v with
      | .function _ => true
      | .object o => (properties o).has "call"
      | _ => false
    callPlan := fun v =>
      match v with
      | .object _ => .member "call"
      | _ => .direct
    probePlan := fun v =>
      match v with
      | .error _ => .throws
      | v => objectsOnly v }

end Bridge
end PromiseLoop

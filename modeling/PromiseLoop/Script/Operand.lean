import PromiseLoop.Value.Basic

/-!
# Operands

How scripts name values.  A body looks its operands up when it runs and holds no value itself.
-/

namespace PromiseLoop

/-- A value that a script can write down.  References are not among them. -/
structure Literal where
  value : Value
  isPlain : value.isPlain = true
deriving DecidableEq, Repr

instance : Inhabited Literal := ⟨.undefined, rfl⟩

/-- The literal of a value; what cannot be written down counts as `undefined`. -/
def Literal.ofValue (v : Value) : Literal :=
  if h : v.isPlain = true then ⟨v, h⟩ else ⟨.undefined, rfl⟩

/-- How a command names a value. -/
inductive Operand
  | literal (x : Literal)
  | variable (name : String)
  /-- The receiver of the running body. -/
  | receiver
  /-- An argument of the running body, counted from zero. -/
  | argument (n : Nat)
  /-- The number of the current round of the innermost running loop. -/
  | round
deriving DecidableEq, Repr, Inhabited

/-- An operand that always names the same value. -/
def Operand.constant (v : Value) : Operand := .literal (.ofValue v)

/-- A question that a script asks without changing anything. -/
inductive Query
  | has (object : Operand) (key : String)
  | debugObject (object : Operand)
  | debugFunction (function : Operand)
  | same (a b : Operand)
  | inspect (x : Operand)
  | isCallable (x : Operand)
  | id (promise : Operand)
  | samePromise (a b : Operand)
  | alive (name : String)
  | bridgeCounts (loop : String)
  | config (loop : String)
  | state (loop : String) (promise : Operand)
  | result (loop : String) (promise : Operand)
  | handled (loop : String) (promise : Operand)
  | info (loop : String) (promise : Operand)
  | isPromise (loop : String) (x : Operand)
  | live (loop : String)
  | counts (loop : String)
  | debugLoop (loop : String)
  | events (loop : String)
  | unhandled (loop : String)
  | completerInfo (name : String)
deriving DecidableEq, Repr

/-- The word by which scripts write a question. -/
def Query.word : Query → String
  | has .. => "has"
  | debugObject .. => "debug_object"
  | debugFunction .. => "debug_function"
  | same .. => "same"
  | inspect .. => "inspect"
  | isCallable .. => "is_callable"
  | id .. => "id"
  | samePromise .. => "same_promise"
  | alive .. => "alive"
  | bridgeCounts .. => "bridge_counts"
  | config .. => "config"
  | state .. => "state"
  | result .. => "result"
  | handled .. => "handled"
  | info .. => "info"
  | isPromise .. => "is_promise"
  | live .. => "live"
  | counts .. => "counts"
  | debugLoop .. => "debug_loop"
  | events .. => "events"
  | unhandled .. => "unhandled"
  | completerInfo .. => "completer_info"

end PromiseLoop

import PromiseLoop.Value.Text

/-!
# Inspecting values

Everything that can be asked about a single value, collected in one answer.
-/

namespace PromiseLoop

/-- What is known about an error value. -/
structure ErrorReport where
  kind : String
  message : String
  display : String
deriving DecidableEq, Repr, Inhabited

/-- The answers to all questions about a value. -/
structure Inspection where
  display : String
  debug : String
  isTruthy : Bool
  typeName : String
  isObjectLike : Bool
  functionName : Option String
  error : Option ErrorReport
  /-- Whether the value equals itself, which fails for a NaN alone. -/
  equalsItself : Bool
deriving DecidableEq, Repr, Inhabited

def ErrorValue.report (e : ErrorValue) : ErrorReport :=
  { kind := e.kind.name, message := e.message, display := e.display }

/-- Asks all questions about a value. -/
def Value.inspect (properties : ObjectId → Properties) (v : Value) : Inspection :=
  { display := v.display
    debug := v.debug properties
    isTruthy := v.isTruthy
    typeName := v.typeName
    isObjectLike := v.isObjectLike
    functionName := v.asFunction?.map Callable.name
    error := v.asError?.map ErrorValue.report
    equalsItself := v.equal v }

/-- The text of a function with its name spelled out. -/
def Callable.debug (f : Callable) : String :=
  Text.fields "Function" [("name", Text.quoted f.name)]

end PromiseLoop

import PromiseLoop.Text.Debug

/-!
# Error values

An error that a script can throw and catch: a kind and a message.
-/

namespace PromiseLoop

/-- The kinds of error a script can meet. -/
inductive ErrorKind
  | syntaxError
  | typeError
  | referenceError
  | rangeError
  | evalError
  | uriError
  | internalError
deriving DecidableEq, Repr, Inhabited

namespace ErrorKind

/-- The name of a kind, as messages show it. -/
def name : ErrorKind → String
  | syntaxError => "SyntaxError"
  | typeError => "TypeError"
  | referenceError => "ReferenceError"
  | rangeError => "RangeError"
  | evalError => "EvalError"
  | uriError => "URIError"
  | internalError => "InternalError"

/-- All kinds. -/
def all : List ErrorKind :=
  [syntaxError, typeError, referenceError, rangeError, evalError, uriError, internalError]

/-- The kind of a given name. -/
def ofName? (s : String) : Option ErrorKind := all.find? (fun k => k.name = s)

end ErrorKind

/-- An error with its kind and its message. -/
structure ErrorValue where
  kind : ErrorKind
  message : String
deriving DecidableEq, Repr, Inhabited

namespace ErrorValue

/-- The kind and the message, as in `TypeError: boom`. -/
def display (e : ErrorValue) : String := e.kind.name ++ ": " ++ e.message

/-- The fields spelled out. -/
def debug (e : ErrorValue) : String :=
  Text.fields "JsError" [("kind", e.kind.name), ("message", Text.quoted e.message)]

end ErrorValue
end PromiseLoop

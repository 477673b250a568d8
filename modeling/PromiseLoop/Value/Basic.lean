import PromiseLoop.Value.Callable
import PromiseLoop.Value.Double
import PromiseLoop.Value.ErrorValue

/-!
# Values

The dynamic values that scripts compute with.  Objects, functions, promises and native objects are
references: they compare by identity, and every occurrence of a reference to an object or a promise
is a *handle* that keeps it alive.
-/

namespace PromiseLoop

/-- The number of an object, never reused. -/
structure ObjectId where
  number : Nat
deriving DecidableEq, Repr, Inhabited

/-- A script value. -/
inductive Value
  | undefined
  | null
  | boolean (b : Bool)
  /-- A whole number of 32 bits. -/
  | small (n : Int32)
  | double (x : Double)
  | text (s : String)
  /-- A whole number of any size. -/
  | big (n : Int)
  | error (e : ErrorValue)
  | object (o : ObjectId)
  | function (f : Callable)
  | promise (p : Promise)
  /-- An object of the host that is no promise. -/
  | native (number : Nat)
deriving DecidableEq, Repr, Inhabited

/-- How a call ends. -/
inductive Completion
  | returned (v : Value)
  | thrown (v : Value)
deriving DecidableEq, Repr, Inhabited

namespace Value

/-- A `TypeError` with the given message. -/
def typeError (message : String) : Value := .error { kind := .typeError, message := message }

/-- Whether a condition holds for this value. -/
def isTruthy : Value → Bool
  | undefined => false
  | null => false
  | boolean b => b
  | small n => n ≠ 0
  | double x => !x.isNaN && !x.isZero
  | text s => !s.isEmpty
  | big n => n ≠ 0
  | error _ | object _ | function _ | promise _ | native _ => true

/-- The name of the value's type.  By tradition `null` counts as an object. -/
def typeName : Value → String
  | undefined => "undefined"
  | boolean _ => "boolean"
  | small _ | double _ => "number"
  | text _ => "string"
  | big _ => "bigint"
  | function _ => "function"
  | null | error _ | object _ | promise _ | native _ => "object"

/-- Whether the value can carry properties.  Only such values are ever asked for a `then`. -/
def isObjectLike : Value → Bool
  | error _ | object _ | function _ | promise _ | native _ => true
  | _ => false

/-- Whether the value refers to nothing. -/
def isPlain : Value → Bool
  | object _ | function _ | promise _ | native _ => false
  | _ => true

def asFunction? : Value → Option Callable
  | function f => some f
  | _ => none

def asError? : Value → Option ErrorValue
  | error e => some e
  | _ => none

def asPromise? : Value → Option Promise
  | promise p => some p
  | _ => none

def asObject? : Value → Option ObjectId
  | object o => some o
  | _ => none

/-- Equality as scripts see it: doubles compare as numbers, references by identity, and values of
different sorts never agree. -/
def equal : Value → Value → Bool
  | double x, double y => x.equal y
  | a, b => a = b

end Value

/-! ## Handles -/

/-- Something that lives as long as it is referred to. -/
inductive Handle
  | promise (p : Promise)
  | object (o : ObjectId)
deriving DecidableEq, Repr

/-- The handle inside a value.  A resolving function holds its promise. -/
def Value.handle? : Value → Option Handle
  | .object o => some (.object o)
  | .promise p => some (.promise p)
  | .function (.resolver r) => some (.promise r.promise)
  | _ => none

end PromiseLoop

import PromiseLoop.Value.Properties

/-!
# Texts of values

A value has two texts: the *display* form that scripts and messages see, and the *debug* form that
shows its sort.  Objects debug as the set of their keys, so their properties have to be supplied.
-/

namespace PromiseLoop.Value

/-- The display form. -/
def display : Value → String
  | undefined => "undefined"
  | null => "null"
  | boolean b => Text.flag b
  | small n => toString n.toInt
  | double x => x.display
  | text s => s
  | big n => toString n
  | error e => e.display
  | object _ | promise _ | native _ => "[object Object]"
  | function f => f.display

/-- The debug form, given the properties of every object. -/
def debug (properties : ObjectId → Properties) : Value → String
  | undefined => "Undefined"
  | null => "Null"
  | boolean b => Text.tagged "Boolean" (Text.flag b)
  | small n => Text.tagged "Smi" (toString n.toInt)
  | double x => Text.tagged "Double" x.debug
  | text s => Text.tagged "String" (Text.quoted s)
  | big n => Text.tagged "BigInt" (toString n)
  | error e => Text.tagged "Error" e.debug
  | object o => Text.tagged "Object" (properties o).debug
  | function f => Text.tagged "Function" (Text.quoted f.name)
  | promise _ | native _ => "NativeObject(...)"

end PromiseLoop.Value

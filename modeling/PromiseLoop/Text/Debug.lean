import PromiseLoop.Text.Quoted

/-!
# Shapes of debug texts

How truth values, optional values, lists and named fields look in debug texts.
-/

namespace PromiseLoop.Text

/-- A truth value. -/
def flag (b : Bool) : String := if b then "true" else "false"

/-- A value that may be absent. -/
def optional : Option String → String
  | none => "None"
  | some s => "Some(" ++ s ++ ")"

/-- A list in brackets. -/
def list (xs : List String) : String := "[" ++ ", ".intercalate xs ++ "]"

/-- A set in braces. -/
def set (xs : List String) : String := "\x7b" ++ ", ".intercalate xs ++ "\x7d"

/-- A name with one unnamed field. -/
def tagged (name field : String) : String := name ++ "(" ++ field ++ ")"

/-- A name with named fields. -/
def fields (name : String) (fs : List (String × String)) : String :=
  name ++ " \x7b " ++ ", ".intercalate (fs.map fun f => f.1 ++ ": " ++ f.2) ++ " \x7d"

/-- A name whose fields are not shown. -/
def hidden (name : String) : String := name ++ " \x7b ... \x7d"

end PromiseLoop.Text

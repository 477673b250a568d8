/-!
# Quoted text

A quoted string puts a backslash before the quote and the backslash, gives the usual short names to
tab, line feed, carriage return and NUL, and writes every other control character by its code
point in braces.
-/

namespace PromiseLoop.Text

/-- Whether a character is a control character: below the blank, DEL, or one of the upper block. -/
def isControl (c : Char) : Bool := c.toNat < 0x20 || (0x7f ≤ c.toNat && c.toNat ≤ 0x9f)

/-- The lowercase hexadecimal digits of a number. -/
def hexDigits (n : Nat) : String := String.ofList (Nat.toDigits 16 n)

/-- How one character is written inside quotes. -/
def quotedChar (c : Char) : String :=
  match c with
  | '"' => "\\\""
  | '\\' => "\\\\"
  | '\t' => "\\t"
  | '\n' => "\\n"
  | '\r' => "\\r"
  | '\x00' => "\\0"
  | c => if isControl c then "\\u\x7b" ++ hexDigits c.toNat ++ "\x7d" else c.toString

/-- The text in double quotes. -/
def quoted (s : String) : String :=
  "\"" ++ String.join (s.toList.map quotedChar) ++ "\""

end PromiseLoop.Text

import Conjunct.Text.Blank

/-!
# Quoted strings

The written form of a string between double quotes: a double quote, a backslash and the control
characters are escaped, five of the latter by a letter and the others by four hexadecimal digits.
Every other character stands for itself.
-/

namespace Conjunct

namespace Json

/-- The hexadecimal digit for a number below sixteen. -/
def hexDigit (n : Nat) : Char :=
  if n < 10 then Char.ofNat ('0'.toNat + n) else Char.ofNat ('a'.toNat + (n - 10))

/-- The written form of one character between quotes. -/
def escape (c : Char) : List Char :=
  match c with
  | '"' => ['\\', '"']
  | '\\' => ['\\', '\\']
  | '\x08' => ['\\', 'b']
  | '\x0C' => ['\\', 'f']
  | '\n' => ['\\', 'n']
  | '\r' => ['\\', 'r']
  | '\t' => ['\\', 't']
  | c =>
    if c.toNat < 0x20 then ['\\', 'u', '0', '0', hexDigit (c.toNat / 16), hexDigit (c.toNat % 16)]
    else [c]

/-- The written form of a string. -/
def quote (s : String) : String :=
  String.ofList ('"' :: s.toList.flatMap escape ++ ['"'])

/-- The written form of a list of names with strings, as an object. -/
def quoteObject (members : List (String × String)) : String :=
  let member := fun ((key, value) : String × String) => quote key ++ ":" ++ quote value
  "\x7b" ++ Text.joined "," (members.map member) ++ "\x7d"

end Json

end Conjunct

import Cpl.Text.Visible

/-!
# Quoted text

A text between double quotes, for messages. A double quote and a backslash are escaped by a
backslash; tab, line feed, carriage return and the zero character have one-letter escapes; any
other hidden character is written as its code point in hexadecimal between braces.
-/

namespace Cpl.Text

/-- One character of a quoted text. -/
def escape (c : Char) : List Char :=
  if c = '"' then ['\\', '"']
  else if c = '\\' then ['\\', '\\']
  else if c = '\t' then ['\\', 't']
  else if c = '\n' then ['\\', 'n']
  else if c = '\r' then ['\\', 'r']
  else if c.toNat = 0 then ['\\', '0']
  else if isVisible c then [c]
  else ['\\', 'u', '\x7b'] ++ Nat.toDigits 16 c.toNat ++ ['\x7d']

/-- The text between double quotes, with its special and hidden characters escaped. -/
def quote (s : String) : String :=
  String.ofList ('"' :: s.toList.flatMap escape ++ ['"'])

end Cpl.Text

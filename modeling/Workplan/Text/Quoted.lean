import Workplan.Text.Printable

/-!
# Quoted text

A text between double quotes, in which every character is visible: quotes and backslashes
get a backslash, some controls a letter, and other hidden characters their code point.

* `Quoted.encode` — the written form of a list of characters, without the outer quotes.
* `Quoted.render` — the written form of a text.
-/

namespace Workplan.Text.Quoted

/-- Hexadecimal digits of a code point, in lower case and without leading zeros. -/
def hexadecimal (n : Nat) : String := String.ofList (Nat.toDigits 16 n)

/-- The written form of one character. -/
def encodeChar (c : Char) : String :=
  if c = '"' then "\\\""
  else if c = '\\' then "\\\\"
  else if c = '\n' then "\\n"
  else if c = '\t' then "\\t"
  else if c = '\r' then "\\r"
  else if c.toNat = 0 then "\\0"
  else if Printable.isHidden c then "\\u\x7b" ++ hexadecimal c.toNat ++ "\x7d"
  else c.toString

/-- The written form of a run of characters. -/
def encode (cs : List Char) : String := String.join (cs.map encodeChar)

/-- The text between double quotes. -/
def render (text : String) : String := "\"" ++ encode text.toList ++ "\""

end Workplan.Text.Quoted

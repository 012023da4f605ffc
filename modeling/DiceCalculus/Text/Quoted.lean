import DiceCalculus.Text.Hidden

set_option autoImplicit false
set_option relaxedAutoImplicit false

/-!
# Quoted text

How a text is shown in a message: between quotes, with the quote, the backslash and the
characters that would not be seen written as escapes.

## Main definitions

* `Text.escape` — a character as it is written between quotes.
* `Text.quoted` — a text between quotes.
-/

namespace DiceCalculus

namespace Text

/-- A character as it is written between quotes. The escape of a hidden character has its code
point in hexadecimal digits between braces. -/
def escape (c : Char) : String :=
  if c = '"' then "\\\""
  else if c = '\\' then "\\\\"
  else if c = '\n' then "\\n"
  else if c = '\t' then "\\t"
  else if c = '\r' then "\\r"
  else if c = '\x00' then "\\0"
  else if isHidden c then
    "\\u\x7b" ++ String.ofList (Nat.toDigits 16 c.toNat) ++ "\x7d"
  else c.toString

/-- A text between quotes. -/
def quoted (s : String) : String :=
  "\"" ++ String.join (s.toList.map escape) ++ "\""

end Text

end DiceCalculus

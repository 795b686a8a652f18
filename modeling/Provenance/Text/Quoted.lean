import Provenance.Text.Numeral
import Provenance.Text.Showable

/-!
# Quoted texts

A text between double quotes in which every character can be seen: the quote and the backslash
are escaped, five control characters have short escapes, and any other character that cannot be
shown alone is written by its code point in braces.
-/

namespace Provenance.Text

/-- One character of a quoted text. -/
def quotedChar (c : Char) : String :=
  if c = '\x22' then "\\\""
  else if c = '\\' then "\\\\"
  else if c = '\n' then "\\n"
  else if c = '\r' then "\\r"
  else if c = '\t' then "\\t"
  else if c = '\x00' then "\\0"
  else if isShowable c then c.toString
  else "\\u\x7b" ++ hexadecimal c.toNat ++ "\x7d"

/-- The text between double quotes, escaped. -/
def quoted (text : String) : String :=
  "\"" ++ String.join (text.toList.map quotedChar) ++ "\""

/-- Items between square brackets, separated by commas. -/
def bracketed (items : List String) : String := "[" ++ ", ".intercalate items ++ "]"

end Provenance.Text

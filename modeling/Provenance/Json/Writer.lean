import Provenance.Text.Numeral

/-!
# Writing JSON

A value is written as a function of the depth at which it stands: the items of a list and the
members of an object stand on lines of their own, two blanks deeper. Empty brackets stay together.
-/

namespace Provenance.Json

/-- A value as a text, given the depth at which it stands. -/
abbrev Written := Nat → String

namespace Written

/-- One character inside a text. -/
def escaped (c : Char) : String :=
  if c = '\x22' then "\\\""
  else if c = '\\' then "\\\\"
  else if c = '\n' then "\\n"
  else if c = '\r' then "\\r"
  else if c = '\t' then "\\t"
  else if c = '\x08' then "\\b"
  else if c = '\x0c' then "\\f"
  else if c.toNat < 0x20 then "\\u" ++ Text.padLeft 4 '0' (Text.hexadecimal c.toNat)
  else c.toString

/-- A text between double quotes. -/
def quoted (content : String) : String :=
  "\"" ++ String.join (content.toList.map escaped) ++ "\""

def text (content : String) : Written := fun _ => quoted content

def integer (n : Int) : Written := fun _ => Text.decimal n

/-- A new line at a depth. -/
def line (depth : Nat) : String := "\n" ++ String.ofList (List.replicate (2 * depth) ' ')

/-- Values between brackets, one to a line. -/
def enclosed (opening closing : String) (items : List Written) : Written := fun depth =>
  if items.isEmpty then opening ++ closing
  else
    opening ++ ",".intercalate (items.map fun item => line (depth + 1) ++ item (depth + 1))
      ++ line depth ++ closing

def list (items : List Written) : Written := enclosed "[" "]" items

/-- A member of an object. -/
def member (key : String) (value : Written) : Written := fun depth =>
  quoted key ++ ": " ++ value depth

def object (members : List (String × Written)) : Written :=
  enclosed "\x7b" "\x7d" (members.map fun (key, value) => member key value)

/-- The whole text of a value. -/
def whole (value : Written) : String := value 0

end Written

end Provenance.Json

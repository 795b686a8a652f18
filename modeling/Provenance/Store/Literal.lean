import Provenance.Store.Cell

/-!
# Literals in statement texts

A text is written between single quotes with its quotes doubled. Control characters never appear
in a statement text: each is spliced in by its code point, as in `'a' || char(10) || 'b'`.
-/

namespace Provenance.Store

/-- One character of a text literal. -/
def literalChar (c : Char) : String :=
  if c = '\x27' then "''"
  else if Text.isControl c then "' || char(" ++ Text.natural c.toNat ++ ") || '"
  else c.toString

/-- A text as a literal. -/
def quoteLiteral (text : String) : String :=
  "'" ++ String.join (text.toList.map literalChar) ++ "'"

/-- A cell as a literal. -/
def Cell.literal : Cell → String
  | .null => "NULL"
  | .integer n => Text.decimal n
  | .real x => x.stored
  | .text s => quoteLiteral s
  | .blob bytes => "x'" ++ (Cell.blob bytes).shown ++ "'"

end Provenance.Store

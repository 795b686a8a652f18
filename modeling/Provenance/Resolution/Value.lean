import Provenance.Handle
import Provenance.Query.Kind
import Provenance.Text.Numeral

/-!
# Values of expressions

An expression denotes a graph, metadata, an integer or a text; the first two by their handles.
-/

namespace Provenance

open Query (Kind)

inductive Value where
  | graph (handle : Graph)
  | metadata (handle : Metadata)
  | integer (number : Int)
  | text (content : String)
  deriving DecidableEq, Repr, Inhabited

namespace Value

def kind : Value → Kind
  | graph _ => .graph
  | metadata _ => .metadata
  | integer _ => .integer
  | text _ => .text

/-- The text of a value: the name of a handle, the digits of an integer, the text itself. -/
def shown : Value → String
  | graph g => g.name
  | metadata m => m.name
  | integer n => Text.decimal n
  | text s => s

def graph? : Value → Option Graph
  | graph g => some g
  | _ => none

def integer? : Value → Option Int
  | integer n => some n
  | _ => none

def text? : Value → Option String
  | text s => some s
  | _ => none

end Value

end Provenance

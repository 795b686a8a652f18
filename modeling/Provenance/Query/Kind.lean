/-!
# Kinds of values

Four kinds, closed, without coercion between them. A variable shows its kind in its first
character.
-/

namespace Provenance.Query

/-- The kind of a value. -/
inductive Kind where
  | graph
  | metadata
  | integer
  | text
  deriving DecidableEq, Repr, Inhabited

namespace Kind

/-- The name of a kind in messages. -/
def label : Kind → String
  | graph => "Graph"
  | metadata => "GraphMetadata"
  | integer => "Integer"
  | text => "String"

/-- The kind that a variable's first character announces. -/
def ofSigil? : Char → Option Kind
  | '$' => some graph
  | '@' => some metadata
  | _ => none

end Kind

end Provenance.Query

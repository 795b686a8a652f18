import Provenance.Algebra.Instruction
import Provenance.Scratch

/-!
# Metadata

Metadata gives elements named values. It is a table of `(id, name, value)` rows for vertices and one
for edges. Of two metadata, the right one overrides the left one where both name a value.
-/

namespace Provenance.Algebra

open Store

variable {σ : Type}

/-- Creates a table of named values. -/
def createValues (table : String) : Statement :=
  .create false table (.known [.integer "id", .text "name", .text "value"])

/-- Makes both tables of a metadata, empty. -/
def createMetadata (b : Backend σ) (target : Metadata) : Action σ BackendError Unit :=
  b.performAll [.discard target.vertexTable, .discard target.edgeTable,
    createValues target.vertexTable, createValues target.edgeTable]

/-- One row with the given name and value for each id of a table. -/
def namedIds (table name value : String) : Selection :=
  (Selection.join [.column (.plain "id"), .constant (.text name), .constant (.text value)]
    [⟨table, none, []⟩]).groupedBy ["id"]

/-- Gives each element of the covered sides of the source the value, once. -/
def setMetadata (b : Backend σ) (target : Metadata) (coverage : Coverage) (source : Graph)
    (name value : String) : Action σ BackendError Unit :=
  coverage.sides.forM fun side =>
    b.performAll [.insertFrom (target.table side) (namedIds (source.table side) name value)]

/-- All rows of a table of values. -/
def allValues (table : String) : Selection := .columns ["id", "name", "value"] table []

/-- The rows of the left table whose id and name have no row in the right one. -/
def unmatchedValues (left right : String) : Selection :=
  { allValues left with
    sources := [⟨left, some "l", [.unmatched right "r"
      [(.of "l" "id", .of "r" "id"), (.of "l" "name", .of "r" "name")]]⟩] }

/-- Adds the rows of `lhs` that `rhs` does not override, and all rows of `rhs`. -/
def overwriteMetadata (b : Backend σ) (target lhs rhs : Metadata) : Action σ BackendError Unit :=
  b.perform (.lines (Side.all.flatMap fun side =>
    [.insertFrom (target.table side) (unmatchedValues (lhs.table side) (rhs.table side)),
     .insertFrom (target.table side) (allValues (rhs.table side))]))

end Provenance.Algebra

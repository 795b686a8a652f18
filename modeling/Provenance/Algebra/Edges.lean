import Provenance.Algebra.Instruction
import Provenance.Scratch

/-!
# Operations on edges

Collapsing parallel edges, projecting edges to their ends, and the subgraph that another graph
touches.
-/

namespace Provenance.Algebra

open Store

variable {σ : Type}

/-- The table of all known edges, with their ends. -/
def edgeTable : String := Side.edge.baseTable

/-- The name under which the `i`-th annotation joins a collapsed edge. -/
def collapsedName (i : Nat) : String := "ea" ++ Text.natural i

/-- The sources that give an edge the value of each field. -/
def fieldSources (fields : List String) : List Source :=
  fields.zipIdx.map fun (field, i) =>
    ⟨Side.edge.annotationTable, some (collapsedName i),
      [.same (.of "e" "id") (.of (collapsedName i) "id"),
       .equals (.of (collapsedName i) "field") field]⟩

/-- The least of the edges that share their ends and the values of all fields. -/
def representatives (source : Graph) (fields : List String) : Selection :=
  (Selection.join [.least (.of "e" "id")]
      (⟨edgeTable, some "e", [.within (.of "e" "id") source.edgeTable]⟩
        :: fieldSources fields)).grouped
    ([.of "e" "src", .of "e" "dst"]
      ++ fields.zipIdx.map fun (_, i) => .of (collapsedName i) "value")

/-- Adds the source's vertices and one edge, the least, for each pair of ends and each combination
of values of the fields. An edge without one of the fields is left out. -/
def collapse (b : Backend σ) (target source : Graph) (fields : List String) :
    Action σ BackendError Unit :=
  b.performAll [.insertFrom target.vertexTable (.ids source.vertexTable),
    .insertFrom target.edgeTable (representatives source fields)]

def Endpoint.columns : Endpoint → List String
  | .source => ["src"]
  | .destination => ["dst"]
  | .both => ["src", "dst"]

/-- Adds the given ends of the subject's edges, each once. -/
def endpoints (b : Backend σ) (target subject : Graph) (which : Endpoint) :
    Action σ BackendError Unit :=
  Scratch.within b fun b => do
    let answer ← Scratch.createIntegers b "answer" ["id"]
    (Endpoint.columns which).forM fun column =>
      b.performAll [.insertFrom answer
        (.columns [column] edgeTable [.within (.plain "id") subject.edgeTable])]
    b.performAll [.insertFrom target.vertexTable ((Selection.ids answer).groupedBy ["id"])]

/-- The ends of the skeleton's edges that are vertices of the subject. -/
def touched (column : String) (subject skeleton : Graph) : Selection :=
  .columns [column] edgeTable
    [.within (.plain "id") skeleton.edgeTable, .within (.plain column) subject.vertexTable]

/-- Adds the subject's vertices that the skeleton has as vertices or as ends of edges, and the
subject's edges between these. -/
def subgraph (b : Backend σ) (target subject skeleton : Graph) : Action σ BackendError Unit :=
  Scratch.within b fun b => do
    let answer ← Scratch.createIntegers b "answer" ["id"]
    b.performAll [
      .insertFrom answer
        (.idsWhere skeleton.vertexTable [.within (.plain "id") subject.vertexTable]),
      .insertFrom answer (touched "src" subject skeleton),
      .insertFrom answer (touched "dst" subject skeleton),
      .insertFrom target.vertexTable ((Selection.ids answer).groupedBy ["id"])]
    b.performAll [.insertFrom target.edgeTable
      ((Selection.join [.column (.of "s" "id")]
          [⟨subject.edgeTable, some "s", []⟩,
           ⟨edgeTable, some "e",
             [.same (.of "s" "id") (.of "e" "id"), .within (.of "e" "src") answer,
              .within (.of "e" "dst") answer]⟩]).grouped [.of "s" "id"])]

end Provenance.Algebra

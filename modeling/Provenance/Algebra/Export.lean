import Provenance.Algebra.Instruction
import Provenance.Scratch

/-!
# Reading graphs

Sizes of graphs, and graphs with the annotations of their elements. A vertex is listed even if
nothing is known about it; an edge only if its ends are known. A large graph is exported only on
demand: otherwise the answer is an advice.
-/

namespace Provenance.Algebra

open Store

variable {σ : Type}

/-- The sizes of both tables of a graph. -/
def stat (b : Backend σ) (target : Graph) : Action σ BackendError Answer := do
  let vertices ← b.count target.vertexTable
  let edges ← b.count target.edgeTable
  pure (.text s!"# vertices = {Text.decimal vertices}, # edges = {Text.decimal edges}")

/-- The largest number of vertices that are exported without being forced. -/
def exportLimit : Int := 1000

/-- The command that exports in a format. -/
def exportCommand : ExportFormat → String
  | .plain => "dump"
  | .dot => "export"

def advice (format : ExportFormat) (vertices : Int) : String :=
  "It may take a long time to transfer/print the result data due to too many vertices: "
    ++ Text.decimal vertices ++ "\nPlease use *" ++ exportCommand format
    ++ " force ...* to force the transfer"

/-- A cell of a row. -/
def cellAt (row : List String) (index : Nat) : Action σ BackendError String :=
  match row[index]? with
  | some cell => pure cell
  | none => throw (.other s!"missing column {Text.natural index} in export row")

/-- A cell of a row as an id. -/
def idAt (row : List String) (index : Nat) : Action σ BackendError Int := do
  let cell ← cellAt row index
  match Text.trimmedWord? cell with
  | some n => pure n
  | none => throw (.unexpected cell)

/-- The annotations of the elements listed in a table. -/
def annotationsOf (side : Side) (table : String) : Selection :=
  .columns ["id", "field", "value"] side.annotationTable [.within (.plain "id") table]

/-- Adds annotations, row by row, to the elements that are there. -/
def annotate {α : Type} (put : String → String → α → α) (elements : OrderedMap Int α) :
    List (List String) → Action σ BackendError (OrderedMap Int α)
  | [] => pure elements
  | row :: rows => do
    let id ← idAt row 0
    match elements.find? id with
    | none => annotate put elements rows
    | some _ => do
      let key ← cellAt row 1
      let value ← cellAt row 2
      annotate put (elements.adjust id (put key value)) rows

def exportVertices (b : Backend σ) (target : Graph) :
    Action σ BackendError (List ExportedVertex) := do
  let rows ← b.queryRows
    (.single (.select { Selection.ids target.vertexTable with distinct := true }))
  let found ← rows.foldlM (fun (m : OrderedMap Int ExportedVertex) row => do
    let id ← idAt row 0
    pure (m.insert id ⟨id, []⟩)) []
  let rows ← b.queryRows (.single (.select (annotationsOf .vertex target.vertexTable)))
  let found ← annotate (fun key value v => { v with annotations := v.annotations.insert key value })
    found rows
  pure (found.map (·.2))

def exportEdges (b : Backend σ) (target : Graph) : Action σ BackendError (List ExportedEdge) := do
  let rows ← b.queryRows (.single (.select
    (.columns ["id", "src", "dst"] Side.edge.baseTable [.within (.plain "id") target.edgeTable])))
  let found ← rows.foldlM (fun (m : OrderedMap Int ExportedEdge) row => do
    let id ← idAt row 0
    let src ← idAt row 1
    let dst ← idAt row 2
    pure (m.insert id ⟨id, src, dst, []⟩)) []
  let rows ← b.queryRows (.single (.select (annotationsOf .edge target.edgeTable)))
  let found ← annotate (fun key value e => { e with annotations := e.annotations.insert key value })
    found rows
  pure (found.map (·.2))

/-- The vertices and edges of a graph in ascending order of their ids, with their annotations. -/
def exportedGraph (b : Backend σ) (target : Graph) : Action σ BackendError ExportedGraph := do
  let vertices ← exportVertices b target
  let edges ← exportEdges b target
  pure ⟨vertices, edges⟩

/-- The graph as an answer, or an advice if it is too large and not forced. -/
def exportGraph (b : Backend σ) (target : Graph) (format : ExportFormat) (force : Bool)
    (file : Option String) : Action σ BackendError Answer := do
  let size ← if force then pure 0 else b.count target.vertexTable
  if exportLimit < size then pure (.text (advice format size))
  else
    let graph ← exportedGraph b target
    match format with
    | .plain => pure (.graph graph)
    | .dot => pure (.exported format (file.getD "") graph)

end Provenance.Algebra

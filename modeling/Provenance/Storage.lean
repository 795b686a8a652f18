import Provenance.Document
import Provenance.Handle
import Provenance.Store.Memory

/-!
# Stored graphs

The relations of a new store: every known vertex and edge with its annotations, and the base graph,
which has all of them. Vertices and edges are added one at a time, each with all its rows or none.
-/

namespace Provenance.Storage

open Store

/-! ## The base relations -/

def vertexTable : Table where
  name := Side.vertex.baseTable
  columns := [(Column.integer "id").required, .text "md5"]
  indexed := ["id"]
  rows := []

def edgeTable : Table where
  name := Side.edge.baseTable
  columns := ["id", "src", "dst"].map fun n => (Column.integer n).required
  indexed := ["id", "src", "dst"]
  rows := []

def annotationTable (side : Side) : Table where
  name := side.annotationTable
  columns := [(Column.integer "id").required, (Column.text "field").required, .text "value"]
  indexed := ["id"]
  rows := []

def baseGraphTable (side : Side) : Table where
  name := Graph.base.table side
  columns := [.integer "id"]
  indexed := []
  rows := []

def baseTables : List Table :=
  [vertexTable, edgeTable, annotationTable .vertex, annotationTable .edge, baseGraphTable .vertex,
   baseGraphTable .edge]

/-- Adds a table unless there is one of its name; then only its indexes are added. -/
def installTable (db : Database) (t : Table) : Database :=
  match db.table? t.name with
  | none => db.add t
  | some found =>
    let missing := t.indexed.filter fun c =>
      (found.index? c).isSome && !found.indexed.any (sameName c)
    db.replace { found with indexed := found.indexed ++ missing }

/-- Adds the base relations, as far as they are missing. -/
def install (db : Database) : Database := baseTables.foldl installTable db

/-- A new store. -/
def fresh : Database := install .empty

/-! ## Adding vertices and edges -/

/-- Executes statements, all or none. -/
def transaction (statements : List Statement) : Action Database Fault Unit :=
  .of fun db =>
    match db.run (.sequence statements) with
    | (.ok _, changed) => (.ok (), changed)
    | (.error fault, _) => (.error { fault with site := none }, db)

def annotationRow (id : Int) (field value : String) : Row := [.integer id, .text field, .text value]

/-- Adds the annotations of an element, and the element to the base graph. -/
def insertCommon (side : Side) (id : Int) (annotations : List (String × String)) :
    List Statement :=
  (annotations.map fun (field, value) =>
      .insert side.annotationTable ["id", "field", "value"] [annotationRow id field value])
    ++ [.insertIds (Graph.base.table side) [id]]

/-- Adds a vertex. -/
def putVertex (id : Int) (md5 : Option String) (annotations : List (String × String)) :
    Action Database Fault Unit :=
  transaction (.insert Side.vertex.baseTable ["id", "md5"] [[.integer id, md5.elim .null .text]]
    :: insertCommon .vertex id annotations)

/-- Adds an edge. -/
def putEdge (id src dst : Int) (annotations : List (String × String)) :
    Action Database Fault Unit :=
  transaction (.insert Side.edge.baseTable ["id", "src", "dst"]
      [[.integer id, .integer src, .integer dst]]
    :: insertCommon .edge id annotations)

/-! ## Documents -/

/-- A vertex or an edge that could not be added. -/
structure LoadError where
  side : Side
  id : Int
  cause : Fault
  deriving DecidableEq, Repr, Inhabited

def LoadError.message (e : LoadError) : String :=
  s!"failed to store {e.side.label} {Text.decimal e.id}"

/-- Adds the vertices and then the edges of a document, and gives their numbers. -/
def load (d : Document) : Action Database LoadError (Nat × Nat) := do
  d.vertices.forM fun v =>
    (putVertex v.id v.md5 v.annotations).mapError fun fault => ⟨.vertex, v.id, fault⟩
  d.edges.forM fun e =>
    (putEdge e.id e.src e.dst e.annotations).mapError fun fault => ⟨.edge, e.id, fault⟩
  pure (d.vertices.length, d.edges.length)

/-! ## Starting over -/

/-- Drops all listed relations and adds the base relations again. -/
def reset (db : Database) : Database := install (db.tableNames.foldl Database.remove db)

end Provenance.Storage

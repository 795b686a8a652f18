import Provenance.Answer
import Provenance.Json.Container

/-!
# Graph documents

A graph as a JSON document: vertices and edges with their annotations. No two vertices of a document
have the same id, nor have two edges, and an edge leads from a vertex of the document to another
one.
-/

namespace Provenance

structure VertexRecord where
  id : Int
  md5 : Option String
  annotations : Annotations
  deriving DecidableEq, Repr, Inhabited

structure EdgeRecord where
  id : Int
  src : Int
  dst : Int
  annotations : Annotations
  deriving DecidableEq, Repr, Inhabited

structure Document where
  vertices : List VertexRecord
  edges : List EdgeRecord
  deriving DecidableEq, Repr, Inhabited

inductive DocumentError where
  | unreadable (fault : Json.Fault)
  | repeatedVertex (id : Int)
  | repeatedEdge (id : Int)
  | unknownVertex (edge vertex : Int)
  deriving DecidableEq, Repr, Inhabited

namespace DocumentError

/-- What is wrong, without its cause. -/
def message : DocumentError → String
  | unreadable _ => "failed to parse graph document"
  | repeatedVertex id => s!"duplicate vertex id {Text.decimal id}"
  | repeatedEdge id => s!"duplicate edge id {Text.decimal id}"
  | unknownVertex edge vertex =>
    s!"edge {Text.decimal edge} references unknown vertex {Text.decimal vertex}"

/-- What is wrong, followed by its cause. -/
def chain : DocumentError → List String
  | unreadable fault => [(unreadable fault).message, fault.message]
  | e => [e.message]

end DocumentError

namespace Document

/-! ## Consistency -/

/-- Checks that the vertices are distinct from those seen before and from each other. -/
def checkVertices : List Int → List VertexRecord → Except DocumentError Unit
  | _, [] => .ok ()
  | seen, v :: vs =>
    if seen.contains v.id then .error (.repeatedVertex v.id) else checkVertices (v.id :: seen) vs

/-- Checks that the edges are distinct and that their ends are vertices. -/
def checkEdges (vertices : List Int) : List Int → List EdgeRecord → Except DocumentError Unit
  | _, [] => .ok ()
  | seen, e :: es =>
    if seen.contains e.id then .error (.repeatedEdge e.id)
    else if !vertices.contains e.src then .error (.unknownVertex e.id e.src)
    else if !vertices.contains e.dst then .error (.unknownVertex e.id e.dst)
    else checkEdges vertices (e.id :: seen) es

def check (d : Document) : Except DocumentError Unit := do
  checkVertices [] d.vertices
  checkEdges (d.vertices.map VertexRecord.id) [] d.edges

/-! ## Reading -/

open Json Json.Reader

/-- Annotations; of two with one key the later one counts. -/
def readAnnotations : Reader Annotations := do
  match ← startOfValue with
  | '\x7b' =>
    within (members (fun key found => do
      let value ← valueOf text
      pure (OrderedMap.insert key value found)) []) closeObject
  | _ => mismatch "a map"

structure VertexFields where
  id : Option Int
  md5 : Option (Option String)
  annotations : Option Annotations

def vertexField (key : String) (f : VertexFields) : Reader VertexFields := do
  match key with
  | "id" => return { f with id := ← fieldOnce key f.id word }
  | "md5" => return { f with md5 := ← fieldOnce key f.md5 optionalText }
  | "annotations" => return { f with annotations := ← fieldOnce key f.annotations readAnnotations }
  | _ =>
    valueOf skip
    return f

def readVertex : Reader VertexRecord :=
  record "struct VertexRecord"
    (do
      let f ← members vertexField ⟨none, none, none⟩
      let id ← required "id" f.id
      pure ⟨id, f.md5.getD none, f.annotations.getD []⟩)
    (do
      let id ← itemAt 0 "struct VertexRecord with 3 elements" word
      let md5 ← item? false optionalText
      let annotations ← item? false readAnnotations
      pure ⟨id, md5.getD none, annotations.getD []⟩)

structure EdgeFields where
  id : Option Int
  src : Option Int
  dst : Option Int
  annotations : Option Annotations

def edgeField (key : String) (f : EdgeFields) : Reader EdgeFields := do
  match key with
  | "id" => return { f with id := ← fieldOnce key f.id word }
  | "src" => return { f with src := ← fieldOnce key f.src word }
  | "dst" => return { f with dst := ← fieldOnce key f.dst word }
  | "annotations" => return { f with annotations := ← fieldOnce key f.annotations readAnnotations }
  | _ =>
    valueOf skip
    return f

def readEdge : Reader EdgeRecord :=
  let form := "struct EdgeRecord with 4 elements"
  record "struct EdgeRecord"
    (do
      let f ← members edgeField ⟨none, none, none, none⟩
      let id ← required "id" f.id
      let src ← required "src" f.src
      let dst ← required "dst" f.dst
      pure ⟨id, src, dst, f.annotations.getD []⟩)
    (do
      let id ← itemAt 0 form word
      let src ← itemAt 1 form word
      let dst ← itemAt 2 form word
      let annotations ← item? false readAnnotations
      pure ⟨id, src, dst, annotations.getD []⟩)

structure DocumentFields where
  vertices : Option (List VertexRecord)
  edges : Option (List EdgeRecord)

def documentField (key : String) (f : DocumentFields) : Reader DocumentFields := do
  match key with
  | "vertices" => return { f with vertices := ← fieldOnce key f.vertices (Reader.list readVertex) }
  | "edges" => return { f with edges := ← fieldOnce key f.edges (Reader.list readEdge) }
  | _ =>
    valueOf skip
    return f

def readDocument : Reader Document :=
  record "struct GraphDocument"
    (do
      let f ← members documentField ⟨none, none⟩
      pure ⟨f.vertices.getD [], f.edges.getD []⟩)
    (do
      let vertices ← item? true (Reader.list readVertex)
      let edges ← item? false (Reader.list readEdge)
      pure ⟨vertices.getD [], edges.getD []⟩)

/-- Reads a document and checks it. -/
def read (source : String) : Except DocumentError Document := do
  let d ← (readAll readDocument source).mapError .unreadable
  d.check
  pure d

end Document

end Provenance

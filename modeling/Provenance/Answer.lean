import Provenance.OrderedMap
import Provenance.Text.Quoted

/-!
# Answers

A query is answered with a text, with a graph whose elements carry annotations, with a graph that
is to be written to a file, or with a report of a failure. The text of a graph has one line for
each vertex and then one for each edge.
-/

namespace Provenance

/-- Annotations in ascending order of their keys. -/
abbrev Annotations := OrderedMap String String

structure ExportedVertex where
  id : Int
  annotations : Annotations
  deriving DecidableEq, Repr, Inhabited

structure ExportedEdge where
  id : Int
  src : Int
  dst : Int
  annotations : Annotations
  deriving DecidableEq, Repr, Inhabited

/-- A graph with the annotations of its elements. -/
structure ExportedGraph where
  vertices : List ExportedVertex
  edges : List ExportedEdge
  deriving DecidableEq, Repr, Inhabited

/-- How a graph is to be written. -/
inductive ExportFormat where
  | plain
  | dot
  deriving DecidableEq, Repr, Inhabited

def ExportFormat.label : ExportFormat → String
  | plain => "plain"
  | dot => "dot"

namespace ExportedGraph

def vertexIds (g : ExportedGraph) : List Int := g.vertices.map ExportedVertex.id

def edgeIds (g : ExportedGraph) : List Int := g.edges.map ExportedEdge.id

/-- Annotations in braces, or nothing if there are none. -/
def annotationsText (list : Annotations) : String :=
  if list.isEmpty then ""
  else " \x7b" ++ ", ".intercalate (list.map fun (k, v) => k ++ "=" ++ Text.quoted v) ++ "\x7d"

def vertexLine (v : ExportedVertex) : String :=
  "vertex " ++ Text.decimal v.id ++ annotationsText v.annotations ++ "\n"

def edgeLine (e : ExportedEdge) : String :=
  "edge " ++ Text.decimal e.id ++ " " ++ Text.decimal e.src ++ " -> " ++ Text.decimal e.dst
    ++ annotationsText e.annotations ++ "\n"

/-- The plain text of a graph. -/
def text (g : ExportedGraph) : String :=
  String.join (g.vertices.map vertexLine) ++ String.join (g.edges.map edgeLine)

end ExportedGraph

inductive Answer where
  | text (content : String)
  | graph (content : ExportedGraph)
  | exported (format : ExportFormat) (path : String) (content : ExportedGraph)
  | failure (kind message : String)
  deriving DecidableEq, Repr, Inhabited

namespace Answer

/-- The answer of a query that has nothing else to say. -/
def ok : Answer := text "OK"

def returnType : Answer → String
  | text _ => "String"
  | graph _ => "Graph"
  | exported .. => "Export"
  | failure .. => "Error"

def isFailure : Answer → Bool
  | failure .. => true
  | _ => false

def text? : Answer → Option String
  | text content => some content
  | _ => none

def graph? : Answer → Option ExportedGraph
  | graph content => some content
  | exported _ _ content => some content
  | _ => none

/-- The text that is shown for an answer. -/
def shown : Answer → String
  | text content => content
  | graph content => content.text
  | exported _ path content =>
    s!"exported {Text.natural content.vertices.length} vertices and "
      ++ s!"{Text.natural content.edges.length} edges to {path}"
  | failure kind message => s!"{kind}: {message}"

end Answer

end Provenance

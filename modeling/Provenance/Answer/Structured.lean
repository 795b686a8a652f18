import Provenance.Answer
import Provenance.Json.Writer

/-!
# Answers as JSON

An answer is an object with the name of its kind and its content.
-/

namespace Provenance

open Json Json.Written

def Annotations.written (list : Annotations) : Written :=
  object (list.map fun (key, value) => (key, text value))

def ExportedVertex.written (v : ExportedVertex) : Written :=
  object [("id", integer v.id), ("annotations", Annotations.written v.annotations)]

def ExportedEdge.written (e : ExportedEdge) : Written :=
  object [("id", integer e.id), ("src", integer e.src), ("dst", integer e.dst),
    ("annotations", Annotations.written e.annotations)]

def ExportedGraph.written (g : ExportedGraph) : Written :=
  object [("vertices", list (g.vertices.map ExportedVertex.written)),
    ("edges", list (g.edges.map ExportedEdge.written))]

namespace Answer

/-- The content of an answer. -/
def result : Answer → Written
  | text content => Written.text content
  | graph content => content.written
  | exported format path content =>
    object [("format", Written.text format.label), ("path", Written.text path),
      ("graph", content.written)]
  | failure kind message =>
    object [("kind", Written.text kind), ("message", Written.text message)]

def written (a : Answer) : Written :=
  object [("return_type", Written.text a.returnType), ("result", a.result)]

/-- The answer as a JSON text. -/
def json (a : Answer) : String := a.written.whole

end Answer

end Provenance

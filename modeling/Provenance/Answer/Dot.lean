import Provenance.Answer

/-!
# Graphs in DOT

A graph as a Graphviz document: one line for each vertex, then one for each edge. The label of an
element shows its id and its annotations, one under the other. In a label the quote and the
backslash are escaped, a line feed is written as `\n`, and other control characters are left out.
-/

namespace Provenance.ExportedGraph

def dotChar (c : Char) : String :=
  if c = '\x22' then "\\\""
  else if c = '\\' then "\\\\"
  else if c = '\n' then "\\n"
  else if Text.isControl c then ""
  else c.toString

def dotEscaped (text : String) : String := String.join (text.toList.map dotChar)

def dotLabel (id : Int) (annotations : Annotations) : String :=
  "id:" ++ Text.decimal id
    ++ String.join (annotations.map fun (k, v) => "\\n" ++ dotEscaped k ++ ":" ++ dotEscaped v)

def dotVertex (v : ExportedVertex) : String :=
  "  \"" ++ Text.decimal v.id ++ "\" [label=\"" ++ dotLabel v.id v.annotations ++ "\"];\n"

def dotEdge (e : ExportedEdge) : String :=
  "  \"" ++ Text.decimal e.src ++ "\" -> \"" ++ Text.decimal e.dst ++ "\" [label=\""
    ++ dotLabel e.id e.annotations ++ "\"];\n"

/-- The DOT text of a graph. -/
def dot (g : ExportedGraph) : String :=
  "digraph provql \x7b\n" ++ String.join (g.vertices.map dotVertex)
    ++ String.join (g.edges.map dotEdge) ++ "\x7d\n"

end Provenance.ExportedGraph

/-!
# Handles to graphs and metadata

A handle is a name; the tables behind it are derived from the name, one for vertices and one for
edges. Two handles with one name are the same graph. Three prefixes separate the names: `trace_`
for graphs, `meta_` for metadata, and `m_` for scratch tables that live inside one instruction.
-/

namespace Provenance

/-- The vertex side or the edge side of a graph. -/
inductive Side where
  | vertex
  | edge
  deriving DecidableEq, Repr, Inhabited

namespace Side

def label : Side → String
  | vertex => "vertex"
  | edge => "edge"

/-- The base table with one row per known element. -/
def baseTable : Side → String := label

/-- The base table with one row per annotation of an element. -/
def annotationTable : Side → String
  | vertex => "vertex_anno"
  | edge => "edge_anno"

def all : List Side := [vertex, edge]

end Side

def graphPrefix : String := "trace_"

def metadataPrefix : String := "meta_"

def scratchPrefix : String := "m_"

/-- A named graph: a table of vertex ids and a table of edge ids. -/
structure Graph where
  name : String
  deriving DecidableEq, Repr, Inhabited

namespace Graph

def table (g : Graph) (side : Side) : String := g.name ++ "_" ++ side.label

def vertexTable (g : Graph) : String := g.table .vertex

def edgeTable (g : Graph) : String := g.table .edge

/-- The graph of everything that was ever recorded. -/
def base : Graph := ⟨"trace_base"⟩

def isBase (g : Graph) : Bool := g == base

end Graph

/-- Named metadata: a table of vertex attributes and a table of edge attributes. -/
structure Metadata where
  name : String
  deriving DecidableEq, Repr, Inhabited

namespace Metadata

def table (m : Metadata) (side : Side) : String := m.name ++ "_" ++ side.label

def vertexTable (m : Metadata) : String := m.table .vertex

def edgeTable (m : Metadata) : String := m.table .edge

end Metadata

end Provenance

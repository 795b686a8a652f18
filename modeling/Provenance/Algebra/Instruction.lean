import Provenance.Answer
import Provenance.Handle

/-!
# Instructions

One instruction is one operation of the graph algebra on named graphs and metadata. It names the
tables that it touches and owns no data. Each instruction but the last three writes to its target;
those three read and answer.
-/

namespace Provenance

/-- The direction of a lineage: against the edges, along them, or both. -/
inductive Direction where
  | ancestor
  | descendant
  | both
  deriving DecidableEq, Repr, Inhabited

namespace Direction

def label : Direction → String
  | ancestor => "ancestor"
  | descendant => "descendant"
  | both => "both"

/-- The direction of a spelling: a letter, the singular or the plural. -/
def ofSpelling? : String → Option Direction
  | "a" => some ancestor
  | "ancestor" => some ancestor
  | "ancestors" => some ancestor
  | "d" => some descendant
  | "descendant" => some descendant
  | "descendants" => some descendant
  | "b" => some both
  | "both" => some both
  | _ => none

end Direction

/-- Which ends of edges are meant. -/
inductive Endpoint where
  | source
  | destination
  | both
  deriving DecidableEq, Repr, Inhabited

def Endpoint.label : Endpoint → String
  | source => "source"
  | destination => "destination"
  | both => "both"

/-- Which side of a graph receives an attribute. -/
inductive Coverage where
  | vertex
  | edge
  | both
  deriving DecidableEq, Repr, Inhabited

namespace Coverage

def label : Coverage → String
  | vertex => "vertex"
  | edge => "edge"
  | both => "both"

def sides : Coverage → List Side
  | vertex => [.vertex]
  | edge => [.edge]
  | both => [.vertex, .edge]

end Coverage

inductive Instruction where
  | createGraph (target : Graph)
  | createMetadata (target : Metadata)
  | union (target source : Graph)
  | intersect (target lhs rhs : Graph)
  | subtract (target minuend subtrahend : Graph)
  | distinct (target source : Graph)
  | limit (target source : Graph) (bound : Int)
  | insertVertices (target : Graph) (ids : List Int)
  | insertEdges (target : Graph) (ids : List Int)
  | collapse (target source : Graph) (fields : List String)
  | endpoints (target subject : Graph) (which : Endpoint)
  | subgraph (target subject skeleton : Graph)
  | lineage (target subject start : Graph) (depth : Int) (direction : Direction)
  | path (target subject source destination : Graph) (maxDepth : Int)
  | shortestPath (target subject source destination : Graph) (maxDepth : Int)
  | setMetadata (target : Metadata) (coverage : Coverage) (source : Graph) (name value : String)
  | overwriteMetadata (target lhs rhs : Metadata)
  | stat (target : Graph)
  | exportGraph (target : Graph) (format : ExportFormat) (force : Bool) (file : Option String)
  | native (query : String)
  deriving DecidableEq, Repr, Inhabited

namespace Instruction

def label : Instruction → String
  | createGraph .. => "CreateEmptyGraph"
  | createMetadata .. => "CreateEmptyGraphMetadata"
  | union .. => "UnionGraph"
  | intersect .. => "IntersectGraph"
  | subtract .. => "SubtractGraph"
  | distinct .. => "DistinctifyGraph"
  | limit .. => "LimitGraph"
  | insertVertices .. => "InsertLiteralVertex"
  | insertEdges .. => "InsertLiteralEdge"
  | collapse .. => "CollapseEdge"
  | endpoints .. => "GetEdgeEndpoint"
  | subgraph .. => "GetSubgraph"
  | lineage .. => "GetLineage"
  | path .. => "GetPath"
  | shortestPath .. => "GetShortestPath"
  | setMetadata .. => "SetGraphMetadata"
  | overwriteMetadata .. => "OverwriteGraphMetadata"
  | stat .. => "StatGraph"
  | exportGraph .. => "ExportGraph"
  | native .. => "EvaluateQuery"

def numbers (ns : List Int) : String := Text.bracketed (ns.map Text.decimal)

/-- The operands as they are listed, each with its name. -/
def operands : Instruction → List (String × String)
  | createGraph target => [("target", target.name)]
  | createMetadata target => [("target", target.name)]
  | union target source => [("target", target.name), ("source", source.name)]
  | intersect target lhs rhs => [("target", target.name), ("lhs", lhs.name), ("rhs", rhs.name)]
  | subtract target minuend subtrahend =>
    [("target", target.name), ("minuend", minuend.name), ("subtrahend", subtrahend.name)]
  | distinct target source => [("target", target.name), ("source", source.name)]
  | limit target source bound =>
    [("target", target.name), ("source", source.name), ("limit", Text.decimal bound)]
  | insertVertices target ids => [("target", target.name), ("ids", numbers ids)]
  | insertEdges target ids => [("target", target.name), ("ids", numbers ids)]
  | collapse target source fields =>
    [("target", target.name), ("source", source.name),
      ("fields", Text.bracketed (fields.map Text.quoted))]
  | endpoints target subject which =>
    [("target", target.name), ("subject", subject.name), ("component", which.label)]
  | subgraph target subject skeleton =>
    [("target", target.name), ("subject", subject.name), ("skeleton", skeleton.name)]
  | lineage target subject start depth direction =>
    [("target", target.name), ("subject", subject.name), ("start", start.name),
      ("depth", Text.decimal depth), ("direction", direction.label)]
  | path target subject source destination maxDepth =>
    [("target", target.name), ("subject", subject.name), ("source", source.name),
      ("destination", destination.name), ("maxDepth", Text.decimal maxDepth)]
  | shortestPath target subject source destination maxDepth =>
    [("target", target.name), ("subject", subject.name), ("source", source.name),
      ("destination", destination.name), ("maxDepth", Text.decimal maxDepth)]
  | setMetadata target coverage source name value =>
    [("target", target.name), ("component", coverage.label), ("source", source.name),
      ("name", Text.quoted name), ("value", Text.quoted value)]
  | overwriteMetadata target lhs rhs =>
    [("target", target.name), ("lhs", lhs.name), ("rhs", rhs.name)]
  | stat target => [("target", target.name)]
  | exportGraph target format force file =>
    [("target", target.name), ("format", format.label),
     ("force", if force then "true" else "false")]
      ++ file.elim [] fun f => [("path", Text.quoted f)]
  | native query => [("query", Text.quoted query)]

/-- The instruction on one line. -/
def describe (i : Instruction) : String :=
  i.label ++ String.join (i.operands.map fun (name, value) => " " ++ name ++ "=" ++ value)

end Instruction

end Provenance

import Provenance.Algebra.Instruction
import Provenance.Resolution.Error

/-!
# Operations and commands

The functions and methods that an expression may call, and the commands, each with the kinds of its
operands. A function stands alone; a method stands on a graph. A few calls take their last operand
any number of times, at least once.
-/

namespace Provenance

open Query (Kind)

/-- What a call needs and gives. -/
structure Signature where
  /-- Whether the call is a method on a graph. -/
  onGraph : Bool
  operands : List Kind
  /-- Whether the last operand may be repeated. -/
  repeating : Bool
  result : Kind
  deriving DecidableEq, Repr, Inhabited

namespace Signature

/-- A function of integers that gives a graph. -/
def ofIntegers : Signature := ⟨false, [.integer], true, .graph⟩

/-- A method that gives a graph. -/
def method (operands : List Kind) : Signature := ⟨true, operands, false, .graph⟩

def arity (s : Signature) : Arity :=
  if s.repeating then .atLeast s.operands.length else .exactly s.operands.length

end Signature

def Arity.admits : Arity → Nat → Bool
  | exactly n, m => m == n
  | atLeast n, m => n ≤ m

/-- The functions and methods of expressions. -/
inductive Operation where
  | vertices
  | edges
  | lineage
  | path
  | shortestPath
  | subgraph
  | endpoints (which : Endpoint)
  | collapse
  | limit
  | distinct
  | setMetadata (coverage : Coverage)
  deriving DecidableEq, Repr, Inhabited

namespace Operation

def all : List Operation :=
  [vertices, edges, lineage, path, shortestPath, subgraph, endpoints .source,
   endpoints .destination, endpoints .both, collapse, limit, distinct, setMetadata .vertex,
   setMetadata .edge, setMetadata .both]

def name : Operation → String
  | vertices => "vertices"
  | edges => "edges"
  | lineage => "getLineage"
  | path => "getPath"
  | shortestPath => "getShortestPath"
  | subgraph => "getSubgraph"
  | endpoints .source => "getEdgeSource"
  | endpoints .destination => "getEdgeDestination"
  | endpoints .both => "getEdgeEndpoints"
  | collapse => "collapseEdge"
  | limit => "limit"
  | distinct => "distinct"
  | setMetadata .vertex => "setVertexMetadata"
  | setMetadata .edge => "setEdgeMetadata"
  | setMetadata .both => "setMetadata"

def signature : Operation → Signature
  | vertices => .ofIntegers
  | edges => .ofIntegers
  | lineage => .method [.graph, .integer, .text]
  | path => .method [.graph, .graph, .integer]
  | shortestPath => .method [.graph, .graph, .integer]
  | subgraph => .method [.graph]
  | endpoints _ => .method []
  | collapse => { Signature.method [.text] with repeating := true }
  | limit => .method [.integer]
  | distinct => .method []
  | setMetadata _ => { Signature.method [.text, .text] with result := .metadata }

/-- The operation of a name among the functions or among the methods. -/
def find? (name : String) (onGraph : Bool) : Option Operation :=
  all.find? fun o => o.name == name && o.signature.onGraph == onGraph

end Operation

inductive Command where
  | dump
  | exportDot
  | stat
  | native
  | reset
  deriving DecidableEq, Repr, Inhabited

namespace Command

def all : List Command := [dump, exportDot, stat, native, reset]

def name : Command → String
  | dump => "dump"
  | exportDot => "export"
  | stat => "stat"
  | native => "native"
  | reset => "reset"

/-- The words that may stand in front of the arguments. -/
def keywords : Command → List String
  | dump => ["force"]
  | exportDot => ["force"]
  | reset => ["environment"]
  | _ => []

/-- The word that has to stand in front of the arguments. -/
def requiredKeyword? : Command → Option String
  | reset => some "environment"
  | _ => none

def operands : Command → List Kind
  | dump => [.graph]
  | exportDot => [.graph, .text]
  | stat => [.graph]
  | native => [.text]
  | reset => []

def find? (name : String) : Option Command := all.find? fun c => c.name == name

end Command

end Provenance

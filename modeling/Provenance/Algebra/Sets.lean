import Provenance.Scratch

/-!
# Graphs as pairs of lists of ids

Creating, filling, joining and filtering graphs. A graph may list an id several times; only the
operations that say so remove repetitions. Vertices and edges are treated alike and apart from each
other.
-/

namespace Provenance.Algebra

open Store

variable {σ : Type}

/-- Makes both tables of a graph, empty. -/
def createGraph (b : Backend σ) (target : Graph) : Action σ BackendError Unit :=
  b.performAll [.discard target.vertexTable, .discard target.edgeTable,
    .createIds target.vertexTable, .createIds target.edgeTable]

/-- Adds the ids that a selection takes from the source, side by side. -/
def fillSides (b : Backend σ) (target : Graph) (select : Side → Selection) :
    Action σ BackendError Unit :=
  b.performAll (Side.all.map fun side => .insertFrom (target.table side) (select side))

/-- Adds all ids of the source, with their repetitions. -/
def union (b : Backend σ) (target source : Graph) : Action σ BackendError Unit :=
  fillSides b target fun side => .ids (source.table side)

/-- Adds the ids of `lhs` that are ids of `rhs`. -/
def intersect (b : Backend σ) (target lhs rhs : Graph) : Action σ BackendError Unit :=
  fillSides b target fun side =>
    .idsWhere (lhs.table side) [.within (.plain "id") (rhs.table side)]

/-- Adds the ids of `minuend` that are no ids of `subtrahend`. -/
def subtract (b : Backend σ) (target minuend subtrahend : Graph) : Action σ BackendError Unit :=
  fillSides b target fun side =>
    .idsWhere (minuend.table side) [.outside (.plain "id") (subtrahend.table side)]

/-- Adds each id of the source once. -/
def distinct (b : Backend σ) (target source : Graph) : Action σ BackendError Unit :=
  fillSides b target fun side => (Selection.ids (source.table side)).groupedBy ["id"]

/-- The first ids of a table, each once, in ascending order. -/
def firstIds (table : String) (bound : Int) : Selection :=
  { (Selection.ids table).groupedBy ["id"] with
    orderBy := [.plain "id"], limit := some bound }

/-- Adds the `bound` least ids of each side of the source, each once. -/
def limit (b : Backend σ) (target source : Graph) (bound : Int) : Action σ BackendError Unit :=
  Side.all.forM fun side => do
    let size ← b.count (source.table side)
    if 0 < size then
      b.performAll [.insertFrom (target.table side) (firstIds (source.table side) bound)]
    else pure ()

/-- Adds the given ids to one side. -/
def insertIds (b : Backend σ) (target : Graph) (side : Side) (ids : List Int) :
    Action σ BackendError Unit :=
  if ids.isEmpty then pure () else b.performAll [.insertIds (target.table side) ids]

end Provenance.Algebra

import Provenance.Traversal.Sweep

/-!
# Paths

All vertices on walks of bounded length from some vertices to others, with the edges between them.
A first sweep goes backwards from the destinations and notes every edge that it crosses together
with the round. A second sweep goes forwards from those sources that the first one reached, along
noted edges only, and only as long as the way gone and the way noted fit the bound together.

For shortest paths the first sweep also notes which destination an edge leads to. The second one
leaves a vertex, for each destination, only by the edges noted first, and of these by the one to
the least vertex.
-/

namespace Provenance.Traversal

open Store

variable {σ : Type}

/-- The sources that the backward sweep reached are the new frontier and all that is reached. -/
def restart (b : Backend σ) (t : Tables) (source : Graph) : Action σ BackendError Unit :=
  b.performAll [.clear t.frontier,
    .insertFrom t.frontier (.idsWhere source.vertexTable [.within (.plain "id") t.reached]),
    .clear t.reached,
    .insertFrom t.reached (.ids t.frontier)]

/-- Adds the reached vertices and the subject's edges between them. -/
def writeInduced (b : Backend σ) (target subject : Graph) (reached : String) :
    Action σ BackendError Unit :=
  b.performAll [.insertFrom target.vertexTable (.ids reached),
    .insertFrom target.edgeTable (.idsWhere Algebra.edgeTable
      ([.within (.plain "src") reached, .within (.plain "dst") reached] ++ onEdgesOf subject))]

/-- A backward round: notes the edges into the frontier with the round's number. -/
def noteRound (t : Tables) (subject : Graph) (noted : String) (hop : Int) : List Statement :=
  [.insertFrom noted
    (.join [.column (.plain "src"), .column (.plain "dst"), .constant (.integer hop)]
      [⟨Algebra.edgeTable, none, .within (.plain "dst") t.frontier :: onEdgesOf subject⟩]),
   .clear t.next,
   .insertFrom t.next (t.neighbours "dst" "src" (onEdgesOf subject))] ++ t.advance

/-- A forward round: follows noted edges that still fit the bound. -/
def followRound (t : Tables) (noted : String) (maxDepth hop : Int) : List Statement :=
  [.clear t.next,
   .insertFrom t.next ((Selection.columns ["dst"] noted
     [.within (.plain "src") t.frontier, .atMost (.plain "depth") hop maxDepth]).groupedBy ["dst"])]
    ++ t.advance

/-- Adds the vertices on walks of at most `maxDepth` edges of the subject from a source to a
destination, and the subject's edges between them. -/
def path (b : Backend σ) (target subject source destination : Graph) (maxDepth : Int) :
    Action σ BackendError Unit :=
  Scratch.within b fun b => do
    let frontier ← Scratch.createIntegers b "cur" ["id"]
    let next ← Scratch.createIntegers b "next" ["id"]
    let reached ← Scratch.createIntegers b "answer" ["id"]
    let noted ← Scratch.createIntegers b "sgconn" ["src", "dst", "depth"]
    let t : Tables := ⟨frontier, next, reached⟩
    b.performAll [.insertFrom frontier (.ids destination.vertexTable),
      .insertFrom reached (.ids frontier)]
    sweep b (noteRound t subject noted) frontier maxDepth.toNat 1
    restart b t source
    sweep b (followRound t noted maxDepth) frontier maxDepth.toNat 0
    writeInduced b target subject reached

/-- The connections of a subject: pairs of vertices with an edge between them, each once. -/
def connections (subject : Graph) : Selection :=
  (Selection.columns ["src", "dst"] Algebra.edgeTable
    (if subject.isBase then []
     else [.within (.plain "id") subject.edgeTable])).groupedBy ["src", "dst"]

/-- The connections into the frontier. -/
def intoFrontier (t : Tables) (connected : String) (terms : List Term) : Selection :=
  .join terms [⟨t.frontier, some "c", []⟩,
    ⟨connected, some "k", [.same (.of "c" "id") (.of "k" "dst")]⟩]

/-- A backward round that also notes the destination that a connection leads to. -/
def noteReachingRound (t : Tables) (connected noted : String) (hop : Int) : List Statement :=
  [.insertFrom noted (intoFrontier t connected [.column (.of "k" "src"), .column (.of "k" "dst"),
     .column (.of "c" "reaching"), .constant (.integer hop)]),
   .clear t.next,
   .insertFrom t.next
     (intoFrontier t connected [.column (.of "k" "src"), .column (.of "c" "reaching")]),
   .clear t.frontier,
   .insertFrom t.frontier ((Selection.columns ["id", "reaching"] t.next
     [.outside (.plain "id") t.reached]).groupedBy ["id", "reaching"]),
   .insertFrom t.reached ((Selection.ids t.frontier).groupedBy ["id"])]

/-- A forward round that leaves each vertex, for each destination, by one connection noted first. -/
def followNearestRound (t : Tables) (noted : String) (maxDepth hop : Int) : List Statement :=
  [.clear t.next,
   .insertFrom t.next ((Selection.join [.least (.of "s" "dst")]
     [⟨t.frontier, some "c", []⟩,
      ⟨noted, some "s",
        [.same (.of "c" "id") (.of "s" "src"), .atMost (.of "s" "depth") hop maxDepth,
         .leastOf (.of "s" "depth") (.of "t" "depth") noted "t"
           [(.of "t" "src", .of "s" "src"), (.of "t" "reaching", .of "s" "reaching")]]⟩]).grouped
     [.of "s" "src", .of "s" "reaching"])] ++ t.advance

/-- Adds, for sources and destinations at most `maxDepth` edges apart, the vertices of shortest
paths between them, and the subject's edges between these vertices. -/
def shortestPath (b : Backend σ) (target subject source destination : Graph) (maxDepth : Int) :
    Action σ BackendError Unit :=
  Scratch.within b fun b => do
    let connected ← Scratch.createIntegers b "conn" ["src", "dst"]
    b.performAll [.insertFrom connected (connections subject)]
    let noted ← Scratch.createIntegers b "sgconn" ["src", "dst", "reaching", "depth"]
    let frontier ← Scratch.createIntegers b "cur" ["id", "reaching"]
    let next ← Scratch.createIntegers b "next" ["id", "reaching"]
    let reached ← Scratch.createIntegers b "answer" ["id"]
    let t : Tables := ⟨frontier, next, reached⟩
    b.performAll [.insertFrom frontier (.columns ["id", "id"] destination.vertexTable []),
      .insertFrom reached ((Selection.ids frontier).groupedBy ["id"])]
    sweep b (noteReachingRound t connected noted) frontier maxDepth.toNat 1
    let frontier ← Scratch.createIntegers b "cur" ["id"]
    let next ← Scratch.createIntegers b "next" ["id"]
    let t : Tables := ⟨frontier, next, reached⟩
    restart b t source
    sweep b (followNearestRound t noted maxDepth) frontier maxDepth.toNat 0
    writeInduced b target subject reached

end Provenance.Traversal

import Provenance.Traversal.Sweep

/-!
# Lineage

The lineage of some start vertices: all vertices that lie at most a given number of edges away,
together with the edges on the way. Ancestors are found against the direction of the edges,
descendants along it.
-/

namespace Provenance.Traversal

open Store

variable {σ : Type}

/-- The end at which an edge is entered and the end at which it is left. -/
def walkingEnds : Direction → String × String
  | .ancestor => ("dst", "src")
  | _ => ("src", "dst")

/-- The single directions that make up a direction. -/
def singleDirections : Direction → List Direction
  | .both => [.ancestor, .descendant]
  | d => [d]

/-- The vertices and the edges within `depth` edges of the start, as scratch tables. -/
def expand (b : Backend (Scratch σ)) (subject start : Graph) (depth : Int) (direction : Direction) :
    Action (Scratch σ) BackendError (String × String) := do
  let (entered, left) := walkingEnds direction
  let frontier ← Scratch.createIntegers b "cur" ["id"]
  let next ← Scratch.createIntegers b "next" ["id"]
  let reached ← Scratch.createIntegers b "answer" ["id"]
  let crossed ← Scratch.createIntegers b "answer_edge" ["id"]
  let t : Tables := ⟨frontier, next, reached⟩
  b.performAll [.insertFrom frontier (.ids start.vertexTable),
    .insertFrom reached (.ids frontier)]
  let round (_ : Int) : List Statement :=
    [.clear next,
     .insertFrom next (t.neighbours entered left (onEdgesOf subject)),
     .insertFrom crossed (.idsWhere Algebra.edgeTable
       (.within (.plain entered) frontier :: onEdgesOf subject))] ++ t.advance
  sweep b round frontier depth.toNat 0
  pure (reached, crossed)

/-- Adds the lineage of the start vertices along the subject's edges. -/
def lineage (b : Backend σ) (target subject start : Graph) (depth : Int) (direction : Direction) :
    Action σ BackendError Unit :=
  Scratch.within b fun b =>
    (singleDirections direction).forM fun one => do
      let (reached, crossed) ← expand b subject start depth one
      b.performAll [.insertFrom target.vertexTable (.ids reached),
        .insertFrom target.edgeTable ((Selection.ids crossed).groupedBy ["id"])]

end Provenance.Traversal

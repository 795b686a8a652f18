import Provenance.Algebra.Edges

/-!
# Sweeps

A sweep explores a graph in rounds. Each round moves a *frontier*, a scratch table of the vertices
that were reached for the first time in the round before, one edge further. A sweep ends after a
bounded number of rounds, or at once when a round finds nothing new.
-/

namespace Provenance.Traversal

open Store

variable {σ : Type}

/-- At most the given number of rounds, the first one for `hop`; stops after the round that leaves
the frontier empty. -/
def sweep (b : Backend σ) (round : Int → List Statement) (frontier : String) :
    (rounds : Nat) → (hop : Int) → Action σ BackendError Unit
  | 0, _ => pure ()
  | rounds + 1, hop => do
    b.performAll (round hop)
    let size ← b.count frontier
    if size = 0 then pure () else sweep b round frontier rounds (hop + 1)

/-- Keeps a traversal on the subject's edges. The base graph has all edges and needs no
condition. -/
def onEdgesOf (subject : Graph) : List Condition :=
  if subject.isBase then []
  else [.within (.of Algebra.edgeTable "id") subject.edgeTable]

/-- The tables of a sweep: its frontier, the vertices one edge further, and the vertices reached. -/
structure Tables where
  frontier : String
  next : String
  reached : String

/-- The vertices one edge further that are new become the frontier and count as reached. -/
def Tables.advance (t : Tables) : List Statement :=
  [.clear t.frontier,
   .insertFrom t.frontier (.idsWhere t.next [.outside (.plain "id") t.reached]),
   .insertFrom t.reached (.ids t.frontier)]

/-- One end of the edges at whose other end the frontier stands, each vertex once. -/
def Tables.neighbours (t : Tables) (near far : String) (conditions : List Condition) : Selection :=
  (Selection.columns [far] Algebra.edgeTable
    (.within (.plain near) t.frontier :: conditions)).groupedBy [far]

end Provenance.Traversal

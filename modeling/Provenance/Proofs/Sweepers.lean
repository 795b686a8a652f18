import Provenance.Traversal.Lineage
import Provenance.Traversal.Path

/-!
# Ways to run the rounds of a sweep

The traversals with the way in which their sweeps run rounds as a parameter. The traversals themselves end a
sweep early. What else can be done is to run all rounds up to the bound, or to look at the state before a
sweep and to go on only if it is as it should be.
-/

namespace Provenance.Traversal

open Store

variable {σ : Type}

/-- A way to run at most the given number of rounds, the first one for the given number, on the tables of a
sweep. -/
abbrev Sweeper (σ : Type) : Type :=
  Backend (Scratch σ) → (Int → List Statement) → Tables → Nat → Int → Action (Scratch σ) BackendError Unit

/-- Ends after a round that leaves the frontier empty. -/
def sweeping : Sweeper σ := fun b round t => sweep b round t.frontier

/-- How many vertices are in the frontier after the statements of a round. -/
def sizeAfter (b : Backend (Scratch σ)) (statements : List Statement) (frontier : String) :
    Action (Scratch σ) BackendError Int := do
  b.performAll statements
  b.count frontier

/-- Just the given number of rounds, and how many vertices are in the frontier after each. -/
def sizesOf (b : Backend (Scratch σ)) (round : Int → List Statement) (frontier : String) :
    (rounds : Nat) → (hop : Int) → Action (Scratch σ) BackendError (List Int)
  | 0, _ => pure []
  | rounds + 1, hop => do
    let size ← sizeAfter b (round hop) frontier
    let sizes ← sizesOf b round frontier rounds (hop + 1)
    pure (size :: sizes)

/-- Runs all rounds up to the bound. -/
def everyRound : Sweeper σ := fun b round t rounds hop => do
  let _ ← sizesOf b round t.frontier rounds hop

open Classical in
/-- Fails with an error unless a property holds of the sweep that is about to run and of the state it starts from. -/
noncomputable def provided (P : Backend (Scratch σ) → (Int → List Statement) → Tables → Nat → Int → Scratch σ → Prop)
    (e : BackendError) : Sweeper σ := fun b round t rounds hop => do
  let s ← get
  if P b round t rounds hop s then sweeping b round t rounds hop else throw e

/-- A sweep goes on with the next round unless the first one leaves the frontier empty. -/
theorem sweeping_succ (b : Backend (Scratch σ)) (round : Int → List Statement) (t : Tables) (rounds : Nat) (hop : Int) :
    sweeping b round t (rounds + 1) hop = sizeAfter b (round hop) t.frontier >>= fun size =>
      if size = 0 then pure () else sweeping b round t rounds (hop + 1) := by
  simp only [sweeping, sweep, sizeAfter, bind_assoc]

theorem everyRound_succ (b : Backend (Scratch σ)) (round : Int → List Statement) (t : Tables) (rounds : Nat)
    (hop : Int) :
    everyRound b round t (rounds + 1) hop = sizeAfter b (round hop) t.frontier >>= fun _ =>
      everyRound b round t rounds (hop + 1) := by
  simp only [everyRound, sizesOf, bind_assoc, pure_bind]

/-! ## Traversals -/

def expandBy (sw : Sweeper σ) (b : Backend (Scratch σ)) (subject start : Graph) (depth : Int) (direction : Direction) :
    Action (Scratch σ) BackendError (String × String) := do
  let (entered, left) := walkingEnds direction
  let frontier ← Scratch.createIntegers b "cur" ["id"]
  let next ← Scratch.createIntegers b "next" ["id"]
  let reached ← Scratch.createIntegers b "answer" ["id"]
  let crossed ← Scratch.createIntegers b "answer_edge" ["id"]
  let t : Tables := ⟨frontier, next, reached⟩
  b.performAll [.insertFrom frontier (.ids start.vertexTable),
    .insertFrom reached (.ids frontier)]
  let round (_ : Int) : List Statement :=
    [.clear next,
     .insertFrom next (t.neighbours entered left (onEdgesOf subject)),
     .insertFrom crossed (.idsWhere Algebra.edgeTable
       (.within (.plain entered) frontier :: onEdgesOf subject))] ++ t.advance
  sw b round t depth.toNat 0
  pure (reached, crossed)

def lineageBy (sw : Sweeper σ) (b : Backend σ) (target subject start : Graph) (depth : Int) (direction : Direction) :
    Action σ BackendError Unit :=
  Scratch.within b fun b =>
    (singleDirections direction).forM fun one => do
      let (reached, crossed) ← expandBy sw b subject start depth one
      b.performAll [.insertFrom target.vertexTable (.ids reached),
        .insertFrom target.edgeTable ((Selection.ids crossed).groupedBy ["id"])]

def pathBy (sw : Sweeper σ) (b : Backend σ) (target subject source destination : Graph) (maxDepth : Int) :
    Action σ BackendError Unit :=
  Scratch.within b fun b => do
    let frontier ← Scratch.createIntegers b "cur" ["id"]
    let next ← Scratch.createIntegers b "next" ["id"]
    let reached ← Scratch.createIntegers b "answer" ["id"]
    let noted ← Scratch.createIntegers b "sgconn" ["src", "dst", "depth"]
    let t : Tables := ⟨frontier, next, reached⟩
    b.performAll [.insertFrom frontier (.ids destination.vertexTable),
      .insertFrom reached (.ids frontier)]
    sw b (noteRound t subject noted) t maxDepth.toNat 1
    restart b t source
    sw b (followRound t noted maxDepth) t maxDepth.toNat 0
    writeInduced b target subject reached

def shortestPathBy (sw : Sweeper σ) (b : Backend σ) (target subject source destination : Graph) (maxDepth : Int) :
    Action σ BackendError Unit :=
  Scratch.within b fun b => do
    let connected ← Scratch.createIntegers b "conn" ["src", "dst"]
    b.performAll [.insertFrom connected (connections subject)]
    let noted ← Scratch.createIntegers b "sgconn" ["src", "dst", "reaching", "depth"]
    let frontier ← Scratch.createIntegers b "cur" ["id", "reaching"]
    let next ← Scratch.createIntegers b "next" ["id", "reaching"]
    let reached ← Scratch.createIntegers b "answer" ["id"]
    let t : Tables := ⟨frontier, next, reached⟩
    b.performAll [.insertFrom frontier (.columns ["id", "id"] destination.vertexTable []),
      .insertFrom reached ((Selection.ids frontier).groupedBy ["id"])]
    sw b (noteReachingRound t connected noted) t maxDepth.toNat 1
    let frontier ← Scratch.createIntegers b "cur" ["id"]
    let next ← Scratch.createIntegers b "next" ["id"]
    let t : Tables := ⟨frontier, next, reached⟩
    restart b t source
    sw b (followNearestRound t noted maxDepth) t maxDepth.toNat 0
    writeInduced b target subject reached

/-! The traversals are those that end their sweeps early. -/

variable (b : Backend σ) (target subject source destination start : Graph) (depth : Int) (direction : Direction)

theorem lineageBy_sweeping : lineageBy sweeping b target subject start depth direction
    = lineage b target subject start depth direction := rfl

theorem pathBy_sweeping : pathBy sweeping b target subject source destination depth
    = path b target subject source destination depth := rfl

theorem shortestPathBy_sweeping : shortestPathBy sweeping b target subject source destination depth
    = shortestPath b target subject source destination depth := rfl

end Provenance.Traversal

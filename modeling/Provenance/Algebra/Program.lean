import Provenance.Algebra.Attributes
import Provenance.Algebra.Edges
import Provenance.Algebra.Export
import Provenance.Algebra.Sets
import Provenance.Traversal.Lineage
import Provenance.Traversal.Path

/-!
# Programs

A program is a list of instructions, executed in order up to the first that fails. Instructions that
read add an answer; the last answer is that of the program.
-/

namespace Provenance

variable {σ : Type}

namespace Instruction

/-- Executes an instruction; those that read may give an answer. -/
def execute (b : Backend σ) : Instruction → Action σ BackendError (Option Answer)
  | createGraph target => silently (Algebra.createGraph b target)
  | createMetadata target => silently (Algebra.createMetadata b target)
  | union target source => silently (Algebra.union b target source)
  | intersect target lhs rhs => silently (Algebra.intersect b target lhs rhs)
  | subtract target minuend subtrahend => silently (Algebra.subtract b target minuend subtrahend)
  | distinct target source => silently (Algebra.distinct b target source)
  | limit target source bound => silently (Algebra.limit b target source bound)
  | insertVertices target ids => silently (Algebra.insertIds b target .vertex ids)
  | insertEdges target ids => silently (Algebra.insertIds b target .edge ids)
  | collapse target source fields => silently (Algebra.collapse b target source fields)
  | endpoints target subject which => silently (Algebra.endpoints b target subject which)
  | subgraph target subject skeleton => silently (Algebra.subgraph b target subject skeleton)
  | lineage target subject start depth direction =>
    silently (Traversal.lineage b target subject start depth direction)
  | path target subject source destination maxDepth =>
    silently (Traversal.path b target subject source destination maxDepth)
  | shortestPath target subject source destination maxDepth =>
    silently (Traversal.shortestPath b target subject source destination maxDepth)
  | setMetadata target coverage source name value =>
    silently (Algebra.setMetadata b target coverage source name value)
  | overwriteMetadata target lhs rhs => silently (Algebra.overwriteMetadata b target lhs rhs)
  | stat target => some <$> Algebra.stat b target
  | exportGraph target format force file =>
    some <$> Algebra.exportGraph b target format force file
  | native query => do
    let output ← b.execute (.raw query)
    pure (if output.isEmpty then none else some (.text output))
where
  /-- The action without an answer. -/
  silently (a : Action σ BackendError Unit) : Action σ BackendError (Option Answer) := do
    a
    pure none

end Instruction

abbrev Program := List Instruction

/-- A store in which a program runs, and the last answer that it gave. -/
structure Execution (σ : Type) where
  store : σ
  answer : Option Answer

namespace Execution

def storeLens : Lens (Execution σ) σ := ⟨store, fun store x => { x with store }⟩

/-- Keeps an answer as the last one. -/
def note (answer : Option Answer) (x : Execution σ) : Execution σ :=
  { x with answer := answer.or x.answer }

end Execution

namespace Program

/-- Executes instructions in order up to the first that fails. -/
def execute (b : Backend σ) : Program → Action (Execution σ) BackendError Unit
  | [] => pure ()
  | i :: rest => do
    let answer ← (i.execute b).along Execution.storeLens
    modify (Execution.note answer)
    execute b rest

/-- The program as a numbered list, one instruction a line. -/
def describe (program : Program) : String :=
  String.join (program.zipIdx.map fun (i, n) =>
    Text.padLeft 3 ' ' (Text.natural n) ++ ". " ++ i.describe ++ "\n")

end Program

end Provenance

import Provenance.QueryError
import Provenance.Resolution.Operation
import Provenance.Resolution.Value
import Provenance.SymbolTable

/-!
# Programs in the making

Evaluating an expression gives a value and adds the instructions that make it. Every graph or
metadata that is not already bound gets a fresh name, and the instruction that creates it stands
before those that fill it.
-/

namespace Provenance

/-- The instructions so far, and where the variables they use are bound. -/
structure Draft (σ : Type) where
  workspace : Workspace σ
  program : List Instruction

/-- An action on a draft. -/
abbrev Drafting (σ α : Type) := Action (Draft σ) QueryError α

namespace Draft

variable {σ α : Type}

def workspaceLens : Lens (Draft σ) (Workspace σ) :=
  ⟨workspace, fun workspace d => { d with workspace }⟩

/-- Acts on the symbol table and its store. -/
def onWorkspace (a : Action (Workspace σ) BackendError α) : Drafting σ α :=
  (a.along workspaceLens).mapError .backend

/-- Fails unless a check succeeds. -/
def require (c : Except ResolutionError α) : Drafting σ α := .ofExcept (c.mapError .resolution)

def fail (e : ResolutionError) : Drafting σ α := throw (.resolution e)

/-- Adds an instruction. -/
def push (i : Instruction) : Drafting σ Unit :=
  modify fun d => { d with program := d.program ++ [i] }

/-- Adds the creation of a new graph and what fills it. -/
def newGraph (b : Backend σ) (fill : Graph → List Instruction) : Drafting σ Value := do
  let target ← onWorkspace (Workspace.freshGraph b)
  push (.createGraph target)
  (fill target).forM push
  pure (.graph target)

/-- Adds the creation of new metadata and what fills it. -/
def newMetadata (b : Backend σ) (fill : Metadata → Instruction) : Drafting σ Value := do
  let target ← onWorkspace (Workspace.freshMetadata b)
  push (.createMetadata target)
  push (fill target)
  pure (.metadata target)

end Draft

end Provenance

import Provenance.Action
import Provenance.Store.Fault
import Provenance.Store.Statement

/-!
# What the engine asks of a store

A *backend* executes requests, lists its relations, and keeps one lock for the whole session. It is
a record of actions on a state of its own, so that the engine can be run, and reasoned about, over
any store, also over one that fails or answers at random.
-/

namespace Provenance

open Store

inductive BackendError where
  /-- A statement failed. -/
  | statement (fault : Fault)
  /-- The output is not the integer that was asked for. -/
  | unexpected (output : String)
  | other (message : String)
  deriving DecidableEq, Repr, Inhabited

def BackendError.message : BackendError → String
  | statement fault => s!"backend statement failed: {fault.message}"
  | unexpected output => s!"unexpected result \"{output}\" from backend: expecting an integer"
  | other message => s!"backend failure: {message}"

/-- A store with state `σ`. -/
structure Backend (σ : Type) where
  /-- Runs a request and gives the rows of its last selection, one a line, cells joined by `|`. -/
  execute : Request → Action σ BackendError String
  /-- Runs a request and gives the rows of its last selection. -/
  queryRows : Request → Action σ BackendError (List (List String))
  relationNames : Action σ BackendError (List String)
  /-- Takes the execution lock. -/
  acquire : σ → σ
  /-- Gives the execution lock back. -/
  release : σ → σ

namespace Backend

variable {σ τ ε α : Type}

/-- The same store as a part of a larger state. -/
def along (l : Lens τ σ) (b : Backend σ) : Backend τ where
  execute r := (b.execute r).along l
  queryRows r := (b.queryRows r).along l
  relationNames := b.relationNames.along l
  acquire t := l.set (b.acquire (l.get t)) t
  release t := l.set (b.release (l.get t)) t

/-- Runs a request for its effect. -/
def perform (b : Backend σ) (r : Request) : Action σ BackendError Unit := do
  let _ ← b.execute r

/-- Runs statements on lines of their own, for their effect. -/
def performAll (b : Backend σ) (statements : List Statement) : Action σ BackendError Unit :=
  b.perform (.sequence statements)

/-- Runs a request whose output is to be one integer, blanks around it aside. -/
def integer (b : Backend σ) (r : Request) : Action σ BackendError Int := do
  let output ← b.execute r
  match Text.trimmedWord? output with
  | some n => pure n
  | none => throw (.unexpected (Text.trimBlanks output))

/-- The number of rows of a table. -/
def count (b : Backend σ) (table : String) : Action σ BackendError Int :=
  b.integer (.single (.select (.countOf table)))

/-- Runs a body under the execution lock, which is given back however the body ends. -/
def locked (b : Backend σ) (body : Action σ ε α) : Action σ ε α := do
  modify b.acquire
  body.thenAlways b.release

end Backend

/-- The execution lock: held or free. It is not taken twice; who asks for a held lock waits. -/
structure Lock where
  held : Bool
  deriving DecidableEq, Repr, Inhabited

namespace Lock

def free : Lock := ⟨false⟩

/-- The lock after it was taken, unless the taker has to wait. -/
def acquire? (l : Lock) : Option Lock := if l.held then none else some ⟨true⟩

def release (_ : Lock) : Lock := ⟨false⟩

end Lock

end Provenance

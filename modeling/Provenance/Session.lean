import Provenance.Algebra.Program
import Provenance.Query.Grammar
import Provenance.Resolution.Resolve

/-!
# Sessions

A query is read, resolved to a program, executed under the store's lock, and answered with its last
answer. Once its symbol table is loaded, whatever no variable reaches is collected at the end, also
after a failure.
-/

namespace Provenance.Session

variable {σ : Type} (b : Backend σ)

/-- Acts on the symbol table of the store, loaded for the purpose. -/
def withSymbols {ε α : Type} (wrap : BackendError → ε) (a : Action (Workspace σ) ε α) :
    Action σ ε α :=
  .of fun s =>
    match (SymbolTable.load b).runFrom s with
    | (.error e, s) => (.error (wrap e), s)
    | (.ok symbols, s) =>
      let (result, w) := a.runFrom ⟨symbols, s⟩
      (result, w.store)

/-- Executes a program under the lock and gives its last answer, if it gave one. -/
def run (program : Program) : Action σ BackendError (Option Answer) :=
  b.locked <| .of fun s =>
    match (Program.execute b program).runFrom ⟨s, none⟩ with
    | (.ok _, x) => (.ok x.answer, x.store)
    | (.error e, x) => (.error e, x.store)

/-- Resolves and executes statements. -/
def resolveAndRun (statements : List Query.Statement) : Action (Workspace σ) QueryError Answer := do
  let program ← Resolution.resolve b statements
  let last ← ((run b program).along Workspace.storeLens).mapError .backend
  pure (last.getD .ok)

/-- Answers a query. Of several errors the first one is reported. -/
def execute (query : String) : Action σ QueryError Answer :=
  match Query.parse query with
  | .error e => throw (.parse e)
  | .ok statements => withSymbols b .backend do
    let outcome ← (resolveAndRun b statements).attempt
    let collected ← ((Workspace.collect b).mapError QueryError.backend).attempt
    let answer ← Action.ofExcept outcome
    let _ ← Action.ofExcept collected
    pure answer

/-- The report of an error as an answer. -/
def report (e : QueryError) : Answer := .failure e.kind e.message

/-- Answers a query, also one that fails. -/
def respond (query : String) (s : σ) : Answer × σ :=
  match (execute b query).runFrom s with
  | (.ok answer, s) => (answer, s)
  | (.error e, s) => (report e, s)

/-- The variables and what they are bound to, in the order of their names. -/
def symbols : Action σ BackendError (List (String × String)) := do
  let table ← SymbolTable.load b
  pure table.bindings

/-- Drops what no variable reaches and gives the number of relations dropped. -/
def collectGarbage : Action σ BackendError Nat := withSymbols b id (Workspace.collect b)

end Provenance.Session

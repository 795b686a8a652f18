import Provenance.Store.Backend
import Provenance.Handle

/-!
# Scratch tables

Tables that one instruction needs for itself. Their names carry the scratch prefix. However the
instruction ends, they are dropped in one request, in the order in which they were first created;
what goes wrong then is reported only if all else went well.
-/

namespace Provenance

open Store

/-- A state together with the scratch tables created so far, in order. -/
structure Scratch (σ : Type) where
  tables : List String
  store : σ

namespace Scratch

variable {σ α : Type}

/-- The store under the scratch tables. -/
def storeLens : Lens (Scratch σ) σ := ⟨store, fun store s => { s with store }⟩

def start (s : σ) : Scratch σ := ⟨[], s⟩

def remember (table : String) (s : Scratch σ) : Scratch σ :=
  if s.tables.contains table then s else { s with tables := s.tables ++ [table] }

/-- Creates a scratch table, or replaces the one of that name, and gives its full name. -/
def create (b : Backend (Scratch σ)) (name : String) (columns : Columns) :
    Action (Scratch σ) BackendError String := do
  let table := scratchPrefix ++ name
  b.performAll [.discard table, .create false table columns]
  modify (remember table)
  pure table

/-- Creates a scratch table of integers. -/
def createIntegers (b : Backend (Scratch σ)) (name : String) (columns : List String) :
    Action (Scratch σ) BackendError String :=
  create b name (.known (columns.map Column.integer))

/-- Drops the scratch tables and forgets them. -/
def finish (b : Backend σ) : Action (Scratch σ) BackendError Unit := do
  let s ← get
  set { s with tables := [] }
  if s.tables.isEmpty then pure ()
  else ((b.perform (.lines (s.tables.map Statement.discard))).along storeLens)

/-- Drops the scratch tables, whatever comes of it. -/
def abandon (b : Backend σ) (s : Scratch σ) : Scratch σ := ((finish b).runFrom s).2

/-- Runs a body that creates scratch tables, and drops them at its end. -/
def within (b : Backend σ) (body : Backend (Scratch σ) → Action (Scratch σ) BackendError α) :
    Action σ BackendError α :=
  .of fun s =>
    match (body (b.along storeLens)).runFrom (start s) with
    | (.ok a, s) =>
      match (finish b).runFrom s with
      | (.ok _, s) => (.ok a, s.store)
      | (.error e, s) => (.error e, s.store)
    | (.error e, s) => (.error e, (abandon b s).store)

end Scratch

end Provenance

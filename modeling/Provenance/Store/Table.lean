import Provenance.Store.Fault
import Provenance.Store.Statement

/-!
# Tables

A table is a list of named columns and a list of rows, in the order in which they were added. A
database is a list of tables. Names of tables and columns are compared without regard to the case
of ASCII letters, and keep their case in listings.
-/

namespace Provenance.Store

/-- Whether two names are equal but for the case of ASCII letters. -/
def sameName (a b : String) : Bool :=
  a == b || (a.utf8ByteSize == b.utf8ByteSize && a.toLower == b.toLower)

structure Table where
  name : String
  columns : List Column
  /-- The columns that have an index, keys among them. -/
  indexed : List String
  rows : List Row
  deriving DecidableEq, Repr, Inhabited

namespace Table

/-- The place of a column. -/
def index? (t : Table) (column : String) : Option Nat :=
  t.columns.findIdx? fun c => sameName c.name column

/-- The column and its cells, one for each row. -/
def column? (t : Table) (column : String) : Option (Column × List Cell) := do
  let i ← t.index? column
  let c ← t.columns[i]?
  pure (c, t.rows.map fun row => row.getD i .null)

/-- The row with each cell brought to its column's affinity. -/
def fit (t : Table) (row : Row) : Row :=
  t.columns.zipWith (fun c cell => c.affinity.store cell) row

/-- The first constraint that a row would break. -/
def violation? (t : Table) (row : Row) : Option Cause :=
  let pairs := t.columns.zip row
  (pairs.findSome? fun (c, cell) =>
      if c.notNull && cell.isNull then some (.emptyCell t.name c.name) else none).or <|
    pairs.findSome? fun (c, cell) =>
      let taken := (t.column? c.name).elim [] (·.2)
      if c.primaryKey && !cell.isNull && taken.any (fun d => d.order cell == .eq) then
        some (.repeatedKey t.name c.name)
      else none

/-- Appends one row, unless it breaks a constraint. -/
def add (t : Table) (row : Row) : Except Cause Table :=
  let row := t.fit row
  match t.violation? row with
  | some cause => .error cause
  | none => .ok { t with rows := t.rows ++ [row] }

/-- Whether some column constrains the rows. -/
def isConstrained (t : Table) : Bool := t.columns.any fun c => c.notNull || c.primaryKey

/-- Appends rows, all or none. -/
def addAll (t : Table) (rows : List Row) : Except Cause Table :=
  if t.isConstrained then rows.foldlM add t else .ok { t with rows := t.rows ++ rows.map t.fit }

end Table

structure Database where
  tables : List Table
  deriving DecidableEq, Repr, Inhabited

namespace Database

def empty : Database := ⟨[]⟩

def table? (db : Database) (name : String) : Option Table :=
  db.tables.find? fun t => sameName t.name name

/-- Puts a table in the place of the one of its name. -/
def replace (db : Database) (t : Table) : Database :=
  ⟨db.tables.map fun u => if sameName u.name t.name then t else u⟩

/-- Adds a table under a new name. -/
def add (db : Database) (t : Table) : Database := ⟨db.tables ++ [t]⟩

def remove (db : Database) (name : String) : Database :=
  ⟨db.tables.filter fun t => !sameName t.name name⟩

/-- Whether a name is kept for the store itself: `sqlite_` in any case at its front. -/
def isReserved (name : String) : Bool := "sqlite_".toList.isPrefixOf (name.toLower.toList)

/-- Whether a table is left out of listings: its name begins with `sqlite`, in any case, and goes
on with at least one character. -/
def isHidden (name : String) : Bool :=
  "sqlite".toList.isPrefixOf (name.toLower.toList) && 7 ≤ name.length

/-- The names of the listed tables, in the order of their code points. -/
def tableNames (db : Database) : List String :=
  ((db.tables.map Table.name).filter fun n => !isHidden n).mergeSort fun a b => a ≤ b

end Database

end Provenance.Store

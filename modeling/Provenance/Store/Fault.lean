import Provenance.Text.Numeral

/-!
# Faults of the store

What makes a statement fail. Some faults show the statement text, from the failing statement on,
and the byte offset in it at which they arose.
-/

namespace Provenance.Store

inductive Cause where
  | missingTable (table : String)
  | tableExists (table : String)
  | reservedName (table : String)
  | missingColumn (column : String)
  /-- A row is to be added under a column that its table lacks. -/
  | unknownColumn (table column : String)
  /-- A table has other columns than a row has cells. -/
  | wrongWidth (table : String) (columns cells : Nat)
  /-- A row has other cells than columns are named. -/
  | wrongRow (cells columns : Nat)
  | emptyCell (table column : String)
  | repeatedKey (table column : String)
  /-- A table is to have more than one key. -/
  | secondKey (table : String)
  /-- A column that is to decide between adding and changing a row is no key. -/
  | noKey
  | malformed (near : String)
  | incomplete
  deriving DecidableEq, Repr, Inhabited

/-- A statement text and an offset in bytes. -/
structure Site where
  statement : String
  offset : Nat
  deriving DecidableEq, Repr, Inhabited

structure Fault where
  cause : Cause
  site : Option Site
  deriving DecidableEq, Repr, Inhabited

def Cause.message : Cause → String
  | missingTable table => s!"no such table: {table}"
  | tableExists table => s!"table {table} already exists"
  | reservedName table => s!"object name reserved for internal use: {table}"
  | missingColumn column => s!"no such column: {column}"
  | unknownColumn table column => s!"table {table} has no column named {column}"
  | wrongWidth table columns cells =>
    s!"table {table} has {Text.natural columns} columns but "
      ++ s!"{Text.natural cells} values were supplied"
  | wrongRow cells columns => s!"{Text.natural cells} values for {Text.natural columns} columns"
  | emptyCell table column => s!"NOT NULL constraint failed: {table}.{column}"
  | repeatedKey table column => s!"UNIQUE constraint failed: {table}.{column}"
  | secondKey table => s!"table \"{table}\" has more than one primary key"
  | noKey => "ON CONFLICT clause does not match any PRIMARY KEY or UNIQUE constraint"
  | malformed near => s!"near \"{near}\": syntax error"
  | incomplete => "incomplete input"

def Fault.message (f : Fault) : String :=
  match f.site with
  | none => f.cause.message
  | some s => s!"{f.cause.message} in {s.statement} at offset {Text.natural s.offset}"

end Provenance.Store

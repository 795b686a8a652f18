import Provenance.Store.Literal

/-!
# Statements

The fragment of a relational language that graph operations need, as data. A *selection* joins
sources, each with the conditions that its rows must meet beside the rows before it; it may group
the joined rows, order them and cut them off. A *statement* creates, fills, changes, drops or reads
a table.

Every statement has a text, which is what a store that takes texts is sent.
-/

namespace Provenance.Store

/-- A column, of the source named in front of it or of the only source that has it. -/
structure ColumnRef where
  source : Option String
  column : String
  deriving DecidableEq, Repr, Inhabited

namespace ColumnRef

def text : ColumnRef → String
  | ⟨none, column⟩ => column
  | ⟨some source, column⟩ => source ++ "." ++ column

/-- A column of the only source. -/
def plain (column : String) : ColumnRef := ⟨none, column⟩

/-- A column of the named source. -/
def of (source column : String) : ColumnRef := ⟨some source, column⟩

end ColumnRef

/-- What a selection computes from a group of rows. -/
inductive Term where
  | column (ref : ColumnRef)
  | constant (cell : Cell)
  /-- The least cell of a column. -/
  | least (ref : ColumnRef)
  deriving DecidableEq, Repr, Inhabited

def Term.text : Term → String
  | column ref => ref.text
  | constant cell => cell.literal
  | least ref => "MIN(" ++ ref.text ++ ")"

/-- The texts with `separator` between them. -/
def joined (separator : String) (texts : List String) : String := separator.intercalate texts

def pairsText (pairs : List (ColumnRef × ColumnRef)) : String :=
  joined " AND " (pairs.map fun (a, b) => a.text ++ " = " ++ b.text)

/-- What a joined row must meet. -/
inductive Condition where
  /-- The cell is an id of the table. -/
  | within (ref : ColumnRef) (table : String)
  /-- The cell is no id of the table. -/
  | outside (ref : ColumnRef) (table : String)
  /-- Two columns agree. -/
  | same (left right : ColumnRef)
  | equals (ref : ColumnRef) (value : String)
  /-- The cell plus `added` is at most `bound`. -/
  | atMost (ref : ColumnRef) (added bound : Int)
  /-- The cell is the least of a column over the rows of the table that agree with this row. -/
  | leastOf (ref least : ColumnRef) (table source : String)
      (agreeing : List (ColumnRef × ColumnRef))
  /-- No row of the table agrees with this row. -/
  | unmatched (table source : String) (agreeing : List (ColumnRef × ColumnRef))
  deriving DecidableEq, Repr, Inhabited

namespace Condition

def text : Condition → String
  | within ref table => ref.text ++ " IN (SELECT id FROM " ++ table ++ ")"
  | outside ref table => ref.text ++ " NOT IN (SELECT id FROM " ++ table ++ ")"
  | same left right => left.text ++ " = " ++ right.text
  | equals ref value => ref.text ++ " = " ++ quoteLiteral value
  | atMost ref added bound =>
    ref.text ++ " + " ++ Text.decimal added ++ " <= " ++ Text.decimal bound
  | leastOf ref least table source agreeing =>
    ref.text ++ " = (SELECT MIN(" ++ least.text ++ ") FROM " ++ table ++ " " ++ source ++ " WHERE "
      ++ pairsText agreeing ++ ")"
  | unmatched table source agreeing =>
    "NOT EXISTS (SELECT 1 FROM " ++ table ++ " " ++ source ++ " WHERE " ++ pairsText agreeing ++ ")"

/-- The table that a condition looks into. -/
def table? : Condition → Option String
  | within _ table => some table
  | outside _ table => some table
  | leastOf _ _ table _ _ => some table
  | unmatched table _ _ => some table
  | _ => none

end Condition

/-- A table that a selection reads, under another name if one is given. -/
structure Source where
  table : String
  rename : Option String
  conditions : List Condition
  deriving DecidableEq, Repr, Inhabited

namespace Source

/-- The name under which the columns of a source are found. -/
def name (s : Source) : String := s.rename.getD s.table

def text (s : Source) : String :=
  match s.rename with
  | none => s.table
  | some name => s.table ++ " " ++ name

end Source

/-- What a selection answers with. -/
inductive Output where
  /-- All columns. -/
  | everything
  /-- The number of rows. -/
  | count
  | terms (list : List Term)
  deriving DecidableEq, Repr, Inhabited

def Output.text : Output → String
  | everything => "*"
  | count => "COUNT(*)"
  | terms list => joined ", " (list.map Term.text)

structure Selection where
  output : Output
  sources : List Source
  distinct : Bool
  groupBy : List ColumnRef
  orderBy : List ColumnRef
  limit : Option Int
  deriving DecidableEq, Repr, Inhabited

namespace Selection

/-- The columns of one table, from the rows that meet the conditions. -/
def columns (names : List String) (table : String) (conditions : List Condition) : Selection where
  output := .terms (names.map fun n => .column (.plain n))
  sources := [⟨table, none, conditions⟩]
  distinct := false
  groupBy := []
  orderBy := []
  limit := none

/-- The terms over a join. -/
def join (terms : List Term) (sources : List Source) : Selection where
  output := .terms terms
  sources := sources
  distinct := false
  groupBy := []
  orderBy := []
  limit := none

/-- The ids of a table. -/
def ids (table : String) : Selection := columns ["id"] table []

/-- The ids of a table that meet the conditions. -/
def idsWhere (table : String) (conditions : List Condition) : Selection :=
  columns ["id"] table conditions

/-- The number of rows of a table. -/
def countOf (table : String) : Selection := { ids table with output := .count }

/-- One row for each combination of cells in the given columns. -/
def grouped (refs : List ColumnRef) (q : Selection) : Selection := { q with groupBy := refs }

/-- One row for each combination of cells in columns of the only source. -/
def groupedBy (names : List String) (q : Selection) : Selection :=
  q.grouped (names.map ColumnRef.plain)

def clause (keyword : String) (texts : List String) (separator : String) : String :=
  if texts.isEmpty then "" else keyword ++ joined separator texts

def text (q : Selection) : String :=
  "SELECT " ++ (if q.distinct then "DISTINCT " else "") ++ q.output.text
    ++ clause " FROM " (q.sources.map Source.text) ", "
    ++ clause " WHERE " (q.sources.flatMap fun s => s.conditions.map Condition.text) " AND "
    ++ clause " GROUP BY " (q.groupBy.map ColumnRef.text) ", "
    ++ clause " ORDER BY " (q.orderBy.map ColumnRef.text) ", "
    ++ (match q.limit with
      | none => ""
      | some n => " LIMIT " ++ Text.decimal n)

end Selection

/-- A column of a table. -/
structure Column where
  name : String
  /-- The declared type; empty if none is given. -/
  type : String
  affinity : Affinity
  primaryKey : Bool
  notNull : Bool
  deriving DecidableEq, Repr, Inhabited

namespace Column

/-- A column with the affinity of its type. -/
def declared (name type : String) (primaryKey notNull : Bool) : Column :=
  ⟨name, type, .ofDeclared type, primaryKey, notNull⟩

/-- A column of integers. -/
def integer (name : String) : Column := ⟨name, "INTEGER", .integer, false, false⟩

/-- A column of texts. -/
def text (name : String) : Column := ⟨name, "TEXT", .text, false, false⟩

/-- A column in which no cell may be empty. -/
def required (c : Column) : Column := { c with notNull := true }

/-- A column in which no cell is repeated. -/
def key (c : Column) : Column := { c with primaryKey := true }

def definition (c : Column) : String :=
  c.name ++ (if c.type.isEmpty then "" else " " ++ c.type)
    ++ (if c.primaryKey then " PRIMARY KEY" else "") ++ (if c.notNull then " NOT NULL" else "")

end Column

/-- The columns of a new table: known ones, or a text that is passed on. -/
inductive Columns where
  | known (list : List Column)
  | written (text : String)
  deriving DecidableEq, Repr, Inhabited

def Columns.text : Columns → String
  | known list => joined ", " (list.map Column.definition)
  | written text => text

inductive Statement where
  | create (ifAbsent : Bool) (table : String) (columns : Columns)
  | drop (ifPresent : Bool) (table : String)
  /-- Appends rows; without column names, all columns are given. -/
  | insert (table : String) (columns : List String) (rows : List Row)
  /-- Appends the rows of a selection. -/
  | insertFrom (table : String) (query : Selection)
  /-- Appends the row `(key, value)`, or changes the value of the row with that key. -/
  | upsert (table keyColumn valueColumn key value : String)
  /-- Removes the rows with the given cell, or all rows. -/
  | delete (table : String) (only : Option (String × Cell))
  | update (table column : String) (value : Cell) (only : Option (String × Cell))
  | select (query : Selection)
  deriving DecidableEq, Repr, Inhabited

namespace Statement

def onlyText : Option (String × Cell) → String
  | none => ""
  | some (column, cell) => " WHERE " ++ column ++ " = " ++ cell.literal

def rowsText (rows : List Row) : String :=
  joined ", " (rows.map fun row => "(" ++ joined ", " (row.map Cell.literal) ++ ")")

def text : Statement → String
  | create ifAbsent table columns =>
    "CREATE TABLE " ++ (if ifAbsent then "IF NOT EXISTS " else "") ++ table
      ++ " (" ++ columns.text ++ ");"
  | drop ifPresent table =>
    "DROP TABLE " ++ (if ifPresent then "IF EXISTS " else "") ++ table ++ ";"
  | insert table columns rows =>
    "INSERT INTO " ++ table ++ (if columns.isEmpty then "" else " (" ++ joined ", " columns ++ ")")
      ++ " VALUES " ++ rowsText rows ++ ";"
  | insertFrom table query => "INSERT INTO " ++ table ++ " " ++ query.text ++ ";"
  | upsert table keyColumn valueColumn key value =>
    "INSERT INTO " ++ table ++ " (" ++ keyColumn ++ ", " ++ valueColumn ++ ") VALUES ("
      ++ quoteLiteral key ++ ", " ++ quoteLiteral value ++ ") ON CONFLICT(" ++ keyColumn
      ++ ") DO UPDATE SET " ++ valueColumn ++ " = excluded." ++ valueColumn ++ ";"
  | delete table only => "DELETE FROM " ++ table ++ onlyText only ++ ";"
  | update table column value only =>
    "UPDATE " ++ table ++ " SET " ++ column ++ " = " ++ value.literal ++ onlyText only ++ ";"
  | select query => query.text ++ ";"

/-- One row of one integer for each id. -/
def idRows (ids : List Int) : List Row := ids.map fun n => [Cell.integer n]

/-- Appends one row for each id. -/
def insertIds (table : String) (ids : List Int) : Statement := insert table ["id"] (idRows ids)

/-- Creates a table of ids. -/
def createIds (table : String) : Statement := create false table (.known [.integer "id"])

/-- Removes a table, if it is there. -/
def discard (table : String) : Statement := drop true table

/-- Removes all rows of a table. -/
def clear (table : String) : Statement := delete table none

end Statement

/-- What is sent to a store at once. -/
inductive Request where
  /-- Statements one to a line; `closed` says whether the last line ends in a line feed too. -/
  | batch (closed : Bool) (statements : List Statement)
  /-- A statement text taken as it is. -/
  | raw (text : String)
  deriving DecidableEq, Repr, Inhabited

namespace Request

/-- Statements on lines of their own. -/
def lines (statements : List Statement) : Request := batch true statements

/-- Statements separated by line feeds. -/
def sequence (statements : List Statement) : Request := batch false statements

def single (statement : Statement) : Request := batch false [statement]

def text : Request → String
  | batch true statements => String.join (statements.map fun s => s.text ++ "\n")
  | batch false statements => joined "\n" (statements.map Statement.text)
  | raw text => text

end Request

end Provenance.Store

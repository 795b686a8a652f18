import Provenance.Store.Database

/-!
# Archives

A database is kept as a text: a first line that says what it is, and then the statements that make
its tables and fill them. Running the statements gives the database back. Indexes that are no keys
are not kept.
-/

namespace Provenance.Store

namespace Cell

/-- A literal from which the cell is read back; a real number has a point. -/
def exactLiteral : Cell → String
  | .real (.infinite negative) => Binary64.sign negative ++ "9e999"
  | .real x =>
    let text := x.shown
    if text.toList.contains '.' then text else text ++ ".0"
  | c => c.literal

end Cell

namespace Table

/-- The statements that make a table and fill it. -/
def archive (t : Table) : List String :=
  (Statement.create false t.name (.known t.columns)).text
    :: t.rows.map fun row =>
      "INSERT INTO " ++ t.name ++ " VALUES (" ++ joined ", " (row.map Cell.exactLiteral) ++ ");"

end Table

namespace Database

/-- The first line of an archive. -/
def archiveHeader : String := "-- provenance store\n"

/-- The text that a database is kept as. -/
def archive (db : Database) : String :=
  archiveHeader ++ String.join ((db.tables.flatMap Table.archive).map fun line => line ++ "\n")

/-- The database that a text keeps. An empty text keeps no tables. -/
def ofArchive? (text : String) : Option Database :=
  if text.isEmpty then some empty
  else if archiveHeader.toList.isPrefixOf text.toList then
    match empty.run (.raw text) with
    | (.ok _, db) => some db
    | (.error _, _) => none
  else none

end Database

end Provenance.Store

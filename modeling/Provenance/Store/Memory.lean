import Provenance.Store.Backend
import Provenance.Store.Database

/-!
# The store in memory

A database as a backend. The cells of an answer are shown as texts.
-/

namespace Provenance.Backend

open Store

/-- Runs a request on a database and shows the rows of its last selection. -/
def runShown (r : Request) : Action Database BackendError (List (List String)) :=
  .of fun db =>
    match db.run r with
    | (.ok answer, db) => (.ok ((answer.getD []).map fun row => row.map Cell.shown), db)
    | (.error fault, db) => (.error (.statement fault), db)

/-- A database as a backend. One session uses it, so that its lock is always free when asked for. -/
def memory : Backend Database where
  execute r := do
    let rows ← runShown r
    pure (joined "\n" (rows.map (joined "|")))
  queryRows := runShown
  relationNames := .of fun db => (.ok db.tableNames, db)
  acquire := id
  release := id

end Provenance.Backend

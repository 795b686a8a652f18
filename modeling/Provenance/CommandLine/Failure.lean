import Provenance.CommandLine.Host
import Provenance.CommandLine.LogFilter
import Provenance.Document
import Provenance.Storage

/-!
# Failures of commands

Why a command failed, as a chain: what could not be done, followed by its cause, and so on.
-/

namespace Provenance

/-! ## Faults of the store -/

/-- The number and the wording under which the store reports a cause. -/
def Store.Cause.code : Store.Cause → String
  | .emptyCell .. => "Error code 1299: A NOT NULL constraint failed"
  | .repeatedKey .. => "Error code 1555: A PRIMARY KEY constraint failed"
  | _ => "Error code 1: SQL error or missing database"

def Store.Fault.chain (f : Store.Fault) : List String := [f.message, f.cause.code]

def BackendError.chain : BackendError → List String
  | statement fault => (statement fault).message :: fault.chain
  | e => [e.message]

def Storage.LoadError.chain (e : Storage.LoadError) : List String := e.message :: e.cause.chain

namespace CommandLine

/-- The chain of a store that cannot be used, with what was to be done with it. -/
def StoreFault.chain (attempt path : String) : StoreFault → List String
  | closed =>
    [s!"failed to {attempt} {path}", s!"unable to open database file: {path}",
      "Error code 14: Unable to open the database file"]
  | foreign =>
    ["file is not a database", "Error code 26: File opened that is not a database file"]

inductive Failure where
  | badFilter (filter : String) (fault : LogFilter.Fault)
  | noStore
  | storeMissing (path : String)
  | storePresent (path : String)
  | unopened (path : String) (fault : StoreFault)
  | uncreated (path : String) (fault : StoreFault)
  | noDirectory (path : String) (fault : FileFault)
  | unread (path : String) (fault : FileFault)
  | noInput (fault : FileFault)
  | unwritten (path : String) (fault : FileFault)
  | badDocument (path : String) (error : DocumentError)
  | unloaded (error : Storage.LoadError)
  | backend (error : BackendError)
  | unconfirmed
  | queryFailed
  deriving DecidableEq, Repr, Inhabited

namespace Failure

def chain : Failure → List String
  | badFilter filter fault => [s!"invalid log level '{filter}': {fault.message}"]
  | noStore => ["specify --db PATH (or PROVQL_DB) for this command"]
  | storeMissing path => [s!"database not found at {path}"]
  | storePresent path => [s!"database already exists at {path}"]
  | unopened path fault => fault.chain "open" path
  | uncreated path fault => fault.chain "create" path
  | noDirectory path fault => [s!"failed to create directory {path}", fault.message]
  | unread path fault => [s!"failed to read {path}", fault.message]
  | noInput fault => [fault.message]
  | unwritten path fault => [s!"failed to write {path}", fault.message]
  | badDocument path error => s!"in {path}" :: error.chain
  | unloaded error => error.chain
  | backend error => error.chain
  | unconfirmed =>
    ["reset drops every relation including the base graph; pass --yes to confirm"]
  | queryFailed => ["query failed"]

/-- The line that reports a failure. -/
def report (f : Failure) : String := "error: " ++ ": ".intercalate f.chain ++ "\n"

end Failure

end CommandLine

end Provenance

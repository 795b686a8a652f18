import Provenance.Query.ParseError
import Provenance.Resolution.Error
import Provenance.Store.Backend

/-!
# Errors of queries

A query fails while it is read, while it is resolved, or in the store.
-/

namespace Provenance

open Query

/-- What can stop a query before it has an answer. -/
inductive QueryError where
  | parse (error : ParseError)
  | resolution (error : ResolutionError)
  | backend (error : BackendError)
  deriving DecidableEq, Repr, Inhabited

namespace QueryError

/-- The name of the kind of an error. -/
def kind : QueryError → String
  | parse _ => "ParseError"
  | resolution _ => "ResolutionError"
  | backend _ => "BackendError"

def message : QueryError → String
  | parse e => e.message
  | resolution e => e.message
  | backend e => e.message

end QueryError

end Provenance

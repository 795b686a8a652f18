import Provenance.Query.Position

/-!
# Parse errors

The first syntax error ends a query. It shows what was expected and what stands there instead.
-/

namespace Provenance.Query

/-- What the grammar can miss. -/
inductive Expectation where
  | statement
  | assignmentOperator
  | endOfStatement
  | expression
  | methodName
  | argumentsEnd
  | groupEnd
  | wordRange
  | escapeSequence
  | closingQuote
  | nestingLimit
  | heightLimit
  deriving DecidableEq, Repr, Inhabited

/-- Parentheses may be nested this deep. -/
def maxNesting : Nat := 64

/-- Expressions may be this tall. -/
def maxHeight : Nat := 256

def Expectation.describe : Expectation → String
  | statement => "variable assignment or command"
  | assignmentOperator => "assignment operator"
  | endOfStatement => "end of statement"
  | expression => "expression"
  | methodName => "method name"
  | argumentsEnd => "`,` or `)`"
  | groupEnd => "`)`"
  | wordRange => "integer within the 64-bit range"
  | escapeSequence => "escape sequence"
  | closingQuote => "closing quote"
  | nestingLimit => s!"at most {Text.natural maxNesting} nested parentheses"
  | heightLimit => s!"an expression at most {Text.natural maxHeight} operations deep"

structure ParseError where
  position : Position
  expected : Expectation
  /-- The character that stands at the position, unless the text ends there. -/
  found : Option Char
  deriving DecidableEq, Repr, Inhabited

namespace ParseError

def describeFound : Option Char → String
  | none => "end of input"
  | some '\n' => "end of line"
  | some c => s!"`{c}`"

/-- What was expected and what was found. -/
def reason (e : ParseError) : String :=
  s!"expected {e.expected.describe}, found {describeFound e.found}"

def message (e : ParseError) : String :=
  s!"parse error at {e.position.describe}: {e.reason}"

end ParseError

end Provenance.Query

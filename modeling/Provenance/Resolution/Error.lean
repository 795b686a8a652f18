import Provenance.Query.Kind
import Provenance.Query.Position

/-!
# Resolution errors

What can be wrong with a query that could be read: a name that means nothing, an operand of the
wrong kind, too many or too few operands, and so on. All of this is found before any instruction
runs.
-/

namespace Provenance

open Query

/-- Where an operand stands. -/
inductive Place where
  | argument (index : Nat) (call : String)
  | receiver (method : String)
  | leftOf (operator : String)
  | rightOf (operator : String)
  | assignedTo (var : String)
  deriving DecidableEq, Repr, Inhabited

/-- How many operands are expected. -/
inductive Arity where
  | exactly (n : Nat)
  | atLeast (n : Nat)
  deriving DecidableEq, Repr, Inhabited

/-- An operand that is not acceptable although its kind is. -/
inductive Misuse where
  /-- A bare name stands where a value is needed. -/
  | name (word : String)
  | keyword (command word : String)
  | negative (quantity call : String) (n : Int)
  | direction (spelling : String)
  deriving DecidableEq, Repr, Inhabited

/-- How an argument appears in a message about the form of a command: by its name, by its kind, or
as unknown. -/
inductive Appearance where
  | word (name : String)
  | kind (k : Kind)
  | unknown
  deriving DecidableEq, Repr, Inhabited

inductive ResolutionError where
  | unknownVariable (name : String) (position : Position)
  | unknownCommand (name : String) (position : Position)
  /-- No operation of that name is one on a graph, or a function. -/
  | unknownOperation (name : String) (onGraph : Bool) (position : Position)
  | typeMismatch (place : Place) (expected : List Kind) (found : Kind) (position : Position)
  | arity (name : String) (expected : Arity) (found : Nat) (position : Position)
  | signature (name : String) (found : List Appearance) (position : Position)
  | reservedVariable (name : String)
  | invalidArgument (misuse : Misuse) (position : Position)
  /-- Operands that passed all checks do not fit after all. -/
  | unchecked (name : String) (position : Position)
  deriving DecidableEq, Repr, Inhabited

def Place.describe : Place → String
  | argument index call => s!"argument {Text.natural (index + 1)} of `{call}`"
  | receiver method => s!"receiver of `{method}`"
  | leftOf operator => s!"left operand of `{operator}`"
  | rightOf operator => s!"right operand of `{operator}`"
  | assignedTo var => s!"assignment to `{var}`"

def Arity.describe : Arity → String
  | exactly n => Text.natural n
  | atLeast n => s!"at least {Text.natural n}"

def Misuse.describe : Misuse → String
  | name word => s!"unexpected name `{word}`"
  | keyword command word => s!"`{command}` does not accept keyword `{word}`"
  | negative quantity call n =>
    s!"{quantity} of `{call}` must be non-negative, got {Text.decimal n}"
  | direction spelling => s!"unknown lineage direction `{spelling}`"

def Appearance.describe : Appearance → String
  | word name => name
  | kind k => k.label
  | unknown => "?"

namespace ResolutionError

def message : ResolutionError → String
  | unknownVariable name p => s!"unknown variable `{name}` at {p.describe}"
  | unknownCommand name p => s!"unknown command `{name}` at {p.describe}"
  | unknownOperation name onGraph p =>
    let subject := if onGraph then Kind.graph.label else "function"
    s!"unknown operation `{name}` on {subject} at {p.describe}"
  | typeMismatch place expected found p =>
    let kinds := " or ".intercalate (expected.map Kind.label)
    s!"type mismatch at {p.describe}: {place.describe} expects {kinds}, found {found.label}"
  | arity name expected found p =>
    s!"`{name}` at {p.describe} expects {expected.describe} argument(s), found {Text.natural found}"
  | signature name found p =>
    let list := ", ".intercalate (found.map Appearance.describe)
    s!"no form of `{name}` accepts ({list}) at {p.describe}"
  | reservedVariable name => s!"cannot reassign reserved variable `{name}`"
  | invalidArgument misuse p => s!"invalid argument at {p.describe}: {misuse.describe}"
  | unchecked name p => s!"operands of `{name}` at {p.describe} do not fit"

end ResolutionError

end Provenance

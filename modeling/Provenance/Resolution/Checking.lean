import Provenance.Query.Syntax
import Provenance.Resolution.Operation

/-!
# Kinds of expressions

The kind of an expression is read off its syntax, before anything is evaluated: a literal and a
variable show it, and the signature of an operation gives it. Only the operands of infix operators
are looked at on the way; those of calls are checked when the call is evaluated.

An infix operator needs two operands of one kind: `+` two graphs or two metadata, the others two
graphs.
-/

namespace Provenance.Resolution

open Query

abbrev Checked := Except ResolutionError

/-- The kinds of which an infix operator takes two operands. -/
def infixKinds (operator : String) : List Kind :=
  if operator == "+" then [.graph, .metadata] else [.graph]

/-- Checks the kinds of the two operands of an infix operator. -/
def checkInfix (operator : String) (lhs rhs : Kind) (pos : Position) : Checked Unit :=
  if !(infixKinds operator).contains lhs then
    .error (.typeMismatch (.leftOf operator) (infixKinds operator) lhs pos)
  else if rhs != lhs then .error (.typeMismatch (.rightOf operator) [lhs] rhs pos)
  else .ok ()

/-- The function or method of a name. -/
def findOperation (name : String) (onGraph : Bool) (pos : Position) : Checked Operation :=
  match Operation.find? name onGraph with
  | some o => .ok o
  | none => .error (.unknownOperation name onGraph pos)

mutual

/-- The kind of an expression. -/
def kindOf : Expr → Checked Kind
  | .integer _ _ => .ok .integer
  | .text _ _ => .ok .text
  | .name pos word => .error (.invalidArgument (.name word) pos)
  | .var _ v => .ok v.kind
  | .call pos function _ => do
    let o ← findOperation function false pos
    pure o.signature.result
  | .apply pos subject operator operands =>
    if isInfix operator then do
      let lhs ← kindOf subject
      match ← kindOfFirst operands with
      | none => pure ()
      | some rhs => checkInfix operator lhs rhs pos
      pure lhs
    else do
      let o ← findOperation operator true pos
      pure o.signature.result

/-- The kind of the first expression, if there is one. -/
def kindOfFirst : List Expr → Checked (Option Kind)
  | [] => .ok none
  | e :: _ => do
    let k ← kindOf e
    pure (some k)

end

/-- Checks the number of operands of a call. -/
def checkArity (name : String) (expected : Arity) (found : Nat) (pos : Position) : Checked Unit :=
  if expected.admits found then .ok () else .error (.arity name expected found pos)

/-- Checks the kinds of the operands from the one with the given index on. The last expected kind
holds for all further operands. -/
def checkOperands (call : String) : Nat → List Kind → List Expr → Checked Unit
  | _, [], _ => .ok ()
  | _, _, [] => .ok ()
  | index, expected :: later, e :: es => do
    let found ← kindOf e
    if found = expected then
      checkOperands call (index + 1) (if later.isEmpty then [expected] else later) es
    else .error (.typeMismatch (.argument index call) [expected] found e.pos)

/-- Checks that a method stands on a graph. -/
def checkReceiver (method : String) (subject : Expr) : Checked Unit := do
  let found ← kindOf subject
  if found = .graph then .ok ()
  else .error (.typeMismatch (.receiver method) [.graph] found subject.pos)

/-- How an argument appears in a message. -/
def appearance (e : Expr) : Appearance :=
  match e, kindOf e with
  | .name _ word, _ => .word word
  | _, .ok k => .kind k
  | _, .error _ => .unknown

end Provenance.Resolution

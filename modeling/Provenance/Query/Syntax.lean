import Provenance.Query.Kind
import Provenance.Query.Position

/-!
# Query syntax

A query is a list of statements. An assignment binds a variable to the value of an expression,
directly or combined with the variable's current value; a command acts on its arguments. An
expression is a literal, a bare name, a variable, a function call, or an operation on a subject:
an infix operator (`+`, `-`, `&`) or a method.

Every node carries the position that messages about it show.
-/

namespace Provenance.Query

/-- A variable, named with its sigil. -/
structure Variable where
  name : String
  deriving DecidableEq, Repr, Inhabited

/-- The kind of a variable: metadata for `@`, else a graph. -/
def Variable.kind (v : Variable) : Kind :=
  (v.name.toList.head?.bind Kind.ofSigil?).getD .graph

/-- How an assignment combines the new value with the old one. -/
inductive AssignOp where
  | set
  | union
  | subtract
  | intersect
  deriving DecidableEq, Repr, Inhabited

namespace AssignOp

def spelling : AssignOp → String
  | set => "="
  | union => "+="
  | subtract => "-="
  | intersect => "&="

/-- The infix operator that a compound assignment applies. -/
def operator? : AssignOp → Option String
  | set => none
  | union => some "+"
  | subtract => some "-"
  | intersect => some "&"

/-- All assignment operators; a longer spelling comes before `=`. -/
def all : List AssignOp := [union, subtract, intersect, set]

end AssignOp

/-- Whether an operator is written between its operands. -/
def isInfix (operator : String) : Bool := operator == "+" || operator == "-" || operator == "&"

inductive Expr where
  | integer (pos : Position) (value : Int)
  | text (pos : Position) (value : String)
  | name (pos : Position) (word : String)
  | var (pos : Position) (target : Variable)
  | call (pos : Position) (function : String) (arguments : List Expr)
  | apply (pos : Position) (subject : Expr) (operator : String) (operands : List Expr)
  deriving Inhabited

namespace Expr

def pos : Expr → Position
  | integer p _ => p
  | text p _ => p
  | name p _ => p
  | var p _ => p
  | call p _ _ => p
  | apply p _ _ _ => p

mutual

/-- The height of an expression: 1 for a leaf, one more than the tallest part otherwise. -/
def height : Expr → Nat
  | integer _ _ => 1
  | text _ _ => 1
  | name _ _ => 1
  | var _ _ => 1
  | call _ _ arguments => 1 + tallest arguments
  | apply _ subject _ operands => 1 + max subject.height (tallest operands)

/-- The height of the tallest expression of a list. -/
def tallest : List Expr → Nat
  | [] => 0
  | e :: es => max e.height (tallest es)

end

end Expr

inductive Statement where
  | assignment (pos : Position) (target : Variable) (op : AssignOp) (value : Expr)
  | command (pos : Position) (name : String) (arguments : List Expr)
  deriving Inhabited

end Provenance.Query

import Provenance.Resolution.Checking
import Provenance.Resolution.Draft

/-!
# Evaluating expressions

An expression is evaluated from left to right, its operands before itself. A call checks the number
and the kinds of its operands before it evaluates any of them, so that an operand of the wrong kind
is found before a name is given out for another.
-/

namespace Provenance.Resolution

open Query Draft

variable {σ : Type}

/-! ## Operands -/

/-- The value of a variable. -/
def valueOf (v : Variable) (pos : Position) : Drafting σ Value := do
  match (← get).workspace.symbols.lookup? v.name with
  | none => fail (.unknownVariable v.name pos)
  | some name => pure (if v.kind = .metadata then .metadata ⟨name⟩ else .graph ⟨name⟩)

/-- Checks that a number is not negative. -/
def requireCount (quantity call : String) (n : Int) (pos : Position) : Drafting σ Unit :=
  if n < 0 then fail (.invalidArgument (.negative quantity call n) pos) else pure ()

/-- The direction of a spelling. -/
def requireDirection (spelling : String) (pos : Position) : Drafting σ Direction :=
  match Direction.ofSpelling? spelling with
  | some d => pure d
  | none => fail (.invalidArgument (.direction spelling) pos)

/-- The given part of all values, if all have it. -/
def allOf {α : Type} (part : Value → Option α) (values : List Value) : Option (List α) :=
  values.mapM part

/-! ## Instructions of one operation -/

variable (b : Backend σ)

/-- The result of an infix operator on two values. -/
def combine (operator : String) (lhs rhs : Value) (pos : Position) : Drafting σ Value :=
  match operator, lhs, rhs with
  | "+", .graph x, .graph y => newGraph b fun t => [.union t x, .union t y]
  | "+", .metadata x, .metadata y => newMetadata b fun t => .overwriteMetadata t x y
  | "&", .graph x, .graph y => newGraph b fun t => [.intersect t x y]
  | "-", .graph x, .graph y => newGraph b fun t => [.subtract t x y]
  | operator, _, _ => fail (.unchecked operator pos)

/-- The result of a call on the values of its operands. -/
def apply (o : Operation) (subject : Option Value) (operands : List Value) (pos : Position) :
    Drafting σ Value :=
  match o, subject, operands with
  | .vertices, none, values =>
    match allOf Value.integer? values with
    | some ids => newGraph b fun t => [.insertVertices t ids]
    | none => fail (.unchecked o.name pos)
  | .edges, none, values =>
    match allOf Value.integer? values with
    | some ids => newGraph b fun t => [.insertEdges t ids]
    | none => fail (.unchecked o.name pos)
  | .lineage, some (.graph g), [.graph start, .integer depth, .text spelling] => do
    requireCount "depth" o.name depth pos
    let direction ← requireDirection spelling pos
    newGraph b fun t => [.lineage t g start depth direction]
  | .path, some (.graph g), [.graph source, .graph destination, .integer depth] => do
    requireCount "maximum depth" o.name depth pos
    newGraph b fun t => [.path t g source destination depth]
  | .shortestPath, some (.graph g), [.graph source, .graph destination, .integer depth] => do
    requireCount "maximum depth" o.name depth pos
    newGraph b fun t => [.shortestPath t g source destination depth]
  | .subgraph, some (.graph g), [.graph skeleton] => newGraph b fun t => [.subgraph t g skeleton]
  | .endpoints which, some (.graph g), [] => newGraph b fun t => [.endpoints t g which]
  | .collapse, some (.graph g), values =>
    match allOf Value.text? values with
    | some fields => newGraph b fun t => [.collapse t g fields]
    | none => fail (.unchecked o.name pos)
  | .limit, some (.graph g), [.integer bound] => do
    requireCount "limit" o.name bound pos
    newGraph b fun t => [.limit t g bound]
  | .distinct, some (.graph g), [] => newGraph b fun t => [.distinct t g]
  | .setMetadata coverage, some (.graph g), [.text name, .text value] =>
    newMetadata b fun t => .setMetadata t coverage g name value
  | o, _, _ => fail (.unchecked o.name pos)

/-! ## Expressions -/

mutual

/-- The value of an expression. -/
def evaluate : Expr → Drafting σ Value
  | .integer _ n => pure (.integer n)
  | .text _ s => pure (.text s)
  | .name pos word => fail (.invalidArgument (.name word) pos)
  | .var pos v => valueOf v pos
  | .call pos function operands => do
    let o ← require (findOperation function false pos)
    require (checkArity function o.signature.arity operands.length pos)
    require (checkOperands function 0 o.signature.operands operands)
    let values ← evaluateAll operands
    apply b o none values pos
  | .apply pos subject operator operands =>
    if isInfix operator then do
      let _ ← require (kindOf (.apply pos subject operator operands))
      let lhs ← evaluate subject
      match ← evaluateFirst operands with
      | none => fail (.arity operator (.exactly 1) 0 pos)
      | some rhs => combine b operator lhs rhs pos
    else do
      let o ← require (findOperation operator true pos)
      require (checkArity operator o.signature.arity operands.length pos)
      require (checkReceiver operator subject)
      require (checkOperands operator 0 o.signature.operands operands)
      let value ← evaluate subject
      let values ← evaluateAll operands
      apply b o (some value) values pos

/-- The values of expressions, from left to right. -/
def evaluateAll : List Expr → Drafting σ (List Value)
  | [] => pure []
  | e :: es => do
    let value ← evaluate e
    let values ← evaluateAll es
    pure (value :: values)

/-- The value of the first expression, if there is one. -/
def evaluateFirst : List Expr → Drafting σ (Option Value)
  | [] => pure none
  | e :: _ => do
    let value ← evaluate e
    pure (some value)

end

end Provenance.Resolution

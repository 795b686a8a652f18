import Provenance.Resolution.Evaluation

/-!
# Resolving queries

Statements are resolved in order. An assignment evaluates an expression and binds a variable to its
value; a compound assignment first combines the value with the variable's own. A command adds an
instruction, or forgets all bindings.

The bindings are committed once all statements are resolved, and discarded when one cannot be. Names
that were given out stay given out.
-/

namespace Provenance.Resolution

open Query Draft

variable {σ : Type} (b : Backend σ)

/-! ## Assignments -/

/-- The value that an assignment gives to its variable. -/
def assigned (pos : Position) (target : Variable) (op : AssignOp) (value : Expr) :
    Drafting σ Value := do
  let kind ← require (kindOf value)
  match op.operator? with
  | none =>
    if kind = target.kind then evaluate b value
    else fail (.typeMismatch (.assignedTo target.name) [target.kind] kind value.pos)
  | some operator => do
    let current ← valueOf target pos
    require (checkInfix operator target.kind kind pos)
    let operand ← evaluate b value
    combine b operator current operand pos

/-- Binds a variable to a value. -/
def bindTo (target : Variable) (value : Value) : Drafting σ Unit := do
  let d ← get
  match d.workspace.symbols.bind? target.name value.shown with
  | none => fail (.reservedVariable target.name)
  | some symbols => set { d with workspace := { d.workspace with symbols } }

def assign (pos : Position) (target : Variable) (op : AssignOp) (value : Expr) :
    Drafting σ Unit := do
  if target.name = baseVariable then fail (.reservedVariable target.name)
  else
    let v ← assigned b pos target op value
    bindTo target v

/-! ## Commands -/

/-- The words in front of the arguments, and the arguments. -/
def splitKeywords (c : Command) : List Expr → Checked (List String × List Expr)
  | .name pos word :: es =>
    if c.keywords.contains word then do
      let (words, others) ← splitKeywords c es
      pure (word :: words, others)
    else .error (.invalidArgument (.keyword c.name word) pos)
  | es => .ok ([], es)

/-- Checks that the word is there without which the command has no form. -/
def checkKeywords (c : Command) (words : List String) (arguments : List Expr) (pos : Position) :
    Checked Unit :=
  match c.requiredKeyword? with
  | none => .ok ()
  | some required =>
    if words.contains required then .ok ()
    else .error (.signature c.name (words.map .word ++ arguments.map appearance) pos)

/-- The effect of a command on the values of its arguments. -/
def perform (c : Command) (words : List String) (values : List Value) (pos : Position) :
    Drafting σ Unit :=
  match c, values with
  | .dump, [.graph g] => push (.exportGraph g .plain (words.contains "force") none)
  | .exportDot, [.graph g, .text file] =>
    push (.exportGraph g .dot (words.contains "force") (some file))
  | .stat, [.graph g] => push (.stat g)
  | .native, [.text query] => push (.native query)
  | .reset, [] => onWorkspace (Workspace.modifySymbols SymbolTable.clear)
  | c, _ => fail (.unchecked c.name pos)

def command (pos : Position) (name : String) (arguments : List Expr) : Drafting σ Unit := do
  match Command.find? name with
  | none => fail (.unknownCommand name pos)
  | some c =>
    let (words, others) ← require (splitKeywords c arguments)
    require (checkKeywords c words others pos)
    require (checkArity name (.exactly c.operands.length) others.length pos)
    require (checkOperands name 0 c.operands others)
    let values ← evaluateAll b others
    perform c words values pos

/-! ## Queries -/

def statement : Statement → Drafting σ Unit
  | .assignment pos target op value => assign b pos target op value
  | .command pos name arguments => command b pos name arguments

/-- Resolves statements to a program, and commits or discards the bindings they make. -/
def resolve (statements : List Statement) : Action (Workspace σ) QueryError (List Instruction) :=
  .of fun w =>
    match (statements.forM (statement b)).runFrom ⟨w, []⟩ with
    | (.ok _, d) =>
      match (Workspace.commit b).runFrom d.workspace with
      | (.ok _, w) => (.ok d.program, w)
      | (.error e, w) => (.error (.backend e), w)
    | (.error e, d) =>
      match (Workspace.discard b).runFrom d.workspace with
      | (.ok _, w) => (.error e, w)
      | (.error e', w) => (.error (.backend e'), w)

end Provenance.Resolution

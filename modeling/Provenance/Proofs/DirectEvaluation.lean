import Mathlib.Logic.Function.Basic
import Provenance.Proofs.Planning
import Provenance.Proofs.Handles

/-!
# Direct evaluation

A query can be evaluated without a program, statement by statement, in an environment that maps
variables to what they stand for: the contents of two tables, and not the names of these. Each
operation is applied to the contents of its operands. What it gives is what its instructions leave in
an empty target on a *stage*, a database of the operands and the base relations alone; a command that
reads is answered on such a stage too.

An evaluation fails where an operation does. It does not look for errors of resolution.
-/

namespace Provenance

open Query Store

/-! ## What expressions stand for -/

/-- What a handle stands for: what its two tables hold, and whether traversals take it for the base
graph. -/
structure Holding where
  isBase : Bool
  tables : Side → Option Table

/-- What a handle stands for in a database. -/
def Holding.of (db : Database) (name : String) : Holding :=
  ⟨name == Graph.base.name, fun side => (db.table? ((⟨name⟩ : Graph).table side)).map Table.body⟩

/-- What an expression stands for. -/
inductive Meaning where
  | graph (holding : Holding)
  | metadata (holding : Holding)
  | integer (number : Int)
  | text (content : String)

namespace Meaning

/-- What a value stands for in a database. -/
def of (db : Database) : Value → Meaning
  | .graph g => graph (.of db g.name)
  | .metadata m => metadata (.of db m.name)
  | .integer n => integer n
  | .text s => text s

/-- What a variable of some kind stands for. -/
def ofKind (k : Kind) (h : Holding) : Meaning := if k = .metadata then metadata h else graph h

def holding? : Meaning → Option Holding
  | graph h => some h
  | metadata h => some h
  | _ => none

end Meaning

/-! ## Stages -/

/-- The name of the `i`-th operand on a stage. The names with the number 0 are left for a target. -/
def stageName (isBase : Bool) (i : Nat) : String :=
  if isBase then Graph.base.name else graphPrefix ++ Text.decimal (i + 1)

/-- The tables of the `i`-th operand on a stage. -/
def Holding.staged (i : Nat) (h : Holding) : List Table :=
  Side.all.filterMap fun side =>
    (h.tables side).map (·.called ((⟨stageName h.isBase i⟩ : Graph).table side))

namespace Meaning

/-- The value by which the `i`-th operand is used on a stage. -/
def standIn (i : Nat) : Meaning → Value
  | graph h => .graph ⟨stageName h.isBase i⟩
  | metadata h => .metadata ⟨stageName h.isBase i⟩
  | integer n => .integer n
  | text s => .text s

/-- A database of the given relations and of operands at their places. -/
def stage (relations : List Table) (placed : List (Meaning × Nat)) : Database :=
  ⟨relations ++ placed.flatMap fun (m, i) => m.holding?.elim [] (Holding.staged i)⟩

end Meaning

/-- The base relations of a database: all known elements and their annotations. -/
def Store.Database.baseRelations (db : Database) : List Table :=
  knownTables.filterMap fun name => (db.table? name).map (·.called name)

namespace Direct

open Meaning Resolution

/-- What a plan leaves in an empty target, from operands at their places. -/
def effect (relations : List Table) (placed : List (Meaning × Nat)) (p : Plan) : Option Meaning :=
  match (Program.execute .memory (p.instructions 0)).runFrom ⟨stage relations placed, none⟩ with
  | (.ok _, x) => some (Meaning.of x.store (p.value 0))
  | (.error _, _) => none

/-- What an operation gives, from what its operands stand for. -/
def operate (relations : List Table) (plan : Option Value → List Value → Option Plan)
    (subject : Option Meaning) (operands : List Meaning) : Option Meaning :=
  (plan (subject.map (standIn 0)) ((operands.zipIdx 1).map fun (m, i) => m.standIn i)).bind
    (effect relations ((subject.map (·, 0)).toList ++ operands.zipIdx 1))

/-- The operation of an infix operator. -/
def planPair (operator : String) : Option Value → List Value → Option Plan
  | some lhs, [rhs] => planInfix operator lhs rhs
  | _, _ => none

/-- The answer of an instruction that reads a graph. -/
def answer (relations : List Table) (m : Meaning) (read : Graph → Instruction) : Option Answer :=
  match m.standIn 0 with
  | .graph g =>
    match ((read g).execute .memory).runFrom (stage relations [(m, 0)]) with
    | (.ok found, _) => found
    | (.error _, _) => none
  | _ => none

/-- What variables stand for. -/
abbrev Environment := String → Option Holding

/-- What variables stand for in a database. -/
def Environment.of (t : SymbolTable) (db : Database) : Environment := fun var =>
  (t.lookup? var).map (Holding.of db)

/-- Forgets what all variables stand for but the base graph's. -/
def Environment.cleared (env : Environment) : Environment := fun var =>
  if var = baseVariable then env var else none

/-! ## Expressions -/

variable (relations : List Table) (env : Environment)

mutual

/-- What an expression stands for, if no operation fails. -/
def value : Expr → Option Meaning
  | .integer _ n => some (.integer n)
  | .text _ s => some (.text s)
  | .name _ _ => none
  | .var _ v => (env v.name).map (ofKind v.kind)
  | .call _ function operands => do
    let o ← Operation.find? function false
    let ms ← values operands
    operate relations (planCall o) none ms
  | .apply _ subject operator operands =>
    if isInfix operator then do
      let lhs ← value subject
      let rhs ← first operands
      operate relations (planPair operator) (some lhs) [rhs]
    else do
      let o ← Operation.find? operator true
      let m ← value subject
      let ms ← values operands
      operate relations (planCall o) (some m) ms

/-- What expressions stand for, one after the other. -/
def values : List Expr → Option (List Meaning)
  | [] => some []
  | e :: es => do
    let m ← value e
    let ms ← values es
    some (m :: ms)

/-- What the first of some expressions stands for. -/
def first : List Expr → Option Meaning
  | [] => none
  | e :: _ => value e

end

/-! ## Statements -/

/-- What variables stand for after some statements, and all answers so far. -/
structure State where
  env : Environment
  answers : List Answer

/-- What an assignment gives to its variable. -/
def assigned (target : Variable) (op : AssignOp) (e : Expr) : Option Meaning :=
  match op.operator? with
  | none => value relations env e
  | some operator => do
    let current ← (env target.name).map (ofKind target.kind)
    let m ← value relations env e
    operate relations (planPair operator) (some current) [m]

/-- What a command does, given what its arguments stand for. -/
def perform (s : State) (c : Command) (words : List String) (ms : List Meaning) : Option State :=
  let note (found : Option Answer) : Option State := found.map fun a => { s with answers := s.answers ++ [a] }
  match c, ms with
  | .dump, [m] => note (answer relations m (.exportGraph · .plain (words.contains "force") none))
  | .exportDot, [m, .text file] =>
    note (answer relations m (.exportGraph · .dot (words.contains "force") (some file)))
  | .stat, [m] => note (answer relations m .stat)
  | .reset, [] => some { s with env := s.env.cleared }
  | _, _ => none

def statement (s : State) : Query.Statement → Option State
  | .assignment _ target op e => do
    let m ← assigned relations s.env target op e
    let h ← m.holding?
    some { s with env := Function.update s.env target.name (some h) }
  | .command _ name arguments => do
    let c ← Command.find? name
    let (words, others) ← (splitKeywords c arguments).toOption
    let ms ← values relations s.env others
    perform relations s c words ms

/-- Evaluates statements one after the other, if no operation fails. -/
def run (ss : List Query.Statement) : Option State :=
  ss.foldlM (statement relations) ⟨env, []⟩

end Direct

end Provenance

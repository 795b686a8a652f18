import Provenance.Query.Scan
import Provenance.Query.Syntax

/-!
# The grammar of queries

Statements end at a `;` or at a line feed outside parentheses; inside parentheses a line feed is
a blank like any other. A comment runs from `#` to the end of its line.

From loosest to tightest an expression is built by `+` and `-`, by `&`, by method calls, and from
primaries; infix operators associate to the left. The scan of an expression is given the scan of
what stands inside its parentheses, so that its recursion is on the number of parentheses that may
still be opened.
-/

namespace Provenance.Query

open Scan

/-! ## Between the words -/

/-- The length of the run of comments and of characters that satisfy `passes` at the front of a
text. The flag says whether the front lies in a comment. -/
def fillerLength (passes : Char → Bool) : Bool → List Char → Nat
  | _, [] => 0
  | true, c :: r =>
    if c = '\n' then (if passes c then 1 + fillerLength passes false r else 0)
    else 1 + fillerLength passes true r
  | false, c :: r =>
    if c = '#' then 1 + fillerLength passes true r
    else if passes c then 1 + fillerLength passes false r
    else 0

def filler (passes : Char → Bool) : Scan Unit := fun s =>
  .ok ((), s.skip (fillerLength passes false s.rest))

/-- Skips blanks and comments; line feeds only inside parentheses. -/
def gap (inside : Bool) : Scan Unit := filler fun c => Text.isBlank c && (inside || c != '\n')

/-- Skips what may stand between statements: blanks, comments and `;`. -/
def separators : Scan Unit := filler fun c => Text.isBlank c || c == ';'

/-! ## Words -/

def isLetter (c : Char) : Bool := ('a' ≤ c && c ≤ 'z') || ('A' ≤ c && c ≤ 'Z')

def isNameStart (c : Char) : Bool := isLetter c || c == '_'

def isNameChar (c : Char) : Bool := isLetter c || Text.isDigit c || c == '_'

/-- A name: a letter or `_`, then letters, digits and `_`. -/
def identifier : Scan String := do
  let first ← charWhere isNameStart
  let others ← run isNameChar
  pure (String.ofList (first :: others))

/-- A variable: its sigil, then letters, digits and `_`. -/
def variableName : Scan Variable := fun s =>
  match s.rest with
  | [] => miss s
  | c :: r =>
    if (Kind.ofSigil? c).isSome then
      let word := r.takeWhile isNameChar
      if word.isEmpty then miss s
      else .ok (⟨String.ofList (c :: word)⟩, s.skip (word.length + 1))
    else miss s

/-- An integer literal without sign, which has to be a 64-bit word. -/
def integerLiteral : Scan Int := fun s =>
  let digits := s.rest.takeWhile Text.isDigit
  if digits.isEmpty then miss s
  else
    match Text.word? digits with
    | some n => .ok (n, s.skip digits.length)
    | none => stop .wordRange s

/-- The character that a letter after a backslash stands for. -/
def unescape? : Char → Option Char
  | 'n' => some '\n'
  | 't' => some '\t'
  | 'r' => some '\r'
  | '\\' => some '\\'
  | '\x27' => some '\x27'
  | '\x22' => some '\x22'
  | _ => none

/-- What follows an opening quote. -/
inductive Body where
  /-- The text up to the closing quote or the end of input, and its length before unescaping. -/
  | text (length : Nat) (value : List Char)
  /-- The input ends in a backslash. -/
  | dangling
  /-- A backslash is followed by no escape; the offset is that of the character after it. -/
  | badEscape (offset : Nat)

/-- Puts a character, written with `length` characters, in front of a body. -/
def Body.cons (length : Nat) (c : Char) : Body → Body
  | text n value => text (n + length) (c :: value)
  | dangling => dangling
  | badEscape n => badEscape (n + length)

def bodyOf (quote : Char) : List Char → Body
  | [] => .text 0 []
  | ['\\'] => .dangling
  | '\\' :: c :: r =>
    match unescape? c with
    | some d => (bodyOf quote r).cons 2 d
    | none => .badEscape 1
  | c :: r => if c = quote then .text 0 [] else (bodyOf quote r).cons 1 c

/-- A text literal in the given quotes. -/
def quotedLiteral (quote : Char) : Scan String := do
  char quote
  let value ← fun s =>
    match bodyOf quote s.rest with
    | .text length value => .ok (value, s.skip length)
    | .dangling => .ok ([], s)
    | .badEscape offset => stop .escapeSequence (s.skip offset)
  commit (expecting .closingQuote (char quote))
  pure (String.ofList value)

def textLiteral : Scan String := either (quotedLiteral '\x27') (quotedLiteral '\x22')

/-! ## Expressions -/

/-- Lets an expression pass that is not too tall. -/
def measured (e : Expr) : Scan Expr :=
  if maxHeight < e.height then stop .heightLimit else pure e

section Layers

/-! Each layer takes two parameters: whether it stands inside parentheses, and the scan of an
expression inside parentheses opened here, or `none` if no more may be opened. -/

variable (inside : Bool) (inner : Option (Scan Expr))

/-- The scan inside a parenthesis just opened. -/
def enter : Scan (Scan Expr) :=
  match inner with
  | some p => pure p
  | none => stop .nestingLimit

/-- The arguments of a call, with their parentheses. -/
def callArguments : Scan (List Expr) := do
  gap inside
  char '('
  let argument ← enter inner
  commit do
    let arguments ← do
      match ← option argument with
      | none => pure []
      | some first =>
        let others ← many do
          gap true
          char ','
          argument
        pure (first :: others)
    expecting .argumentsEnd do
      gap true
      char ')'
    pure arguments

/-- An expression in parentheses. -/
def group : Scan Expr := do
  char '('
  let expression ← enter inner
  commit do
    let e ← expression
    expecting .groupEnd do
      gap true
      char ')'
    pure e

/-- A function call, or a bare name. -/
def callOrName (pos : Position) : Scan Expr := do
  let word ← identifier
  match ← option (callArguments inside inner) with
  | some arguments => measured (.call pos word arguments)
  | none => pure (.name pos word)

def primary : Scan Expr := do
  gap inside
  let pos ← here
  expecting .expression <|
    either (do return .var pos (← variableName)) <|
    either (do return .integer pos (← integerLiteral)) <|
    either (do return .text pos (← textLiteral)) <|
    either (callOrName inside inner pos) <|
    group inner

/-- The name and the arguments of a method, after its point. -/
def methodCall : Scan (Position × String × List Expr) := do
  gap inside
  let pos ← here
  let word ← expecting .methodName identifier
  let arguments ← callArguments inside inner
  pure (pos, word, arguments)

/-- A primary followed by method calls. -/
def methodChain : Scan Expr := do
  let subject ← primary inside inner
  let calls ← many do
    gap inside
    char '.'
    commit (methodCall inside inner)
  calls.foldlM (fun e (pos, word, arguments) => measured (.apply pos e word arguments)) subject

/-- An infix operator; with a `=` behind it, it would be an assignment operator. -/
def infixOperator (symbols : List Char) : Scan (Position × String) := do
  gap inside
  let pos ← here
  let symbol ← charWhere symbols.contains
  match ← option (char '=') with
  | some _ => miss
  | none => pure (pos, symbol.toString)

/-- Operands joined by operators of one level, grouped to the left. -/
def infixChain (symbols : List Char) (operand : Scan Expr) : Scan Expr := do
  let first ← operand
  let others ← many do
    let (pos, operator) ← infixOperator inside symbols
    let rhs ← commit operand
    pure (pos, operator, rhs)
  others.foldlM (fun e (pos, operator, rhs) => measured (.apply pos e operator [rhs])) first

/-- An expression, given the scan of what stands in its parentheses. -/
def expressionWith : Scan Expr :=
  infixChain inside ['+', '-'] (infixChain inside ['&'] (methodChain inside inner))

end Layers

/-- An expression in which `room` more parentheses may be nested. -/
def expressionIn : (room : Nat) → (inside : Bool) → Scan Expr
  | 0, inside => expressionWith inside none
  | room + 1, inside => expressionWith inside (some (expressionIn room true))

/-- An expression outside all parentheses. -/
def expression : Scan Expr := expressionIn maxNesting false

/-! ## Statements -/

def assignOp : Scan AssignOp :=
  AssignOp.all.foldr (fun op other => either (do chars op.spelling.toList; pure op) other) miss

def assignment (pos : Position) : Scan Statement := do
  let target ← variableName
  let op ← commit <| expecting .assignmentOperator do
    gap false
    assignOp
  let value ← commit expression
  pure (.assignment pos target op value)

/-- A command's name and its arguments; commas between the arguments are optional. -/
def command (pos : Position) : Scan Statement := do
  let name ← identifier
  match ← option expression with
  | none => pure (.command pos name [])
  | some first =>
    let others ← many do
      let _ ← option do
        gap false
        char ','
      expression
    pure (.command pos name (first :: others))

def statement : Scan Statement := do
  let pos ← here
  expecting .statement (either (assignment pos) (command pos))

def endOfStatement : Scan Unit := do
  gap false
  if ← atEnd then pure () else either (char '\n') (char ';')

/-- At most `n` statements, up to the end of input. -/
def statementsUpTo : Nat → Scan (List Statement)
  | 0 => pure []
  | n + 1 => do
    separators
    if ← atEnd then pure []
    else
      let first ← commit statement
      commit (expecting .endOfStatement endOfStatement)
      let others ← statementsUpTo n
      pure (first :: others)

/-- The statements of a text. Each has a character of its own, so there are no more statements
than characters. -/
def statements : Scan (List Statement) := fun s => statementsUpTo (s.ahead + 1) s

/-- Reads a query. -/
def parse (source : String) : Except ParseError (List Statement) :=
  match statements (.ofList source.toList) with
  | .ok (found, _) => .ok found
  | .error e => .error ⟨e.place.position, e.expected.getD .statement, e.place.rest.head?⟩

end Provenance.Query

import Provenance.Store.Statement
import Provenance.Store.Token

/-!
# Reading statement texts

The statements that a user may send as text: selections of literals, or of columns of one table;
creating, dropping, filling and emptying tables; and changing one column. Keywords are read in any
case. A statement that does not fit is refused at one of its tokens.
-/

namespace Provenance.Store.Reader

/-- Cuts a list of tokens at the commas outside parentheses. -/
def splitCommas : Nat → List Token → List Token → List (List Token)
  | _, [], piece => [piece.reverse]
  | depth, t :: ts, piece =>
    if t = .mark ',' && depth = 0 then piece.reverse :: splitCommas 0 ts []
    else if t = .mark '(' then splitCommas (depth + 1) ts (t :: piece)
    else if t = .mark ')' then splitCommas (depth - 1) ts (t :: piece)
    else splitCommas depth ts (t :: piece)

/-- The pieces between the commas. -/
def pieces (ts : List Token) : List (List Token) := splitCommas 0 ts []

/-- Words that start a constraint of a column. -/
def constraintWords : List String :=
  ["PRIMARY", "NOT", "NULL", "UNIQUE", "CHECK", "DEFAULT", "COLLATE", "REFERENCES", "GENERATED",
   "CONSTRAINT", "AS"]

def spelling : Token → String
  | .word s => s
  | .number _ s => s
  | .text s => s
  | .blob _ => ""
  | .mark c => c.toString

/-- The text of a declared type; parentheses and commas stand close. -/
def typeText (ts : List Token) : String :=
  ts.foldl (fun s t =>
    match t with
    | .word w => if s.isEmpty then w else s ++ " " ++ w
    | t => s ++ spelling t) ""

/-- Whether two keywords follow each other. -/
def hasPair (first second : String) : List Token → Bool
  | a :: b :: ts => (a.isKeyword first && b.isKeyword second) || hasPair first second (b :: ts)
  | _ => false

/-- A column: its name, its type, and its constraints. -/
def column? : List Token → Option Column
  | .word name :: ts =>
    let isConstraint (t : Token) : Bool := constraintWords.any fun w => t.isKeyword w
    let type := ts.takeWhile fun t => !isConstraint t
    let constraints := ts.drop type.length
    some (.declared name (typeText type) (hasPair "PRIMARY" "KEY" constraints)
      (hasPair "NOT" "NULL" constraints))
  | _ => none

def columns? (ts : List Token) : Option (List Column) := (pieces ts).mapM column?

/-- A number with its sign as a cell: an integer if it is written as a word. -/
def numberCell (negative : Bool) (d : Decimal) : Cell :=
  let n : Int := if negative then -(d.digits : Int) else d.digits
  if d.whole && Text.isWord n then .integer n
  else .real ({ d with negative : Decimal }).toBinary64

/-- The text that a code point makes, written `char(10)`. -/
def character? (word : String) (d : Decimal) : Option String :=
  if word.toUpper == "CHAR" && d.whole then some (Char.ofNat d.digits).toString else none

/-- Texts and code points with `||` between them. -/
def concatenation? : List Token → Option String
  | [.text s] => some s
  | [.word w, .mark '(', .number d _, .mark ')'] => character? w d
  | .text s :: .mark '|' :: .mark '|' :: ts => (concatenation? ts).map (s ++ ·)
  | .word w :: .mark '(' :: .number d _ :: .mark ')' :: .mark '|' :: .mark '|' :: ts => do
    let s ← character? w d
    pure (s ++ (← concatenation? ts))
  | _ => none

def literal? : List Token → Option Cell
  | [.number d _] => some (numberCell false d)
  | [.mark '-', .number d _] => some (numberCell true d)
  | [.mark '+', .number d _] => some (numberCell false d)
  | [.blob bytes] => some (.blob bytes)
  | [.word w] => if w.toUpper == "NULL" then some .null else none
  | ts => (concatenation? ts).map .text

/-- A row in parentheses. -/
def row? (ts : List Token) : Option Row :=
  match ts with
  | .mark '(' :: r =>
    if r.getLast? = some (.mark ')') then (pieces r.dropLast).mapM literal? else none
  | _ => none

def name? : List Token → Option String
  | [.word w] => some w
  | _ => none

/-- The tokens before a keyword and those after it, if it is there. -/
def cutAt (keyword : String) (ts : List Token) : List Token × Option (List Token) :=
  let before := ts.takeWhile fun t => !t.isKeyword keyword
  match ts.drop before.length with
  | [] => (before, none)
  | _ :: after => (before, some after)

def selectionOf (output : Output) (table : String) (orderBy : List String) : Selection :=
  { Selection.ids table with output, orderBy := orderBy.map ColumnRef.plain }

def output? (ts : List Token) : Option Output :=
  match ts with
  | [.mark '*'] => some .everything
  | [.word w, .mark '(', .mark '*', .mark ')'] => if w.toUpper == "COUNT" then some .count else none
  | ts => do
    let names ← (pieces ts).mapM name?
    pure (.terms (names.map fun n => .column (.plain n)))

def orderBy? : Option (List Token) → Option (List String)
  | none => some []
  | some (second :: ts) => if second.isKeyword "BY" then (pieces ts).mapM name? else none
  | some [] => none

def select? (ts : List Token) : Option Statement :=
  match cutAt "FROM" ts with
  | (list, none) => do
    let cells ← (pieces list).mapM literal?
    pure (.select (.join (cells.map Term.constant) []))
  | (list, some after) => do
    let output ← output? list
    let (table, order) := cutAt "ORDER" after
    let table ← name? table
    let orderBy ← orderBy? order
    pure (.select (selectionOf output table orderBy))

def createTable? : List Token → Option Statement
  | .word a :: .word b :: .word c :: .word name :: .mark '(' :: ts =>
    if a.toUpper == "IF" && b.toUpper == "NOT" && c.toUpper == "EXISTS" then body true name ts
    else none
  | .word name :: .mark '(' :: ts => body false name ts
  | _ => none
where
  body (ifAbsent : Bool) (name : String) (ts : List Token) : Option Statement :=
    if ts.getLast? = some (.mark ')') then
      (columns? ts.dropLast).map fun list => .create ifAbsent name (.known list)
    else none

def dropTable? : List Token → Option Statement
  | [.word name] => some (.drop false name)
  | [.word a, .word b, .word name] =>
    if a.toUpper == "IF" && b.toUpper == "EXISTS" then some (.drop true name) else none
  | _ => none

def insert? : List Token → Option Statement
  | .word name :: ts => do
    let (before, after) := cutAt "VALUES" ts
    let rows ← (pieces (← after)).mapM row?
    match before with
    | [] => pure (.insert name [] rows)
    | .mark '(' :: r =>
      if r.getLast? = some (.mark ')') then
        pure (.insert name (← (pieces r.dropLast).mapM name?) rows)
      else none
    | _ => none
  | _ => none

/-- The only row that a change is for. -/
def only? : Option (List Token) → Option (Option (String × Cell))
  | none => some none
  | some (.word column :: .mark '=' :: value) => (literal? value).map fun c => some (column, c)
  | some _ => none

def delete? (ts : List Token) : Option Statement := do
  let (table, choice) := cutAt "WHERE" ts
  pure (.delete (← name? table) (← only? choice))

def update? : List Token → Option Statement
  | .word table :: set :: .word column :: .mark '=' :: ts => do
    let (value, choice) := cutAt "WHERE" ts
    let value ← literal? value
    let only ← only? choice
    if set.isKeyword "SET" then pure (.update table column value only) else none
  | _ => none

/-- The statement that the tokens of one statement make. -/
def statement? : List Token → Option Statement
  | .word first :: ts =>
    match first.toUpper, ts with
    | "SELECT", ts => select? ts
    | "CREATE", t :: ts => if t.isKeyword "TABLE" then createTable? ts else none
    | "DROP", t :: ts => if t.isKeyword "TABLE" then dropTable? ts else none
    | "INSERT", t :: ts => if t.isKeyword "INTO" then insert? ts else none
    | "DELETE", t :: ts => if t.isKeyword "FROM" then delete? ts else none
    | "UPDATE", ts => update? ts
    | _, _ => none
  | _ => none

end Provenance.Store.Reader

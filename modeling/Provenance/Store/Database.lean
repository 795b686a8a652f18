import Provenance.Store.Reader
import Provenance.Store.Selection

/-!
# Executing statements

A statement changes the database and answers with rows if it is a selection. A request runs its
statements in order and stops at the first that fails; what ran before it stays. Its answer is that
of the last selection.
-/

namespace Provenance.Store

namespace Database

/-- The table of a name, or the fault that there is none. -/
def find (db : Database) (name : String) : Except Cause Table :=
  match db.table? name with
  | some t => .ok t
  | none => .error (.missingTable name)

/-- The columns of a new table. -/
def columnList : Columns → Except Cause (List Column)
  | .known list => .ok list
  | .written text =>
    match Reader.columns? ((Token.statement text.toList).1.map Placed.token) with
    | some list => .ok list
    | none => .error (.malformed text)

def create (db : Database) (ifAbsent : Bool) (table : String) (columns : Columns) :
    Except Cause Database := do
  let list ← columnList columns
  if isReserved table then .error (.reservedName table)
  else
    match db.table? table with
    | some _ => if ifAbsent then .ok db else .error (.tableExists table)
    | none =>
      let keys := (list.filter Column.primaryKey).map Column.name
      if 1 < keys.length then .error (.secondKey table) else .ok (db.add ⟨table, list, keys, []⟩)

def drop (db : Database) (ifPresent : Bool) (table : String) : Except Cause Database :=
  match db.table? table with
  | some _ => .ok (db.remove table)
  | none => if ifPresent then .ok db else .error (.missingTable table)

/-- The row of a whole table for cells of some of its columns. -/
def spread (t : Table) (names : List String) (row : Row) : Row :=
  t.columns.map fun c => ((names.zip row).find? fun (n, _) => sameName n c.name).elim .null (·.2)

/-- The rows of a table, which a fault names as `written`, for rows of an insertion. -/
def arrange (t : Table) (written : String) (names : List String) (rows : List Row) :
    Except Cause (List Row) :=
  if names.isEmpty then
    match rows.find? fun r => r.length != t.columns.length with
    | some r => .error (.wrongWidth written t.columns.length r.length)
    | none => .ok rows
  else
    let isUnknown (n : String) : Bool := (t.index? n).isNone
    match names.find? isUnknown, rows.find? fun r => r.length != names.length with
    | some n, _ => .error (.unknownColumn written n)
    | none, some r => .error (.wrongRow r.length names.length)
    | none, none => .ok (rows.map (spread t names))

def insert (db : Database) (table : String) (names : List String) (rows : List Row) :
    Except Cause Database := do
  let t ← db.find table
  let rows ← arrange t table names rows
  let t ← t.addAll rows
  pure (db.replace t)

def insertFrom (db : Database) (table : String) (query : Selection) : Except Cause Database := do
  let t ← db.find table
  let rows ← query.rows db
  let rows ← arrange t table [] rows
  let t ← t.addAll rows
  pure (db.replace t)

/-- The rows in which a column holds the cell, as `true`. -/
def chosen (t : Table) (only : Option (String × Cell)) : Except Cause (List Bool) :=
  match only with
  | none => .ok (t.rows.map fun _ => true)
  | some (name, cell) =>
    match t.column? name with
    | none => .error (.missingColumn name)
    | some (c, cells) =>
      .ok (cells.map fun x =>
        let (x, y) := c.affinity.align .blob x cell
        x.equals? y == some true)

def delete (db : Database) (table : String) (only : Option (String × Cell)) :
    Except Cause Database := do
  let t ← db.find table
  let marks ← chosen t only
  pure (db.replace { t with rows := ((t.rows.zip marks).filter fun (_, m) => !m).map (·.1) })

def update (db : Database) (table column : String) (value : Cell) (only : Option (String × Cell)) :
    Except Cause Database := do
  let t ← db.find table
  match t.index? column with
  | none => .error (.missingColumn column)
  | some i =>
    let marks ← chosen t only
    let rows := (t.rows.zip marks).map fun (row, m) => if m then row.set i value else row
    let t ← { t with rows := [] }.addAll rows
    pure (db.replace t)

def upsert (db : Database) (table keyColumn valueColumn key value : String) :
    Except Cause Database := do
  let t ← db.find table
  match t.index? keyColumn, t.index? valueColumn with
  | none, _ => .error (.unknownColumn table keyColumn)
  | _, none => .error (.unknownColumn table valueColumn)
  | some k, some v =>
    if (t.columns[k]?).any Column.primaryKey then
      if t.rows.any fun row => row[k]? == some (.text key) then
        let rows := t.rows.map fun row =>
          if row[k]? == some (.text key) then row.set v (.text value) else row
        pure (db.replace { t with rows })
      else db.insert table [keyColumn, valueColumn] [[.text key, .text value]]
    else .error .noKey

/-- Executes one statement. -/
def apply (db : Database) : Statement → Except Cause (Database × Option (List Row))
  | .create ifAbsent table columns => return (← db.create ifAbsent table columns, none)
  | .drop ifPresent table => return (← db.drop ifPresent table, none)
  | .insert table names rows => return (← db.insert table names rows, none)
  | .insertFrom table query => return (← db.insertFrom table query, none)
  | .upsert table keyColumn valueColumn key value =>
    return (← db.upsert table keyColumn valueColumn key value, none)
  | .delete table only => return (← db.delete table only, none)
  | .update table column value only => return (← db.update table column value only, none)
  | .select query => return (db, some (← query.shownRows db))

end Database

/-- Whether a fault shows where it arose. -/
def Cause.isSited : Cause → Bool
  | tableExists _ => true
  | malformed _ => true
  | incomplete => true
  | _ => false

def Cause.toFault (statement : String) (offset : Nat) (c : Cause) : Fault :=
  ⟨c, if c.isSited then some ⟨statement, offset⟩ else none⟩

namespace Database

/-- What a request left behind and answered: rows if a selection ran last, a fault if one failed. -/
abbrev Outcome := Except Fault (Option (List Row)) × Database

/-- The offset of the table's name in the text of a created table. -/
def nameOffset : Statement → Nat
  | .create true .. => "CREATE TABLE IF NOT EXISTS ".utf8ByteSize
  | _ => "CREATE TABLE ".utf8ByteSize

/-- Runs statements in order. The answer so far is kept until another selection answers. -/
def runAll (closed : Bool) : Database → Option (List Row) → List Statement → Outcome
  | db, last, [] => (.ok last, db)
  | db, last, s :: ss =>
    match db.apply s with
    | .ok (db, answer) => runAll closed db (answer.or last) ss
    | .error c => (.error (c.toFault (Request.batch closed (s :: ss)).text (nameOffset s)), db)

/-- Where a table's name stands in a statement that creates it. -/
def createdAt (tokens : List Placed) : Nat :=
  ((tokens.dropWhile fun p => !p.token.isKeyword "TABLE").drop 1).find?
    (fun p => !(["IF", "NOT", "EXISTS"].any fun w => p.token.isKeyword w)) |>.elim 0 Placed.offset

/-- Runs the statements of a text. The number bounds the characters still to be read. -/
def runText : Nat → Database → Option (List Row) → List Char → Outcome
  | 0, db, last, _ => (.ok last, db)
  | fuel + 1, db, last, cs =>
    if cs.isEmpty then (.ok last, db)
    else
      let (tokens, rest) := Token.statement cs
      match tokens with
      | [] => runText fuel db last rest
      | p :: _ =>
        let text := String.ofList cs
        match Reader.statement? (tokens.map Placed.token) with
        | none => (.error ((Cause.malformed p.spelling).toFault text p.offset), db)
        | some s =>
          match db.apply s with
          | .ok (db, answer) => runText fuel db (answer.or last) rest
          | .error c => (.error (c.toFault text (createdAt tokens)), db)

/-- Runs a request. -/
def run (db : Database) : Request → Outcome
  | .batch closed statements => runAll closed db none statements
  | .raw text => runText (text.length + 1) db none text.toList

end Database

end Provenance.Store

import Provenance.Store.Table

/-!
# Rows of a selection

Sources are joined one after the other: each row of the next source is put beside the rows joined
so far and kept if the source's conditions hold there. A condition that is unknown, because a cell
holds nothing, does not hold.

`Selection.rows` is the list of answered rows of a selection whose tables and columns are there,
and says what is missing otherwise.
-/

namespace Provenance.Store

/-- A row of a source, as the rest of a selection sees it. -/
structure Visible where
  source : String
  columns : List Column
  cells : Row
  deriving Repr, Inhabited

namespace Visible

def cell? (v : Visible) (column : String) : Option (Affinity × Cell) :=
  ((v.columns.zip v.cells).find? fun (c, _) => sameName c.name column).map
    fun (c, cell) => (c.affinity, cell)

/-- Whether the source has the column. -/
def hasColumn (v : Visible) (column : String) : Bool :=
  v.columns.any fun c => sameName c.name column

end Visible

/-- The rows beside each other at one point of a join. -/
abbrev Scope := List Visible

namespace Scope

def find? (scope : Scope) (ref : ColumnRef) : Option (Affinity × Cell) :=
  match ref.source with
  | some name => (List.find? (fun v => sameName v.source name) scope).bind (·.cell? ref.column)
  | none => scope.findSome? (·.cell? ref.column)

def cell (scope : Scope) (ref : ColumnRef) : Cell := ((scope.find? ref).map (·.2)).getD .null

def affinity (scope : Scope) (ref : ColumnRef) : Affinity :=
  ((scope.find? ref).map (·.1)).getD .blob

/-- Whether a column can be found. -/
def knows (scope : Scope) (ref : ColumnRef) : Bool :=
  match ref.source with
  | some name => scope.any fun v => sameName v.source name && v.hasColumn ref.column
  | none => scope.any (·.hasColumn ref.column)

/-- Whether two columns agree: unknown if one of them holds nothing. -/
def agree? (scope : Scope) (left right : ColumnRef) : Option Bool :=
  let (x, y) :=
    (scope.affinity left).align (scope.affinity right) (scope.cell left) (scope.cell right)
  x.equals? y

def agrees (scope : Scope) (pairs : List (ColumnRef × ColumnRef)) : Bool :=
  pairs.all fun (a, b) => scope.agree? a b == some true

end Scope

namespace Database

/-- The rows of a table under a name, none if there is no such table. -/
def visible (db : Database) (table source : String) : List Visible :=
  match db.table? table with
  | some t => t.rows.map fun row => ⟨source, t.columns, row⟩
  | none => []

/-- The columns of a table under a name, without a row. -/
def outline (db : Database) (table source : String) : Visible :=
  match db.table? table with
  | some t => ⟨source, t.columns, []⟩
  | none => ⟨source, [], []⟩

/-- The ids of a table and their affinity. -/
def ids (db : Database) (table : String) : Affinity × List Cell :=
  match (db.table? table).bind (·.column? "id") with
  | some (c, cells) => (c.affinity, cells)
  | none => (.blob, [])

end Database

namespace Condition

/-- Whether a cell is an id of a table: unknown if nothing settles it. -/
def member? (db : Database) (scope : Scope) (ref : ColumnRef) (table : String) : Option Bool :=
  let (b, list) := db.ids table
  let a := scope.affinity ref
  let x := scope.cell ref
  match a.common? b with
  | none => x.among? list
  | some c => (c.store x).among? (list.map c.store)

/-- Whether a condition holds: unknown if nothing settles it. -/
def holds? (db : Database) (scope : Scope) : Condition → Option Bool
  | within ref table => member? db scope ref table
  | outside ref table => (member? db scope ref table).map (! ·)
  | same left right => scope.agree? left right
  | equals ref value =>
    let (x, y) := (scope.affinity ref).align .blob (scope.cell ref) (.text value)
    x.equals? y
  | atMost ref added bound =>
    match scope.cell ref with
    | .integer n => some (n + added ≤ bound)
    | _ => none
  | leastOf ref least table source agreeing =>
    let inner := (db.visible table source).filter fun v => Scope.agrees (v :: scope) agreeing
    (scope.cell ref).equals? (Cell.least (inner.map fun v => Scope.cell (v :: scope) least))
  | unmatched table source agreeing =>
    some ((db.visible table source).all fun v => !Scope.agrees (v :: scope) agreeing)

def holds (db : Database) (scope : Scope) (c : Condition) : Bool := c.holds? db scope == some true

/-- The columns that a condition mentions, and the inner source that some may belong to. -/
def mentions : Condition → List ColumnRef × Option (String × String)
  | within ref _ => ([ref], none)
  | outside ref _ => ([ref], none)
  | same left right => ([left, right], none)
  | equals ref _ => ([ref], none)
  | atMost ref _ _ => ([ref], none)
  | leastOf ref least table source agreeing =>
    (ref :: least :: agreeing.flatMap (fun (a, b) => [a, b]), some (table, source))
  | unmatched table source agreeing =>
    (agreeing.flatMap (fun (a, b) => [a, b]), some (table, source))

end Condition

/-- What a term gives for a group of joined rows. -/
def Term.value (group : List Scope) : Term → Cell
  | column ref => (group.head?.map (·.cell ref)).getD .null
  | constant cell => cell
  | least ref => Cell.least (group.map (·.cell ref))

def Term.mentions : Term → List ColumnRef
  | column ref => [ref]
  | constant _ => []
  | least ref => [ref]

namespace Selection

/-- The rows of one more source beside those joined so far, as far as its conditions hold. -/
def extend (db : Database) (scope : Scope) (s : Source) : List Scope :=
  ((db.visible s.table s.name).map fun v => scope ++ [v]).filter fun scope =>
    s.conditions.all (·.holds db scope)

/-- The joined rows. -/
def scopes (db : Database) (sources : List Source) : List Scope :=
  sources.foldl (fun found s => found.flatMap fun scope => extend db scope s) [[]]

/-- The cells of a joined row in the given columns. -/
def keyOf (refs : List ColumnRef) (scope : Scope) : Row := refs.map scope.cell

def sortScopes (refs : List ColumnRef) (list : List Scope) : List Scope :=
  list.mergeSort fun a b => (Cell.orderRows (keyOf refs a) (keyOf refs b)).isLE

/-- The joined rows that agree in the given columns, in ascending order of these; without columns,
each row is a group. -/
def groups (refs : List ColumnRef) (list : List Scope) : List (List Scope) :=
  if refs.isEmpty then list.map fun scope => [scope]
  else
    (sortScopes refs list).splitBy fun a b =>
      Cell.orderRows (keyOf refs a) (keyOf refs b) == .eq

/-- Groups in ascending order of some columns of their first rows. -/
def sortGroups (refs : List ColumnRef) (list : List (List Scope)) : List (List Scope) :=
  if refs.isEmpty then list
  else
    list.mergeSort fun a b =>
      (Cell.orderRows (keyOf refs (a.headD [])) (keyOf refs (b.headD []))).isLE

/-- The first `n` items; all of them if `n` is negative. -/
def cutOff {α : Type} (limit : Option Int) (list : List α) : List α :=
  match limit with
  | some (.ofNat n) => list.take n
  | _ => list

/-- The rows without those equal to an earlier one. -/
def dedup (rows : List Row) : List Row :=
  rows.foldl (fun seen row =>
    if seen.any fun r => Cell.orderRows r row == .eq then seen else seen ++ [row]) []

/-- The rows of a selection in whose tables and columns all is found. -/
def answer (db : Database) (q : Selection) : List Row :=
  let found := cutOff q.limit (sortGroups q.orderBy (groups q.groupBy (scopes db q.sources)))
  let rows :=
    match q.output with
    | .count => [[.integer (scopes db q.sources).length]]
    | .everything => found.map fun group => (group.headD []).flatMap Visible.cells
    | .terms list => found.map fun group => list.map (·.value group)
  if q.distinct then dedup rows else rows

/-- The tables of a selection, in the order in which they are looked up. -/
def tables (q : Selection) : List String :=
  q.sources.map Source.table ++ q.sources.flatMap fun s => s.conditions.filterMap Condition.table?

/-- The first column that cannot be found. -/
def unknownColumn? (db : Database) (q : Selection) : Option String :=
  let scope : Scope := q.sources.map fun s => db.outline s.table s.name
  let fromTerms :=
    match q.output with
    | .terms list => list.flatMap Term.mentions
    | _ => []
  let missing (scope : Scope) (refs : List ColumnRef) : Option String :=
    (refs.find? fun r => !scope.knows r).map ColumnRef.text
  (missing scope fromTerms).or <|
    (q.sources.findSome? fun s => s.conditions.findSome? fun c =>
      let (refs, inner) := c.mentions
      let scope := match inner with
        | some (table, source) => db.outline table source :: scope
        | none => scope
      missing scope refs).or <|
    (missing scope q.groupBy).or (missing scope q.orderBy)

/-- The rows of a selection, or the first table or column that is missing. -/
def rows (db : Database) (q : Selection) : Except Cause (List Row) :=
  match q.tables.find? fun t => (db.table? t).isNone with
  | some t => .error (.missingTable t)
  | none =>
    match unknownColumn? db q with
    | some c => .error (.missingColumn c)
    | none => .ok (answer db q)

/-- The column that alone decides a selection of one table, if it has an index. -/
def scannedIndex? (db : Database) (q : Selection) : Option ColumnRef :=
  match q.output, q.sources with
  | .terms (.column ref :: list), [⟨table, _, []⟩] =>
    if q.groupBy.isEmpty && q.orderBy.isEmpty && list.all (· == .column ref)
        && ((db.table? table).elim [] Table.indexed).any (sameName · ref.column) then some ref
    else none
  | _, _ => none

/-- The rows that a selection shows. Where no order is asked for and one indexed column is all that
is read, the index is followed. -/
def shownRows (db : Database) (q : Selection) : Except Cause (List Row) :=
  match scannedIndex? db q with
  | some ref => rows db { q with orderBy := [ref] }
  | none => rows db q

end Selection

end Provenance.Store

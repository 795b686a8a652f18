import Provenance.Store.Decimal
import Provenance.Text.Search

/-!
# Cells and affinities

A cell of a table holds nothing, an integer, a real number, a text or bytes. Cells of all kinds are
ordered: nothing first, then numbers by value, then texts by their code points, then bytes.

A column has an *affinity*, read off its declared type. A cell is brought to the affinity of its
column when it is stored; text in an integer column becomes a number only if it denotes one.
-/

namespace Provenance.Store

inductive Cell where
  | null
  | integer (value : Int)
  | real (value : Binary64)
  | text (value : String)
  | blob (bytes : List UInt8)
  deriving DecidableEq, Repr, Inhabited

/-- The cells of one row, in the order of the columns. -/
abbrev Row := List Cell

namespace Cell

/-- The text of a cell in an answer. -/
def shown : Cell → String
  | null => ""
  | integer n => Text.decimal n
  | real x => x.shown
  | text s => s
  | blob bytes => String.join (bytes.map fun b => Text.padLeft 2 '0' (Text.hexadecimal b.toNat))

/-- The rank of a kind of cell in the order of cells. -/
def rank : Cell → Nat
  | null => 0
  | integer _ => 1
  | real _ => 1
  | text _ => 2
  | blob _ => 3

/-- The order of cells. -/
def order : Cell → Cell → Ordering
  | integer a, integer b => compare a b
  | integer a, real b => (b.compareInt a).swap
  | real a, integer b => a.compareInt b
  | real a, real b => a.order b
  | text a, text b => compare a b
  | blob a, blob b => compare (a.map UInt8.toNat) (b.map UInt8.toNat)
  | a, b => compare a.rank b.rank

def isNull : Cell → Bool
  | null => true
  | _ => false

/-- Whether two cells are equal: unknown if one of them holds nothing. -/
def equals? (a b : Cell) : Option Bool :=
  if a.isNull || b.isNull then none else some (a.order b == .eq)

/-- Whether a cell is at most another one: unknown if one of them holds nothing. -/
def atMost? (a b : Cell) : Option Bool :=
  if a.isNull || b.isNull then none else some (a.order b != .gt)

/-- Whether a cell is one of a list: unknown if nothing settles it. -/
def among? (a : Cell) (list : List Cell) : Option Bool :=
  if list.isEmpty then some false
  else if list.any fun b => a.equals? b == some true then some true
  else if list.any fun b => (a.equals? b).isNone then none
  else some false

/-- The least cell of a list that holds something. -/
def least (list : List Cell) : Cell :=
  list.foldl (fun m c => if c.isNull then m else if m.isNull || c.order m == .lt then c else m) null

/-- The order of rows: by the first cells that differ. -/
def orderRows : Row → Row → Ordering
  | [], [] => .eq
  | [], _ :: _ => .lt
  | _ :: _, [] => .gt
  | a :: as, b :: bs => (a.order b).then (orderRows as bs)

end Cell

/-- What a column prefers to hold. -/
inductive Affinity where
  | integer
  | text
  | blob
  | real
  | numeric
  deriving DecidableEq, Repr, Inhabited

namespace Affinity

/-- The affinity of a declared type. -/
def ofDeclared (type : String) : Affinity :=
  let cs := type.toUpper.toList
  let mentions (word : String) : Bool := Provenance.Text.occurs word.toList cs
  if mentions "INT" then integer
  else if mentions "CHAR" || mentions "CLOB" || mentions "TEXT" then text
  else if mentions "BLOB" || cs.isEmpty then blob
  else if mentions "REAL" || mentions "FLOA" || mentions "DOUB" then real
  else numeric

/-- The number that a text denotes, if it denotes one: an integer if it is written as a word. -/
def number? (s : String) : Option Cell :=
  let isSpace (c : Char) : Bool := c == ' ' || (9 ≤ c.toNat && c.toNat ≤ 13)
  let cs := ((s.toList.dropWhile isSpace).reverse.dropWhile isSpace).reverse
  (Decimal.read? cs).map fun d =>
    let n : Int := if d.negative then -(d.digits : Int) else d.digits
    if d.whole && Text.isWord n then .integer n else .real d.toBinary64

/-- A real number as an integer, where nothing is lost. -/
def narrow (x : Binary64) : Cell :=
  match x.toInt? with
  | some n => if -9223372036854775808 < n && n < 9223372036854775807 then .integer n else .real x
  | none => .real x

/-- Brings a cell to an affinity. -/
def store : Affinity → Cell → Cell
  | text, .integer n => .text (Provenance.Text.decimal n)
  | text, .real x => .text x.stored
  | integer, .real x => narrow x
  | numeric, .real x => narrow x
  | integer, .text s => numericText s
  | numeric, .text s => numericText s
  | real, .integer n => .real (.ofInt n)
  | real, .real x => .real x.withPlainZero
  | real, .text s =>
    match number? s with
    | some (.integer n) => .real (.ofInt n)
    | some (.real x) => .real x.withPlainZero
    | _ => .text s
  | _, c => c
where
  numericText (s : String) : Cell :=
    match number? s with
    | some (.real x) => narrow x
    | some c => c
    | none => .text s

def isNumeric : Affinity → Bool
  | integer => true
  | real => true
  | numeric => true
  | _ => false

/-- The affinity under which two columns are compared, if their cells have to change for it. -/
def common? (a b : Affinity) : Option Affinity :=
  if a = b then none
  else if a.isNumeric || b.isNumeric then some numeric
  else if a = text || b = text then some text
  else none

/-- Both cells brought to the affinity of a comparison. -/
def align (a b : Affinity) (x y : Cell) : Cell × Cell :=
  match common? a b with
  | some c => (c.store x, c.store y)
  | none => (x, y)

end Affinity

end Provenance.Store

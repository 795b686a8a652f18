import Provenance.Action
import Provenance.Store.Binary64
import Provenance.Text.Quoted

/-!
# Reading JSON

A text is read from front to back into the types that are expected, without a tree in between. A
fault shows the line, and the number of bytes on that line up to and including the byte at fault. A
fault that concerns a whole value, such as one of the wrong kind, is placed where reading stands
once the value's brackets are passed.
-/

namespace Provenance.Json

open Store

/-- A place in a text: the line, from one, and the number of bytes before the place on that line. -/
structure Place where
  line : Nat
  column : Nat
  deriving DecidableEq, Repr, Inhabited

/-- What stands where something else is needed. -/
inductive Found where
  | null
  | boolean (value : Bool)
  | integer (value : Int)
  | real (value : Binary64)
  | text (value : String)
  | list
  | object
  deriving DecidableEq, Repr, Inhabited

inductive Reason where
  | listUnfinished
  | objectUnfinished
  | textUnfinished
  | valueUnfinished
  | colonExpected
  | listCommaExpected
  | objectCommaExpected
  | wordExpected
  | valueExpected
  | badEscape
  | badNumber
  | numberRange
  | controlCharacter
  | keyExpected
  | loneSurrogate
  | surrogateExpected
  | trailingComma
  | trailingCharacters
  | wrongKind (found : Found) (expected : String)
  | wrongInteger (value : Int) (expected : String)
  | wrongLength (length : Nat) (expected : String)
  | missingField (name : String)
  | repeatedField (name : String)
  deriving DecidableEq, Repr, Inhabited

/-- A fault, and its place once that is known. -/
structure Fault where
  reason : Reason
  place : Option Place
  deriving DecidableEq, Repr, Inhabited

/-- A real number with a point or an exponent: positional from `1e-5` to below `1e16`, and with even
digits where two are equally near. -/
def realText : Binary64 → String
  | .infinite negative => Binary64.sign negative ++ "inf"
  | .finite negative m q =>
    let (digits, g) := Binary64.shortest .even m q
    let cs := (Text.natural digits).toList
    let e : Int := cs.length + g
    Binary64.sign negative ++
      if digits = 0 then "0.0"
      else if 0 ≤ g && e ≤ 16 then Binary64.positional digits g ++ ".0"
      else if -5 < e && e ≤ 16 then Binary64.positional digits g
      else
        String.ofList (cs.take 1) ++ (if cs.length = 1 then "" else ".")
          ++ String.ofList (cs.drop 1) ++ "e" ++ Text.decimal (e - 1)

def Found.describe : Found → String
  | null => "null"
  | boolean value => if value then "boolean `true`" else "boolean `false`"
  | integer value => s!"integer `{Text.decimal value}`"
  | real value => s!"floating point `{realText value}`"
  | text value => s!"string {Text.quoted value}"
  | list => "sequence"
  | object => "map"

def Reason.describe : Reason → String
  | listUnfinished => "EOF while parsing a list"
  | objectUnfinished => "EOF while parsing an object"
  | textUnfinished => "EOF while parsing a string"
  | valueUnfinished => "EOF while parsing a value"
  | colonExpected => "expected `:`"
  | listCommaExpected => "expected `,` or `]`"
  | objectCommaExpected => "expected `,` or `\x7d`"
  | wordExpected => "expected ident"
  | valueExpected => "expected value"
  | badEscape => "invalid escape"
  | badNumber => "invalid number"
  | numberRange => "number out of range"
  | controlCharacter => "control character (\\u0000-\\u001F) found while parsing a string"
  | keyExpected => "key must be a string"
  | loneSurrogate => "lone leading surrogate in hex escape"
  | surrogateExpected => "unexpected end of hex escape"
  | trailingComma => "trailing comma"
  | trailingCharacters => "trailing characters"
  | wrongKind found expected => s!"invalid type: {found.describe}, expected {expected}"
  | wrongInteger value expected =>
    s!"invalid value: integer `{Text.decimal value}`, expected {expected}"
  | wrongLength length expected => s!"invalid length {Text.natural length}, expected {expected}"
  | missingField name => s!"missing field `{name}`"
  | repeatedField name => s!"duplicate field `{name}`"

def Fault.message (f : Fault) : String :=
  match f.place with
  | none => f.reason.describe
  | some p => s!"{f.reason.describe} at line {Text.natural p.line} column {Text.natural p.column}"

/-! ## Places -/

namespace Place

def start : Place := ⟨1, 0⟩

/-- The place after the first byte of a character. -/
def afterByte (p : Place) (c : Char) : Place :=
  if c = '\n' then ⟨p.line + 1, 0⟩ else ⟨p.line, p.column + 1⟩

/-- The place after a character. -/
def after (p : Place) (c : Char) : Place :=
  if c = '\n' then ⟨p.line + 1, 0⟩ else ⟨p.line, p.column + c.utf8Size⟩

/-- The place some bytes further. -/
def afterBytes : Nat → List Char → Place → Place
  | _, [], p => p
  | n, c :: cs, p =>
    if n = 0 then p
    else if n < c.utf8Size then ⟨p.line, p.column + n⟩
    else afterBytes (n - c.utf8Size) cs (p.after c)

end Place

/-- What is left of a text, and the place reached. -/
structure Cursor where
  rest : List Char
  place : Place
  deriving Inhabited

abbrev Reader := Action Cursor Fault

namespace Reader

variable {α : Type}

/-- The next character. -/
def peek? : Reader (Option Char) := do return (← get).rest.head?

/-- Passes the next character. -/
def advance : Reader Unit := modify fun s =>
  match s.rest with
  | [] => s
  | c :: r => ⟨r, s.place.after c⟩

/-- Takes the next character. -/
def next? : Reader (Option Char) := do
  let c ← peek?
  advance
  pure c

def failAt (reason : Reason) (place : Place) : Reader α := throw ⟨reason, some place⟩

/-- Fails at the place reached. -/
def failHere (reason : Reason) : Reader α := do failAt reason (← get).place

/-- Fails at the next byte. -/
def failNext (reason : Reason) : Reader α := do
  let s ← get
  match s.rest with
  | [] => failAt reason s.place
  | c :: _ => failAt reason (s.place.afterByte c)

/-- Fails; the place will be known later. -/
def failUnplaced (reason : Reason) : Reader α := throw ⟨reason, none⟩

/-- Places a fault that has no place yet where reading stands. -/
def placed (a : Reader α) : Reader α := do
  let result ← a.attempt
  match result with
  | .ok value => pure value
  | .error f => throw { f with place := f.place.or (some (← get).place) }

def isBlank (c : Char) : Bool := c == ' ' || c == '\n' || c == '\t' || c == '\r'

/-- Passes blanks. -/
def blanks : Reader Unit := modify fun s =>
  let run := s.rest.takeWhile isBlank
  ⟨s.rest.drop run.length, run.foldl Place.after s.place⟩

/-- Passes digits and gives them. -/
def digits : Reader (List Char) := do
  let s ← get
  let run := s.rest.takeWhile Text.isDigit
  set ({ rest := s.rest.drop run.length, place := run.foldl Place.after s.place } : Cursor)
  pure run

/-- The first character of a value. -/
def startOfValue : Reader Char := do
  blanks
  match ← peek? with
  | none => failNext .valueUnfinished
  | some c => pure c

/-- Passes the rest of a word. -/
def restOfWord : List Char → Reader Unit
  | [] => pure ()
  | c :: cs => do
    match ← peek? with
    | none => failHere .valueUnfinished
    | some d =>
      if d = c then
        advance
        restOfWord cs
      else failNext .wordExpected

/-! ## Texts -/

def hexValue? (c : Char) : Option Nat :=
  if Text.isDigit c then some (Text.digitValue c)
  else if 'a' ≤ c && c ≤ 'f' then some (c.toNat - 'a'.toNat + 10)
  else if 'A' ≤ c && c ≤ 'F' then some (c.toNat - 'A'.toNat + 10)
  else none

/-- The unit that four hexadecimal digits denote. -/
def hexUnit : Reader Nat := do
  let s ← get
  let ds := s.rest.take 4
  match ds.mapM hexValue? with
  | some values =>
    if values.length = 4 then
      set ({ rest := s.rest.drop 4, place := ds.foldl Place.after s.place } : Cursor)
      pure (values.foldl (fun n v => 16 * n + v) 0)
    else failAt .textUnfinished (s.rest.foldl Place.after s.place)
  | none =>
    let four := Place.afterBytes 4 s.rest s.place
    failAt (if (String.ofList ds).utf8ByteSize < 4 then .textUnfinished else .badEscape) four

def isLeading (unit : Nat) : Bool := 0xD800 ≤ unit && unit ≤ 0xDBFF

def isTrailing (unit : Nat) : Bool := 0xDC00 ≤ unit && unit ≤ 0xDFFF

/-- Passes a character of the second half of a pair. -/
def expectInPair (c : Char) : Reader Unit := do
  match ← peek? with
  | none => failHere .textUnfinished
  | some d => if d = c then advance else failNext .surrogateExpected

/-- The character of an escape by code, of which a large one is written as a pair. -/
def codeEscape : Reader Char := do
  let unit ← hexUnit
  if isTrailing unit then failHere .loneSurrogate
  else if isLeading unit then
    expectInPair '\\'
    expectInPair 'u'
    let second ← hexUnit
    if isTrailing second then
      pure (Char.ofNat (0x10000 + (unit - 0xD800) * 0x400 + (second - 0xDC00)))
    else failHere .loneSurrogate
  else pure (Char.ofNat unit)

/-- The character that a letter after a backslash stands for. -/
def simpleEscape? : Char → Option Char
  | '\x22' => some '\x22'
  | '\\' => some '\\'
  | '/' => some '/'
  | 'b' => some '\x08'
  | 'f' => some '\x0c'
  | 'n' => some '\n'
  | 'r' => some '\r'
  | 't' => some '\t'
  | _ => none

/-- What follows a backslash. -/
def escape : Reader Char := do
  match ← peek? with
  | none => failHere .textUnfinished
  | some 'u' =>
    advance
    codeEscape
  | some c =>
    match simpleEscape? c with
    | some d =>
      advance
      pure d
    | none => failNext .badEscape

/-- The characters of a text up to the closing quote. The number bounds the characters left. -/
def textFrom : Nat → List Char → Reader String
  | 0, _ => failHere .textUnfinished
  | n + 1, read => do
    match ← peek? with
    | none => failHere .textUnfinished
    | some '\x22' =>
      advance
      pure (String.ofList read.reverse)
    | some '\\' =>
      advance
      let c ← escape
      textFrom n (c :: read)
    | some c =>
      if c.toNat < 0x20 then failNext .controlCharacter
      else
        advance
        textFrom n (c :: read)

/-- A text behind its opening quote. -/
def restOfText : Reader String := do textFrom ((← get).rest.length + 1) []

/-! ## Numbers -/

/-- A number as it was written: an integer in the range of words, signed or not, or a real. -/
inductive Number where
  | integer (value : Int)
  | real (value : Binary64)

/-- A product or a quotient of a number and a power of ten, rounded. -/
def timesPower (x : Binary64) (power : Nat) (divide : Bool) : Binary64 :=
  match x, Binary64.ofDecimal false 1 power with
  | .finite s m q, .finite _ k p =>
    if m = 0 then x
    else
      let e : Int := if divide then q - p else q + p
      let (n, d) := if divide then (m, k) else (m * k, 1)
      if 0 ≤ e then .ofQuotient s (n * Nat.pow 2 e.toNat) d
      else .ofQuotient s n (d * Nat.pow 2 (-e).toNat)
  | x, _ => x

/-- `x * 10 ^ exponent`, in steps of at most `10 ^ 308`; nothing if it is too large. -/
def scale : Nat → Binary64 → Int → Option Binary64
  | 0, x, _ => some x
  | n + 1, x, exponent =>
    if exponent.natAbs ≤ 308 then
      match timesPower x exponent.natAbs (exponent < 0) with
      | .infinite _ => none
      | y => some y
    else if x.toInt? = some 0 then some x
    else if 0 ≤ exponent then none
    else scale n (timesPower x 308 true) (exponent + 308)

/-- A real number of a sign, digits and an exponent. -/
def realOf (negative : Bool) (significand : Nat) (exponent : Int) : Reader Number :=
  match scale 16 (.ofDecimal false significand 0) exponent with
  | some (.finite _ m q) => pure (.real (.finite negative m q))
  | _ => failHere .numberRange

/-- The digits that fit in an unsigned word, as a number, and how many digits are left over. -/
def significandOf (value : Nat) : List Char → Nat × List Char
  | [] => (value, [])
  | d :: ds =>
    let longer := 10 * value + Text.digitValue d
    if longer < Nat.pow 2 64 then significandOf longer ds else (value, d :: ds)

/-- How many digits it takes to reach a bound. -/
def digitsToPass (bound : Nat) (ds : List Char) : Nat :=
  ((List.range ds.length).find? fun k => bound ≤ Text.digitsValue (ds.take (k + 1))).elim ds.length
    (· + 1)

/-- The exponent behind `e`, added to the one so far. -/
def exponentFrom (negative : Bool) (significand : Nat) (exponent : Int) : Reader Number := do
  advance
  let minus := (← peek?) == some '-'
  if minus || (← peek?) == some '+' then advance
  match ← peek? with
  | none => failHere .valueUnfinished
  | some c =>
    if Text.isDigit c then
      let start := (← get).place
      let ds ← digits
      let n : Nat := Text.digitsValue ds
      if n < Nat.pow 2 31 then
        realOf negative significand (if minus then exponent - n else exponent + n)
      else if significand = 0 || minus then pure (.real (.finite negative 0 (-1074)))
      else failAt .numberRange ⟨start.line, start.column + digitsToPass (Nat.pow 2 31) ds⟩
    else failNext .badNumber

/-- What may follow the digits of a real number. -/
def exponentOrEnd (negative : Bool) (significand : Nat) (exponent : Int) : Reader Number := do
  match ← peek? with
  | some 'e' => exponentFrom negative significand exponent
  | some 'E' => exponentFrom negative significand exponent
  | _ => realOf negative significand exponent

/-- The digits behind the point. -/
def fractionFrom (negative : Bool) (significand : Nat) (exponent : Int) : Reader Number := do
  advance
  let ds ← digits
  if ds.isEmpty then
    match ← peek? with
    | some _ => failNext .badNumber
    | none => failNext .valueUnfinished
  else
    let (longer, dropped) := significandOf significand ds
    exponentOrEnd negative longer (exponent - (ds.length - dropped.length : Nat))

/-- A number behind its sign. -/
def restOfNumber (negative : Bool) : Reader Number := do
  let ds ← digits
  match ds with
  | [] =>
    match ← peek? with
    | none => failHere .valueUnfinished
    | some _ => failNext .badNumber
  | '0' :: _ :: _ => failLeadingZero ds
  | ds =>
    let (significand, dropped) := significandOf 0 ds
    match ← peek? with
    | some '.' => fractionFrom negative significand dropped.length
    | some 'e' => exponentFrom negative significand dropped.length
    | some 'E' => exponentFrom negative significand dropped.length
    | _ =>
      if !dropped.isEmpty then realOf negative significand dropped.length
      else if !negative then pure (.integer significand)
      else if significand = 0 || Nat.pow 2 63 < significand then realOf true significand 0
      else pure (.integer (-(significand : Int)))
where
  /-- Fails at the second digit, which no digit may follow a zero. -/
  failLeadingZero (ds : List Char) : Reader Number := do
    let s ← get
    failAt .badNumber ⟨s.place.line, s.place.column + 2 - ds.length⟩

/-! ## Values of the wrong kind -/

def foundNumber : Number → Found
  | .integer n => .integer n
  | .real x => .real x

/-- Fails because the value that follows is of the wrong kind. -/
def mismatch (expected : String) : Reader α := placed do
  let failFound (found : Found) : Reader α := failUnplaced (.wrongKind found expected)
  match ← peek? with
  | some 'n' =>
    advance
    restOfWord ['u', 'l', 'l']
    failFound .null
  | some 't' =>
    advance
    restOfWord ['r', 'u', 'e']
    failFound (.boolean true)
  | some 'f' =>
    advance
    restOfWord ['a', 'l', 's', 'e']
    failFound (.boolean false)
  | some '-' =>
    advance
    failFound (foundNumber (← restOfNumber true))
  | some '\x22' =>
    advance
    failFound (.text (← restOfText))
  | some '[' => failFound .list
  | some '\x7b' => failFound .object
  | some c =>
    if Text.isDigit c then failFound (foundNumber (← restOfNumber false))
    else failNext .valueExpected
  | none => failNext .valueExpected

end Reader

end Provenance.Json

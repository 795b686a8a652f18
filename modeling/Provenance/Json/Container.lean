import Provenance.Json.Reader

/-!
# Objects and lists

An object is read member by member and a list item by item. A value of which nothing is needed is
skipped: its brackets have to match and its words have to be well formed, but a number may be of any
size and a text may name any code.

A record is an object with known members, of which unknown ones are skipped, or a list of their
values.
-/

namespace Provenance.Json.Reader

variable {α β : Type}

/-! ## Skipping a value -/

inductive Bracket where
  | list
  | object
  deriving DecidableEq, Repr, Inhabited

def skipExponent : Reader Unit := do
  advance
  let c ← peek?
  if c == some '+' || c == some '-' then advance
  if (← digits).isEmpty then failNext .badNumber

def skipExponentOrEnd : Reader Unit := do
  let c ← peek?
  if c == some 'e' || c == some 'E' then skipExponent

/-- Passes a number behind its sign. -/
def skipNumber : Reader Unit := do
  match ← digits with
  | [] => failNext .badNumber
  | '0' :: c :: cs => let _ ← restOfNumber.failLeadingZero ('0' :: c :: cs)
  | _ =>
    if (← peek?) == some '.' then
      advance
      if (← digits).isEmpty then failNext .badNumber
    skipExponentOrEnd

/-- Passes what follows a backslash. -/
def skipEscape : Reader Unit := do
  match ← peek? with
  | none => failHere .textUnfinished
  | some 'u' =>
    advance
    let _ ← hexUnit
  | some c => if (simpleEscape? c).isSome then advance else failNext .badEscape

/-- Passes a text up to its closing quote. The number bounds the characters left. -/
def skipText : Nat → Reader Unit
  | 0 => failHere .textUnfinished
  | n + 1 => do
    match ← peek? with
    | none => failHere .textUnfinished
    | some '\x22' => advance
    | some '\\' =>
      advance
      skipEscape
      skipText n
    | some c =>
      if c.toNat < 0x20 then failHere .controlCharacter
      else
        advance
        skipText n

/-- Passes a text behind its opening quote. -/
def skipRestOfText : Reader Unit := do skipText ((← get).rest.length + 1)

/-- Passes a key and the colon behind it. -/
def skipKey : Reader Unit := do
  blanks
  match ← peek? with
  | some '\x22' => advance
  | some _ => failNext .keyExpected
  | none => failNext .objectUnfinished
  skipRestOfText
  blanks
  match ← peek? with
  | some ':' => advance
  | some _ => failNext .colonExpected
  | none => failNext .objectUnfinished

/-- Passes a word, a number or a text, or opens a bracket. -/
def skipStart : Reader (Option Bracket) := do
  match ← startOfValue with
  | 'n' =>
    advance
    restOfWord ['u', 'l', 'l']
    pure none
  | 't' =>
    advance
    restOfWord ['r', 'u', 'e']
    pure none
  | 'f' =>
    advance
    restOfWord ['a', 'l', 's', 'e']
    pure none
  | '-' =>
    advance
    skipNumber
    pure none
  | '\x22' =>
    advance
    skipRestOfText
    pure none
  | '[' =>
    advance
    pure (some .list)
  | '\x7b' =>
    advance
    pure (some .object)
  | c =>
    if Text.isDigit c then
      skipNumber
      pure none
    else failNext .valueExpected

/-- Closes brackets, the innermost first, as far as they end here. The flag says whether a comma may
follow. Gives the brackets that are still open. -/
def skipEnds : Bool → List Bracket → Reader (List Bracket)
  | _, [] => pure []
  | afterValue, bracket :: outer => do
    blanks
    match ← peek?, bracket with
    | none, .list => failNext .listUnfinished
    | none, .object => failNext .objectUnfinished
    | some ']', .list =>
      advance
      skipEnds true outer
    | some '\x7d', .object =>
      advance
      skipEnds true outer
    | some c, bracket =>
      if !afterValue then pure (bracket :: outer)
      else if c = ',' then
        advance
        pure (bracket :: outer)
      else
        match bracket with
        | .list => failNext .listCommaExpected
        | .object => failNext .objectCommaExpected

/-- Passes values until the open brackets are closed. Each round passes a character, and the number
bounds the characters left. -/
def skipWithin : Nat → List Bracket → Reader Unit
  | 0, _ => pure ()
  | n + 1, brackets => do
    let remaining ←
      match ← skipStart with
      | some bracket => skipEnds false (bracket :: brackets)
      | none => skipEnds true brackets
    match remaining with
    | [] => pure ()
    | .list :: _ => skipWithin n remaining
    | .object :: _ =>
      skipKey
      skipWithin n remaining

/-- Passes a value. -/
def skip : Reader Unit := do skipWithin ((← get).rest.length + 1) []

/-! ## Containers -/

/-- Reads what stands between brackets, and the closing one. Of two faults the first one counts. -/
def within (body : Reader α) (close : Reader Unit) : Reader α := placed do
  advance
  let result ← body.attempt
  let closed ← close.attempt
  let value ← Action.ofExcept result
  let _ ← Action.ofExcept closed
  pure value

def closeObject : Reader Unit := do
  blanks
  match ← peek? with
  | some '\x7d' => advance
  | some ',' => failNext .trailingComma
  | some _ => failNext .trailingCharacters
  | none => failNext .objectUnfinished

def closeList : Reader Unit := do
  blanks
  match ← peek? with
  | some ']' => advance
  | some ',' =>
    advance
    blanks
    if (← peek?) == some ']' then failNext .trailingComma else failNext .trailingCharacters
  | some _ => failNext .trailingCharacters
  | none => failNext .listUnfinished

/-- Whether another member follows; if so, reading stands at its key. -/
def nextMember (first : Bool) : Reader Bool := do
  blanks
  match ← peek? with
  | none => failNext .objectUnfinished
  | some '\x7d' => pure false
  | some c =>
    if first then if c = '\x22' then pure true else failNext .keyExpected
    else if c = ',' then
      advance
      blanks
      match ← peek? with
      | some '\x22' => pure true
      | some '\x7d' => failNext .trailingComma
      | some _ => failNext .keyExpected
      | none => failNext .valueUnfinished
    else failNext .objectCommaExpected

/-- Whether another item follows; if so, reading stands before it. -/
def nextItem (first : Bool) : Reader Bool := do
  blanks
  match ← peek? with
  | none => failNext .listUnfinished
  | some ']' => pure false
  | some c =>
    if first then pure true
    else if c = ',' then
      advance
      blanks
      match ← peek? with
      | some ']' => failNext .trailingComma
      | some _ => pure true
      | none => failNext .valueUnfinished
    else failNext .listCommaExpected

/-- Reads members, each changing what was read so far. The number bounds the characters left. -/
def membersFrom (member : String → α → Reader α) : Nat → Bool → α → Reader α
  | 0, _, a => pure a
  | n + 1, first, a => do
    if ← nextMember first then
      advance
      let key ← restOfText
      let a ← member key a
      membersFrom member n false a
    else pure a

def members (member : String → α → Reader α) (start : α) : Reader α := do
  membersFrom member ((← get).rest.length + 1) true start

/-- Reads items. The number bounds the characters left. -/
def itemsFrom (item : Reader α) : Nat → Bool → List α → Reader (List α)
  | 0, _, read => pure read.reverse
  | n + 1, first, read => do
    if ← nextItem first then
      let a ← item
      itemsFrom item n false (a :: read)
    else pure read.reverse

/-- The colon and the value behind a key. -/
def valueOf (value : Reader α) : Reader α := do
  blanks
  match ← peek? with
  | some ':' => advance
  | some _ => failNext .colonExpected
  | none => failNext .objectUnfinished
  value

/-- The value of a field that may stand in an object once. -/
def fieldOnce (name : String) (before : Option α) (value : Reader α) : Reader (Option α) := do
  if before.isSome then failUnplaced (.repeatedField name)
  else some <$> valueOf value

/-- The value of a field that has to be there. -/
def required (name : String) : Option α → Reader α
  | some a => pure a
  | none => failUnplaced (.missingField name)

/-- The item of a list that stands for a record, if it is there. -/
def item? (first : Bool) (value : Reader α) : Reader (Option α) := do
  if ← nextItem first then some <$> value else pure none

/-- The item of a list that stands for a record of the given form, which has to be there. -/
def itemAt (index : Nat) (form : String) (value : Reader α) : Reader α := do
  match ← item? (index == 0) value with
  | some a => pure a
  | none => failUnplaced (.wrongLength index form)

/-! ## Values -/

/-- A list of values. -/
def list (item : Reader α) : Reader (List α) := do
  match ← startOfValue with
  | '[' => within (do itemsFrom item ((← get).rest.length + 1) true []) closeList
  | _ => mismatch "a sequence"

/-- A record, as an object or as a list. -/
def record (label : String) (object list : Reader α) : Reader α := do
  match ← startOfValue with
  | '\x7b' => within object closeObject
  | '[' => within list closeList
  | _ => mismatch label

def text : Reader String := do
  match ← startOfValue with
  | '\x22' =>
    advance
    restOfText
  | _ => mismatch "a string"

/-- A text, or nothing for `null`. -/
def optionalText : Reader (Option String) := do
  blanks
  if (← peek?) == some 'n' then
    advance
    restOfWord ['u', 'l', 'l']
    pure none
  else some <$> text

/-- The word that a number is. -/
def asWord : Number → Reader Int
  | .integer n => if Text.isWord n then pure n else failUnplaced (.wrongInteger n "i64")
  | .real x => failUnplaced (.wrongKind (.real x) "i64")

/-- A signed 64-bit word, written without point and exponent. -/
def word : Reader Int := do
  let c ← startOfValue
  placed do
    if c = '-' then
      advance
      asWord (← restOfNumber true)
    else if Text.isDigit c then asWord (← restOfNumber false)
    else mismatch "i64"

/-- Reads a whole text. -/
def readAll (value : Reader α) (source : String) : Except Fault α :=
  let whole : Reader α := do
    let a ← value
    blanks
    match ← peek? with
    | some _ => failNext .trailingCharacters
    | none => pure a
  (whole.runFrom ⟨source.toList, .start⟩).1

end Provenance.Json.Reader

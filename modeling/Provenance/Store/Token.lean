import Provenance.Store.Cell

/-!
# Tokens of a statement text

A statement text given by a user is cut into words, numbers, texts, byte strings and single marks.
Blanks and comments separate tokens. Each token knows its offset in bytes, for messages. A
semicolon ends a statement.
-/

namespace Provenance.Store

inductive Token where
  | word (text : String)
  | number (value : Decimal) (text : String)
  | text (value : String)
  | blob (bytes : List UInt8)
  | mark (c : Char)
  deriving DecidableEq, Repr, Inhabited

/-- A token with its offset in bytes from the beginning of its statement, and its spelling. -/
structure Placed where
  token : Token
  offset : Nat
  spelling : String
  deriving Repr, Inhabited

namespace Token

def isSpace (c : Char) : Bool := c == ' ' || c == '\t' || c == '\n' || c == '\r' || c == '\x0c'

def isWordStart (c : Char) : Bool :=
  ('a' ≤ c && c ≤ 'z') || ('A' ≤ c && c ≤ 'Z') || c == '_' || 0x80 ≤ c.toNat

def isWordChar (c : Char) : Bool := isWordStart c || Text.isDigit c || c == '$'

/-- The number of characters up to the end of a block comment. -/
def blockLength : List Char → Nat
  | [] => 0
  | '*' :: '/' :: _ => 2
  | _ :: r => 1 + blockLength r

/-- The inside of a quoted text up to its closing quote, and its length with that quote. -/
def quotedText? : List Char → Option (List Char × Nat)
  | [] => none
  | '\x27' :: '\x27' :: r => (quotedText? r).map fun (cs, n) => ('\x27' :: cs, n + 2)
  | c :: r =>
    if c = '\x27' then some ([], 1) else (quotedText? r).map fun (cs, n) => (c :: cs, n + 1)

def hexValue? (c : Char) : Option Nat :=
  if Text.isDigit c then some (c.toNat - '0'.toNat)
  else if 'a' ≤ c && c ≤ 'f' then some (c.toNat - 'a'.toNat + 10)
  else if 'A' ≤ c && c ≤ 'F' then some (c.toNat - 'A'.toNat + 10)
  else none

def bytes? : List Char → Option (List UInt8)
  | [] => some []
  | a :: b :: r => do
    let high ← hexValue? a
    let low ← hexValue? b
    let others ← bytes? r
    pure (UInt8.ofNat (16 * high + low) :: others)
  | [_] => none

/-- The token at the front of a nonblank text, and its length in characters. -/
def first (c : Char) (r : List Char) : Token × Nat :=
  if c = '\x27' then
    match quotedText? r with
    | some (cs, n) => (.text (String.ofList cs), n + 1)
    | none => (.mark c, r.length + 1)
  else if Text.isDigit c || (c == '.' && (r.head?.map Text.isDigit).getD false) then
    match Decimal.readUnsigned? (c :: r) with
    | some (d, rest) =>
      let n := r.length + 1 - rest.length
      (.number d (String.ofList ((c :: r).take n)), n)
    | none => (.mark c, 1)
  else if isWordStart c then
    let hexBody :=
      if c == 'x' || c == 'X' then
        match r with
        | '\x27' :: body => do
          let (cs, n) ← quotedText? body
          let bytes ← bytes? cs
          pure (bytes, n + 2)
        | _ => none
      else none
    match hexBody with
    | some (bytes, n) => (.blob bytes, n)
    | none =>
      let cs := c :: r.takeWhile isWordChar
      (.word (String.ofList cs), cs.length)
  else (.mark c, 1)

/-- How many characters at the front are blanks or a comment, or 0 if a token stands there. -/
def gapLength : List Char → Nat
  | '-' :: '-' :: r => 2 + (r.takeWhile (· != '\n')).length
  | '/' :: '*' :: r => 2 + blockLength r
  | c :: r => if isSpace c then 1 + (r.takeWhile isSpace).length else 0
  | [] => 0

def byteLength (cs : List Char) : Nat := cs.foldl (fun n c => n + c.utf8Size) 0

/-- The tokens of the first statement of a text and what follows its semicolon. The number bounds
the characters that are still to be read. -/
def statementFrom : Nat → Nat → List Char → List Placed → List Placed × List Char
  | 0, _, rest, found => (found.reverse, rest)
  | _, _, [], found => (found.reverse, [])
  | fuel + 1, offset, c :: r, found =>
    if c = ';' then (found.reverse, r)
    else
      let gap := gapLength (c :: r)
      if gap = 0 then
        let (token, n) := first c r
        let spelling := (c :: r).take n
        statementFrom fuel (offset + byteLength spelling) ((c :: r).drop n)
          (⟨token, offset, String.ofList spelling⟩ :: found)
      else
        statementFrom fuel (offset + byteLength ((c :: r).take gap)) ((c :: r).drop gap) found

/-- The tokens of the first statement of a text, and what follows its semicolon. -/
def statement (cs : List Char) : List Placed × List Char := statementFrom cs.length 0 cs []

/-- Whether a token is the given keyword, in any case. -/
def isKeyword (keyword : String) : Token → Bool
  | word w => w.toUpper == keyword
  | _ => false

end Token

end Provenance.Store

import Provenance.Text.Numeral
import Provenance.Text.Pieces

/-!
# Log filters

A filter is a list of directives between commas, of which empty ones say nothing. A directive is a
level, or a target, which may be followed by a span in brackets and by `=` and a level; a span may
have fields in braces. Blanks around a directive say nothing unless it has a level behind `=`.
-/

namespace Provenance.CommandLine.LogFilter

inductive Fault where
  | badLevel
  | badDirective
  deriving DecidableEq, Repr, Inhabited

def Fault.message : Fault → String
  | badLevel =>
    "error parsing level filter: expected one of \"off\", \"error\", \"warn\", \"info\", "
      ++ "\"debug\", \"trace\", or a number 0-5"
  | badDirective => "invalid filter directive"

def levelNames : List String := ["off", "error", "warn", "info", "debug", "trace"]

/-- The number that a level may be given by; a plus sign may stand in front of it. -/
def levelNumber? : List Char → Option Nat
  | '+' :: ds => Text.natural? ds
  | ds => Text.natural? ds

/-- Whether a text is a level: nothing, a name in any case, or a number up to five. -/
def isLevel (cs : List Char) : Bool :=
  cs.isEmpty || levelNames.contains (String.ofList cs).toLower
    || (levelNumber? cs).any fun n => n ≤ 5

/-- What a directive was read up to. -/
inductive Stage where
  | start
  | name
  | span
  | field (filled : Bool)
  | fields
  | target
  deriving DecidableEq, Repr, Inhabited

/-- Whether a directive may begin with a character. -/
def isFirst (c : Char) : Bool := c.isAlphanum || c == '-' || c == ':' || c == '_' || 0x80 ≤ c.toNat

/-- Whether a directive may end at a stage. -/
def Stage.isFinal : Stage → Bool
  | name => true
  | target => true
  | _ => false

/-- The stage that a character leads to, if it may stand there. -/
def Stage.next? : Stage → Char → Option Stage
  | start, c => if c = '[' then some span else if isFirst c then some name else none
  | name, c => some (if c = '[' then span else name)
  | span, c => some (if c = ']' then target else if c = '\x7b' then field false else span)
  | field filled, c =>
    if c = '\x7d' then (if filled then some fields else none) else some (field true)
  | fields, c => if c = ']' then some target else none
  | target, _ => none

/-- Checks a directive without the blanks around it; `level` says what to do with the characters
behind the `=` of a level. -/
def checkFrom (level : List Char → Except Fault Unit) : Stage → List Char → Except Fault Unit
  | stage, [] => if stage.isFinal then .ok () else .error .badDirective
  | stage, c :: cs =>
    if c = '=' && stage.isFinal then level cs
    else
      match stage.next? c with
      | some stage => checkFrom level stage cs
      | none => .error .badDirective

def checkDirective (directive : String) : Except Fault Unit :=
  let trimmed := Text.trimBlanks directive
  let level (cs : List Char) : Except Fault Unit :=
    if trimmed = directive && isLevel cs then .ok () else .error .badLevel
  checkFrom level .start trimmed.toList

/-- Checks a filter; of several faults the first one is reported. -/
def check (filter : String) : Except Fault Unit :=
  ((Text.pieces ',' filter).filter fun d => !d.isEmpty).forM checkDirective

end Provenance.CommandLine.LogFilter

import Provenance.Query.Position
import Provenance.Text.Pieces

/-!
# An index of the lines of a text

The index says where each line of a text starts, in bytes, and whether all its characters are ASCII. The position
of a place is found from the number of bytes in front of it: the line by halving, and the column without a look at
the text if the line is ASCII.
-/

namespace Provenance.Query

/-! ## Partition points -/

/-- Halves the range of `size` places from `base` until a single one is left. Where `p` holds, the range goes on
from there. -/
def narrow (p : Nat → Bool) (base size : Nat) : Nat :=
  if size ≤ 1 then base
  else
    let half := size / 2
    narrow p (if p (base + half) then base + half else base) (size - half)
termination_by size

/-- How many elements at the front of an array satisfy `p`, if none behind them does. -/
def partitionPoint {α : Type} (p : α → Bool) (xs : Array α) : Nat :=
  let holds i := xs[i]?.any p
  let last := narrow holds 0 xs.size
  if holds last then last + 1 else last

/-! ## Lines -/

/-- A line of a text: the number of bytes in front of it, and whether all its characters are ASCII. -/
structure Line where
  start : Nat
  ascii : Bool
  deriving DecidableEq, Repr, Inhabited

/-- The lines of a text, given the number of bytes in front of the first one. -/
def linesFrom (start : Nat) : List String → List Line
  | [] => []
  | text :: texts => ⟨start, text.toList.all (·.toNat < 0x80)⟩ :: linesFrom (start + text.utf8ByteSize + 1) texts

/-- The part of a text between two offsets in bytes, if both stand between characters. -/
def slice? (text : String) (start stop : Nat) : Option String :=
  if start ≤ stop && String.Pos.Raw.isValid text ⟨start⟩ && String.Pos.Raw.isValid text ⟨stop⟩ then
    some (String.Pos.Raw.extract text ⟨start⟩ ⟨stop⟩)
  else none

/-- A text and its lines. -/
structure LineIndex where
  text : String
  lines : Array Line

namespace LineIndex

def ofText (text : String) : LineIndex := ⟨text, (linesFrom 0 (Text.pieces '\n' text)).toArray⟩

/-- The position at which the text is still to be read from `rest` on. -/
def position (index : LineIndex) (rest : List Char) : Position :=
  let offset := index.text.utf8ByteSize - (String.ofList rest).utf8ByteSize
  let i := partitionPoint (fun line => line.start ≤ offset) index.lines - 1
  match index.lines[i]? with
  | none => ⟨1, 1⟩
  | some line =>
    let column :=
      if line.ascii then offset - line.start
      else (slice? index.text line.start offset).elim 0 String.length
    ⟨i + 1, column + 1⟩

end LineIndex

end Provenance.Query

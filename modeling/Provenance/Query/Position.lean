import Provenance.Text.Numeral

/-!
# Positions in a query text

Lines and columns count from one. A column counts characters, and only a line feed ends a line.
-/

namespace Provenance.Query

/-- A place in a query text. -/
structure Position where
  line : Nat
  column : Nat
  deriving DecidableEq, Repr, Inhabited

namespace Position

/-- The first character of a text. -/
def start : Position := ⟨1, 1⟩

/-- The place right after `c`, when `c` stands at `p`. -/
def after (p : Position) (c : Char) : Position :=
  if c = '\n' then ⟨p.line + 1, 1⟩ else ⟨p.line, p.column + 1⟩

/-- The place reached from `p` over some characters. -/
def afterAll (p : Position) (cs : List Char) : Position := cs.foldl after p

def describe (p : Position) : String :=
  s!"line {Text.natural p.line}, column {Text.natural p.column}"

end Position

end Provenance.Query

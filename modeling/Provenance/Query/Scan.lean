import Provenance.Query.ParseError

/-!
# Scanning a text

A *scan* reads a piece from the front of a text and leaves the rest. A failed scan is a *setback*:
an uncommitted one lets another alternative be tried from where the scan began, a committed one
ends the parse. A setback keeps the place where the scan failed and, once some enclosing scan has
said so, what was expected there; the innermost scan that says it wins.
-/

namespace Provenance.Query

/-- A place in a text that is being read. -/
structure Cursor where
  /-- The characters still to be read. -/
  rest : List Char
  /-- How many characters are still to be read. -/
  ahead : Nat
  position : Position
  ahead_eq : ahead = rest.length

namespace Cursor

/-- The beginning of a text. -/
def ofList (cs : List Char) : Cursor := ⟨cs, cs.length, .start, rfl⟩

/-- The place after the next character, or the end of the text. -/
def next (s : Cursor) : Cursor :=
  match h : s.rest with
  | [] => s
  | c :: r => ⟨r, s.ahead - 1, s.position.after c, by simp [s.ahead_eq, h]⟩

/-- The place after the next `n` characters. -/
def skip : Nat → Cursor → Cursor
  | 0, s => s
  | n + 1, s => skip n s.next

theorem rest_next (s : Cursor) : s.next.rest = s.rest.tail := by
  unfold next
  split <;> simp [*]

theorem rest_skip (n : Nat) (s : Cursor) : (s.skip n).rest = s.rest.drop n := by
  induction n generalizing s with
  | zero => rfl
  | succ n ih => rw [skip, ih, rest_next, List.drop_tail]

end Cursor

/-- A failed scan. -/
structure Setback where
  committed : Bool
  place : Cursor
  expected : Option Expectation

abbrev Scan := StateT Cursor (Except Setback)

namespace Scan

variable {α : Type}

/-- Fails where it stands and lets alternatives be tried. -/
def miss : Scan α := fun s => .error ⟨false, s, none⟩

/-- Fails where it stands and ends the parse. -/
def stop (what : Expectation) : Scan α := fun s => .error ⟨true, s, some what⟩

/-- Past this point no alternative is tried: every setback ends the parse. -/
def commit (p : Scan α) : Scan α := fun s =>
  match p s with
  | .ok r => .ok r
  | .error e => .error { e with committed := true }

/-- Says what was expected, unless a part of `p` has said so already. -/
def expecting (what : Expectation) (p : Scan α) : Scan α := fun s =>
  match p s with
  | .ok r => .ok r
  | .error e => .error { e with expected := e.expected.or (some what) }

/-- Tries `p`, and `q` from the same place if `p` meets an uncommitted setback. -/
def either (p q : Scan α) : Scan α := fun s =>
  match p s with
  | .ok r => .ok r
  | .error e => if e.committed then .error e else q s

/-- Tries `p`; an uncommitted setback reads nothing. -/
def option (p : Scan α) : Scan (Option α) := fun s =>
  match p s with
  | .ok (a, t) => .ok (some a, t)
  | .error e => if e.committed then .error e else .ok (none, s)

/-- Repeats `p` up to `n` times, until it meets an uncommitted setback. -/
def repeatUpTo (p : Scan α) : Nat → List α → Cursor → Except Setback (List α × Cursor)
  | 0, found, s => .ok (found.reverse, s)
  | n + 1, found, s =>
    match p s with
    | .ok (a, t) => repeatUpTo p n (a :: found) t
    | .error e => if e.committed then .error e else .ok (found.reverse, s)

/-- Repeats `p` until it meets an uncommitted setback. A scan that always reads something is
repeated at most once per character and tried once more at the end. -/
def many (p : Scan α) : Scan (List α) := fun s => repeatUpTo p (s.ahead + 1) [] s

/-- The place where the scan stands. -/
def here : Scan Position := fun s => .ok (s.position, s)

/-- Whether nothing is left to be read. -/
def atEnd : Scan Bool := fun s => .ok (s.rest.isEmpty, s)

/-- Reads the next character if it satisfies `p`. -/
def charWhere (p : Char → Bool) : Scan Char := fun s =>
  match s.rest with
  | [] => miss s
  | c :: _ => if p c then .ok (c, s.next) else miss s

/-- Reads the character `c`. -/
def char (c : Char) : Scan Unit := fun s =>
  match s.rest with
  | [] => miss s
  | d :: _ => if d = c then .ok ((), s.next) else miss s

/-- Reads the characters of `cs`. -/
def chars (cs : List Char) : Scan Unit := fun s =>
  if cs.isPrefixOf s.rest then .ok ((), s.skip cs.length) else miss s

/-- Reads the longest run of characters that satisfy `p`. -/
def run (p : Char → Bool) : Scan (List Char) := fun s =>
  let cs := s.rest.takeWhile p
  .ok (cs, s.skip cs.length)

/-- Reads the longest nonempty run of characters that satisfy `p`. -/
def run1 (p : Char → Bool) : Scan (List Char) := fun s =>
  let cs := s.rest.takeWhile p
  if cs.isEmpty then miss s else .ok (cs, s.skip cs.length)

end Scan

end Provenance.Query

/-!
# Searching a text

Whether one list of characters stands somewhere inside another one, at any place (`occurs_iff`).
-/

namespace Provenance.Text

/-- Whether `part` occurs in a list of characters. -/
def occurs (part : List Char) : List Char → Bool
  | [] => part.isEmpty
  | c :: r => part.isPrefixOf (c :: r) || occurs part r

theorem occurs_iff {part cs : List Char} : occurs part cs = true ↔ part <:+: cs := by
  induction cs with
  | nil => simp [occurs]
  | cons c r ih => simp [occurs, ih, List.infix_cons_iff]

end Provenance.Text

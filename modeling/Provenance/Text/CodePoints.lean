/-!
# Sets of characters as intervals of code points

Character properties are given by tables of closed intervals in ascending order. A table is read
as the set of characters whose code point lies in one of its intervals.
-/

namespace Provenance.Text

/-- A set of code points: closed intervals, in ascending order. -/
abbrev CodePoints := List (Nat × Nat)

namespace CodePoints

/-- Whether the code point of `c` lies in one of the intervals. -/
def has (table : CodePoints) (c : Char) : Bool :=
  table.any fun (low, high) => low ≤ c.toNat && c.toNat ≤ high

theorem has_iff {table : CodePoints} {c : Char} :
    table.has c = true ↔ ∃ r ∈ table, r.1 ≤ c.toNat ∧ c.toNat ≤ r.2 := by
  simp [has]

end CodePoints

end Provenance.Text

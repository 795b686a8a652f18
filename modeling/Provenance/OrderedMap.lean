/-!
# Ordered maps

A finite map as a list of pairs in ascending order of the keys, each key once.
-/

namespace Provenance

/-- Pairs of a key and a value, in ascending order of the keys. -/
abbrev OrderedMap (α β : Type) := List (α × β)

namespace OrderedMap

variable {α β : Type} [DecidableEq α] [LT α] [DecidableRel (fun a b : α => a < b)]

/-- The map with `key` bound to `value`, in place of any other value. -/
def insert (key : α) (value : β) : OrderedMap α β → OrderedMap α β
  | [] => [(key, value)]
  | (k, v) :: rest =>
    if key = k then (key, value) :: rest
    else if key < k then (key, value) :: (k, v) :: rest
    else (k, v) :: insert key value rest

/-- The map of some bindings, of which later ones win. -/
def ofList (bindings : List (α × β)) : OrderedMap α β :=
  bindings.foldl (fun m (k, v) => insert k v m) []

omit [LT α] [DecidableRel (fun a b : α => a < b)] in
/-- The value of a key. -/
def find? (m : OrderedMap α β) (key : α) : Option β := (List.find? (fun p => p.1 = key) m).map (·.2)

/-- The map with the value of `key` changed by `f`, if there is one. -/
def adjust (key : α) (f : β → β) (m : OrderedMap α β) : OrderedMap α β :=
  m.map fun (k, v) => if k = key then (k, f v) else (k, v)

theorem find?_insert (key k : α) (value : β) (m : OrderedMap α β) :
    find? (insert key value m) k = if k = key then some value else find? m k := by
  induction m with
  | nil => by_cases h : key = k <;> simp [insert, find?, h, eq_comm]
  | cons p rest ih =>
    obtain ⟨k', v⟩ := p
    simp only [insert]
    split
    · next h => subst h; by_cases hk : k = key <;> simp [find?, hk, eq_comm]
    · next h =>
      split
      · by_cases hk : k = key
        · subst hk; simp [find?]
        · simp [find?, hk, Ne.symm hk]
      · simp only [find?] at ih ⊢
        by_cases hk : k' = k
        · subst hk; simp [Ne.symm h]
        · simp [hk, ih]

end OrderedMap

end Provenance

import Mathlib.Data.String.Basic
import Provenance.OrderedMap

/-!
# Pairs as maps

A list of pairs is read as a map by `OrderedMap.find?`, also one that is in no order. Inserting into
an ordered map keeps its keys in order, so that none is repeated.
-/

namespace Provenance

namespace OrderedMap

variable {α β : Type} [DecidableEq α]

/-- The pairs with `key` bound to `value`: in its place if it has one, else at the end. -/
def put (key : α) (value : β) (m : List (α × β)) : List (α × β) :=
  if key ∈ m.map Prod.fst then adjust key (fun _ => value) m else m ++ [(key, value)]

@[simp] theorem find?_nil (key : α) : find? ([] : List (α × β)) key = none := rfl

theorem find?_cons (p : α × β) (m : List (α × β)) (key : α) :
    find? (p :: m) key = if p.1 = key then some p.2 else find? m key := by
  by_cases h : p.1 = key <;> simp [find?, h]

theorem mem_of_find? {m : List (α × β)} {key : α} {value : β} (h : find? m key = some value) :
    (key, value) ∈ m := by
  obtain ⟨p, hp, rfl⟩ := Option.map_eq_some_iff.1 h
  obtain rfl : p.1 = key := by simpa using List.find?_some hp
  exact List.mem_of_find?_eq_some hp

theorem find?_of_mem {m : List (α × β)} {key : α} {value : β}
    (hnodup : (m.map Prod.fst).Nodup) (h : (key, value) ∈ m) : find? m key = some value := by
  induction m with
  | nil => cases h
  | cons p m ih =>
    obtain ⟨hnew, hnodup⟩ := List.nodup_cons.1 hnodup
    rw [find?_cons]
    obtain rfl | h := List.mem_cons.1 h
    · simp
    · rw [if_neg, ih hnodup h]
      rintro rfl
      exact hnew (List.mem_map.2 ⟨_, h, rfl⟩)

theorem find?_eq_none_iff {m : List (α × β)} {key : α} :
    find? m key = none ↔ key ∉ m.map Prod.fst := by
  simp only [find?, Option.map_eq_none_iff, List.find?_eq_none, decide_eq_true_eq, List.mem_map,
    not_exists, not_and]

theorem map_fst_adjust (key : α) (f : β → β) (m : List (α × β)) :
    (adjust key f m).map Prod.fst = m.map Prod.fst := by
  simp only [adjust, List.map_map]
  refine List.map_congr_left fun p _ => ?_
  by_cases h : p.1 = key <;> simp [h]

theorem find?_adjust (key : α) (f : β → β) (m : List (α × β)) (k : α) :
    find? (adjust key f m) k = if k = key then (find? m k).map f else find? m k := by
  induction m with
  | nil => simp [adjust, find?]
  | cons p m ih =>
    rw [adjust, List.map_cons, ← adjust, find?_cons, find?_cons, ih]
    by_cases hp : p.1 = key
    · by_cases hk : k = key
      · simp [hp, hk]
      · simp [hp, hk, Ne.symm hk]
    · by_cases hk : k = key
      · simp [hp, hk]
      · simp [hp, hk]

theorem find?_put (key : α) (value : β) (m : List (α × β)) (k : α) :
    find? (put key value m) k = if k = key then some value else find? m k := by
  unfold put
  split
  · next h =>
    rw [find?_adjust]
    by_cases hk : k = key
    · subst hk
      obtain ⟨v, hv⟩ := Option.ne_none_iff_exists'.1 (fun hn => find?_eq_none_iff.1 hn h)
      simp [hv]
    · simp [hk]
  · next h =>
    have hn := find?_eq_none_iff.2 h
    by_cases hk : k = key
    · subst hk
      simp only [find?, List.find?_append, Option.map_or] at hn ⊢
      rw [hn]; simp
    · simp [find?, List.find?_append, hk, Ne.symm hk]

theorem nodup_put {key : α} {value : β} {m : List (α × β)} (h : (m.map Prod.fst).Nodup) :
    ((put key value m).map Prod.fst).Nodup := by
  unfold put
  split
  · rwa [map_fst_adjust]
  · next hn =>
    rw [List.map_append, List.nodup_append]
    exact ⟨h, by simp, fun a ha b hb => by
      obtain rfl : b = key := by simpa using hb
      rintro rfl
      exact hn ha⟩

section Sorted

variable {α β : Type} [LinearOrder α]

/-- The keys ascend. -/
def Sorted (m : OrderedMap α β) : Prop := (m.map Prod.fst).Pairwise (· < ·)

theorem mem_keys_insert {key k : α} {value : β} {m : OrderedMap α β} :
    k ∈ (insert key value m).map Prod.fst ↔ k = key ∨ k ∈ m.map Prod.fst := by
  rw [← not_iff_not, ← find?_eq_none_iff, find?_insert, not_or, ← find?_eq_none_iff]
  by_cases h : k = key <;> simp [h]

theorem Sorted.insert {m : OrderedMap α β} (h : m.Sorted) (key : α) (value : β) :
    (insert key value m).Sorted := by
  induction m with
  | nil => simp [OrderedMap.insert, Sorted]
  | cons p m ih =>
    obtain ⟨hp, hm⟩ := List.pairwise_cons.1 h
    simp only [OrderedMap.insert]
    split
    · next heq => subst heq; exact h
    · next hne =>
      split
      · next hlt =>
        refine List.pairwise_cons.2 ⟨fun k hk => ?_, h⟩
        obtain rfl | hk := List.mem_cons.1 hk
        · exact hlt
        · exact hlt.trans (hp k hk)
      · next hle =>
        refine List.pairwise_cons.2 ⟨fun k hk => ?_, ih hm⟩
        obtain rfl | hk := mem_keys_insert.1 hk
        · exact lt_of_le_of_ne (not_lt.1 hle) (Ne.symm hne)
        · exact hp k hk

theorem Sorted.nodup {m : OrderedMap α β} (h : m.Sorted) : (m.map Prod.fst).Nodup :=
  h.imp ne_of_lt

end Sorted

end OrderedMap

end Provenance

import Mathlib.Data.List.Infix
import Provenance.Proofs.Numerals
import Provenance.Store.Table
import Provenance.SymbolTable

/-!
# Names of relations

The store compares names without regard to the case of letters. Names in lower case are the same
name only if they are equal, and all names that the engine makes up itself are in lower case: those
of the base relations, of the symbol table, of scratch tables, and of the graphs and metadata to
which it gives numbers. The first letters keep these families apart.
-/

namespace Provenance

namespace Store

/-! ## The same name -/

theorem sameName_iff {a b : String} :
    sameName a b = true ↔ a.utf8ByteSize = b.utf8ByteSize ∧ a.toLower = b.toLower := by
  simp only [sameName, Bool.or_eq_true, Bool.and_eq_true, beq_iff_eq]
  constructor
  · rintro (rfl | h)
    · exact ⟨rfl, rfl⟩
    · exact h
  · exact Or.inr

@[simp] theorem sameName_self (a : String) : sameName a a = true := by simp [sameName]

theorem sameName_comm (a b : String) : sameName a b = sameName b a := by
  rw [Bool.eq_iff_iff, sameName_iff, sameName_iff]
  exact ⟨fun h => ⟨h.1.symm, h.2.symm⟩, fun h => ⟨h.1.symm, h.2.symm⟩⟩

theorem sameName_trans {a b c : String} (h : sameName a b = true) (g : sameName b c = true) :
    sameName a c = true := by
  rw [sameName_iff] at h g ⊢
  exact ⟨h.1.trans g.1, h.2.trans g.2⟩

/-- Names that are the same are the same as the same names. -/
theorem sameName_congr {a b : String} (h : sameName a b = true) (c : String) :
    sameName a c = sameName b c := by
  rw [Bool.eq_iff_iff]
  exact ⟨sameName_trans (by rw [sameName_comm]; exact h), sameName_trans h⟩

/-- The characters of a name without regard to case. -/
def folded (name : String) : List Char := name.toList.map Char.toLower

theorem toList_toLower (name : String) : name.toLower.toList = folded name := String.toList_map

theorem folded_eq_of_sameName {a b : String} (h : sameName a b = true) : folded a = folded b := by
  rw [← toList_toLower, (sameName_iff.1 h).2, toList_toLower]

/-- Names that differ at some place, without regard to case, are not the same. -/
theorem sameName_eq_false {a b : String} (i : Nat) (h : (folded a)[i]? ≠ (folded b)[i]?) :
    sameName a b = false := by
  by_contra hs
  rw [Bool.not_eq_false] at hs
  exact h (by rw [folded_eq_of_sameName hs])

@[simp] theorem folded_append (a b : String) : folded (a ++ b) = folded a ++ folded b := by
  simp [folded]

/-- A name without capital letters. -/
def IsLower (name : String) : Prop := folded name = name.toList

instance (name : String) : Decidable (IsLower name) := decEq _ _

theorem IsLower.append {a b : String} (ha : IsLower a) (hb : IsLower b) : IsLower (a ++ b) := by
  rw [IsLower, folded_append, ha, hb, String.toList_append]

theorem eq_of_sameName {a b : String} (ha : IsLower a) (hb : IsLower b)
    (h : sameName a b = true) : a = b := by
  rw [← String.toList_inj, ← ha, ← hb, folded_eq_of_sameName h]

theorem sameName_of_isLower {a b : String} (ha : IsLower a) (hb : IsLower b) :
    sameName a b = decide (a = b) := by
  by_cases h : a = b
  · subst h; simp
  · rw [decide_eq_false h, ← Bool.not_eq_true]
    exact fun hs => h (eq_of_sameName ha hb hs)

theorem sameName_eq_false_of_isLower {a b : String} (ha : IsLower a) (hb : IsLower b) (h : a ≠ b) :
    sameName a b = false := by
  rw [sameName_of_isLower ha hb, decide_eq_false h]

/-- A name that begins with another letter than `s` is not kept for the store. -/
theorem isReserved_eq_false {name : String} (h : (folded name).head? ≠ some 's') :
    Database.isReserved name = false := by
  rw [← Bool.not_eq_true, Database.isReserved, toList_toLower, List.isPrefixOf_iff_prefix]
  rintro ⟨rest, hrest⟩
  exact h (by rw [← hrest]; rfl)

end Store

/-! ## Names with numbers -/

namespace Text

open Store

theorem toLower_of_isDigit {c : Char} (h : c.isDigit = true) : c.toLower = c := by
  have hc : ¬ (c.val ≥ 'A'.val ∧ c.val ≤ 'Z'.val) := by
    simp only [Char.isDigit, Bool.and_eq_true, decide_eq_true_eq] at h
    rintro ⟨h₁, -⟩
    have := h.2
    grind
  exact dif_neg hc

theorem isLower_natural (n : Nat) : IsLower (natural n) := by
  rw [IsLower, folded, natural, String.toList_ofList]
  refine (List.map_congr_left fun c hc => ?_).trans (List.map_id _)
  exact toLower_of_isDigit (Nat.isDigit_of_mem_toDigits (by decide) (by decide) hc)

theorem isLower_decimal (n : Int) : IsLower (decimal n) := by
  cases n with
  | ofNat n => exact isLower_natural n
  | negSucc n => exact IsLower.append (by decide) (isLower_natural _)

end Text

/-! ## Tables of handles -/

open Store

namespace Graph

/-- A table belongs to one side of one name. -/
theorem table_injective {g h : Graph} {side side' : Side} (heq : g.table side = h.table side') :
    g = h ∧ side = side' := by
  have hlast := congrArg (fun s : String => s.toList.getLast?) heq
  have hside : side = side' := by
    cases side <;> cases side' <;> first | rfl | simp [table, Side.label] at hlast
  subst hside
  simp only [table, String.append_assoc] at heq
  cases g; cases h
  exact ⟨congrArg Graph.mk ((String.append_left_inj _).1 heq), rfl⟩

theorem isLower_table {g : Graph} (h : IsLower g.name) (side : Side) : IsLower (g.table side) :=
  (h.append (by decide)).append (by cases side <;> decide)

/-- The tables of a handle end in a word of their own. -/
theorem sameName_table {g : Graph} {side : Side} {name : String}
    (h : (folded side.label).getLast? ≠ (folded name).getLast?) : sameName (g.table side) name = false := by
  rw [← Bool.not_eq_true]
  intro hs
  have hlast := congrArg List.getLast? (folded_eq_of_sameName hs)
  rw [table, folded_append,
    List.getLast?_append_of_ne_nil _ (by cases side <;> decide)] at hlast
  exact h hlast

/-- No table of a handle is that of the bindings. -/
theorem sameName_table_relation (g : Graph) (side : Side) :
    sameName (g.table side) SymbolTable.relation = false := sameName_table (by cases side <;> decide)

end Graph

/-- A name made from a number. -/
def IsGenerated (name : String) : Prop :=
  ∃ n, name = graphPrefix ++ Text.decimal n ∨ name = metadataPrefix ++ Text.decimal n

namespace IsGenerated

variable {name : String}

theorem isLower (h : IsGenerated name) : IsLower name := by
  obtain ⟨n, rfl | rfl⟩ := h
  · exact IsLower.append (by decide) (Text.isLower_decimal n)
  · exact IsLower.append (by decide) (Text.isLower_decimal n)

/-- The beginnings by which a collection knows the names. -/
theorem begins (h : IsGenerated name) (rest : String) :
    (SymbolTable.beginsWith graphPrefix (name ++ rest)
      || SymbolTable.beginsWith metadataPrefix (name ++ rest)) = true := by
  obtain ⟨n, rfl | rfl⟩ := h
  · simp [SymbolTable.beginsWith, graphPrefix, List.isPrefixOf]
  · simp [SymbolTable.beginsWith, metadataPrefix, graphPrefix, List.isPrefixOf]

theorem not_scratch (h : IsGenerated name) (rest : String) :
    SymbolTable.beginsWith scratchPrefix (name ++ rest) = false := by
  obtain ⟨n, rfl | rfl⟩ := h
  · simp [SymbolTable.beginsWith, graphPrefix, scratchPrefix, List.isPrefixOf]
  · simp [SymbolTable.beginsWith, metadataPrefix, scratchPrefix, List.isPrefixOf]

theorem not_hidden (h : IsGenerated name) (rest : String) :
    Database.isHidden (name ++ rest) = false := by
  obtain ⟨n, rfl | rfl⟩ := h
  · simp [Database.isHidden, toList_toLower, folded, graphPrefix, List.isPrefixOf]
  · simp [Database.isHidden, toList_toLower, folded, metadataPrefix, List.isPrefixOf]

end IsGenerated

end Provenance

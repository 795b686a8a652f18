import Mathlib.Data.List.Nodup
import Provenance.Proofs.TypedTables

/-!
# Groups of rows

A grouped selection sorts the joined rows by some columns and cuts the sorted list where these change.
If they hold integers, or other values in the order of their cells, each combination of values has just
one group, with all its rows. The least cell of a group of integers is the least integer.
-/

namespace Provenance.Store

/-- A row of integers. -/
abbrev integers (ns : List Int) : Row := ns.map Cell.integer

theorem integers_injective : Function.Injective integers :=
  List.map_injective_iff.2 fun _ _ => Cell.integer.inj

theorem Cell.order_integer (n m : Int) : (Cell.integer n).order (.integer m) = compare n m := rfl

/-! ## Sorted lists that are cut -/

section Cut

variable {α β : Type} {l : List α} {r : α → α → Bool} {key : α → List β}

theorem mem_of_mem_splitBy {group : List α} (hgroup : group ∈ l.splitBy r) {a : α} (ha : a ∈ group) :
    a ∈ l := by
  rw [← List.flatten_splitBy r l]
  exact List.mem_flatten.2 ⟨group, hgroup, ha⟩

/-- Each group of a list that is cut where a key changes has one key. -/
theorem key_eq_of_mem_splitBy [DecidableEq β] (hr : ∀ a ∈ l, ∀ b ∈ l, r a b = decide (key a = key b)) {group : List α}
    (hgroup : group ∈ l.splitBy r) : ∀ a ∈ group, ∀ b ∈ group, key a = key b := by
  have hchain : group.IsChain fun a b => key a = key b :=
    (List.isChain_of_mem_splitBy hgroup).imp_of_mem_imp fun a b ha hb hab => by
      simpa [hr a (mem_of_mem_splitBy hgroup ha) b (mem_of_mem_splitBy hgroup hb)] using hab
  have : Trans (fun a b => key a = key b) (fun a b => key a = key b) (fun a b => key a = key b) :=
    ⟨Eq.trans⟩
  have : Std.Symm fun a b => key a = key b := ⟨fun _ _ => Eq.symm⟩
  exact (List.isChain_iff_pairwise.1 hchain).forall_of_forall fun _ _ => rfl

variable [Ord β] [Std.TransOrd β]

/-- All keys of the first group are less than those of the second. -/
def Before (key : α → List β) (g g' : List α) : Prop :=
  g' ≠ [] ∧ ∀ a ∈ g, ∀ b ∈ g', compare (key a) (key b) = .lt

theorem Before.trans {g₁ g₂ g₃ : List α} (h : Before key g₁ g₂) (h' : Before key g₂ g₃) :
    Before key g₁ g₃ := by
  obtain ⟨b, rest, rfl⟩ := List.exists_cons_of_ne_nil h.1
  exact ⟨h'.1, fun a ha c hc =>
    Std.TransCmp.lt_trans (h.2 a ha b List.mem_cons_self) (h'.2 b List.mem_cons_self c hc)⟩

variable [DecidableEq β] [Std.LawfulEqOrd β]

/-- The groups of a sorted list ascend: at each cut the key grows. -/
theorem splitBy_ascends (hr : ∀ a ∈ l, ∀ b ∈ l, r a b = decide (key a = key b))
    (hsorted : l.Pairwise fun a b => (compare (key a) (key b)).isLE) :
    (l.splitBy r).Pairwise (Before key) := by
  have : Trans (Before key) (Before key) (Before key) := ⟨Before.trans⟩
  rw [← List.isChain_iff_pairwise, List.isChain_iff_forall_rel_of_append_cons_cons]
  intro g g' before after heq
  have hg : g ∈ l.splitBy r := by rw [heq]; simp
  have hg' : g' ∈ l.splitBy r := by rw [heq]; simp
  obtain ⟨hne, hne', hcut⟩ := List.isChain_iff_forall_rel_of_append_cons_cons.1
    (List.isChain_getLast_head_splitBy r l) heq
  have hle : ∀ a ∈ g, ∀ b ∈ g', (compare (key a) (key b)).isLE := by
    rw [← List.flatten_splitBy r l, List.pairwise_flatten, heq, List.pairwise_append] at hsorted
    exact (List.pairwise_cons.1 hsorted.2.2.1).1 g' List.mem_cons_self
  refine ⟨hne', fun a ha b hb => ?_⟩
  have hlast := List.getLast_mem hne
  have hhead := List.head_mem hne'
  rw [hr _ (mem_of_mem_splitBy hg hlast) _ (mem_of_mem_splitBy hg' hhead), decide_eq_false_iff_not] at hcut
  rw [key_eq_of_mem_splitBy hr hg a ha _ hlast, key_eq_of_mem_splitBy hr hg' b hb _ hhead]
  have hcompare := hle _ hlast _ hhead
  cases hc : compare (key (g.getLast hne)) (key (g'.head hne')) with
  | lt => rfl
  | eq => exact absurd (Std.compare_eq_iff_eq.1 hc) hcut
  | gt => rw [hc] at hcompare; cases hcompare

omit [DecidableEq β] [Std.TransOrd β] in
theorem nodup_of_ascends {keys : List (List β)} (h : keys.Pairwise fun k k' => compare k k' = .lt) : keys.Nodup :=
  h.imp fun hlt heq => by
    rw [Std.compare_eq_iff_eq.2 heq] at hlt
    cases hlt

/-- Each key of a sorted list that is cut where the key changes has just one group, with all that have it. -/
theorem exists_keys_splitBy (hr : ∀ a ∈ l, ∀ b ∈ l, r a b = decide (key a = key b))
    (hsorted : l.Pairwise fun a b => (compare (key a) (key b)).isLE) :
    ∃ keys : List (List β), keys.Pairwise (fun k k' => compare k k' = .lt) ∧
      (∀ k, k ∈ keys ↔ ∃ a ∈ l, key a = k) ∧
      List.Forall₂ (fun k group => group ≠ [] ∧ ∀ a, a ∈ group ↔ a ∈ l ∧ key a = k) keys (l.splitBy r) := by
  have hne : ∀ group ∈ l.splitBy r, group ≠ [] := fun group hgroup => List.ne_nil_of_mem_splitBy hgroup
  have hlist : ∀ a, a ∈ l ↔ ∃ group ∈ l.splitBy r, a ∈ group := fun a => by
    rw [← List.mem_flatten, List.flatten_splitBy]
  let first (group : List α) : List β := (group.head?.map key).getD []
  have hfirst : ∀ group ∈ l.splitBy r, ∀ a ∈ group, key a = first group := by
    intro group hgroup a ha
    obtain ⟨head, rest, rfl⟩ := List.exists_cons_of_ne_nil (hne group hgroup)
    exact key_eq_of_mem_splitBy hr hgroup a ha head List.mem_cons_self
  -- The keys ascend from group to group, so no two groups have the same one.
  have hascend : ((l.splitBy r).map first).Pairwise fun k k' => compare k k' = .lt := by
    rw [List.pairwise_map]
    refine (splitBy_ascends hr hsorted).imp_of_mem fun {g g'} hg hg' hbefore => ?_
    obtain ⟨a, ha⟩ := List.exists_mem_of_ne_nil g (hne g hg)
    obtain ⟨b, hb⟩ := List.exists_mem_of_ne_nil g' (hne g' hg')
    rw [← hfirst g hg a ha, ← hfirst g' hg' b hb]
    exact hbefore.2 a ha b hb
  refine ⟨(l.splitBy r).map first, hascend, fun k => ?_, ?_⟩
  · rw [List.mem_map]
    constructor
    · rintro ⟨group, hgroup, rfl⟩
      obtain ⟨a, ha⟩ := List.exists_mem_of_ne_nil group (hne group hgroup)
      exact ⟨a, (hlist a).2 ⟨group, hgroup, ha⟩, hfirst group hgroup a ha⟩
    · rintro ⟨a, ha, rfl⟩
      obtain ⟨group, hgroup, ha⟩ := (hlist a).1 ha
      exact ⟨group, hgroup, (hfirst group hgroup a ha).symm⟩
  · rw [List.forall₂_map_left_iff, List.forall₂_same]
    refine fun group hgroup => ⟨hne group hgroup, fun a => ?_⟩
    constructor
    · intro ha
      exact ⟨(hlist a).2 ⟨group, hgroup, ha⟩, hfirst group hgroup a ha⟩
    · rintro ⟨ha, hk⟩
      obtain ⟨group', hgroup', ha⟩ := (hlist a).1 ha
      rw [hfirst group' hgroup' a ha] at hk
      rwa [List.inj_on_of_nodup_map (nodup_of_ascends hascend) hgroup hgroup' hk.symm]

end Cut

/-! ## Groups of values -/

section Values

variable {β : Type} [Ord β] {cell : β → Cell} (hcell : ∀ x y, (cell x).order (cell y) = compare x y)
include hcell

theorem orderRows_map (xs ys : List β) : Cell.orderRows (xs.map cell) (ys.map cell) = compare xs ys := by
  induction xs generalizing ys with
  | nil => cases ys <;> rfl
  | cons x xs ih =>
    cases ys with
    | nil => rfl
    | cons y ys =>
      rw [List.compare_cons_cons, ← ih, ← hcell]
      rfl

theorem injective_of_order [Std.LawfulEqOrd β] : Function.Injective cell := fun x y h => by
  rw [← Std.compare_eq_iff_eq, ← hcell, h, hcell, Std.compare_self]

namespace Selection

variable [Std.TransOrd β] {refs : List ColumnRef} {list : List Scope} {key : Scope → List β}

/-- Rows that are sorted by values. -/
theorem sortScopes_values (hkey : ∀ scope ∈ list, keyOf refs scope = (key scope).map cell) :
    (sortScopes refs list).Pairwise fun a b => (compare (key a) (key b)).isLE := by
  have hmap : (sortScopes refs list).map key
      = (list.map key).mergeSort fun ns ms => (compare ns ms).isLE :=
    List.map_mergeSort fun a ha b hb => by rw [hkey a ha, hkey b hb, orderRows_map hcell]
  rw [← List.pairwise_map (f := key) (R := fun ns ms => (compare ns ms).isLE), hmap]
  exact List.pairwise_mergeSort (fun _ _ _ => Std.TransCmp.isLE_trans)
    (fun a b => by
      cases h : compare a b with
      | gt => rw [Std.OrientedCmp.gt_iff_lt] at h; simp [h]
      | _ => simp) _

section Groups

variable [DecidableEq β] [Std.LawfulEqOrd β] (hrefs : refs ≠ [])
  (hkey : ∀ scope ∈ list, keyOf refs scope = (key scope).map cell)

omit hcell [Ord β] [Std.TransOrd β] [DecidableEq β] [Std.LawfulEqOrd β] in
theorem mem_sortScopes {scope : Scope} : scope ∈ sortScopes refs list ↔ scope ∈ list :=
  (List.mergeSort_perm _ _).mem_iff

omit hcell [Ord β] [Std.TransOrd β] [DecidableEq β] [Std.LawfulEqOrd β] in
include hrefs in
theorem groups_eq_splitBy : groups refs list = (sortScopes refs list).splitBy fun a b =>
    Cell.orderRows (keyOf refs a) (keyOf refs b) == .eq := by
  rw [groups, if_neg (by simpa using hrefs)]

include hkey

omit [Std.TransOrd β] in
/-- Sorted rows are cut where their values change. -/
theorem cut_sortScopes : ∀ a ∈ sortScopes refs list, ∀ b ∈ sortScopes refs list,
    (Cell.orderRows (keyOf refs a) (keyOf refs b) == .eq) = decide (key a = key b) := by
  intro a ha b hb
  rw [hkey a (mem_sortScopes.1 ha), hkey b (mem_sortScopes.1 hb), orderRows_map hcell, Bool.eq_iff_iff, beq_iff_eq,
    Std.compare_eq_iff_eq, decide_eq_true_iff]

include hrefs

/-- Each combination of values has one group, with all its rows. -/
theorem exists_keys_groups :
    ∃ keys : List (List β), keys.Pairwise (fun k k' => compare k k' = .lt) ∧
      (∀ k, k ∈ keys ↔ ∃ scope ∈ list, key scope = k) ∧
      List.Forall₂ (fun k group => group ≠ [] ∧ ∀ scope, scope ∈ group ↔ scope ∈ list ∧ key scope = k) keys
        (groups refs list) := by
  obtain ⟨keys, hascend, hkeys, hcut⟩ := exists_keys_splitBy (cut_sortScopes hcell hkey) (sortScopes_values hcell hkey)
  rw [groups_eq_splitBy hrefs]
  simp only [mem_sortScopes] at hkeys hcut
  exact ⟨keys, hascend, hkeys, hcut⟩

/-- Groups are in ascending order of the columns that they agree in. -/
theorem sortGroups_groups : sortGroups refs (groups refs list) = groups refs list := by
  rw [sortGroups, if_neg (by simpa using hrefs), groups_eq_splitBy hrefs]
  refine List.mergeSort_of_pairwise ((splitBy_ascends (cut_sortScopes hcell hkey)
    (sortScopes_values hcell hkey)).imp_of_mem fun {g g'} hg hg' hbefore => ?_)
  obtain ⟨a, rest, rfl⟩ := List.exists_cons_of_ne_nil (List.ne_nil_of_mem_splitBy hg)
  obtain ⟨b, rest', rfl⟩ := List.exists_cons_of_ne_nil (List.ne_nil_of_mem_splitBy hg')
  have ha := mem_sortScopes.1 (mem_of_mem_splitBy hg List.mem_cons_self)
  have hb := mem_sortScopes.1 (mem_of_mem_splitBy hg' List.mem_cons_self)
  rw [List.headD_cons, List.headD_cons, hkey a ha, hkey b hb, orderRows_map hcell,
    hbefore.2 a List.mem_cons_self b List.mem_cons_self]
  rfl

end Groups

end Selection

end Values

/-! ## The least of some integers -/

/-- The least cell of some integers is one of them, and at most each of them. -/
theorem Cell.least_integers {ns : List Int} (hne : ns ≠ []) :
    ∃ m ∈ ns, Cell.least (integers ns) = .integer m ∧ ∀ n ∈ ns, m ≤ n := by
  obtain ⟨n, ns, rfl⟩ := List.exists_cons_of_ne_nil hne
  have hfold : ∀ (ns : List Int) (m : Int), ∃ k ∈ m :: ns,
      (integers ns).foldl (fun m c => if c.isNull then m else if m.isNull || c.order m == .lt then c else m)
        (.integer m) = .integer k ∧ ∀ n ∈ m :: ns, k ≤ n := by
    intro ns
    induction ns with
    | nil => exact fun m => ⟨m, List.mem_cons_self, rfl, by simp⟩
    | cons n ns ih =>
      intro m
      have hstep : (if (Cell.integer n).isNull then Cell.integer m
          else if (Cell.integer m).isNull || (Cell.integer n).order (.integer m) == .lt then .integer n
          else .integer m) = .integer (if n < m then n else m) := by
        by_cases h : n < m
        · simp [Cell.isNull, Cell.order, Int.compare_eq_lt, h]
        · simp [Cell.isNull, Cell.order, Int.compare_eq_lt, h]
      obtain ⟨k, hk, heq, hle⟩ := ih (if n < m then n else m)
      refine ⟨k, ?_, by rw [← heq, ← hstep]; rfl, ?_⟩
      · obtain rfl | hk := List.mem_cons.1 hk
        · split <;> simp
        · simp [hk]
      · have := hle _ List.mem_cons_self
        have hboth : k ≤ m ∧ k ≤ n := by split at this <;> omega
        simp only [List.forall_mem_cons]
        exact ⟨hboth.1, hboth.2, fun x hx => hle x (List.mem_cons_of_mem _ hx)⟩
  obtain ⟨k, hk, heq, hle⟩ := hfold ns n
  exact ⟨k, hk, heq, hle⟩

end Provenance.Store

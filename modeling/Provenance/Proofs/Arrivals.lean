import Provenance.Proofs.NearestDestinations

/-!
# Arrivals

How often a forward sweep for shortest paths reaches a vertex. A round finds a vertex once for each vertex of
the frontier and each destination for which that is left for it. What is found is only held against what was
reached in rounds before, so that in the round in which a vertex is first reached, it is reached as often as
it is found.
-/

namespace Provenance.Traversal

variable {k : ℕ → Int → Int → Int → Prop} {start : Int → Prop} {S F R found : List Int} {u v : Int} {i j : ℕ}
  {keys : List (Int × Int)}

/-- A step towards some destination. -/
abbrev Steps (k : ℕ → Int → Int → Int → Prop) : ℕ → Int → Int → Prop := fun j u w => ∃ t, k j u t w

/-- What is reached in a round for the first time. -/
def Newly (r : ℕ → Int → Int → Prop) (start : Int → Prop) : ℕ → Int → Prop
  | 0, v => start v
  | j + 1, v => Within r start (j + 1) v ∧ ¬ Within r start j v

namespace Newly

variable {r : ℕ → Int → Int → Prop}

theorem within (h : Newly r start j v) : Within r start j v := by
  cases j with
  | zero => exact h
  | succ j => exact h.1

theorem le_of_within (h : Newly r start j v) (hv : Within r start i v) : j ≤ i := by
  cases j with
  | zero => exact Nat.zero_le i
  | succ j =>
    by_contra hlt
    exact h.2 (hv.mono (by omega))

theorem unique (h : Newly r start i v) (h' : Newly r start j v) : i = j :=
  le_antisymm (h.le_of_within h'.within) (h'.le_of_within h.within)

end Newly

/-- The vertices and destinations for which a vertex is found when it is first reached: each vertex was first reached
in the round before, and is left for it towards the destination. -/
def arrivals (k : ℕ → Int → Int → Int → Prop) (start : Int → Prop) (v : Int) : Set (Int × Int) :=
  {x | ∃ j, Newly (Steps k) start j x.1 ∧ Newly (Steps k) start (j + 1) v ∧ k j x.1 x.2 v}

theorem arrivals_eq (h : Newly (Steps k) start (j + 1) v) :
    arrivals k start v = {x | Newly (Steps k) start j x.1 ∧ k j x.1 x.2 v} := by
  ext x
  constructor
  · rintro ⟨i, hx, hv, hstep⟩
    obtain rfl := Nat.succ_injective (hv.unique h)
    exact ⟨hx, hstep⟩
  · rintro ⟨hx, hstep⟩
    exact ⟨j, hx, h, hstep⟩

/-- Items of which some have one property and others another one. -/
theorem countP_add_le {α : Type} {p q r : α → Bool} (hp : ∀ x, p x = true → r x = true ∧ q x = false)
    (hq : ∀ x, q x = true → r x = true) (l : List α) : l.countP p + l.countP q ≤ l.countP r := by
  induction l with
  | nil => exact le_rfl
  | cons x l ih =>
    simp only [List.countP_cons]
    grind

/-- The lists after a number of forward rounds, for some vertices and destinations that may be noted: the frontier is
what the last round reached first, and what has been reached is there as often as it arrived, or as it is a start.
Each vertex that was in the frontier has been left once for each destination. -/
structure ForwardCounted (k : ℕ → Int → Int → Int → Prop) (start : Int → Prop) (S : List Int)
    (keys : List (Int × Int)) (j : ℕ) (F R : List Int) : Prop
    extends ForwardNearest (Steps k) start keys.length j F R where
  newly : ∀ v, v ∈ F ↔ Newly (Steps k) start j v
  starts : ∀ v, start v → R.count v = S.count v
  counts : ∀ v ∈ R, ¬ start v → R.count v = (arrivals k start v).ncard
  total : R.length ≤ S.length + keys.countP fun x => x.1 ∈ R ∧ x.1 ∉ F

namespace ForwardCounted

theorem begin (hF : ∀ v, v ∈ F ↔ start v) (hcount : ∀ v ∈ F, F.count v = S.count v) (hlength : F.length ≤ S.length) :
    ForwardCounted k start S keys 0 F F where
  toForwardNearest := .begin hF
  newly := hF
  starts v hv := hcount v ((hF v).2 hv)
  counts v hv hnot := absurd ((hF v).1 hv) hnot
  total := hlength.trans (Nat.le_add_right _ _)

variable (h : ForwardCounted k start S keys j F R)
include h

theorem mem_of_start (hv : start v) : v ∈ R := (h.reached v).2 (Within.mono (n := 0) hv (Nat.zero_le j))

/-- One round. -/
theorem step (hk : ∀ i i' u w, i ≤ i' → Steps k i' u w → Steps k i u w)
    (hfound : ∀ w, w ∈ found ↔ ∃ u ∈ F, Steps k j u w)
    (hcounts : ∀ w, found.count w = {x : Int × Int | x.1 ∈ F ∧ k j x.1 x.2 w}.ncard)
    (hlength : found.length ≤ keys.countP (·.1 ∈ F)) :
    ForwardCounted k start S keys (j + 1) (found.filter (· ∉ R)) (R ++ found.filter (· ∉ R)) := by
  have hstep := h.toForwardNearest.step hk hfound (hlength.trans List.countP_le_length)
  have hnew : ∀ v, v ∈ found.filter (· ∉ R) ↔ Newly (Steps k) start (j + 1) v := fun v => by
    rw [Newly, ← hstep.reached, ← h.reached, List.mem_append, List.mem_filter, decide_eq_true_eq]
    tauto
  have hold : ∀ v ∈ R, v ∉ found.filter (· ∉ R) := fun v hv hmem => of_decide_eq_true (List.mem_filter.1 hmem).2 hv
  have hcount : ∀ v ∈ R, (R ++ found.filter (· ∉ R)).count v = R.count v := fun v hv => by
    rw [List.count_append, List.count_eq_zero_of_not_mem (hold v hv), Nat.add_zero]
  refine ⟨hstep, hnew, fun v hv => (hcount v (h.mem_of_start hv)).trans (h.starts v hv), fun v hv hnot => ?_, ?_⟩
  · by_cases hR : v ∈ R
    · exact (hcount v hR).trans (h.counts v hR hnot)
    · have hF := (List.mem_append.1 hv).resolve_left hR
      rw [List.count_append, List.count_eq_zero_of_not_mem hR, Nat.zero_add,
        List.count_filter (p := fun v => decide (v ∉ R)) (decide_eq_true hR), hcounts, arrivals_eq ((hnew v).1 hF)]
      simp only [h.newly]
  · -- What was in the frontier has been left, what is there now has not.
    have hleft : (keys.countP fun x => x.1 ∈ R ∧ x.1 ∉ F) + keys.countP (·.1 ∈ F)
        ≤ keys.countP fun x => x.1 ∈ R ++ found.filter (· ∉ R) ∧ x.1 ∉ found.filter (· ∉ R) := by
      refine countP_add_le (fun x hx => ?_) (fun x hx => ?_) keys
      · have hx := of_decide_eq_true hx
        exact ⟨decide_eq_true ⟨List.mem_append_left _ hx.1, hold _ hx.1⟩, decide_eq_false hx.2⟩
      · have hR := h.frontier (of_decide_eq_true hx)
        exact decide_eq_true ⟨List.mem_append_left _ hR, hold _ hR⟩
    have hnewLength := List.length_filter_le (fun v => decide (v ∉ R)) found
    have htotal := h.total
    rw [List.length_append]
    omega

/-- With an empty frontier, further rounds would change nothing. -/
theorem settled (hempty : F = []) (i : ℕ) : ForwardCounted k start S keys (j + i) F R := by
  refine ⟨h.toForwardNearest.settled hempty i, fun v => ?_, h.starts, h.counts, h.total⟩
  cases i with
  | zero => exact h.newly v
  | succ i =>
    rw [hempty]
    refine ⟨nofun, fun hv => absurd hv.within ?_⟩
    rw [← (h.toForwardNearest.settled hempty (i + 1)).reached v, (h.toForwardNearest.settled hempty i).reached v]
    exact hv.2

/-- There are no more arrivals than vertices and destinations. -/
theorem length_le : R.length ≤ S.length + keys.length :=
  h.total.trans (Nat.add_le_add_left List.countP_le_length _)

end ForwardCounted

end Provenance.Traversal

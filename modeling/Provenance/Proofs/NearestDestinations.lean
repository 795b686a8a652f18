import Mathlib.Data.Set.Finite.Lemmas
import Provenance.Proofs.BoundedPaths
import Provenance.Proofs.ReachingRounds

/-!
# Nearest destinations

The lists of the sweeps for shortest paths. The backward sweep notes a connection for each destination that
is nearest to where the connection leads. A vertex that it has reached for a near destination it does not
reach again for one that is further away. The forward sweep leaves a vertex, for each destination noted
there, by one connection of those to the nearest vertices.
-/

namespace Provenance.Traversal

variable {E : List Connection} {S D R new : List Int} {F found C : List (Int × Int)} {s t u v w : Int}
  {notes : List ReachingNote} {k m n : ℕ}

/-! ## The backward sweep -/

/-- One of the destinations that are nearest to a vertex, and the distance. -/
def Nearest (E : List Connection) (D : List Int) (v t : Int) (n : ℕ) : Prop :=
  t ∈ D ∧ distance E [v] [t] = n ∧ distance E [v] D = n

theorem exists_nearest_iff : (∃ t, Nearest E D v t n) ↔ distance E [v] D = n := by
  constructor
  · rintro ⟨t, -, -, hD⟩
    exact hD
  · intro hD
    obtain ⟨t, ht, hv⟩ := exists_nearest hD
    exact ⟨t, ht, hv, hD⟩

/-- What has a destination as a nearest one is, unless it is there, joined to what has so. -/
theorem nearest_succ :
    Nearest E D v t (n + 1) ↔ (∃ w, Joined E v w ∧ Nearest E D w t n) ∧ ¬ distance E [v] D ≤ n := by
  constructor
  · rintro ⟨ht, hv, hD⟩
    obtain ⟨⟨w, hj, hw⟩, -⟩ := distance_eq_succ_left.1 hv
    have hfar := (eq_succ_iff.1 hD).2
    exact ⟨⟨w, hj, ht, hw, distance_eq_of_joined hj hfar ((distance_le_of_mem ht).trans hw.le)⟩, hfar⟩
  · rintro ⟨⟨w, hj, ht, hw, hD⟩, hfar⟩
    exact ⟨ht, distance_eq_succ_left.2 ⟨⟨w, hj, hw⟩, fun hle => hfar ((distance_le_of_mem ht).trans hle)⟩,
      distance_eq_succ_left.2 ⟨⟨w, hj, hD⟩, hfar⟩⟩

/-- The notes are those of the connections to vertices at less than some distance from the destinations, for
each nearest one, with one more than the distance. -/
def NearestBelow (E : List Connection) (D : List Int) (k : ℕ) (notes : List ReachingNote) : Prop :=
  ∀ n, n ∈ notes ↔ Joined E n.src n.dst ∧ ∃ i : ℕ, Nearest E D n.dst n.reaching i ∧ n.depth = i + 1 ∧ i < k

/-- The lists after a number of backward rounds. -/
structure BackwardReaching (E : List Connection) (D : List Int) (k : ℕ) (F : List (Int × Int)) (R : List Int)
    (notes : List ReachingNote) : Prop where
  frontier : ∀ v t, (v, t) ∈ F ↔ Nearest E D v t k
  reached : ReachedWithin E D k R
  noted : NearestBelow E D k notes
  distinct : k ≠ 0 → F.Nodup

namespace BackwardReaching

theorem start (hR : ∀ v, v ∈ R ↔ v ∈ D) : BackwardReaching E D 0 (D.map fun t => (t, t)) R [] where
  frontier v t := by
    simp only [List.mem_map, Prod.mk.injEq, Nearest, distance_eq_zero, List.mem_singleton, exists_eq_left]
    constructor
    · rintro ⟨_, ht, rfl, rfl⟩
      exact ⟨ht, rfl, ht⟩
    · rintro ⟨ht, rfl, -⟩
      exact ⟨v, ht, rfl, rfl⟩
  reached := .start hR
  noted n := by simp
  distinct h := absurd rfl h

variable (h : BackwardReaching E D k F R notes)
include h

/-- One round. -/
theorem step (hC : ∀ u w, (u, w) ∈ C ↔ Joined E u w) (hfound : found.Nodup)
    (hmem : ∀ v t, (v, t) ∈ found ↔ v ∉ R ∧ (v, t) ∈ (into F C).map fun z => (z.2.1, z.1.2))
    (hnew : ∀ v, v ∈ new ↔ ∃ t, (v, t) ∈ found) :
    BackwardReaching E D (k + 1) found (R ++ new) (notes ++ (into F C).map (reachingNote (k + 1))) := by
  have hfrontier : ∀ v t, (v, t) ∈ found ↔ Nearest E D v t (k + 1) := fun v t => by
    rw [hmem, h.reached.not_mem, nearest_succ, and_comm, List.mem_map]
    refine and_congr_left fun _ => ⟨?_, ?_⟩
    · rintro ⟨⟨⟨w, t⟩, u, w'⟩, hz, heq⟩
      obtain ⟨⟨hw, hc⟩, rfl⟩ := mem_into.1 hz
      cases heq
      exact ⟨w, (hC u w).1 hc, (h.frontier w t).1 hw⟩
    · rintro ⟨w, hj, hw⟩
      exact ⟨((w, t), v, w), mem_into.2 ⟨⟨(h.frontier w t).2 hw, (hC v w).2 hj⟩, rfl⟩, rfl⟩
  refine ⟨hfrontier, h.reached.step fun v => ?_, fun n => ?_, fun _ => hfound⟩
  · rw [hnew, ← exists_nearest_iff]
    exact exists_congr fun t => hfrontier v t
  · rw [List.mem_append, h.noted, List.mem_map]
    constructor
    · rintro (⟨hj, i, hi, hdepth, hlt⟩ | ⟨⟨⟨w, t⟩, u, w'⟩, hz, rfl⟩)
      · exact ⟨hj, i, hi, hdepth, by omega⟩
      · obtain ⟨⟨hw, hc⟩, rfl⟩ := mem_into.1 hz
        exact ⟨(hC u w).1 hc, k, (h.frontier w t).1 hw, rfl, by omega⟩
    · rintro ⟨hj, i, hi, hdepth, hlt⟩
      obtain hlt | rfl := Nat.lt_or_eq_of_le (Nat.le_of_lt_succ hlt)
      · exact .inl ⟨hj, i, hi, hdepth, hlt⟩
      · refine .inr ⟨((n.dst, n.reaching), n.src, n.dst),
          mem_into.2 ⟨⟨(h.frontier _ _).2 hi, (hC _ _).2 hj⟩, rfl⟩, ?_⟩
        rw [reachingNote, ← hdepth]

/-- With an empty frontier, further rounds would change nothing. -/
theorem settled (hempty : F = []) (j : ℕ) : BackwardReaching E D (k + j) F R notes := by
  have hne : ∀ v, distance E [v] D ≠ k := fun v hv => by
    obtain ⟨t, hv⟩ := exists_nearest_iff.2 hv
    have := (h.frontier v t).2 hv
    rw [hempty] at this
    cases this
  refine ⟨fun v t => ?_, h.reached.settled hne j, fun n => ?_, fun _ => hempty ▸ List.nodup_nil⟩
  · rw [hempty]
    exact ⟨nofun, fun hv => absurd hv.2.2 (distance_ne_add hne j v)⟩
  · rw [h.noted]
    refine and_congr_right fun _ => exists_congr fun i => ?_
    exact ⟨fun ⟨hi, hdepth, hk⟩ => ⟨hi, hdepth, by omega⟩,
      fun ⟨hi, hdepth, _⟩ => ⟨hi, hdepth, lt_of_distance_ne hne hi.2.2⟩⟩

/-- A frontier after some rounds holds an edge's source and a destination at most once each. -/
theorem length_le (hk : k ≠ 0) : F.length ≤ E.length * D.length := by
  obtain ⟨k, rfl⟩ := Nat.exists_eq_succ_of_ne_zero hk
  have hsub : F ⊆ E.map Connection.src ×ˢ D := fun x hx => by
    have hx := (h.frontier x.1 x.2).1 hx
    obtain ⟨⟨w, ⟨e, he, hsrc, -⟩, -⟩, -⟩ := nearest_succ.1 hx
    exact List.mem_product.2 ⟨hsrc ▸ List.mem_map_of_mem he, hx.1⟩
  simpa [List.length_product] using ((h.distinct hk).subperm hsub).length_le

end BackwardReaching

/-! ## The forward sweep -/

/-- What is reached in a number of rounds, if each one has its steps. -/
def Within (r : ℕ → Int → Int → Prop) (start : Int → Prop) : ℕ → Int → Prop
  | 0, v => start v
  | n + 1, v => Within r start n v ∨ ∃ u, Within r start n u ∧ r n u v

section Within

variable {r : ℕ → Int → Int → Prop} {start : Int → Prop} {j bound : ℕ} {F found : List Int}

theorem Within.mono (h : Within r start n v) (hnm : n ≤ m) : Within r start m v := by
  induction hnm with
  | refl => exact h
  | step _ ih => exact .inl ih

/-- The lists after a number of forward rounds: what is reached, and a frontier outside of which later steps
would lead to nothing else. -/
structure ForwardNearest (r : ℕ → Int → Int → Prop) (start : Int → Prop) (bound j : ℕ) (F R : List Int) :
    Prop where
  reached : ∀ v, v ∈ R ↔ Within r start j v
  frontier : F ⊆ R
  left : ∀ u ∈ R, u ∈ F ∨ ∀ w i, j ≤ i → r i u w → w ∈ R
  short : j ≠ 0 → F.length ≤ bound

namespace ForwardNearest

theorem begin (hF : ∀ v, v ∈ F ↔ start v) : ForwardNearest r start bound 0 F F :=
  ⟨hF, List.Subset.refl F, fun _ hu => .inl hu, fun h => absurd rfl h⟩

variable (h : ForwardNearest r start bound j F R)
include h

/-- One round. -/
theorem step (hr : ∀ i i' u w, i ≤ i' → r i' u w → r i u w)
    (hfound : ∀ w, w ∈ found ↔ ∃ u ∈ F, r j u w) (hlength : found.length ≤ bound) :
    ForwardNearest r start bound (j + 1) (found.filter (· ∉ R)) (R ++ found.filter (· ∉ R)) := by
  have hmem : ∀ w, w ∈ R ++ found.filter (· ∉ R) ↔ w ∈ R ∨ w ∈ found := fun w => by
    rw [List.mem_append, List.mem_filter, decide_eq_true_eq]
    tauto
  refine ⟨fun v => ?_, List.subset_append_right _ _, fun u hu => ?_, fun _ =>
    (List.length_filter_le _ _).trans hlength⟩
  · rw [hmem, hfound, h.reached]
    refine or_congr_right' fun hv =>
      ⟨fun ⟨u, hu, hs⟩ => ⟨u, (h.reached u).1 (h.frontier hu), hs⟩, fun ⟨u, hu, hs⟩ => ?_⟩
    obtain hu | hu := h.left u ((h.reached u).2 hu)
    · exact ⟨u, hu, hs⟩
    · exact absurd ((h.reached v).1 (hu v j le_rfl hs)) hv
  · obtain hu | hu := List.mem_append.1 hu
    · refine .inr fun w i hi hs => (hmem w).2 ?_
      obtain hu | hu := h.left u hu
      · exact .inr ((hfound w).2 ⟨u, hu, hr j i u w (Nat.le_of_succ_le hi) hs⟩)
      · exact .inl (hu w i (Nat.le_of_succ_le hi) hs)
    · exact .inl hu

/-- With an empty frontier, further rounds would change nothing. -/
theorem settled (hempty : F = []) (i : ℕ) : ForwardNearest r start bound (j + i) F R := by
  subst hempty
  have hleft : ∀ u ∈ R, ∀ w i, j ≤ i → r i u w → w ∈ R := fun u hu =>
    (h.left u hu).resolve_left List.not_mem_nil
  refine ⟨fun v => ?_, h.frontier, fun u hu => .inr fun w i' hi' => hleft u hu w i' (by omega), fun _ => Nat.zero_le _⟩
  rw [h.reached]
  refine ⟨fun hv => hv.mono (Nat.le_add_right j i), fun hv => ?_⟩
  induction i generalizing v with
  | zero => exact hv
  | succ i ih =>
    obtain hv | ⟨u, hu, hs⟩ := hv
    · exact ih v hv
    · exact (h.reached v).1 (hleft u ((h.reached u).2 (ih u hu)) v (j + i) (Nat.le_add_right j i) hs)

end ForwardNearest

end Within

/-! ## Chosen connections -/

/-- The connection by which a vertex is left towards a destination: to the least of the vertices that are nearest to
that, among those for which it is a nearest one. -/
def Best (E : List Connection) (D : List Int) (t : Int) (n : ℕ) (u w : Int) : Prop :=
  Joined E u w ∧ Nearest E D w t n ∧ ∀ w' n', Joined E u w' → Nearest E D w' t n' → n ≤ n' ∧ (n' = n → w ≤ w')

theorem Best.eq {n' : ℕ} {w' : Int} (h : Best E D t n u w) (h' : Best E D t n' u w') : w = w' := by
  obtain ⟨hle, hleast⟩ := h.2.2 w' n' h'.1 h'.2.1
  obtain ⟨hle', hleast'⟩ := h'.2.2 w n h.1 h.2.1
  have heq := le_antisymm hle hle'
  exact le_antisymm (hleast heq.symm) (hleast' heq)

theorem exists_best (hj : Joined E u w) (hw : Nearest E D w t n) : ∃ x i, Best E D t i u x ∧ i ≤ n := by
  classical
  have hex : ∃ i w, Joined E u w ∧ Nearest E D w t i := ⟨n, w, hj, hw⟩
  have hfinite : {x | Joined E u x ∧ Nearest E D x t (Nat.find hex)}.Finite :=
    (E.map Connection.dst).finite_toSet.subset fun x ⟨⟨e, he, _, hdst⟩, _⟩ => hdst ▸ List.mem_map_of_mem he
  obtain ⟨x, ⟨hjx, hx⟩, hleast⟩ := Set.exists_min_image _ id hfinite (Nat.find_spec hex)
  refine ⟨x, Nat.find hex, ⟨hjx, hx, fun w' n' hj' hw' => ?_⟩, Nat.find_min' hex ⟨w, hj, hw⟩⟩
  refine ⟨Nat.find_min' hex ⟨w', hj', hw'⟩, fun heq => hleast w' ⟨hj', heq ▸ hw'⟩⟩

/-- A forward round leaves by the chosen notes. -/
def follows (notes : List ReachingNote) (m : ℕ) : ℕ → Int → Int → Prop := fun hop => Chosen notes m hop

/-- A forward round leaves a vertex towards a destination by the chosen note. -/
def departs (notes : List ReachingNote) (m : ℕ) : ℕ → Int → Int → Int → Prop := fun hop => Departs notes m hop

theorem follows_of_le {i j : ℕ} (h : follows notes m j u w) (hle : i ≤ j) : follows notes m i u w := by
  obtain ⟨t, n, hn, hsrc, hreaching, hdst, hfits, hleast⟩ := h
  exact ⟨t, n, hn, hsrc, hreaching, hdst, by omega, hleast⟩

theorem departs_iff (h : NearestBelow E D m notes) {j : ℕ} :
    departs notes m j u t w ↔ ∃ i, Best E D t i u w ∧ i + 1 + j ≤ m := by
  constructor
  · rintro ⟨n, hn, rfl, rfl, rfl, hfits, hleast⟩
    obtain ⟨hj, i, hi, hdepth, hlt⟩ := (h n).1 hn
    refine ⟨i, ⟨hj, hi, fun w' i' hj' hw' => ?_⟩, by omega⟩
    by_cases hi' : i' < m
    · obtain ⟨hle, hdst⟩ := hleast ⟨n.src, w', n.reaching, i' + 1⟩ ((h _).2 ⟨hj', i', hw', rfl, hi'⟩) ⟨rfl, rfl⟩
      simp only [hdepth] at hle hdst
      exact ⟨by omega, fun heq => hdst (by rw [heq])⟩
    · exact ⟨by omega, fun heq => absurd (heq ▸ hlt) hi'⟩
  · rintro ⟨i, ⟨hj, hi, hleast⟩, hfits⟩
    refine ⟨⟨u, w, t, i + 1⟩, (h _).2 ⟨hj, i, hi, rfl, by omega⟩, rfl, rfl, rfl, ?_, ?_⟩
    · show ((i : Int) + 1) + j ≤ m
      omega
    · rintro ⟨src, dst, reaching, depth⟩ hn' ⟨rfl, rfl⟩
      obtain ⟨hj', i', hi', hdepth, -⟩ := (h _).1 hn'
      obtain ⟨hle, hdst⟩ := hleast dst i' hj' hi'
      dsimp only at hdepth ⊢
      exact ⟨by omega, fun heq => hdst (by omega)⟩

theorem follows_iff (h : NearestBelow E D m notes) {j : ℕ} :
    follows notes m j u w ↔ ∃ t i, Best E D t i u w ∧ i + 1 + j ≤ m :=
  exists_congr fun _ => departs_iff h

/-- The sources that the backward sweep has reached. -/
def startsNear (E : List Connection) (S D : List Int) (m : ℕ) (v : Int) : Prop := v ∈ S ∧ distance E [v] D ≤ m

section Covered

variable (h : NearestBelow E D m notes) {j : ℕ}
include h

/-- What is reached lies on a walk that fits the bound. -/
theorem distance_le_of_within (hv : Within (follows notes m) (startsNear E S D m) j v) :
    distance E S [v] ≤ j ∧ distance E S [v] + distance E [v] D ≤ m := by
  induction j generalizing v with
  | zero =>
    have hzero : distance E S [v] = (0 : ℕ) := distance_eq_zero.2 ⟨v, hv.1, List.mem_singleton_self v⟩
    refine ⟨hzero.le, ?_⟩
    rw [hzero, Nat.cast_zero, zero_add]
    exact hv.2
  | succ j ih =>
    obtain hv | ⟨u, hu, hs⟩ := hv
    · exact ⟨(ih hv).1.trans (by exact_mod_cast Nat.le_succ j), (ih hv).2⟩
    · obtain ⟨t, i, ⟨hj, hi, -⟩, hfits⟩ := (follows_iff h).1 hs
      have hle := distance_le_succ_right.2 (.inr ⟨u, (ih hu).1, hj⟩)
      refine ⟨hle, ?_⟩
      rw [hi.2.2]
      exact (add_le_add_left hle _).trans (by exact_mod_cast (by omega : j + 1 + i ≤ m))

/-- What is reached is left towards a destination by one step of a shortest walk, if the rest fits the bound. -/
theorem exists_towards {start : Int → Prop} (hu : Within (follows notes m) start j u)
    (hdistance : distance E [u] [t] = (n + 1 : ℕ)) (hw : ∃ w, Joined E u w ∧ Nearest E D w t n)
    (hfits : j + (n + 1) ≤ m) :
    ∃ x, Joined E u x ∧ Nearest E D x t n ∧ Within (follows notes m) start (j + 1) x := by
  obtain ⟨w, hj, hw⟩ := hw
  obtain ⟨x, i, hbest, hle⟩ := exists_best hj hw
  have hn : n ≤ i := by
    have hle : distance E [u] [t] ≤ (i + 1 : ℕ) := distance_le_succ_left.2 (.inr ⟨x, hbest.1, hbest.2.1.2.1.le⟩)
    rw [hdistance] at hle
    exact Nat.le_of_succ_le_succ (by exact_mod_cast hle)
  obtain rfl := le_antisymm hle hn
  exact ⟨x, hbest.1, hbest.2.1, .inr ⟨u, hu, (follows_iff h).2 ⟨t, i, hbest, by omega⟩⟩⟩

/-- From what is reached, a shortest walk to a nearest destination is reached, if it fits the bound. -/
theorem exists_walk_within {start : Int → Prop} (hu : Within (follows notes m) start j u)
    (hnearest : Nearest E D u t n) (hfits : j + n ≤ m) :
    ∃ vs, Walk (Joined E) u vs t ∧ vs.length = n ∧ ∀ v ∈ u :: vs, Within (follows notes m) start m v := by
  induction n generalizing u j with
  | zero =>
    obtain ⟨v, hv, ht⟩ := distance_eq_zero.1 hnearest.2.1
    obtain rfl : v = u := List.mem_singleton.1 hv
    obtain rfl : v = t := List.mem_singleton.1 ht
    exact ⟨[], .nil v, rfl, List.forall_mem_singleton.2 (hu.mono (by omega))⟩
  | succ n ih =>
    obtain ⟨x, hj, hx, hwithin⟩ := exists_towards h hu hnearest.2.1 (nearest_succ.1 hnearest).1 hfits
    obtain ⟨vs, hwalk, hlength, hvs⟩ := ih hwithin hx (by omega)
    exact ⟨x :: vs, .cons hj hwalk, congrArg Nat.succ hlength, List.forall_mem_cons.2 ⟨hu.mono (by omega), hvs⟩⟩

end Covered

/-- What all sources have and every step hands on, all that is reached has. -/
theorem of_within {A : Int → Prop} {start : Int → Prop} {j : ℕ} (h : NearestBelow E D m notes)
    (hstart : ∀ v, start v → A v)
    (hstep : ∀ u w t i j, A u → Within (follows notes m) start j u → Best E D t i u w → i + 1 + j ≤ m → A w)
    (hv : Within (follows notes m) start j v) : A v := by
  induction j generalizing v with
  | zero => exact hstart v hv
  | succ j ih =>
    obtain hv | ⟨u, hu, hs⟩ := hv
    · exact ih hv
    · obtain ⟨t, i, hbest, hfits⟩ := (follows_iff h).1 hs
      exact hstep u v t i j (ih hu) hu hbest hfits

/-! ## One destination -/

/-- A vertex is left towards a destination. -/
def Onward (E : List Connection) (D : List Int) (t u w : Int) : Prop := ∃ n, Best E D t n u w

/-- A shortest way from a vertex back to it, or none if each is longer than a bound. -/
def Returns (E : List Connection) (t : Int) (bound : ℕ) (ws : List Int) : Prop :=
  (ws = [] ∧ ∀ cs ≠ [], Walk (Joined E) t cs t → bound < cs.length) ∨
    (ws ≠ [] ∧ Walk (Joined E) t ws t ∧ ws.length ≤ bound ∧ ∀ cs ≠ [], Walk (Joined E) t cs t → ws.length ≤ cs.length)

section Single

variable {j : ℕ} {vs ws : List Int} {start : Int → Prop}

theorem Onward.eq (h : Onward E D t u v) (h' : Onward E D t u w) : v = w := by
  obtain ⟨n, h⟩ := h
  obtain ⟨n', h'⟩ := h'
  exact h.eq h'

theorem Walk.of_onward (h : Walk (Onward E D t) u vs v) : Walk (Joined E) u vs v :=
  h.mono fun _ _ ⟨_, hbest⟩ => hbest.1

/-- From where a walk onwards has not arrived, it is left for what comes next on it. -/
theorem Walk.mem_of_best (h : Walk (Onward E D t) u vs t) (hv : v ∈ u :: vs) (hbest : Best E D t n v w) :
    v = t ∨ w ∈ vs :=
  (h.exists_step hv).imp_right fun ⟨_, hy, hon⟩ => Onward.eq ⟨n, hbest⟩ hon ▸ hy

/-- A walk onwards is followed as far as it fits the bound. -/
theorem within_of_onward (h : NearestBelow E D m notes) (hwalk : Walk (Onward E D t) u vs t)
    (hu : Within (follows notes m) start j u) (hfits : j + vs.length ≤ m) :
    ∀ v ∈ u :: vs, Within (follows notes m) start m v := by
  induction vs generalizing u j with
  | nil => exact List.forall_mem_singleton.2 (hu.mono (by omega))
  | cons x vs ih =>
    obtain _ | ⟨⟨i, hbest⟩, hrest⟩ := hwalk
    have hle : i ≤ vs.length := by
      have := hrest.of_onward.distance_le (List.mem_singleton_self x) (List.mem_singleton_self t)
      rw [hbest.2.1.2.1] at this
      exact_mod_cast this
    rw [List.length_cons] at hfits
    have hx : Within (follows notes m) start (j + 1) x := .inr ⟨u, hu, (follows_iff h).2 ⟨t, i, hbest, by omega⟩⟩
    exact List.forall_mem_cons.2 ⟨hu.mono (by omega), ih hrest hx (by omega)⟩

variable (hD : ∀ x, x ∈ D ↔ x = t)
include hD

theorem nearest_single : Nearest E D v w n ↔ w = t ∧ distance E [v] [t] = n := by
  have heq : distance E [v] D = distance E [v] [t] :=
    distance_congr (fun _ => Iff.rfl) fun x => (hD x).trans List.mem_singleton.symm
  rw [Nearest, heq, hD]
  exact and_congr_right fun hw => by rw [hw, and_self]

/-- From each vertex a shortest walk goes onwards. -/
theorem exists_walk_onward (hu : distance E [u] [t] = n) : ∃ vs, Walk (Onward E D t) u vs t ∧ vs.length = n := by
  induction n generalizing u with
  | zero =>
    obtain ⟨v, hv, ht⟩ := distance_eq_zero.1 hu
    obtain rfl : v = u := List.mem_singleton.1 hv
    obtain rfl : v = t := List.mem_singleton.1 ht
    exact ⟨[], .nil v, rfl⟩
  | succ n ih =>
    obtain ⟨⟨w, hj, hw⟩, hfar⟩ := distance_eq_succ_left.1 hu
    obtain ⟨x, i, hbest, hle⟩ := exists_best hj ((nearest_single hD).2 ⟨rfl, hw⟩)
    have hx : distance E [x] [t] ≤ n := hbest.2.1.2.1.le.trans (by exact_mod_cast hle)
    obtain ⟨vs, hwalk, hlength⟩ := ih (distance_eq_of_joined hbest.1 hfar hx)
    exact ⟨x :: vs, .cons ⟨i, hbest⟩ hwalk, congrArg Nat.succ hlength⟩

/-- A shortest way back goes onwards. -/
theorem exists_returns (bound : ℕ) : ∃ ws, Returns E t bound ws ∧ Walk (Onward E D t) t ws t := by
  -- The first step of a way back, and the distance from there.
  have hfirst : ∀ cs ≠ [], Walk (Joined E) t cs t → ∃ y i, Joined E t y ∧ Nearest E D y t i ∧ i + 1 ≤ cs.length := by
    rintro cs hne (_ | ⟨hj, hrest⟩)
    · exact absurd rfl hne
    · obtain ⟨i, hi, hle⟩ := ENat.le_natCast_iff.1
        (hrest.distance_le (List.mem_singleton_self _) (List.mem_singleton_self t))
      exact ⟨_, i, hj, (nearest_single hD).2 ⟨rfl, hi⟩, Nat.succ_le_succ hle⟩
  by_cases hback : ∃ cs ≠ [], Walk (Joined E) t cs t ∧ cs.length ≤ bound
  · obtain ⟨cs, hne, hwalk, hle⟩ := hback
    obtain ⟨y, i, hj, hy, hi⟩ := hfirst cs hne hwalk
    obtain ⟨x, a, hbest, ha⟩ := exists_best hj hy
    obtain ⟨vs, hvs, hlength⟩ := exists_walk_onward hD hbest.2.1.2.1
    have hws : Walk (Onward E D t) t (x :: vs) t := .cons ⟨a, hbest⟩ hvs
    refine ⟨x :: vs, .inr ⟨List.cons_ne_nil x vs, hws.of_onward, ?_, fun cs' hne' hwalk' => ?_⟩, hws⟩
    · rw [List.length_cons]
      omega
    · obtain ⟨y', i', hj', hy', hi'⟩ := hfirst cs' hne' hwalk'
      have := (hbest.2.2 y' i' hj' hy').1
      rw [List.length_cons]
      omega
  · refine ⟨[], .inl ⟨rfl, fun cs hne hwalk => ?_⟩, .nil t⟩
    by_contra hle
    exact hback ⟨cs, hne, hwalk, not_lt.1 hle⟩

/-- From the destination it goes on only if there is room for a way back, and then on that. -/
theorem mem_of_best_end (hback : Returns E t (m - k) ws) (hws : Walk (Onward E D t) t ws t) (hk : k ≤ j)
    (hbest : Best E D t n t w) (hfits : n + 1 + j ≤ m) : w ∈ ws := by
  obtain _ | ⟨hon, -⟩ := hws
  · obtain ⟨cs, hcs, hlength⟩ := exists_walk_onward hD hbest.2.1.2.1
    have hlong := (hback.resolve_right fun hne => hne.1 rfl).2 (w :: cs) (List.cons_ne_nil w cs)
      (.cons hbest.1 hcs.of_onward)
    rw [List.length_cons] at hlong
    omega
  · exact Onward.eq ⟨n, hbest⟩ hon ▸ List.mem_cons_self

/-- From one source to one destination, the reached vertices are those of a shortest walk, and of a shortest way back
to the destination if there is room for it. -/
theorem within_single (h : NearestBelow E D m notes) (hS : ∀ x, x ∈ S ↔ x = s) (hk : distance E [s] [t] = k)
    (hle : k ≤ m) :
    ∃ vs ws, Walk (Joined E) s vs t ∧ vs.length = k ∧ Returns E t (m - k) ws ∧
      ∀ v, Within (follows notes m) (startsNear E S D m) m v ↔ v ∈ s :: vs ++ ws := by
  obtain ⟨vs, hvs, hlength⟩ := exists_walk_onward hD hk
  obtain ⟨ws, hback, hws⟩ := exists_returns (E := E) hD (m - k)
  refine ⟨vs, ws, hvs.of_onward, hlength, hback, fun v => ⟨fun hv => ?_, ?_⟩⟩
  · refine of_within (A := (· ∈ s :: vs ++ ws)) h (fun v hv => ?_) (fun u w t' i j hu hwithin hbest hfits => ?_) hv
    · rw [(hS v).1 hv.1]
      exact List.mem_cons_self
    obtain rfl := ((nearest_single hD).1 hbest.2.1).1
    have hor : u = t' ∨ w ∈ s :: vs ++ ws := by
      obtain hu | hu := List.mem_append.1 hu
      · exact (hvs.mem_of_best hu hbest).imp_right fun hw => List.mem_cons_of_mem s (List.mem_append_left ws hw)
      · exact (hws.mem_of_best (List.mem_cons_of_mem t' hu) hbest).imp_right (List.mem_append_right _)
    obtain rfl | hw := hor
    · have hj : k ≤ j := by
        have hfrom := (distance_le_of_within h hwithin).1
        rw [distance_congr (fun x => (hS x).trans List.mem_singleton.symm) fun _ => Iff.rfl, hk] at hfrom
        exact_mod_cast hfrom
      exact List.mem_append_right _ (mem_of_best_end hD hback hws hj hbest hfits)
    · exact hw
  · have hroom : ws.length ≤ m - k := by
      obtain ⟨rfl, -⟩ | ⟨-, -, hroom, -⟩ := hback
      · exact Nat.zero_le _
      · exact hroom
    have hs : Within (follows notes m) (startsNear E S D m) 0 s :=
      ⟨(hS s).2 rfl, (distance_le_of_mem ((hD t).2 rfl)).trans (hk ▸ by exact_mod_cast hle)⟩
    exact within_of_onward h (hvs.append hws) hs (by rw [List.length_append]; omega) v

end Single

end Provenance.Traversal

import Mathlib.Data.ENat.Lattice

/-!
# Distances along connections

A connection is a recorded edge. A walk goes from vertex to vertex along connections, and the distance
between some vertices and others is the least number of connections on a walk from one of the former to
one of the latter. Distances are found vertex by vertex: they satisfy one equation for the first step of
a walk, and one for its last.
-/

namespace Provenance.Traversal

/-- A recorded edge, as a row of the relation of edges. -/
structure Connection where
  id : Int
  src : Int
  dst : Int
  deriving DecidableEq, Repr, Inhabited

variable {E : List Connection} {S T : List Int} {r : Int → Int → Prop} {s t u v w : Int} {vs ws : List Int} {n : ℕ}

/-- A connection leads from the first vertex to the second. -/
def Joined (E : List Connection) (u v : Int) : Prop := ∃ e ∈ E, e.src = u ∧ e.dst = v

instance (E : List Connection) (u v : Int) : Decidable (Joined E u v) :=
  inferInstanceAs (Decidable (∃ e ∈ E, e.src = u ∧ e.dst = v))

theorem exists_joined {p : Int → Prop} : (∃ w, Joined E u w ∧ p w) ↔ ∃ e ∈ E, e.src = u ∧ p e.dst := by
  constructor
  · rintro ⟨_, ⟨e, he, hsrc, rfl⟩, hp⟩
    exact ⟨e, he, hsrc, hp⟩
  · rintro ⟨e, he, hsrc, hp⟩
    exact ⟨e.dst, ⟨e, he, hsrc, rfl⟩, hp⟩

/-! ## Walks -/

/-- A walk between two vertices with steps of some kind, told by the vertices after the first one: as many
as it has steps. -/
inductive Walk (r : Int → Int → Prop) : Int → List Int → Int → Prop
  | nil (v : Int) : Walk r v [] v
  | cons {u v w : Int} {vs : List Int} (h : r u v) (hw : Walk r v vs w) : Walk r u (v :: vs) w

namespace Walk

theorem single (h : r u v) : Walk r u [v] v := .cons h (.nil v)

theorem mono {r' : Int → Int → Prop} (h : Walk r u vs v) (hr : ∀ x y, r x y → r' x y) : Walk r' u vs v := by
  induction h with
  | nil v => exact .nil v
  | cons hj _ ih => exact .cons (hr _ _ hj) ih

theorem append (h : Walk r u vs v) (h' : Walk r v ws w) : Walk r u (vs ++ ws) w := by
  induction h with
  | nil v => exact h'
  | cons hj _ ih => exact .cons hj (ih h')

/-- A walk that is not empty ends with a step. -/
theorem exists_last (h : Walk r u vs w) (hne : vs ≠ []) :
    ∃ v ws, vs = ws ++ [w] ∧ Walk r u ws v ∧ r v w := by
  induction h with
  | nil v => exact absurd rfl hne
  | @cons u x w xs hj hwalk ih =>
    cases xs with
    | nil => cases hwalk; exact ⟨u, [], rfl, .nil u, hj⟩
    | cons y ys =>
      obtain ⟨v, ws, heq, hws, hlast⟩ := ih (List.cons_ne_nil y ys)
      exact ⟨v, x :: ws, by rw [heq]; rfl, .cons hj hws, hlast⟩

/-- From each vertex of a walk but the last one it goes on. -/
theorem exists_step (h : Walk r u vs v) {x : Int} (hx : x ∈ u :: vs) : x = v ∨ ∃ y ∈ vs, r x y := by
  induction h with
  | nil v => exact .inl (List.mem_singleton.1 hx)
  | @cons u y _ _ hj _ ih =>
    obtain rfl | hx := List.mem_cons.1 hx
    · exact .inr ⟨y, List.mem_cons_self, hj⟩
    · exact (ih hx).imp_right fun ⟨z, hz, hr⟩ => ⟨z, List.mem_cons_of_mem y hz, hr⟩

end Walk

/-! ## Distances -/

/-- The least number of connections on a walk from one of some vertices to one of others. -/
noncomputable def distance (E : List Connection) (S T : List Int) : ℕ∞ :=
  ⨅ (s ∈ S) (t ∈ T) (vs : List Int) (_ : Walk (Joined E) s vs t), (vs.length : ℕ∞)

/-- A distance is at most a number if some walk is. -/
theorem distance_le_iff :
    distance E S T ≤ n ↔ ∃ s ∈ S, ∃ t ∈ T, ∃ vs, Walk (Joined E) s vs t ∧ vs.length ≤ n := by
  have hlt : distance E S T ≤ n ↔ distance E S T < (n + 1 : ℕ) := by
    rw [Nat.cast_add_one, ENat.lt_add_one_iff (ENat.natCast_ne_top n)]
  rw [hlt]
  simp only [distance, iInf_lt_iff, Nat.cast_lt, Nat.lt_succ_iff, exists_prop]

theorem Walk.distance_le (h : Walk (Joined E) s vs t) (hs : s ∈ S) (ht : t ∈ T) : distance E S T ≤ vs.length :=
  distance_le_iff.2 ⟨s, hs, t, ht, vs, h, le_rfl⟩

/-- A finite distance is that of a shortest walk. -/
theorem exists_walk (h : distance E S T = n) : ∃ s ∈ S, ∃ t ∈ T, ∃ vs, Walk (Joined E) s vs t ∧ vs.length = n := by
  obtain ⟨s, hs, t, ht, vs, hwalk, hlength⟩ := distance_le_iff.1 h.le
  refine ⟨s, hs, t, ht, vs, hwalk, le_antisymm hlength ?_⟩
  exact_mod_cast h ▸ hwalk.distance_le hs ht

/-- Only which vertices are meant matters. -/
theorem distance_congr {S' T' : List Int} (hS : ∀ s, s ∈ S ↔ s ∈ S') (hT : ∀ t, t ∈ T ↔ t ∈ T') :
    distance E S T = distance E S' T' := by
  simp only [distance, hS, hT]

theorem distance_le_zero : distance E S T ≤ (0 : ℕ) ↔ ∃ v ∈ S, v ∈ T := by
  rw [distance_le_iff]
  constructor
  · rintro ⟨s, hs, t, ht, vs, hwalk, hlength⟩
    cases List.eq_nil_of_length_eq_zero (Nat.le_zero.1 hlength)
    cases hwalk
    exact ⟨s, hs, ht⟩
  · rintro ⟨v, hs, ht⟩
    exact ⟨v, hs, v, ht, [], .nil v, le_rfl⟩

/-- The first step of a walk. -/
theorem distance_le_succ_left :
    distance E [u] T ≤ (n + 1 : ℕ) ↔ u ∈ T ∨ ∃ w, Joined E u w ∧ distance E [w] T ≤ n := by
  simp only [distance_le_iff, List.mem_singleton, exists_eq_left]
  constructor
  · rintro ⟨t, ht, vs, hwalk, hlength⟩
    cases hwalk with
    | nil => exact .inl ht
    | cons hj hrest => exact .inr ⟨_, hj, t, ht, _, hrest, Nat.le_of_succ_le_succ hlength⟩
  · rintro (hu | ⟨w, hj, t, ht, vs, hwalk, hlength⟩)
    · exact ⟨u, hu, [], .nil u, Nat.zero_le _⟩
    · exact ⟨t, ht, w :: vs, .cons hj hwalk, Nat.succ_le_succ hlength⟩

/-- The last step of a walk. -/
theorem distance_le_succ_right :
    distance E S [w] ≤ (n + 1 : ℕ) ↔ w ∈ S ∨ ∃ u, distance E S [u] ≤ n ∧ Joined E u w := by
  simp only [distance_le_iff, List.mem_singleton, exists_eq_left]
  constructor
  · rintro ⟨s, hs, vs, hwalk, hlength⟩
    by_cases hvs : vs = []
    · subst hvs
      cases hwalk
      exact .inl hs
    · obtain ⟨u, ws, rfl, hws, hj⟩ := hwalk.exists_last hvs
      rw [List.length_append, List.length_singleton] at hlength
      exact .inr ⟨u, ⟨s, hs, ws, hws, Nat.le_of_succ_le_succ hlength⟩, hj⟩
  · rintro (hw | ⟨u, ⟨s, hs, vs, hwalk, hlength⟩, hj⟩)
    · exact ⟨w, hw, [], .nil w, Nat.zero_le _⟩
    · exact ⟨s, hs, vs ++ [w], hwalk.append (.single hj), by simpa using hlength⟩

/-- A number that bounds a distance from above but not with one less is the distance. -/
theorem eq_succ_iff {d : ℕ∞} : d = (n + 1 : ℕ) ↔ d ≤ (n + 1 : ℕ) ∧ ¬ d ≤ n := by
  constructor
  · rintro rfl
    exact ⟨le_rfl, not_le.2 (by exact_mod_cast Nat.lt_succ_self n)⟩
  · rintro ⟨hle, hnot⟩
    refine le_antisymm hle ?_
    rw [not_le] at hnot
    exact_mod_cast Order.add_one_le_of_lt hnot

theorem distance_eq_zero : distance E S T = (0 : ℕ) ↔ ∃ v ∈ S, v ∈ T := by
  rw [← distance_le_zero, Nat.cast_zero, nonpos_iff_eq_zero]

/-- What a vertex that is further away is joined to is no nearer than that. -/
theorem distance_eq_of_joined (h : Joined E u w) (hu : ¬ distance E [u] T ≤ n) (hw : distance E [w] T ≤ n) :
    distance E [w] T = n := by
  cases n with
  | zero => exact distance_eq_zero.2 (distance_le_zero.1 hw)
  | succ n => exact eq_succ_iff.2 ⟨hw, fun hw => hu (distance_le_succ_left.2 (.inr ⟨w, h, hw⟩))⟩

/-- What lies one step further from some vertices is joined to what lies nearer. -/
theorem distance_eq_succ_left :
    distance E [u] T = (n + 1 : ℕ) ↔
      (∃ w, Joined E u w ∧ distance E [w] T = n) ∧ ¬ distance E [u] T ≤ n := by
  rw [eq_succ_iff]
  refine and_congr_left fun hnot => ⟨fun hle => ?_, fun ⟨w, hj, hw⟩ => ?_⟩
  · obtain hu | ⟨w, hj, hw⟩ := distance_le_succ_left.1 hle
    · exact absurd ((distance_le_zero.2 ⟨u, List.mem_singleton_self u, hu⟩).trans (by simp)) hnot
    · exact ⟨w, hj, distance_eq_of_joined hj hnot hw⟩
  · exact distance_le_succ_left.2 (.inr ⟨w, hj, hw.le⟩)

theorem distance_eq_succ_right :
    distance E S [w] = (n + 1 : ℕ) ↔
      (∃ u, distance E S [u] = n ∧ Joined E u w) ∧ ¬ distance E S [w] ≤ n := by
  rw [eq_succ_iff]
  refine and_congr_left fun hnot => ⟨fun hle => ?_, fun ⟨u, hu, hj⟩ => ?_⟩
  · obtain hw | ⟨u, hu, hj⟩ := distance_le_succ_right.1 hle
    · exact absurd ((distance_le_zero.2 ⟨w, hw, List.mem_singleton_self w⟩).trans (by simp)) hnot
    · refine ⟨u, ?_, hj⟩
      cases n with
      | zero => exact distance_eq_zero.2 (distance_le_zero.1 hu)
      | succ n => exact eq_succ_iff.2 ⟨hu, fun hu => hnot (distance_le_succ_right.2 (.inr ⟨u, hu, hj⟩))⟩
  · exact distance_le_succ_right.2 (.inr ⟨u, hu.le, hj⟩)

/-- If no vertex is at some distance, none is further away. -/
theorem distance_ne_add (h : ∀ v, distance E [v] T ≠ n) (j : ℕ) : ∀ v, distance E [v] T ≠ (n + j : ℕ) := by
  induction j with
  | zero => exact h
  | succ j ih =>
    intro v hv
    obtain ⟨⟨w, -, hw⟩, -⟩ := distance_eq_succ_left.1 hv
    exact ih w hw

/-- If no vertex is at some distance, all that are at any are nearer. -/
theorem lt_of_distance_ne {i : ℕ} (h : ∀ v, distance E [v] T ≠ n) (hv : distance E [v] T = i) : i < n := by
  by_contra hn
  refine distance_ne_add h (i - n) v ?_
  rwa [show n + (i - n) = i by omega]

/-- A vertex is at most one step further than a vertex to which it is joined. -/
theorem exists_distance_of_joined (h : Joined E u w) (hw : distance E [w] T = n) :
    ∃ a : ℕ, distance E [u] T = a ∧ a ≤ n + 1 := by
  obtain ⟨a, ha, hle⟩ := ENat.le_natCast_iff.1 (distance_le_succ_left.2 (.inr ⟨w, h, hw.le⟩))
  exact ⟨a, ha, hle⟩

/-! ## The other way round -/

def Connection.reversed (e : Connection) : Connection := ⟨e.id, e.dst, e.src⟩

theorem joined_reversed : Joined (E.map Connection.reversed) u v ↔ Joined E v u := by
  constructor
  · rintro ⟨e, he, rfl, rfl⟩
    obtain ⟨e', he', rfl⟩ := List.mem_map.1 he
    exact ⟨e', he', rfl, rfl⟩
  · rintro ⟨e, he, rfl, rfl⟩
    exact ⟨e.reversed, List.mem_map_of_mem he, rfl, rfl⟩

theorem Walk.reversed (h : Walk r u vs v) : ∃ ws, Walk (fun x y => r y x) v ws u ∧ ws.length = vs.length := by
  induction h with
  | nil v => exact ⟨[], .nil v, rfl⟩
  | @cons u _ _ _ hj _ ih =>
    obtain ⟨ws, hws, hlength⟩ := ih
    exact ⟨ws ++ [u], hws.append (.single hj), by simp [hlength]⟩

/-- Along the reversed connections the same walks lead back. -/
theorem distance_reversed (E : List Connection) (S T : List Int) :
    distance (E.map Connection.reversed) S T = distance E T S := by
  have hle : ∀ (E : List Connection) (S T : List Int), distance (E.map Connection.reversed) S T ≤ distance E T S :=
    fun E S T => le_iInf₂ fun t ht => le_iInf₂ fun s hs => le_iInf₂ fun vs hwalk => by
      obtain ⟨ws, hws, hlength⟩ := hwalk.reversed
      rw [← hlength]
      exact (hws.mono fun _ _ => joined_reversed.2).distance_le hs ht
  refine le_antisymm (hle E S T) ?_
  have hback := hle (E.map Connection.reversed) T S
  rwa [List.map_map, show Connection.reversed ∘ Connection.reversed = id from rfl, List.map_id] at hback

/-! ## Nearest vertices -/

/-- No vertex of some is nearer than their distance. -/
theorem distance_le_of_mem (ht : t ∈ T) : distance E S T ≤ distance E S [t] :=
  le_iInf₂ fun s hs => le_iInf₂ fun t' ht' => le_iInf₂ fun vs hwalk => by
    rw [List.mem_singleton.1 ht'] at hwalk
    exact hwalk.distance_le hs ht

/-- The distance to some vertices is that to one of them. -/
theorem exists_nearest (h : distance E S T = n) : ∃ t ∈ T, distance E S [t] = n := by
  obtain ⟨s, hs, t, ht, vs, hwalk, hlength⟩ := exists_walk h
  exact ⟨t, ht, le_antisymm (distance_le_iff.2 ⟨s, hs, t, List.mem_singleton_self t, vs, hwalk, hlength.le⟩)
    (h ▸ distance_le_of_mem ht)⟩

/-- From vertices on a way of bounded length to some others, these are within the bound. -/
theorem exists_distance_le (h : distance E S [v] + distance E [v] T ≤ n) : ∃ s ∈ S, distance E [s] T ≤ n := by
  obtain ⟨i, hi, -⟩ := ENat.le_natCast_iff.1 (le_self_add.trans h)
  obtain ⟨j, hj, -⟩ := ENat.le_natCast_iff.1 (le_add_self.trans h)
  obtain ⟨s, hs, v', hv', vs, hvs, hlength⟩ := exists_walk hi
  obtain ⟨v'', hv'', t, ht, ws, hws, hlength'⟩ := exists_walk hj
  obtain rfl := List.mem_singleton.1 hv'
  obtain rfl := List.mem_singleton.1 hv''
  refine ⟨s, hs, ((hvs.append hws).distance_le (List.mem_singleton_self s) ht).trans ?_⟩
  rw [List.length_append, hlength, hlength', Nat.cast_add, ← hi, ← hj]
  exact h

end Provenance.Traversal

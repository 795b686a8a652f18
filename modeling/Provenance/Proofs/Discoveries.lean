import Provenance.Proofs.Lineages
import Provenance.Proofs.ShortestPaths

/-!
# Discoveries

How often traversals write what they discover. A round of a lineage or of a traversal for all paths finds each
vertex once, so that none is written twice if no start is there twice, and the sizes of what is written are
numbers of vertices and of edges. A round of a traversal for shortest paths finds a vertex once for each
vertex and each destination for which it is stepped to, and it is written as often.
-/

namespace Provenance.Traversal

open Store Database IntegerTable Action

variable {E : List Connection} {S D vertices crossed : List Int} {u v t w : Int} {m n : ℕ}

/-! ## Lists without duplicates -/

theorem nodup_of_counts (hcounts : ∀ v ∈ vertices, vertices.count v = if v ∈ S then S.count v else 1) (hS : S.Nodup) :
    vertices.Nodup := by
  refine List.nodup_iff_count_le_one.2 fun v => ?_
  by_cases hv : v ∈ vertices
  · rw [hcounts v hv]
    split
    · exact List.nodup_iff_count_le_one.1 hS v
    · exact le_rfl
  · rw [List.count_eq_zero_of_not_mem hv]
    exact Nat.zero_le 1

theorem nodup_between (hE : (E.map Connection.id).Nodup) (vertices : List Int) : (between E vertices).Nodup :=
  hE.sublist (List.filter_sublist.map _)

theorem length_between_le (vertices : List Int) : (between E vertices).length ≤ E.length := by
  rw [between, List.length_map]
  exact List.length_filter_le _ _

/-- What is at some distance from vertices is one of them, or a connection leads to it. -/
theorem mem_append_of_distance_le (h : distance E S [v] ≤ (n : ℕ)) : v ∈ S ++ E.map Connection.dst := by
  obtain ⟨i, hi, -⟩ := ENat.le_natCast_iff.1 h
  rw [List.mem_append]
  cases i with
  | zero =>
    obtain ⟨s, hs, hv⟩ := distance_eq_zero.1 hi
    exact .inl (List.mem_singleton.1 hv ▸ hs)
  | succ i =>
    obtain ⟨⟨_, -, e, he, -, rfl⟩, -⟩ := distance_eq_succ_right.1 hi
    exact .inr (List.mem_map_of_mem he)

theorem length_le_of_distance_le (hnodup : vertices.Nodup) (h : ∀ v ∈ vertices, distance E S [v] ≤ (n : ℕ)) :
    vertices.length ≤ S.length + E.length := by
  simpa using (hnodup.subperm fun v hv => mem_append_of_distance_le (h v hv)).length_le

namespace IsLineage

variable {d : Direction} {starts : List Int} {depth : ℕ} (h : IsLineage d E starts depth vertices crossed)
include h

theorem nodup (hstarts : starts.Nodup) : vertices.Nodup := nodup_of_counts h.counts hstarts

theorem length_vertices_le (hstarts : starts.Nodup) : vertices.length ≤ starts.length + E.length := by
  have hnear : ∀ v ∈ vertices, distance ((E.map (back d)).map Connection.reversed) starts [v] ≤ depth := fun v hv => by
    rw [distance_reversed, distance_back]
    exact (h.mem_vertices v).1 hv
  simpa using length_le_of_distance_le (h.nodup hstarts) hnear

theorem length_crossed_le : crossed.length ≤ E.length := by
  have hsub : crossed ⊆ E.map Connection.id := fun i hi => by
    obtain ⟨e, he, rfl, -⟩ := (h.mem_crossed i).1 hi
    exact List.mem_map_of_mem he
  simpa using (h.once.subperm hsub).length_le

end IsLineage

/-! ## Sizes -/

/-- A graph has just these vertices and edges, and the sizes that are shown of it are their numbers. -/
structure Sized (db : Database) (g : Graph) (V W : List Int) : Prop extends HoldsGraph db g V W where
  shown : ((Instruction.stat g).execute Backend.memory).runFrom db = (.ok (some (.text
    s!"# vertices = {Text.decimal V.length}, # edges = {Text.decimal W.length}")), db)

/-- As the store counts rows with a word, a graph has fewer than `2 ^ 63` vertices and edges. -/
theorem HoldsGraph.sized {db : Database} {g : Graph} {V W : List Int} (h : HoldsGraph db g V W)
    (hV : V.length < 2 ^ 63) (hW : W.length < 2 ^ 63) : Sized db g V W where
  toHoldsGraph := h
  shown := by
    have hvertices := runFrom_count h.vertices (by rwa [List.length_map])
    have hedges := runFrom_count h.edges (by rwa [List.length_map])
    rw [List.length_map] at hvertices hedges
    rw [Instruction.execute, runFrom_map, Algebra.stat, runFrom_bind_ok hvertices, runFrom_bind_ok hedges]
    rfl

/-! ## Bounds below zero -/

section Bounds

variable {σ : Type} (b : Backend σ) (target subject source destination : Graph) (bound : Int)

theorem path_toNat : path b target subject source destination bound
    = path b target subject source destination bound.toNat := by
  obtain hbound | hbound := le_total 0 bound
  · rw [Int.toNat_of_nonneg hbound]
  · simp only [path, Int.toNat_of_nonpos hbound, Int.toNat_natCast, sweep]

theorem shortestPath_toNat : shortestPath b target subject source destination bound
    = shortestPath b target subject source destination bound.toNat := by
  obtain hbound | hbound := le_total 0 bound
  · rw [Int.toNat_of_nonneg hbound]
  · simp only [shortestPath, Int.toNat_of_nonpos hbound, Int.toNat_natCast, sweep]

theorem lineage_toNat (start : Graph) (d : Direction) :
    lineage b target subject start bound d = lineage b target subject start bound.toNat d := by
  simp only [lineage, expand, Int.toNat_natCast]

end Bounds

/-! ## Shortest paths -/

/-- In a round a vertex is left for another one towards a destination, and what is left of the way fits the bound. -/
def stepsNear (E : List Connection) (D : List Int) (m : ℕ) : ℕ → Int → Int → Int → Prop := fun j u t w =>
  ∃ i, Best E D t i u w ∧ i + 1 + j ≤ m

theorem departs_eq {notes : List ReachingNote} (h : NearestBelow E D m notes) : departs notes m = stepsNear E D m := by
  funext j u t w
  exact propext (departs_iff h)

/-- What does not arrive is not reached. -/
theorem ForwardCounted.count_eq {start : Int → Prop} {keys : List (Int × Int)} {F R : List Int}
    (h : ForwardCounted (stepsNear E D m) start S keys m F R) (hv : ¬ start v) :
    R.count v = (arrivals (stepsNear E D m) start v).ncard := by
  by_cases hR : v ∈ R
  · exact h.counts v hR hv
  · have hnone : arrivals (stepsNear E D m) start v = ∅ := by
      refine Set.eq_empty_iff_forall_notMem.2 fun x hx => ?_
      obtain ⟨j, -, hv, i, -, hfits⟩ := hx
      exact hR ((h.reached v).2 (hv.within.mono (by omega)))
    rw [List.count_eq_zero_of_not_mem hR, hnone, Set.ncard_empty]

/-! ## All traversals -/

section All

variable {base : Database} {target subject source destination : Graph} {edges : List Connection}
  {kept starts ends : List Int}

/-- The edges of any subject can be read in a lineage. -/
theorem exists_readable (h : Recorded base subject edges kept) : ∃ kept', Readable base subject edges kept' := by
  by_cases happart : subject.isBase = false → sameName crossedTable subject.edgeTable = false
  · exact ⟨kept, h.readable happart⟩
  · push Not at happart
    exact ⟨[], h.readable_of_same happart.1 (by simpa using happart.2)⟩

variable (h : Searches base target subject source destination edges kept starts ends)
  (hsize : starts.length + edges.length * (ends.length + 1) < 2 ^ 63) (bound : Int)
include h hsize

theorem lineage_once (htarget : sameName crossedTable target.edgeTable = false) (hstarts : starts.Nodup)
    {d : Direction} (hd : singleDirections d = [d]) :
    ∃ (vertices crossed : List Int) (db : Database),
      ((Instruction.lineage target subject source bound d).execute Backend.memory).runFrom base = (.ok none, db) ∧
      Sized db target vertices crossed ∧ vertices.Nodup ∧ crossed.Nodup := by
  rw [Nat.mul_succ] at hsize
  obtain ⟨kept', hreads⟩ := exists_readable h.toRecorded
  obtain ⟨vertices, crossed, db, hrun, hlineage, hwritten⟩ :=
    lineage_writes hreads h.starts h.target (by omega) htarget bound.toNat hd
  have hedges : (connectionsOf subject kept' edges).length ≤ edges.length := length_connectionsOf_le
  have hvertices := hlineage.length_vertices_le hstarts
  have hcrossed := hlineage.length_crossed_le
  refine ⟨vertices, crossed, db, ?_, HoldsGraph.sized ⟨hwritten.vertices, hwritten.edges⟩ (by omega) (by omega),
    hlineage.nodup hstarts, hlineage.once⟩
  rwa [Instruction.execute, lineage_toNat]

theorem path_once (hids : (edges.map Connection.id).Nodup) (hstarts : starts.Nodup) :
    ∃ (vertices : List Int) (db : Database),
      ((Instruction.path target subject source destination bound).execute Backend.memory).runFrom base
        = (.ok none, db) ∧
      Sized db target vertices (between (connectionsOf subject kept edges) vertices) ∧ vertices.Nodup ∧
      (between (connectionsOf subject kept edges) vertices).Nodup := by
  rw [Nat.mul_succ] at hsize
  obtain ⟨vertices, db, hrun, ⟨F, hforward⟩, hwritten⟩ := path_writes h (by omega) bound.toNat
  have hnodup := nodup_of_counts hforward.counts hstarts
  have hedges : (connectionsOf subject kept edges).length ≤ edges.length := length_connectionsOf_le
  have hvertices := length_le_of_distance_le hnodup fun v hv =>
    le_self_add.trans ((hforward.mem_iff rfl).1 hv)
  have hbetween := length_between_le (E := connectionsOf subject kept edges) vertices
  refine ⟨vertices, db, ?_, hwritten.graph.sized (by omega) (by omega), hnodup,
    nodup_between (hids.sublist (List.filter_sublist.map _)) vertices⟩
  rwa [Instruction.execute, path_toNat]

/-- A source that is near enough is written as often as it is one. Any other vertex is written once for each vertex
first reached in the round before that it is, and each destination for which that one is left for it. -/
theorem shortestPath_counts (hids : (edges.map Connection.id).Nodup) :
    ∃ (vertices : List Int) (db : Database),
      ((Instruction.shortestPath target subject source destination bound).execute Backend.memory).runFrom base
        = (.ok none, db) ∧
      Sized db target vertices (between (connectionsOf subject kept edges) vertices) ∧
      (between (connectionsOf subject kept edges) vertices).Nodup ∧
      ∀ v, (startsNear (connectionsOf subject kept edges) starts ends bound.toNat v →
          vertices.count v = starts.count v) ∧
        (¬ startsNear (connectionsOf subject kept edges) starts ends bound.toNat v →
          vertices.count v = (arrivals (stepsNear (connectionsOf subject kept edges) ends bound.toNat)
            (startsNear (connectionsOf subject kept edges) starts ends bound.toNat) v).ncard) := by
  rw [Nat.mul_succ] at hsize
  obtain ⟨vertices, db, hrun, ⟨notes, F, hnotes, hforward⟩, hwritten⟩ :=
    shortestPath_arrives h (by omega) bound.toNat
  rw [departs_eq hnotes] at hforward
  have hedges : (connectionsOf subject kept edges).length ≤ edges.length := length_connectionsOf_le
  have hvertices := hforward.length_le
  rw [List.length_product, List.length_map] at hvertices
  have hkeys := Nat.mul_le_mul_right ends.length hedges
  have hbetween := length_between_le (E := connectionsOf subject kept edges) vertices
  refine ⟨vertices, db, ?_, hwritten.graph.sized (by omega) (by omega),
    nodup_between (hids.sublist (List.filter_sublist.map _)) vertices, fun v => ⟨hforward.starts v, hforward.count_eq⟩⟩
  rwa [Instruction.execute, shortestPath_toNat]

/-- From starts without duplicates, lineages in a single direction and traversals for all paths write each vertex and
each edge once, for any bound, so that the sizes shown of the target are numbers of vertices and edges. So do
traversals for shortest paths write each edge. They write a source that is near enough once, and any other vertex once
for each vertex and each destination for which it arrives. -/
theorem discovered_once (hids : (edges.map Connection.id).Nodup) (hstarts : starts.Nodup)
    (htarget : sameName crossedTable target.edgeTable = false) :
    (∀ d, singleDirections d = [d] → ∃ (vertices crossed : List Int) (db : Database),
      ((Instruction.lineage target subject source bound d).execute Backend.memory).runFrom base = (.ok none, db) ∧
      Sized db target vertices crossed ∧ vertices.Nodup ∧ crossed.Nodup) ∧
    (∃ (vertices : List Int) (db : Database),
      ((Instruction.path target subject source destination bound).execute Backend.memory).runFrom base
        = (.ok none, db) ∧
      Sized db target vertices (between (connectionsOf subject kept edges) vertices) ∧ vertices.Nodup ∧
      (between (connectionsOf subject kept edges) vertices).Nodup) ∧
    ∃ (vertices : List Int) (db : Database),
      ((Instruction.shortestPath target subject source destination bound).execute Backend.memory).runFrom base
        = (.ok none, db) ∧
      Sized db target vertices (between (connectionsOf subject kept edges) vertices) ∧
      (between (connectionsOf subject kept edges) vertices).Nodup ∧
      ∀ v, (startsNear (connectionsOf subject kept edges) starts ends bound.toNat v → vertices.count v = 1) ∧
        (¬ startsNear (connectionsOf subject kept edges) starts ends bound.toNat v →
          vertices.count v = (arrivals (stepsNear (connectionsOf subject kept edges) ends bound.toNat)
            (startsNear (connectionsOf subject kept edges) starts ends bound.toNat) v).ncard) := by
  refine ⟨fun d hd => lineage_once h hsize bound htarget hstarts hd, path_once h hsize bound hids hstarts, ?_⟩
  obtain ⟨vertices, db, hrun, hsized, hnodup, hcounts⟩ := shortestPath_counts h hsize bound hids
  refine ⟨vertices, db, hrun, hsized, hnodup, fun v => ⟨fun hv => ?_, (hcounts v).2⟩⟩
  rw [(hcounts v).1 hv, List.count_eq_one_of_mem hstarts hv.1]

end All

/-- Two connections to one vertex. -/
def converging : Document where
  vertices := [⟨1, none, []⟩, ⟨2, none, []⟩, ⟨3, none, []⟩]
  edges := [⟨10, 1, 3, []⟩, ⟨11, 2, 3, []⟩]

def convergingEdges : List Connection := [⟨10, 1, 3⟩, ⟨11, 2, 3⟩]

theorem searches_converging : Searches (charted converging [1, 2] [3]) ⟨"trace_3"⟩ .base ⟨"trace_1"⟩ ⟨"trace_2"⟩
    convergingEdges [] [1, 2] [3] :=
  ⟨⟨by decide +kernel, fun h => absurd h (by decide)⟩, by decide +kernel, by decide +kernel, fun side => by
    cases side <;> decide +kernel⟩

theorem near_converging : startsNear convergingEdges [1, 2] [3] 1 1 ∧ startsNear convergingEdges [1, 2] [3] 1 2 := by
  simp only [startsNear, distance_le_succ_left, exists_joined, distance_le_zero]
  decide

theorem joined_converging (h : Joined convergingEdges u w) : (u = 1 ∨ u = 2) ∧ w = 3 := by
  obtain ⟨e, he, rfl, rfl⟩ := h
  revert e
  decide

theorem step_converging (h : Joined convergingEdges u 3) : stepsNear convergingEdges [3] 1 0 u 3 3 := by
  have hthere : distance convergingEdges [3] [3] = (0 : ℕ) := distance_eq_zero.2 ⟨3, by simp, by simp⟩
  refine ⟨0, ⟨h, ⟨by simp, hthere, hthere⟩, fun w n hw _ => ⟨Nat.zero_le n, fun _ => ?_⟩⟩, by decide⟩
  exact (joined_converging hw).2.ge

/-- Both sources are left for the destination. -/
theorem arrivals_converging :
    arrivals (stepsNear convergingEdges [3] 1) (startsNear convergingEdges [1, 2] [3] 1) v
      = if v = 3 then {(1, 3), (2, 3)} else ∅ := by
  ext ⟨u, t⟩
  constructor
  · rintro ⟨j, -, -, i, ⟨hj, hnearest, -⟩, -⟩
    obtain ⟨hu, rfl⟩ := joined_converging hj
    obtain rfl : t = 3 := List.mem_singleton.1 hnearest.1
    rw [if_pos rfl]
    exact hu.imp (congrArg (·, 3)) (congrArg (·, 3))
  · intro hx
    split at hx
    · next hv =>
      subst hv
      have hnot : ¬ startsNear convergingEdges [1, 2] [3] 1 3 := fun hnear => absurd hnear.1 (by decide)
      have harrives : ∀ u, Joined convergingEdges u 3 → startsNear convergingEdges [1, 2] [3] 1 u →
          (u, 3) ∈ arrivals (stepsNear convergingEdges [3] 1) (startsNear convergingEdges [1, 2] [3] 1) 3 :=
        fun u hu hnear => ⟨0, hnear, ⟨.inr ⟨u, hnear, 3, step_converging hu⟩, hnot⟩, step_converging hu⟩
      obtain heq | heq := hx
      · rw [heq]
        exact harrives 1 (by decide) near_converging.1
      · rw [heq]
        exact harrives 2 (by decide) near_converging.2
    · cases hx

theorem discovered_once_converging : ∃ (vertices : List Int) (db : Database),
    ((Instruction.shortestPath ⟨"trace_3"⟩ .base ⟨"trace_1"⟩ ⟨"trace_2"⟩ 1).execute Backend.memory).runFrom
        (charted converging [1, 2] [3]) = (.ok none, db) ∧
      Sized db ⟨"trace_3"⟩ vertices (between convergingEdges vertices) ∧ (between convergingEdges vertices).Nodup ∧
      vertices.count 1 = 1 ∧ vertices.count 3 = 2 := by
  obtain ⟨-, -, vertices, db, hrun, hsized, hnodup, hcounts⟩ :=
    discovered_once searches_converging (by decide) 1 (by decide) (by decide) (by decide +kernel)
  refine ⟨vertices, db, hrun, hsized, hnodup, (hcounts 1).1 near_converging.1, ?_⟩
  refine ((hcounts 3).2 fun hnear => absurd hnear.1 (by decide)).trans ?_
  rw [show connectionsOf .base [] convergingEdges = convergingEdges from rfl, show (1 : Int).toNat = 1 from rfl,
    arrivals_converging, if_pos rfl, Set.ncard_pair (by decide)]

/-- The destination is written twice, and shown as two vertices. -/
theorem shortestPath_not_once :
    (convergingEdges.map Connection.id).Nodup ∧ ([1, 2] : List Int).Nodup ∧ ([3] : List Int).Nodup ∧
      Searches (charted converging [1, 2] [3]) ⟨"trace_3"⟩ .base ⟨"trace_1"⟩ ⟨"trace_2"⟩ convergingEdges [] [1, 2] [3] ∧
      ∃ (vertices : List Int) (db : Database),
        ((Instruction.shortestPath ⟨"trace_3"⟩ .base ⟨"trace_1"⟩ ⟨"trace_2"⟩ 1).execute Backend.memory).runFrom
          (charted converging [1, 2] [3]) = (.ok none, db) ∧
        HoldsGraph db ⟨"trace_3"⟩ vertices [10, 11] ∧ vertices.Perm [1, 2, 3, 3] ∧ ¬ vertices.Nodup ∧
        ((Instruction.stat ⟨"trace_3"⟩).execute Backend.memory).runFrom db
          = (.ok (some (.text "# vertices = 4, # edges = 2")), db) := by
  obtain ⟨vertices, db, hrun, hsized, -, hcounts⟩ :=
    shortestPath_counts searches_converging (by decide) 1 (by decide)
  simp only [show connectionsOf .base [] convergingEdges = convergingEdges from rfl, show (1 : Int).toNat = 1 from rfl,
    arrivals_converging] at hsized hcounts
  have hperm : vertices.Perm [1, 2, 3, 3] := List.perm_iff_count.2 fun v => by
    by_cases hstart : v = 1 ∨ v = 2
    · obtain rfl | rfl := hstart
      · exact (hcounts 1).1 near_converging.1
      · exact (hcounts 2).1 near_converging.2
    · rw [(hcounts v).2 fun hnear => hstart (by simpa using hnear.1)]
      split
      · next hv => rw [hv, Set.ncard_pair (by decide), show [1, 2, 3, 3].count (3 : Int) = 2 by decide]
      · next hv =>
        rw [Set.ncard_empty, List.count_eq_zero_of_not_mem (by simp_all)]
  have hedges : between convergingEdges vertices = [10, 11] := by
    simp [between, convergingEdges, hperm.mem_iff]
  rw [hedges] at hsized
  refine ⟨by decide, by decide, by decide, searches_converging, vertices, db, hrun, hsized.toHoldsGraph, hperm,
    fun hnodup => absurd (hperm.nodup_iff.1 hnodup) (by decide), hsized.shown.trans ?_⟩
  rw [hperm.length_eq]
  have htext : s!"# vertices = {Text.decimal ([1, 2, 3, 3] : List Int).length}, # edges = {Text.decimal
      ([10, 11] : List Int).length}" = "# vertices = 4, # edges = 2" := by decide +kernel
  rw [htext]

end Provenance.Traversal

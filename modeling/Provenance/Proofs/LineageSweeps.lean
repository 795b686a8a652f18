import Provenance.Proofs.BoundedPaths
import Provenance.Traversal.Lineage

/-!
# Sweeps of a lineage

In the round of some number a lineage finds the vertices at just this distance from the starts, and
crosses the edges that are entered at the distance before. The sweeps in the two directions are alike:
each is a backward sweep along the connections that lead back to the starts.

The edges that are crossed are kept in one scratch table more than other traversals have. It is named like
the edges of a graph `m_answer`.
-/

namespace Provenance.Traversal

open Store Database IntegerTable Action

variable {d : Direction} {E : List Connection} {D starts F N R X found : List Int} {v : Int} {k depth : ℕ}

/-! ## Directions -/

/-- The end at which an edge is entered. -/
def entered : Direction → Connection → Int
  | .ancestor, e => e.dst
  | _, e => e.src

/-- The end at which an edge is left. -/
def left : Direction → Connection → Int
  | .ancestor, e => e.src
  | _, e => e.dst

/-- The least number of edges that are walked from one of some vertices to another vertex. -/
noncomputable def distanceFrom : Direction → List Connection → List Int → Int → ℕ∞
  | .ancestor, E, starts, v => distance E [v] starts
  | _, E, starts, v => distance E starts [v]

/-- The connection that leads back, from the end at which an edge is left to that at which it is entered. -/
def back (d : Direction) (e : Connection) : Connection := ⟨e.id, left d e, entered d e⟩

/-- What is walked in a direction is the way to the starts along the connections that lead back. -/
theorem distance_back (d : Direction) (E : List Connection) (starts : List Int) (v : Int) :
    distance (E.map (back d)) [v] starts = distanceFrom d E starts v := by
  cases d with
  | ancestor =>
    rw [show back .ancestor = id from rfl, List.map_id]
    rfl
  | descendant => exact distance_reversed E [v] starts
  | both => exact distance_reversed E [v] starts

theorem find?_entered (d : Direction) (e : Connection) (source : String) :
    Scope.find? [⟨source, Storage.edgeTable.columns, integers e.row⟩] (.plain (walkingEnds d).1)
      = some (.integer, .integer (entered d e)) := by
  cases d with
  | ancestor => exact find?_dst e source
  | descendant => exact find?_src e source
  | both => exact find?_src e source

theorem find?_left (d : Direction) (e : Connection) (source : String) :
    Scope.find? [⟨source, Storage.edgeTable.columns, integers e.row⟩] (.plain (walkingEnds d).2)
      = some (.integer, .integer (left d e)) := by
  cases d with
  | ancestor => exact find?_src e source
  | descendant => exact find?_dst e source
  | both => exact find?_dst e source

theorem mem_walkingEnds (d : Direction) :
    (walkingEnds d).1 ∈ ["id", "src", "dst"] ∧ (walkingEnds d).2 ∈ ["id", "src", "dst"] := by
  cases d <;> decide

/-- The vertices within some distance of the starts, a start as often as it is one and any other vertex once,
and the edges that are entered at less than this distance, each once. -/
structure IsLineage (d : Direction) (E : List Connection) (starts : List Int) (depth : ℕ)
    (vertices crossed : List Int) : Prop where
  mem_vertices : ∀ v, v ∈ vertices ↔ distanceFrom d E starts v ≤ depth
  counts : ∀ v ∈ vertices, vertices.count v = if v ∈ starts then starts.count v else 1
  mem_crossed : ∀ i, i ∈ crossed ↔ ∃ e ∈ E, e.id = i ∧ distanceFrom d E starts (entered d e) < depth
  once : crossed.Nodup

namespace IsLineage

variable {vertices crossed vertices' crossed' : List Int}

/-- A lineage is one up to the order. -/
theorem perm (h : IsLineage d E starts depth vertices crossed) (h' : IsLineage d E starts depth vertices' crossed') :
    vertices.Perm vertices' ∧ crossed.Perm crossed' := by
  constructor
  · refine List.perm_iff_count.2 fun v => ?_
    by_cases hv : v ∈ vertices
    · rw [h.counts v hv, h'.counts v ((h'.mem_vertices v).2 ((h.mem_vertices v).1 hv))]
    · have hv' : v ∉ vertices' := fun hv' => hv ((h.mem_vertices v).2 ((h'.mem_vertices v).1 hv'))
      rw [List.count_eq_zero_of_not_mem hv, List.count_eq_zero_of_not_mem hv']
  · exact (List.perm_ext_iff_of_nodup h.once h'.once).2 fun i => by rw [h.mem_crossed, h'.mem_crossed]

/-- Nothing is reached from no starts. -/
theorem vertices_eq_nil (h : IsLineage d E [] depth vertices crossed) : vertices = [] := by
  refine List.eq_nil_iff_forall_not_mem.2 fun v hv => ?_
  have hnear := (h.mem_vertices v).1 hv
  rw [← distance_back] at hnear
  obtain ⟨_, _, _, ht, _⟩ := distance_le_iff.1 hnear
  cases ht

/-- No edges are crossed if there are none. -/
theorem crossed_eq_nil (h : IsLineage d [] starts depth vertices crossed) : crossed = [] :=
  List.eq_nil_iff_forall_not_mem.2 fun i hi => by
    obtain ⟨e, he, -⟩ := (h.mem_crossed i).1 hi
    cases he

end IsLineage

/-! ## The sweep -/

/-- The lists after a number of rounds: frontier and reached vertices are those of a backward sweep from the
starts, a start is reached as often as it is one, and the edges into what was in the frontier before are
crossed. -/
structure Spread (E : List Connection) (D : List Int) (k : ℕ) (F R X : List Int) : Prop where
  backward : ∃ notes, Backward E D k F R notes
  counts : ∀ v ∈ R, R.count v = if v ∈ D then D.count v else 1
  crossed : ∀ i, i ∈ X ↔ ∃ e ∈ E, e.id = i ∧ distance E [e.dst] D < k

namespace Spread

theorem start : Spread E D 0 D D [] where
  backward := ⟨[], .start⟩
  counts v hv := (if_pos hv).symm
  crossed i := by simp

variable (h : Spread E D k F R X)
include h

/-- One round. -/
theorem step (hfound : found.Nodup) (hmem : ∀ u, u ∈ found ↔ ∃ e ∈ E, e.dst ∈ F ∧ e.src = u) :
    Spread E D (k + 1) (found.filter (· ∉ R)) (R ++ found.filter (· ∉ R))
      (X ++ (E.filter (·.dst ∈ F)).map Connection.id) := by
  obtain ⟨notes, hback⟩ := h.backward
  have hstarts : ∀ v ∈ D, v ∈ R := fun v hv =>
    (hback.reached v).2 ⟨0, Nat.zero_le k, distance_eq_zero.2 ⟨v, List.mem_singleton_self v, hv⟩⟩
  refine ⟨⟨_, hback.step hfound hmem⟩, count_append_new h.counts (hfound.filter _) fun v hv => ?_, fun i => ?_⟩
  · have hnew : v ∉ R := of_decide_eq_true (List.mem_filter.1 hv).2
    exact ⟨hnew, fun hv => hnew (hstarts v hv)⟩
  · have hlt : ∀ n : ℕ∞, n < (k + 1 : ℕ) ↔ n < k ∨ n = k := fun n => by
      rw [Nat.cast_add_one, ENat.lt_add_one_iff (ENat.natCast_ne_top k), le_iff_lt_or_eq]
    simp only [List.mem_append, h.crossed, List.mem_map, List.mem_filter, decide_eq_true_eq, hback.frontier, hlt,
      and_or_left, exists_or, and_left_comm, and_comm]

/-- With an empty frontier, further rounds would change nothing. -/
theorem settled (hempty : F = []) (j : ℕ) : Spread E D (k + j) F R X := by
  obtain ⟨notes, hback⟩ := h.backward
  have hne : ∀ v, distance E [v] D ≠ k := fun v hv => by
    have := (hback.frontier v).2 hv
    rw [hempty] at this
    cases this
  refine ⟨⟨notes, hback.settled hempty j⟩, h.counts, fun i => ?_⟩
  rw [h.crossed]
  refine exists_congr fun e => and_congr_right fun _ => and_congr_right fun _ => ⟨fun hlt => ?_, fun hlt => ?_⟩
  · exact hlt.trans_le (by exact_mod_cast Nat.le_add_right k j)
  · obtain ⟨i, hi, -⟩ := ENat.le_natCast_iff.1 hlt.le
    rw [hi]
    exact_mod_cast lt_of_distance_ne hne hi

theorem length_le (hk : k ≠ 0) : F.length ≤ E.length := by
  obtain ⟨notes, hback⟩ := h.backward
  exact hback.length_le hk

end Spread

/-- No edges are crossed if there are none. -/
theorem Spread.crossed_eq_nil (h : Spread (E.map (back d)) D k F R X) (hE : E = []) : X = [] :=
  List.eq_nil_iff_forall_not_mem.2 fun i hi => by
    obtain ⟨e, he, -⟩ := (h.crossed i).1 hi
    rw [hE] at he
    cases he

/-- What has been reached and crossed along the connections that lead back, is a lineage. -/
theorem Spread.isLineage (h : Spread (E.map (back d)) starts depth F R X) {crossed : List Int} (hnodup : crossed.Nodup)
    (hmem : ∀ i, i ∈ crossed ↔ i ∈ X) : IsLineage d E starts depth R crossed where
  mem_vertices v := by
    obtain ⟨notes, hback⟩ := h.backward
    rw [hback.reached, ← distance_back, ENat.le_natCast_iff]
    exact exists_congr fun i => and_comm
  counts := h.counts
  mem_crossed i := by
    rw [hmem, h.crossed]
    constructor
    · rintro ⟨_, he, rfl, hlt⟩
      obtain ⟨e, hmem', rfl⟩ := List.mem_map.1 he
      exact ⟨e, hmem', rfl, distance_back d E starts _ ▸ hlt⟩
    · rintro ⟨e, he, rfl, hlt⟩
      exact ⟨back d e, List.mem_map_of_mem he, rfl, (distance_back d E starts _).symm ▸ hlt⟩
  once := hnodup

/-! ## The scratch tables -/

/-- The scratch table of the edges that are crossed. -/
abbrev crossedTable : String := scratchPrefix ++ "answer_edge"

/-- The names of the scratch tables of a lineage. -/
def lineageNames : List String := crossedTable :: sweepNames

theorem sameName_sweepNames_crossedTable : ∀ n ∈ sweepNames, sameName n crossedTable = false := by decide +kernel

/-- The tables of a graph are no scratch tables of a lineage, unless its edges are taken for those that are
crossed. -/
theorem sameName_lineageNames_table {g : Graph} {side : Side} (h : sameName crossedTable (g.table side) = false) :
    ∀ n ∈ lineageNames, sameName n (g.table side) = false :=
  List.forall_mem_cons.2 ⟨h, sameName_sweepNames_table g side⟩

theorem sameName_crossedTable_vertexTable (g : Graph) : sameName crossedTable g.vertexTable = false := by
  rw [sameName_comm]
  exact sameName_vertexTable_edgeTable g ⟨scratchPrefix ++ "answer"⟩

theorem sameName_lineageNames_edge : ∀ n ∈ lineageNames, sameName n Algebra.edgeTable = false :=
  List.forall_mem_cons.2 ⟨by decide +kernel, sameName_sweepNames_edge⟩

/-- Beside the tables of a sweep there are the edges that have been crossed; all else is as another database
has it. -/
structure Spreads (base : Database) (F N R X : List Int) (db : Database) : Prop where
  stands : Stands db F N R [] db
  crossed : db.HoldsIntegers crossedTable graphColumns (X.map one)
  others : ∀ name, (∀ n ∈ lineageNames, sameName n name = false) → db.table? name = base.table? name

section Tables

variable {base db db' : Database} {subject start : Graph} {edges : List Connection} {kept N F' N' R' : List Int}

/-- The tables of a sweep are as they were if only the edges that are crossed have changed. -/
theorem over_of_keeps {tables : List IntegerTable} (h : Over base tables db) (hkeeps : db.Keeps db' crossedTable) :
    Over db' tables db' := by
  refine ⟨fun t ht => (h.holds t ht).congr (hkeeps t.name ?_), h.named, h.distinct, fun _ _ => rfl⟩
  rw [sameName_comm]
  exact sameName_sweepNames_crossedTable t.name (h.named t ht)

namespace Spreads

/-- What happens to the tables of the sweep leaves all else. -/
theorem of_stands (h : Spreads base F N R X db) (hdb : Stands db F' N' R' [] db') :
    Spreads base F' N' R' X db' where
  stands := ⟨hdb.holds, hdb.named, hdb.distinct, fun _ _ => rfl⟩
  crossed := Over.reads hdb sameName_sweepNames_crossedTable h.crossed
  others name hname := by
    rw [Over.others hdb name (List.forall_mem_cons.1 hname).2, h.others name hname]

/-- More edges are crossed. -/
theorem cross (h : Spreads base F N R X db) {ids : List Int} {q : Selection}
    (hq : q.rows db = .ok ((ids.map one).map integers)) :
    ∃ db', db.apply (.insertFrom crossedTable q) = .ok (db', none) ∧ Spreads base F N R (X ++ ids) db' := by
  obtain ⟨db', happly, hrows, hkeeps⟩ := h.crossed.insertFrom (areIntegers_map _) (isOpen_map _) hq fun row hrow => by
    obtain ⟨n, -, rfl⟩ := List.mem_map.1 hrow
    rfl
  refine ⟨db', happly, over_of_keeps h.stands hkeeps, by rwa [List.map_append], fun name hname => ?_⟩
  rw [hkeeps name (hname _ List.mem_cons_self), h.others name hname]

end Spreads

/-- The edges of a subject can be read in all rounds, as far as edges are crossed only if there are some. -/
def Readable (base : Database) (subject : Graph) (edges : List Connection) (kept : List Int) : Prop :=
  ∀ {F N R X : List Int} {db : Database}, (connectionsOf subject kept edges = [] → X = []) →
    Spreads base F N R X db → Recorded db subject edges kept

theorem Recorded.readable (h : Recorded base subject edges kept)
    (hsubject : subject.isBase = false → sameName crossedTable subject.edgeTable = false) :
    Readable base subject edges kept := fun _ hdb =>
  ⟨h.edges.congr (hdb.others _ sameName_lineageNames_edge),
    fun hnot => (h.kept hnot).congr (hdb.others _ (sameName_lineageNames_table (hsubject hnot)))⟩

/-- A subject whose edges are taken for the scratch table has none, and none are crossed. -/
theorem Recorded.readable_of_same (h : Recorded base subject edges kept) (hnot : subject.isBase = false)
    (hsame : sameName crossedTable subject.edgeTable = true) : Readable base subject edges [] := fun hX hdb =>
  ⟨h.edges.congr (hdb.others _ sameName_lineageNames_edge), fun _ => by
    have hcrossed := hdb.crossed
    rw [hX (by simp [connectionsOf, hnot])] at hcrossed
    exact (hasIds_one hcrossed).of_sameName hsame⟩

theorem leads_of_stands {ss : List Statement} (h : ∀ base, Leads (Stands base F N R []) ss (Stands base F' N' R' [])) :
    Leads (Spreads base F N R X) ss (Spreads base F' N' R' X) := by
  intro closed db hdb
  obtain ⟨db', hrun, hdb'⟩ := h db closed db hdb.stands
  exact ⟨db', hrun, hdb.of_stands hdb'⟩

/-! ## One direction -/

/-- The statements of one round. -/
def crossRound (d : Direction) (subject : Graph) : List Statement :=
  [.clear sweepTables.next,
   .insertFrom sweepTables.next (sweepTables.neighbours (walkingEnds d).1 (walkingEnds d).2 (onEdgesOf subject)),
   .insertFrom crossedTable (.idsWhere Algebra.edgeTable
     (.within (.plain (walkingEnds d).1) sweepTables.frontier :: onEdgesOf subject))] ++ sweepTables.advance

/-- A round crosses the edges that are entered from the frontier, and finds where they lead to. -/
theorem leads_crossRound
    (hrecorded : ∀ {F N R : List Int} {db : Database}, Spreads base F N R X db → Recorded db subject edges kept)
    (hE : E = (connectionsOf subject kept edges).map (back d)) :
    Leads (Spreads base F N R X) (crossRound d subject) fun db => ∃ found : List Int,
      (found.Nodup ∧ ∀ u, u ∈ found ↔ ∃ e ∈ E, e.dst ∈ F ∧ e.src = u) ∧
      Spreads base (found.filter (· ∉ R)) found (R ++ found.filter (· ∉ R))
        (X ++ (E.filter (·.dst ∈ F)).map Connection.id) db := by
  have hclear : ∀ db, Spreads base F N R X db →
      ∃ db', db.apply (.clear sweepTables.next) = .ok (db', none) ∧ Spreads base F [] R X db' := fun db hdb => by
    obtain ⟨db', happly, hdb'⟩ := Over.clear [_] hdb.stands
    exact ⟨db', happly, hdb.of_stands hdb'⟩
  have hfound : Leads (Spreads base F [] R X) [.insertFrom sweepTables.next
        (sweepTables.neighbours (walkingEnds d).1 (walkingEnds d).2 (onEdgesOf subject))] fun db =>
      ∃ found : List Int, (found.Nodup ∧ ∀ u, u ∈ found ↔ ∃ e ∈ E, e.dst ∈ F ∧ e.src = u) ∧
        Spreads base F found R X db := fun closed db hdb => by
    obtain ⟨db', hrun, found, ⟨hnodup, hmem⟩, hdb'⟩ := leads_neighbours (hrecorded hdb) (mem_walkingEnds d).1
      (find?_entered d · _) (mem_walkingEnds d).2 (find?_left d · _) closed db hdb.stands
    refine ⟨db', hrun, found, ⟨hnodup, fun u => ?_⟩, hdb.of_stands hdb'⟩
    rw [hmem, hE]
    simp [back]
  have hcrossed : ∀ (found : List Int) (db : Database), Spreads base F found R X db →
      ∃ db', db.apply (.insertFrom crossedTable (.idsWhere Algebra.edgeTable
          (.within (.plain (walkingEnds d).1) sweepTables.frontier :: onEdgesOf subject))) = .ok (db', none) ∧
        Spreads base F found R (X ++ (E.filter (·.dst ∈ F)).map Connection.id) db' := fun found db hdb => by
    refine hdb.cross (((hdb.stands.reads_edges (hrecorded hdb) (mem_walkingEnds d).1
      (find?_entered d · _)).rows_columns ["id"] (f := fun e => one e.id) (by decide) fun e => ?_).trans ?_)
    · rw [List.map_cons, List.map_nil, Scope.cell_of_find? (find?_number e _)]
      rfl
    · rw [hE, connectionsOf, List.filter_map, List.filter_filter]
      simp only [List.map_map]
      rfl
  have hrest : Leads (Spreads base F [] R X) ([_] ++ (_ :: sweepTables.advance)) _ :=
    .append hfound (.exists_imp fun found _ => .cons (hcrossed found) (leads_of_stands fun _ => leads_advance))
  exact .cons hclear hrest

/-- The starts are the first frontier, and reached. -/
theorem leads_startLineage (h : base.HoldsIntegers start.vertexTable graphColumns (starts.map one)) :
    Leads (Spreads base [] [] [] [])
      [.insertFrom sweepTables.frontier (.ids start.vertexTable),
        .insertFrom sweepTables.reached (.ids sweepTables.frontier)]
      (Spreads base starts [] starts []) := by
  refine .cons (J := Spreads base starts [] [] []) (fun db hdb => ?_) (.single fun db hdb => ?_)
  · have hstart := h.congr (hdb.others _ (sameName_lineageNames_table (sameName_crossedTable_vertexTable start)))
    obtain ⟨db', happly, hdb'⟩ := Over.insertFrom (l := []) [] hdb.stands (fun _ => rfl) (rows_ids hstart)
    exact ⟨db', happly, hdb.of_stands hdb'⟩
  · obtain ⟨db', happly, hdb'⟩ := Over.insertFrom (l := []) [_, _] hdb.stands (fun _ => rfl)
      (rows_ids hdb.stands.inFrontier)
    exact ⟨db', happly, hdb.of_stands hdb'⟩

/-- The table of the edges that are crossed is created beside the others. -/
theorem leads_createCrossed :
    Leads (Over base [⟨sweepTables.reached, ["id"], []⟩, ⟨sweepTables.next, ["id"], []⟩,
        ⟨sweepTables.frontier, ["id"], []⟩])
      [.discard crossedTable, .create false crossedTable (.known (["id"].map Column.integer))]
      (Spreads base [] [] [] []) := by
  intro closed db hdb
  obtain ⟨db', hrun, hrows, hkeeps⟩ := exists_created (show isReserved crossedTable = false by decide +kernel)
    ["id"] closed db
  refine ⟨db', hrun, over_of_keeps hdb.reverse hkeeps, hrows, fun name hname => ?_⟩
  rw [hkeeps name (hname _ List.mem_cons_self), hdb.others name (List.forall_mem_cons.1 hname).2]

/-- The tables after a number of rounds. -/
def AfterRounds (base : Database) (E : List Connection) (starts : List Int) (k : ℕ) (db : Database) : Prop :=
  ∃ F N R X, Spread E starts k F R X ∧ Spreads base F N R X db

/-- A sweep in one direction. -/
theorem ends_expand (h : Readable base subject edges kept)
    (hstart : base.HoldsIntegers start.vertexTable graphColumns (starts.map one)) (hsize : edges.length < 2 ^ 63)
    (d : Direction) (depth : ℕ) :
    Ends Never (KeptAmong lineageNames (Over base [])) (expand scratchMemory subject start depth d) fun tables s =>
      tables = (sweepTables.reached, crossedTable) ∧ KeptAmong lineageNames
        (AfterRounds base ((connectionsOf subject kept edges).map (back d)) starts depth) s := by
  have hrounds : ∀ k < depth, Leads (AfterRounds base ((connectionsOf subject kept edges).map (back d)) starts k)
      (crossRound d subject) (AfterRounds base ((connectionsOf subject kept edges).map (back d)) starts (k + 1)) := by
    rintro k - closed db ⟨F, N, R, X, hspread, hdb⟩
    obtain ⟨db', hrun, found, ⟨hnodup, hmem⟩, hdb'⟩ := leads_crossRound (h hspread.crossed_eq_nil) rfl closed db hdb
    exact ⟨db', hrun, _, _, _, _, hspread.step hnodup hmem, hdb'⟩
  have hsweep : Ends Never
      (KeptAmong lineageNames (AfterRounds base ((connectionsOf subject kept edges).map (back d)) starts 0))
      (sweep scratchMemory (fun _ => crossRound d subject) sweepTables.frontier depth 0)
      fun _ => KeptAmong lineageNames
        (AfterRounds base ((connectionsOf subject kept edges).map (back d)) starts depth) := by
    refine ends_sweep hrounds fun k db ⟨F, N, R, X, hspread, hdb⟩ => ⟨_, _, hdb.stands.inFrontier, ?_,
      fun hempty j => ⟨F, N, R, X, hspread.settled (List.map_eq_nil_iff.1 hempty) j, hdb⟩⟩
    have hle := hspread.length_le (Nat.succ_ne_zero k)
    rw [List.length_map] at hle ⊢
    exact (hle.trans length_connectionsOf_le).trans_lt hsize
  unfold expand
  refine ends_create (by decide +kernel) (leads_create _ (List.Sublist.refl _) ["id"] (by decide) (by simp)) ?_
  refine ends_create (by decide +kernel) (leads_create _ (List.Sublist.refl _) ["id"] (by decide)
    (by simp [scratchPrefix])) ?_
  refine ends_create (by decide +kernel) (leads_create _ (List.Sublist.refl _) ["id"] (by decide)
    (by simp [scratchPrefix])) ?_
  refine ends_create (by decide +kernel) leads_createCrossed ?_
  refine (ends_performAll (leads_startLineage hstart)).bind fun _ => ?_
  rw [Int.toNat_natCast]
  refine Ends.bind (J := fun _ => KeptAmong lineageNames
    (AfterRounds base ((connectionsOf subject kept edges).map (back d)) starts depth)) ?_ fun _ =>
      .pure fun s hs => ⟨rfl, hs⟩
  exact hsweep.mono (fun s hs => ⟨hs.1, _, _, _, _, .start, hs.2⟩) fun _ _ hs => hs

end Tables

end Provenance.Traversal

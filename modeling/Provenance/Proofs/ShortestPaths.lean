import Provenance.Proofs.Arrivals

/-!
# Shortest paths

What a traversal for shortest paths writes. Between one source and one destination this is a shortest walk,
but as the forward sweep has no notion of having arrived, also a shortest way back to the destination, as
long as that fits the bound. Of several destinations only the nearest ones are sure to be found.
-/

namespace Provenance.Traversal

open Store Database IntegerTable Action

variable {E : List Connection} {D : List Int} {C : List (Int × Int)} {notes : List ReachingNote}

/-! ## Both sweeps -/

section Sweeps

variable {base : Database} {target subject source destination : Graph} {edges : List Connection}
  {kept starts ends : List Int} {more : List IntegerTable} {start : Int → Prop}

/-- The tables after a number of backward rounds. -/
def AfterReaching (base : Database) (E : List Connection) (D : List Int) (C : List (Int × Int)) (k : ℕ)
    (db : Database) : Prop :=
  ∃ F N R notes, BackwardReaching E D k F R notes ∧
    StandsReaching base F N R [reachingTable notes, connectedTable C] db

theorem ends_backwardReaching (hC : ∀ u w, (u, w) ∈ C ↔ Joined E u w) (hsize : E.length * D.length < 2 ^ 63)
    (rounds : ℕ) :
    Ends Never (Kept (AfterReaching base E D C 0))
      (sweep scratchMemory (noteReachingRound sweepTables (scratchPrefix ++ "conn") (scratchPrefix ++ "sgconn"))
        sweepTables.frontier rounds 1)
      fun _ => Kept (AfterReaching base E D C rounds) := by
  refine ends_sweep (fun k _ closed db ⟨F, N, R, notes, hback, hdb⟩ => ?_) fun k db ⟨F, N, R, notes, hback, hdb⟩ => ?_
  · obtain ⟨db', hrun, found, ⟨hnodup, hmem⟩, new, hnew, hdb'⟩ := leads_noteReachingRound (1 + k) closed db hdb
    rw [Int.add_comm 1] at hrun hdb'
    exact ⟨db', by rw [Int.add_comm 1]; exact hrun, _, _, _, _, hback.step hC hnodup hmem hnew, hdb'⟩
  · refine ⟨_, _, hdb.inFrontier, ?_, fun hempty j =>
      ⟨F, N, R, notes, hback.settled (List.map_eq_nil_iff.1 hempty) j, hdb⟩⟩
    rw [List.length_map]
    exact (hback.length_le (Nat.succ_ne_zero k)).trans_lt hsize

/-- The tables after a number of forward rounds. -/
def AfterNearest (base : Database) (more : List IntegerTable) (k : ℕ → Int → Int → Int → Prop) (start : Int → Prop)
    (starts : List Int) (keys : List (Int × Int)) (j : ℕ) (db : Database) : Prop :=
  ∃ F N R, ForwardCounted k start starts keys j F R ∧ Stands base F N R more db

theorem ends_forwardNearest (hnoted : reachingTable notes ∈ more) {keys : List (Int × Int)}
    (hkeys : ∀ n ∈ notes, (n.src, n.reaching) ∈ keys) (hsize : keys.length < 2 ^ 63) (maxDepth : ℕ) :
    Ends Never (Kept (AfterNearest base more (departs notes maxDepth) start starts keys 0))
      (sweep scratchMemory (followNearestRound sweepTables (scratchPrefix ++ "sgconn") maxDepth) sweepTables.frontier
        maxDepth 0)
      fun _ => Kept (AfterNearest base more (departs notes maxDepth) start starts keys maxDepth) := by
  refine ends_sweep (fun k _ closed db ⟨F, N, R, hforward, hdb⟩ => ?_) fun k db ⟨F, N, R, hforward, hdb⟩ => ?_
  · obtain ⟨db', hrun, found, hfound, hdb'⟩ := leads_followNearestRound hnoted maxDepth (0 + k) closed db hdb
    rw [Int.zero_add] at hfound
    refine ⟨db', hrun, _, _, _, hforward.step (fun i i' u w hi hs => follows_of_le hs hi) hfound.mem hfound.counts ?_,
      hdb'⟩
    rw [List.countP_eq_length_filter]
    exact hfound.short _ fun n hn hsrc => List.mem_filter.2 ⟨hkeys n hn, decide_eq_true hsrc⟩
  · refine ⟨_, _, hdb.inFrontier, ?_, fun hempty j =>
      ⟨F, N, R, hforward.settled (List.map_eq_nil_iff.1 hempty) j, hdb⟩⟩
    rw [List.length_map]
    exact (hforward.short (Nat.succ_ne_zero k)).trans_lt hsize

/-- The destinations are the first frontier, each for itself, and reached. -/
theorem leads_startReaching (h : base.HoldsIntegers destination.vertexTable graphColumns (ends.map one)) :
    Leads (StandsReaching base [] [] [] [reachingTable [], connectedTable C])
      [.insertFrom sweepTables.frontier (.columns ["id", "id"] destination.vertexTable []),
        .insertFrom sweepTables.reached ((Selection.ids sweepTables.frontier).groupedBy ["id"])]
      (AfterReaching base E ends C 0) := by
  refine .cons (J := StandsReaching base (ends.map fun t => (t, t)) [] [] [reachingTable [], connectedTable C])
    (fun db hdb => ?_) (.single fun db hdb => ?_)
  · have hreads : Selection.ReadsIntegers db destination.vertexTable graphColumns ends one [] fun _ => true :=
      ⟨Over.reads hdb (sameName_sweepNames_table destination .vertex) h, nofun, fun _ => rfl⟩
    have hrows := hreads.rows_columns ["id", "id"] (f := fun t => pair (t, t)) (by decide) fun t =>
      congrArg₂ (fun c d => [c, d]) (Scope.cell_of_find? (find?_id _ t)) (Scope.cell_of_find? (find?_id _ t))
    rw [List.filter_true] at hrows
    refine Over.insertFrom (l := []) [] hdb (fun _ => rfl) (hrows.trans ?_)
    rw [List.map_map (g := pair)]
    rfl
  · obtain ⟨new, hnew, hrows⟩ := hdb.rows_vertices
    obtain ⟨db', happly, hdb'⟩ := Over.insertFrom (l := []) [_, _] hdb (fun _ => rfl) hrows
    exact ⟨db', happly, _, _, _, _, .start fun v => by simp [hnew], hdb'⟩

/-- The connections are read off once, before the sweeps. -/
theorem leads_connect (h : Recorded base subject edges kept) :
    Leads (Over base [connectedTable []]) [.insertFrom (scratchPrefix ++ "conn") (connections subject)] fun db =>
      ∃ C, (∀ u w, (u, w) ∈ C ↔ Joined (connectionsOf subject kept edges) u w) ∧ Over base [connectedTable C] db := by
  refine .single fun db hdb => ?_
  obtain ⟨C, hC, hrows⟩ := rows_connections (h.overScratch hdb)
  obtain ⟨db', happly, hdb'⟩ := Over.insertFrom (l := []) [] hdb (fun _ => rfl) hrows
  exact ⟨db', happly, C, hC, hdb'⟩

/-- Between the sweeps, the sources that the first one has reached are the new frontier. -/
theorem ends_turnNearest {R : List Int} {k : ℕ → Int → Int → Int → Prop} {keys : List (Int × Int)} {maxDepth : ℕ}
    (hR : ReachedWithin E ends maxDepth R) (h : base.HoldsIntegers source.vertexTable graphColumns (starts.map one)) :
    Ends Never (Kept (Stands base [] [] R more)) (restart scratchMemory sweepTables source) fun _ =>
      Kept (AfterNearest base more k (startsNear E starts ends maxDepth) starts keys 0) := by
  refine (ends_restart h).mono (fun _ hs => hs) fun _ s hs =>
    ⟨hs.1, _, _, _, .begin (fun v => ?_) (fun v hv => ?_) (List.length_filter_le _ _), hs.2⟩
  · rw [List.mem_filter, decide_eq_true_eq, hR, startsNear, ENat.le_natCast_iff]
    exact and_congr_right fun _ => exists_congr fun _ => and_comm
  · rw [List.count_filter (p := fun v => decide (v ∈ R)) (List.mem_filter.1 hv).2]

/-- What both sweeps find is written. As the store counts rows with a word, there are fewer than `2 ^ 63` pairs
of an edge and a destination. -/
theorem shortestPath_arrives (h : Searches base target subject source destination edges kept starts ends)
    (hsize : edges.length * ends.length < 2 ^ 63) (maxDepth : ℕ) :
    ∃ (vertices : List Int) (db : Database),
      ((Instruction.shortestPath target subject source destination maxDepth).execute Backend.memory).runFrom base
        = (.ok none, db) ∧
      (∃ notes F, NearestBelow (connectionsOf subject kept edges) ends maxDepth notes ∧
        ForwardCounted (departs notes maxDepth) (startsNear (connectionsOf subject kept edges) starts ends maxDepth)
          starts ((connectionsOf subject kept edges).map Connection.src ×ˢ ends) maxDepth F vertices) ∧
      Written base target vertices (between (connectionsOf subject kept edges) vertices) db := by
  let E := connectionsOf subject kept edges
  rw [Instruction.execute, shortestPath]
  refine exists_written ?_
  -- The connections.
  refine ends_createIntegers [] (List.Sublist.refl _) (by decide) (by simp) ?_
  refine Ends.bind (J := fun _ => Kept fun db => ∃ C, (∀ u w, (u, w) ∈ C ↔ Joined E u w) ∧
    Over base [connectedTable C] db) (ends_performAll (leads_connect h.toRecorded)) fun _ =>
      ends_of_exists fun C hC => ?_
  -- The backward sweep.
  refine ends_createIntegers _ (List.Sublist.refl _) (by decide) (by simp [scratchPrefix, connectedTable]) ?_
  refine ends_createIntegers _ (List.Sublist.refl _) (by decide) (by simp [scratchPrefix, connectedTable]) ?_
  refine ends_createIntegers _ (List.Sublist.refl _) (by decide) (by simp [scratchPrefix, connectedTable]) ?_
  refine ends_createIntegers _ (List.Sublist.refl _) (by decide) (by simp [scratchPrefix, connectedTable]) ?_
  refine Ends.bind (J := fun _ => Kept (AfterReaching base E ends C 0)) ?_ fun _ => ?_
  · refine ends_performAll fun closed db hdb => leads_startReaching h.ends closed db ?_
    exact Over.perm hdb ((List.reverse_perm [_, _, _]).append_right [_, _])
  rw [Int.toNat_natCast]
  refine (ends_backwardReaching hC ((Nat.mul_le_mul_right _ length_connectionsOf_le).trans_lt hsize)
    maxDepth).bind fun _ => ?_
  rintro s ⟨htables, F, N, R, notes, hback, hdb⟩
  refine (?_ : Ends Never (Kept (StandsReaching base F N R [reachingTable notes, connectedTable C])) _ _) s
    ⟨htables, hdb⟩
  -- The forward sweep, in new tables of the same names.
  refine ends_createIntegers _ (List.sublist_cons_self _ _) (by decide)
    (by simp [scratchPrefix, reachingTable, connectedTable]) ?_
  refine ends_createIntegers _ ((List.sublist_cons_self _ _).cons_cons _) (by decide)
    (by simp [scratchPrefix, reachingTable, connectedTable]) ?_
  refine Ends.bind (J := fun _ => Kept (AfterNearest base [reachingTable notes, connectedTable C]
    (departs notes maxDepth) (startsNear E starts ends maxDepth) starts (E.map Connection.src ×ˢ ends) 0))
    ?_ fun _ => ?_
  · exact (ends_turnNearest hback.reached h.starts).mono (fun _ hs => ⟨hs.1, Over.perm hs.2 (.swap _ _ _)⟩)
      fun _ _ hs => hs
  refine (ends_forwardNearest (.head _) (fun n hn => ?_) ?_ maxDepth).bind fun _ => ?_
  · obtain ⟨⟨e, he, hsrc, -⟩, i, hi, -⟩ := (hback.noted n).1 hn
    exact List.mem_product.2 ⟨hsrc ▸ List.mem_map_of_mem he, hi.1⟩
  · rw [List.length_product, List.length_map]
    exact (Nat.mul_le_mul_right _ length_connectionsOf_le).trans_lt hsize
  rintro s ⟨htables, F, N, R, hforward, hdb⟩
  exact (ends_writeInduced h.toRecorded h.target).mono (fun _ hs => hs) (fun _ s hs =>
    ⟨hs.1, R, ⟨notes, F, hback.noted, hforward⟩, hs.2⟩) s ⟨htables, hdb⟩

/-- What is written is what the forward sweep reaches. -/
theorem shortestPath_writes (h : Searches base target subject source destination edges kept starts ends)
    (hsize : edges.length * ends.length < 2 ^ 63) (maxDepth : ℕ) :
    ∃ (vertices : List Int) (db : Database),
      ((Instruction.shortestPath target subject source destination maxDepth).execute Backend.memory).runFrom base
        = (.ok none, db) ∧
      (∃ notes, NearestBelow (connectionsOf subject kept edges) ends maxDepth notes ∧ ∀ v, v ∈ vertices ↔
        Within (follows notes maxDepth) (startsNear (connectionsOf subject kept edges) starts ends maxDepth)
          maxDepth v) ∧
      Written base target vertices (between (connectionsOf subject kept edges) vertices) db := by
  obtain ⟨vertices, db, hrun, ⟨notes, F, hnotes, hforward⟩, hwritten⟩ := shortestPath_arrives h hsize maxDepth
  exact ⟨vertices, db, hrun, ⟨notes, hnotes, hforward.reached⟩, hwritten⟩

/-- From one source to one destination that are at most `maxDepth` edges of the subject apart, the vertices
of one shortest walk are written, and those of a shortest way from the destination back to it, if this and
the walk have at most `maxDepth` edges together. If they are further apart, nothing is written. -/
theorem shortestPath_single (h : Searches base target subject source destination edges kept starts ends) {s t : Int}
    (hstarts : ∀ v, v ∈ starts ↔ v = s) (hends : ∀ v, v ∈ ends ↔ v = t)
    (hsize : edges.length * ends.length < 2 ^ 63) (maxDepth : ℕ) :
    ∃ (vertices : List Int) (db : Database),
      ((Instruction.shortestPath target subject source destination maxDepth).execute Backend.memory).runFrom base
        = (.ok none, db) ∧
      (¬ distance (connectionsOf subject kept edges) [s] [t] ≤ maxDepth → vertices = []) ∧
      (∀ k : ℕ, distance (connectionsOf subject kept edges) [s] [t] = k → k ≤ maxDepth →
        ∃ vs ws, Walk (Joined (connectionsOf subject kept edges)) s vs t ∧ vs.length = k ∧
          Returns (connectionsOf subject kept edges) t (maxDepth - k) ws ∧ ∀ v, v ∈ vertices ↔ v ∈ s :: vs ++ ws) ∧
      Written base target vertices (between (connectionsOf subject kept edges) vertices) db := by
  obtain ⟨vertices, db, hrun, ⟨notes, hnotes, hvertices⟩, hwritten⟩ := shortestPath_writes h hsize maxDepth
  refine ⟨vertices, db, hrun, fun hfar => ?_, fun k hk hle => ?_, hwritten⟩
  · refine List.eq_nil_iff_forall_not_mem.2 fun v hv => ?_
    refine of_within (A := fun _ => False) hnotes (fun v hv => hfar ?_) (fun _ _ _ _ _ hu => hu.elim)
      ((hvertices v).1 hv)
    rw [← distance_congr (fun _ => Iff.rfl) fun x => (hends x).trans List.mem_singleton.symm, ← (hstarts v).1 hv.1]
    exact hv.2
  · simp only [hvertices]
    exact within_single hends hnotes hstarts hk hle

end Sweeps

/-- A connection, and a way back to where it leads. -/
def lasso : Document where
  vertices := [⟨1, none, []⟩, ⟨2, none, []⟩, ⟨3, none, []⟩]
  edges := [⟨10, 1, 2, []⟩, ⟨11, 2, 3, []⟩, ⟨12, 3, 2, []⟩]

def lassoEdges : List Connection := [⟨10, 1, 2⟩, ⟨11, 2, 3⟩, ⟨12, 3, 2⟩]

theorem searches_lasso : Searches (charted lasso [1] [2]) ⟨"trace_3"⟩ .base ⟨"trace_1"⟩ ⟨"trace_2"⟩ lassoEdges []
    [1] [2] :=
  ⟨⟨by decide +kernel, fun h => absurd h (by decide)⟩, by decide +kernel, by decide +kernel, fun side => by
    cases side <;> decide +kernel⟩

theorem distance_lasso : distance lassoEdges [1] [2] = (1 : ℕ) := by
  rw [eq_succ_iff, distance_le_succ_left, exists_joined]
  simp only [distance_le_zero]
  decide

/-- One step leads to the destination. -/
theorem walk_lasso {vs : List Int} (h : Walk (Joined lassoEdges) 1 vs 2) (hlength : vs.length = 1) : vs = [2] := by
  obtain ⟨x, rfl⟩ := List.length_eq_one_iff.1 hlength
  obtain _ | ⟨-, ⟨⟩⟩ := h
  rfl

/-- Each step from the destination leads to the same vertex. -/
theorem joined_lasso {w : Int} (h : Joined lassoEdges 2 w) : w = 3 := by
  obtain ⟨e, he, hsrc, rfl⟩ := h
  revert e
  decide

theorem shortestPath_single_lasso : ∃ (vertices : List Int) (db : Database),
    ((Instruction.shortestPath ⟨"trace_3"⟩ .base ⟨"trace_1"⟩ ⟨"trace_2"⟩ 2).execute Backend.memory).runFrom
        (charted lasso [1] [2]) = (.ok none, db) ∧
      (∀ v, v ∈ vertices ↔ v ∈ [1, 2]) ∧ db.HoldsIntegers "trace_3_vertex" graphColumns (vertices.map one) := by
  obtain ⟨vertices, db, hrun, -, hnear, hwritten⟩ := shortestPath_single searches_lasso (s := 1) (t := 2) (by simp)
    (by simp) (by decide) 2
  obtain ⟨vs, ws, hvs, hlength, hreturns, hvertices⟩ := hnear 1 distance_lasso (by decide)
  obtain rfl := walk_lasso hvs hlength
  obtain ⟨rfl, -⟩ | ⟨hne, hws, hle, -⟩ := hreturns
  · exact ⟨vertices, db, hrun, hvertices, hwritten.vertices⟩
  · obtain _ | ⟨hj, hrest⟩ := hws
    · exact absurd rfl hne
    · obtain rfl := joined_lasso hj
      obtain _ | ⟨-, -⟩ := hrest
      simp at hle

/-- With room for the way back, the vertex on it is written as well. -/
theorem shortestPath_not_single : ∃ (vertices : List Int) (db : Database),
    ((Instruction.shortestPath ⟨"trace_3"⟩ .base ⟨"trace_1"⟩ ⟨"trace_2"⟩ 3).execute Backend.memory).runFrom
        (charted lasso [1] [2]) = (.ok none, db) ∧
      db.HoldsIntegers "trace_3_vertex" graphColumns (vertices.map one) ∧ distance lassoEdges [1] [2] = (1 : ℕ) ∧
      ¬ ∃ vs, Walk (Joined lassoEdges) 1 vs 2 ∧ vs.length = 1 ∧ ∀ v, v ∈ vertices ↔ v ∈ 1 :: vs := by
  obtain ⟨vertices, db, hrun, ⟨notes, hnotes, hvertices⟩, hwritten⟩ := shortestPath_writes searches_lasso (by decide) 3
  refine ⟨vertices, db, hrun, hwritten.vertices, distance_lasso, ?_⟩
  rintro ⟨vs, hvs, hlength, hiff⟩
  obtain rfl := walk_lasso hvs hlength
  obtain ⟨vs, ws, -, -, hreturns, hwithin⟩ := within_single (E := lassoEdges) (S := [1]) (D := [2]) (s := 1) (t := 2)
    (by simp) hnotes (by simp) distance_lasso (by decide)
  have hback : Walk (Joined lassoEdges) 2 [3, 2] 2 := .cons (by decide) (.single (by decide))
  obtain ⟨-, hnone⟩ | ⟨hne, hws, -, -⟩ := hreturns
  · exact absurd (hnone _ (List.cons_ne_nil 3 [2]) hback) (by decide)
  · obtain _ | ⟨hj, -⟩ := hws
    · exact absurd rfl hne
    · obtain rfl := joined_lasso hj
      have hmem := (hiff 3).1 ((hvertices 3).2 ((hwithin 3).2 (by simp)))
      simp at hmem

/-! ## Several destinations -/

section Several

variable {base : Database} {target subject source destination : Graph} {edges : List Connection}
  {kept starts ends : List Int}

/-- What is written lies on walks of at most `maxDepth` edges of the subject from a source to a destination.
Of a source and a destination this far apart all vertices of a shortest walk are written, if the destination
is a nearest one for what comes after the source on some shortest walk. -/
theorem shortestPath_covers (h : Searches base target subject source destination edges kept starts ends)
    (hsize : edges.length * ends.length < 2 ^ 63) (maxDepth : ℕ) :
    ∃ (vertices : List Int) (db : Database),
      ((Instruction.shortestPath target subject source destination maxDepth).execute Backend.memory).runFrom base
        = (.ok none, db) ∧
      (∀ v ∈ vertices, distance (connectionsOf subject kept edges) starts [v]
        + distance (connectionsOf subject kept edges) [v] ends ≤ maxDepth) ∧
      (∀ s ∈ starts, ∀ t ∈ ends, ∀ k : ℕ, distance (connectionsOf subject kept edges) [s] [t] = k → k ≤ maxDepth →
        (k = 0 ∨ ∃ w, Joined (connectionsOf subject kept edges) s w ∧
          Nearest (connectionsOf subject kept edges) ends w t (k - 1)) →
        ∃ vs, Walk (Joined (connectionsOf subject kept edges)) s vs t ∧ vs.length = k ∧ ∀ v ∈ s :: vs, v ∈ vertices) ∧
      Written base target vertices (between (connectionsOf subject kept edges) vertices) db := by
  obtain ⟨vertices, db, hrun, ⟨notes, hnotes, hvertices⟩, hwritten⟩ := shortestPath_writes h hsize maxDepth
  refine ⟨vertices, db, hrun, fun v hv => (distance_le_of_within hnotes ((hvertices v).1 hv)).2, ?_, hwritten⟩
  intro s hs t ht k hk hle hnearest
  have hstart : Within (follows notes maxDepth) (startsNear (connectionsOf subject kept edges) starts ends maxDepth)
      0 s := ⟨hs, (distance_le_of_mem ht).trans (hk ▸ by exact_mod_cast hle)⟩
  simp only [hvertices]
  cases k with
  | zero =>
    exact exists_walk_within hnotes hstart ⟨ht, hk, distance_eq_zero.2 (by
      obtain ⟨v, hv, hvt⟩ := distance_eq_zero.1 hk
      exact ⟨v, hv, List.mem_singleton.1 hvt ▸ ht⟩)⟩ (by omega)
  | succ n =>
    obtain ⟨x, hj, hx, hwithin⟩ := exists_towards hnotes hstart hk
      (hnearest.resolve_left (Nat.succ_ne_zero n)) (by omega)
    obtain ⟨vs, hwalk, hlength, hvs⟩ := exists_walk_within hnotes hwithin hx (by omega)
    exact ⟨x :: vs, .cons hj hwalk, congrArg Nat.succ hlength,
      List.forall_mem_cons.2 ⟨hstart.mono (Nat.zero_le _), hvs⟩⟩

end Several

/-- Two destinations of which one is nearer to what lies between the source and the other. -/
def crossing : Document where
  vertices := [⟨1, none, []⟩, ⟨2, none, []⟩, ⟨3, none, []⟩, ⟨4, none, []⟩, ⟨5, none, []⟩]
  edges := [⟨10, 1, 2, []⟩, ⟨11, 1, 3, []⟩, ⟨12, 3, 2, []⟩, ⟨13, 3, 4, []⟩, ⟨14, 4, 5, []⟩]

def crossingEdges : List Connection := [⟨10, 1, 2⟩, ⟨11, 1, 3⟩, ⟨12, 3, 2⟩, ⟨13, 3, 4⟩, ⟨14, 4, 5⟩]

theorem searches_crossing : Searches (charted crossing [1] [2, 5]) ⟨"trace_3"⟩ .base ⟨"trace_1"⟩ ⟨"trace_2"⟩
    crossingEdges [] [1] [2, 5] :=
  ⟨⟨by decide +kernel, fun h => absurd h (by decide)⟩, by decide +kernel, by decide +kernel, fun side => by
    cases side <;> decide +kernel⟩

theorem shortestPath_covers_crossing : ∃ (vertices : List Int) (db : Database),
    ((Instruction.shortestPath ⟨"trace_3"⟩ .base ⟨"trace_1"⟩ ⟨"trace_2"⟩ 3).execute Backend.memory).runFrom
        (charted crossing [1] [2, 5]) = (.ok none, db) ∧
      (∃ vs, Walk (Joined crossingEdges) 1 vs 2 ∧ vs.length = 1 ∧ ∀ v ∈ 1 :: vs, v ∈ vertices) ∧
      db.HoldsIntegers "trace_3_vertex" graphColumns (vertices.map one) := by
  obtain ⟨vertices, db, hrun, -, hcovers, hwritten⟩ := shortestPath_covers searches_crossing (by decide) 3
  refine ⟨vertices, db, hrun, hcovers 1 (by simp) 2 (by simp) 1 ?_ (by decide) (.inr ⟨2, by decide, by simp, ?_, ?_⟩),
    hwritten.vertices⟩
  · rw [eq_succ_iff]
    simp only [distance_le_succ_left, exists_joined, distance_le_zero]
    decide
  · exact distance_eq_zero.2 ⟨2, by simp, by simp⟩
  · exact distance_eq_zero.2 ⟨2, by simp, by simp⟩

/-- The second destination is near enough, but not written. -/
theorem shortestPath_not_covers : ∃ (vertices : List Int) (db : Database),
    ((Instruction.shortestPath ⟨"trace_3"⟩ .base ⟨"trace_1"⟩ ⟨"trace_2"⟩ 3).execute Backend.memory).runFrom
        (charted crossing [1] [2, 5]) = (.ok none, db) ∧
      db.HoldsIntegers "trace_3_vertex" graphColumns (vertices.map one) ∧
      distance crossingEdges [1] [5] = (3 : ℕ) ∧ 5 ∉ vertices := by
  obtain ⟨vertices, db, hrun, ⟨notes, hnotes, hvertices⟩, hwritten⟩ :=
    shortestPath_writes searches_crossing (by decide) 3
  refine ⟨vertices, db, hrun, hwritten.vertices, ?_, fun hmem => ?_⟩
  · rw [eq_succ_iff]
    simp only [distance_le_succ_left, exists_joined, distance_le_zero]
    decide
  · suffices (5 : Int) ∈ ([1, 2] : List Int) by simp at this
    refine of_within (E := crossingEdges) (A := (· ∈ ([1, 2] : List Int))) hnotes
      (fun v hv => List.mem_append_left [2] hv.1) (fun u w t i j hu _ hbest _ => ?_) ((hvertices 5).1 hmem)
    obtain ⟨⟨e, he, rfl, rfl⟩, ⟨ht, hone, hall⟩, hleast⟩ := hbest
    have hturn : ∀ e ∈ crossingEdges, e.src ∈ ([1, 2] : List Int) → e.dst = 2 ∨ e.dst = 3 ∧ e.src = 1 := by decide
    obtain hdst | ⟨hdst, hsrc⟩ := hturn e he hu
    · rw [hdst]
      exact List.mem_cons_of_mem 1 (List.mem_singleton_self 2)
    rw [hdst] at hone hall
    rw [hsrc] at hleast
    obtain rfl | ht := List.mem_cons.1 ht
    -- The connection straight to the first destination is noted first.
    · have hle := (hleast 2 0 (by decide) ⟨by simp, distance_eq_zero.2 ⟨2, by simp, by simp⟩,
        distance_eq_zero.2 ⟨2, by simp, by simp⟩⟩).1
      rw [Nat.le_zero.1 hle] at hone
      exact absurd (distance_eq_zero.1 hone) (by decide)
    -- And for the second one the first is nearer to what lies between.
    · rw [List.mem_singleton.1 ht, ← hall] at hone
      have hnear : distance crossingEdges [3] [2, 5] ≤ (1 : ℕ) := by
        simp only [distance_le_succ_left, exists_joined, distance_le_zero]
        decide
      rw [← hone] at hnear
      simp only [distance_le_succ_left, exists_joined, distance_le_zero] at hnear
      exact absurd hnear (by decide)

/-! ## Beside all paths -/

section Nearest

variable {base : Database} {target subject source destination : Graph} {edges : List Connection}
  {kept starts ends : List Int}

/-- What is written lies on walks of at most `maxDepth` edges of the subject from a source to a destination, so
that a traversal for all paths writes it as well; it writes something only if this one does. From each source that
is near enough to the destinations, all vertices of a shortest walk to a nearest one are written. The edges
written are those of the subject between the vertices. -/
theorem shortestPath_nearest (h : Searches base target subject source destination edges kept starts ends)
    (hedges : edges.length < 2 ^ 63) (hsize : edges.length * ends.length < 2 ^ 63) (maxDepth : ℕ) :
    ∃ (vertices all : List Int) (db db' : Database),
      ((Instruction.shortestPath target subject source destination maxDepth).execute Backend.memory).runFrom base
        = (.ok none, db) ∧
      ((Instruction.path target subject source destination maxDepth).execute Backend.memory).runFrom base
        = (.ok none, db') ∧
      Written base target vertices (between (connectionsOf subject kept edges) vertices) db ∧
      Written base target all (between (connectionsOf subject kept edges) all) db' ∧
      (∀ v ∈ vertices, distance (connectionsOf subject kept edges) starts [v]
        + distance (connectionsOf subject kept edges) [v] ends ≤ maxDepth ∧ v ∈ all) ∧
      (vertices = [] ↔ all = []) ∧
      ∀ s ∈ starts, ∀ n : ℕ, distance (connectionsOf subject kept edges) [s] ends = n → n ≤ maxDepth →
        ∃ t ∈ ends, distance (connectionsOf subject kept edges) [s] [t] = n ∧
          ∃ vs, Walk (Joined (connectionsOf subject kept edges)) s vs t ∧ vs.length = n ∧
            ∀ v ∈ s :: vs, v ∈ vertices := by
  obtain ⟨vertices, db, hrun, ⟨notes, hnotes, hvertices⟩, hwritten⟩ := shortestPath_writes h hsize maxDepth
  obtain ⟨all, db', hrun', ⟨F, hforward⟩, hwritten'⟩ := path_writes h hedges maxDepth
  have hwithin : ∀ v ∈ vertices, distance (connectionsOf subject kept edges) starts [v]
      + distance (connectionsOf subject kept edges) [v] ends ≤ maxDepth := fun v hv =>
    (distance_le_of_within hnotes ((hvertices v).1 hv)).2
  refine ⟨vertices, all, db, db', hrun, hrun', hwritten, hwritten',
    fun v hv => ⟨hwithin v hv, (hforward.mem_iff rfl).2 (hwithin v hv)⟩, ?_, fun s hs n hn hle => ?_⟩
  · constructor
    · refine fun hnil => List.eq_nil_iff_forall_not_mem.2 fun v hv => ?_
      obtain ⟨s, hs, hnear⟩ := exists_distance_le ((hforward.mem_iff rfl).1 hv)
      have hstart : Within (follows notes maxDepth) (startsNear (connectionsOf subject kept edges) starts ends maxDepth)
          0 s := ⟨hs, hnear⟩
      exact List.not_mem_nil (hnil ▸ (hvertices s).2 (hstart.mono (Nat.zero_le _)))
    · exact fun hnil => List.eq_nil_iff_forall_not_mem.2 fun v hv =>
        List.not_mem_nil (hnil ▸ (hforward.mem_iff rfl).2 (hwithin v hv))
  · obtain ⟨t, hnearest⟩ := exists_nearest_iff.2 hn
    have hstart : Within (follows notes maxDepth) (startsNear (connectionsOf subject kept edges) starts ends maxDepth)
        0 s := ⟨hs, by rw [hn]; exact_mod_cast hle⟩
    obtain ⟨vs, hwalk, hlength, hvs⟩ := exists_walk_within hnotes hstart hnearest (by omega)
    exact ⟨t, hnearest.1, hnearest.2.1, vs, hwalk, hlength, fun v hv => (hvertices v).2 (hvs v hv)⟩

/-- One of the two destinations is the nearest. -/
theorem shortestPath_nearest_crossing : ∃ (vertices all : List Int) (db db' : Database),
    ((Instruction.shortestPath ⟨"trace_3"⟩ .base ⟨"trace_1"⟩ ⟨"trace_2"⟩ 3).execute Backend.memory).runFrom
        (charted crossing [1] [2, 5]) = (.ok none, db) ∧
      ((Instruction.path ⟨"trace_3"⟩ .base ⟨"trace_1"⟩ ⟨"trace_2"⟩ 3).execute Backend.memory).runFrom
        (charted crossing [1] [2, 5]) = (.ok none, db') ∧
      vertices ⊆ all ∧ (∃ t ∈ ([2, 5] : List Int), ∃ vs, Walk (Joined crossingEdges) 1 vs t ∧ vs.length = 1 ∧
        ∀ v ∈ 1 :: vs, v ∈ vertices) ∧ db.HoldsIntegers "trace_3_vertex" graphColumns (vertices.map one) := by
  obtain ⟨vertices, all, db, db', hrun, hrun', hwritten, -, hwithin, -, hnear⟩ :=
    shortestPath_nearest searches_crossing (by decide) (by decide) 3
  have hone : distance crossingEdges [1] [2, 5] = (1 : ℕ) := by
    rw [eq_succ_iff]
    simp only [distance_le_succ_left, exists_joined, distance_le_zero]
    decide
  obtain ⟨t, ht, -, vs, hwalk, hlength, hvs⟩ := hnear 1 (by simp) 1 hone (by decide)
  exact ⟨vertices, all, db, db', hrun, hrun', fun v hv => (hwithin v hv).2, ⟨t, ht, vs, hwalk, hlength, hvs⟩,
    hwritten.vertices⟩

end Nearest

end Provenance.Traversal

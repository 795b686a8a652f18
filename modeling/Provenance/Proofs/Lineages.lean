import Provenance.Proofs.LineageSweeps

/-!
# Lineages

A lineage writes the vertices within its depth, and the edges that are entered nearer than that. For both
directions one sweep follows the other, with its scratch tables made anew and the target as the first one
has left it.

A subject or a target whose edges are taken for a scratch table loses them.
-/

namespace Provenance.Traversal

open Store Database IntegerTable Action

variable {E : List Connection} {starts F N R X V W kept : List Int} {base before db db' : Database}
  {target subject start : Graph} {edges : List Connection}

/-! ## What is written -/

/-- The target has just these vertices and edges, in this order; all else, the scratch tables of a lineage
aside, is as it was. -/
structure LineageWritten (base : Database) (target : Graph) (vertices edges : List Int) (db : Database) : Prop where
  vertices : db.HoldsIntegers target.vertexTable graphColumns (vertices.map one)
  edges : db.HoldsIntegers target.edgeTable graphColumns (edges.map one)
  others : ∀ name, (∀ n ∈ lineageNames, sameName n name = false) →
    (∀ side, sameName (target.table side) name = false) → db.table? name = base.table? name

/-- Nothing that is written is a scratch table. -/
theorem LineageWritten.congr (h : LineageWritten base target V W db)
    (htarget : sameName crossedTable target.edgeTable = false)
    (hdb : ∀ name, (∀ n ∈ lineageNames, sameName n name = false) → db'.table? name = db.table? name) :
    LineageWritten base target V W db' where
  vertices := h.vertices.congr (hdb _ (sameName_lineageNames_table (sameName_crossedTable_vertexTable target)))
  edges := h.edges.congr (hdb _ (sameName_lineageNames_table htarget))
  others name hname hside := by rw [hdb name hname, h.others name hname hside]

/-- The reached vertices are added to the target, and each edge that was crossed once. -/
theorem leads_writeLineage (htarget : sameName crossedTable target.edgeTable = false)
    (hbefore : LineageWritten base target V W before) :
    Leads (Spreads before F N R X)
      [.insertFrom target.vertexTable (.ids sweepTables.reached),
        .insertFrom target.edgeTable ((Selection.ids crossedTable).groupedBy ["id"])]
      fun db => ∃ crossed : List Int, (crossed.Nodup ∧ ∀ i, i ∈ crossed ↔ i ∈ X) ∧
        LineageWritten base target (V ++ R) (W ++ crossed) db := by
  intro closed db hdb
  have hwritten := hbefore.congr htarget hdb.others
  obtain ⟨db₁, happly₁, hvertices, hkeeps₁⟩ := hwritten.vertices.insertFrom (areIntegers_map _) (isOpen_map _)
    (rows_ids hdb.stands.inReached) fun row hrow => by
      obtain ⟨n, -, rfl⟩ := List.mem_map.1 hrow
      rfl
  have hcrossed : db₁.HoldsIntegers crossedTable graphColumns (X.map one) := by
    refine hdb.crossed.congr (hkeeps₁ _ ?_)
    rw [sameName_comm]
    exact sameName_crossedTable_vertexTable target
  have hreads : Selection.ReadsIntegers db₁ crossedTable graphColumns X one [] fun _ => true :=
    ⟨hcrossed, nofun, fun _ => rfl⟩
  obtain ⟨crossed, hnodup, hmem, hrows⟩ := hreads.rows_grouped ["id"] (f := one) (g := id) (by decide) (fun n => by
    rw [List.map_cons, List.map_nil, Scope.cell_of_find? (find?_id _ n)]
    rfl) one_injective (fun _ => rfl) (by decide)
  obtain ⟨db₂, happly₂, hedges, hkeeps₂⟩ := (hwritten.edges.congr
    (hkeeps₁ _ (sameName_vertexTable_edgeTable target target))).insertFrom (areIntegers_map _) (isOpen_map _) hrows
    fun row hrow => by
      obtain ⟨n, -, rfl⟩ := List.mem_map.1 hrow
      rfl
  refine ⟨db₂, ?_, crossed, ⟨hnodup, fun i => by simp [hmem]⟩, ?_, by rwa [List.map_append], fun name hname hside => ?_⟩
  · exact (runAll_cons_ok happly₁).trans (runAll_cons_ok happly₂)
  · rw [List.map_append]
    refine hvertices.congr (hkeeps₂ _ ?_)
    rw [sameName_comm]
    exact sameName_vertexTable_edgeTable target target
  · rw [hkeeps₂ name (hside .edge), hkeeps₁ name (hside .vertex), hwritten.others name hname hside]

/-- What a lineage reads and writes: the recorded edges and those of the subject, the vertices at which it
starts, and an empty target. The edges of the subject and of the target are not taken for the scratch table
of the edges that are crossed. -/
structure Traces (db : Database) (target subject start : Graph) (edges : List Connection) (kept starts : List Int) :
    Prop extends Recorded db subject edges kept where
  starts : db.HoldsIntegers start.vertexTable graphColumns (starts.map one)
  empty : ∀ side, db.HoldsIntegers (target.table side) graphColumns []
  subjectApart : subject.isBase = false → sameName crossedTable subject.edgeTable = false
  targetApart : sameName crossedTable target.edgeTable = false

namespace Traces

variable (h : Traces base target subject start edges kept starts) (hwritten : LineageWritten base target V W db)
include h hwritten

/-- The starts can still be read. If they are the vertices of the target, there are none. -/
theorem starts_of_written (hnil : starts = [] → V = []) :
    db.HoldsIntegers start.vertexTable graphColumns (starts.map one) := by
  cases hsame : sameName target.vertexTable start.vertexTable with
  | true =>
    have hstarts : starts = [] := by simpa using ((h.empty .vertex).of_sameName hsame).eq h.starts
    rw [hstarts, ← hnil hstarts]
    exact hwritten.vertices.of_sameName hsame
  | false =>
    refine h.starts.congr (hwritten.others _ (sameName_lineageNames_table (sameName_crossedTable_vertexTable start))
      fun side => ?_)
    cases side with
    | vertex => exact hsame
    | edge =>
      rw [sameName_comm]
      exact sameName_vertexTable_edgeTable start target

/-- The edges of the subject can still be read. If they are those of the target, there are none. -/
theorem recorded_of_written (hnil : connectionsOf subject kept edges = [] → W = []) :
    Recorded db subject edges kept where
  edges := h.edges.congr (hwritten.others _ sameName_lineageNames_edge (sameName_table_edgeTable target))
  kept hbase := by
    cases hsame : sameName target.edgeTable subject.edgeTable with
    | true =>
      have hnone : base.HasIds target.edgeTable ([].map .integer) := hasIds_one (h.empty .edge)
      have hkept : kept = [] := by simpa using (h.kept hbase).eq (hnone.of_sameName hsame)
      have hcrossed : W = [] := hnil (by simp [connectionsOf, hkept, hbase])
      rw [hkept, ← hcrossed]
      exact (hasIds_one hwritten.edges).of_sameName hsame
    | false =>
      refine (h.kept hbase).congr (hwritten.others _ (sameName_lineageNames_table (h.subjectApart hbase))
        fun side => ?_)
      cases side with
      | vertex => exact sameName_vertexTable_edgeTable target subject
      | edge => exact hsame

end Traces

/-- Adds the lineage in one direction to the target. -/
def addLineage (b : Backend (Scratch Database)) (target subject start : Graph) (depth : Int) (d : Direction) :
    Action (Scratch Database) BackendError Unit := do
  let (reached, crossed) ← expand b subject start depth d
  b.performAll [.insertFrom target.vertexTable (.ids reached),
    .insertFrom target.edgeTable ((Selection.ids crossed).groupedBy ["id"])]

/-- Adds a lineage, where the starts and the subject's edges can be read. -/
theorem ends_addOne (hreads : Readable before subject edges kept)
    (hstarts : before.HoldsIntegers start.vertexTable graphColumns (starts.map one)) (hsize : edges.length < 2 ^ 63)
    (htarget : sameName crossedTable target.edgeTable = false) (hbefore : LineageWritten base target V W before)
    (depth : ℕ) (d : Direction) :
    Ends Never (KeptAmong lineageNames (Over before [])) (addLineage scratchMemory target subject start depth d)
      fun _ => KeptAmong lineageNames fun db => ∃ vertices crossed,
        IsLineage d (connectionsOf subject kept edges) starts depth vertices crossed ∧
        LineageWritten base target (V ++ vertices) (W ++ crossed) db := by
  refine (ends_expand hreads hstarts hsize d depth).bind fun tables => ?_
  rintro s ⟨rfl, htables, F, N, R, X, hspread, hdb⟩
  refine ((ends_performAll (leads_writeLineage htarget hbefore)).mono (fun _ hs => hs) fun _ t ht => ?_) s
    ⟨htables, hdb⟩
  obtain ⟨ht, crossed, ⟨hnodup, hmem⟩, hwritten⟩ := ht
  exact ⟨ht, R, crossed, hspread.isLineage hnodup hmem, hwritten⟩

/-- In a single direction, where the starts and the subject's edges can be read. -/
theorem lineage_writes (hreads : Readable base subject edges kept)
    (hstarts : base.HoldsIntegers start.vertexTable graphColumns (starts.map one))
    (hempty : ∀ side, base.HoldsIntegers (target.table side) graphColumns []) (hsize : edges.length < 2 ^ 63)
    (htarget : sameName crossedTable target.edgeTable = false) (depth : ℕ) {d : Direction}
    (hd : singleDirections d = [d]) :
    ∃ (vertices crossed : List Int) (db : Database),
      ((Instruction.lineage target subject start depth d).execute Backend.memory).runFrom base = (.ok none, db) ∧
      IsLineage d (connectionsOf subject kept edges) starts depth vertices crossed ∧
      LineageWritten base target vertices crossed db := by
  have hbefore : LineageWritten base target [] [] base := ⟨hempty .vertex, hempty .edge, fun _ _ _ => rfl⟩
  have hruns : ∃ x db db', (lineage Backend.memory target subject start depth d).runFrom base = (.ok x, db') ∧
      (∃ vertices crossed, IsLineage d (connectionsOf subject kept edges) starts depth vertices crossed ∧
        LineageWritten base target vertices crossed db) ∧
      ∀ name, (∀ n ∈ lineageNames, sameName n name = false) → db'.table? name = db.table? name := by
    refine runFrom_within (K := fun _ db => ∃ vertices crossed,
      IsLineage d (connectionsOf subject kept edges) starts depth vertices crossed ∧
        LineageWritten base target vertices crossed db) (Over.nil base) ?_
    rw [hd]
    exact (ends_addOne hreads hstarts hsize htarget hbefore depth d).bind fun _ => .pure fun _ hs => hs
  obtain ⟨⟨⟩, db, db', hrun, ⟨vertices, crossed, hlineage, hwritten⟩, hdb⟩ := hruns
  refine ⟨vertices, crossed, db', ?_, hlineage, hwritten.congr htarget hdb⟩
  rw [Instruction.execute, Instruction.execute.silently, runFrom_bind_ok hrun]
  rfl

/-- The lineages in some directions have been added to the target, one after the other. -/
def Grown (base : Database) (target : Graph) (E : List Connection) (starts : List Int) (depth : ℕ)
    (done : List Direction) (db : Database) : Prop :=
  ∃ parts : List (Direction × List Int × List Int), parts.map Prod.fst = done ∧
    (∀ p ∈ parts, IsLineage p.1 E starts depth p.2.1 p.2.2) ∧
    LineageWritten base target (parts.flatMap (·.2.1)) (parts.flatMap (·.2.2)) db

section Grow

variable (h : Traces base target subject start edges kept starts) (hsize : edges.length < 2 ^ 63) (depth : ℕ)
include h

theorem Traces.grown : Grown base target (connectionsOf subject kept edges) starts depth [] base :=
  ⟨[], rfl, nofun, h.empty .vertex, h.empty .edge, fun _ _ _ => rfl⟩

include hsize

/-- One more direction. What it reads is as it was at first. -/
theorem ends_addLineage (d : Direction) (done : List Direction) :
    Ends Never (KeptAmong lineageNames (Grown base target (connectionsOf subject kept edges) starts depth done))
      (addLineage scratchMemory target subject start depth d) fun _ =>
        KeptAmong lineageNames
          (Grown base target (connectionsOf subject kept edges) starts depth (done ++ [d])) := by
  rintro s ⟨htables, parts, hdone, hparts, hwritten⟩
  -- Where a sweep before has written to what this one reads, the target was empty there and has stayed so.
  have hstarts : s.store.HoldsIntegers start.vertexTable graphColumns (starts.map one) :=
    h.starts_of_written hwritten fun hnil => List.flatMap_eq_nil_iff.2 fun p hp =>
      (hnil ▸ hparts p hp).vertices_eq_nil
  have hrecorded : Recorded s.store subject edges kept :=
    h.recorded_of_written hwritten fun hnil => List.flatMap_eq_nil_iff.2 fun p hp =>
      (hnil ▸ hparts p hp).crossed_eq_nil
  refine ((ends_addOne (hrecorded.readable h.subjectApart) hstarts hsize h.targetApart hwritten depth d).mono
    (fun _ hs => hs) fun _ t ht => ?_) s ⟨htables, Over.nil s.store⟩
  obtain ⟨ht, vertices, crossed, hlineage, hgrown⟩ := ht
  refine ⟨ht, parts ++ [(d, vertices, crossed)], by rw [List.map_append, hdone]; rfl, fun p hp => ?_,
    by simpa using hgrown⟩
  obtain hp | hp := List.mem_append.1 hp
  · exact hparts p hp
  · rw [List.mem_singleton.1 hp]
    exact hlineage

theorem ends_addLineages (ds done : List Direction) :
    Ends Never (KeptAmong lineageNames (Grown base target (connectionsOf subject kept edges) starts depth done))
      (ds.forM (addLineage scratchMemory target subject start depth)) fun _ =>
        KeptAmong lineageNames
          (Grown base target (connectionsOf subject kept edges) starts depth (done ++ ds)) := by
  induction ds generalizing done with
  | nil => exact .pure fun s hs => by rwa [List.append_nil]
  | cons d ds ih =>
    have hrest := ih (done ++ [d])
    rw [List.append_assoc] at hrest
    exact (ends_addLineage h hsize depth d done).bind fun _ => hrest

/-- A lineage adds those in its single directions to the target. -/
theorem lineage_grows (direction : Direction) : ∃ db : Database,
    ((Instruction.lineage target subject start depth direction).execute Backend.memory).runFrom base = (.ok none, db) ∧
      Grown base target (connectionsOf subject kept edges) starts depth (singleDirections direction) db := by
  have hruns : ∃ x db db', (lineage Backend.memory target subject start depth direction).runFrom base = (.ok x, db') ∧
      Grown base target (connectionsOf subject kept edges) starts depth (singleDirections direction) db ∧
      ∀ name, (∀ n ∈ lineageNames, sameName n name = false) → db'.table? name = db.table? name :=
    runFrom_within (h.grown depth) (ends_addLineages h hsize depth (singleDirections direction) [])
  obtain ⟨⟨⟩, db, db', hrun, ⟨parts, hdone, hparts, hwritten⟩, hdb⟩ := hruns
  refine ⟨db', ?_, parts, hdone, hparts, hwritten.congr h.targetApart hdb⟩
  rw [Instruction.execute, Instruction.execute.silently, runFrom_bind_ok hrun]
  rfl

/-- In a single direction. -/
theorem lineage_single {d : Direction} (hd : singleDirections d = [d]) :
    ∃ (vertices crossed : List Int) (db : Database),
      ((Instruction.lineage target subject start depth d).execute Backend.memory).runFrom base = (.ok none, db) ∧
      IsLineage d (connectionsOf subject kept edges) starts depth vertices crossed ∧
      LineageWritten base target vertices crossed db :=
  lineage_writes (h.toRecorded.readable h.subjectApart) h.starts h.empty hsize h.targetApart depth hd

/-- Just the vertices within `depth` of a start are written, a start as often as it is one, any other vertex once,
and just the subject's edges that are entered nearer than that, each once. For both directions, the lineages in
either are written together. As the store counts rows with a word, it has fewer than `2 ^ 63` edges. -/
theorem lineage_exact :
    ∃ (up upEdges down downEdges all allEdges : List Int) (dbUp dbDown dbBoth : Database),
      ((Instruction.lineage target subject start depth .ancestor).execute Backend.memory).runFrom base
        = (.ok none, dbUp) ∧
      IsLineage .ancestor (connectionsOf subject kept edges) starts depth up upEdges ∧
      LineageWritten base target up upEdges dbUp ∧
      ((Instruction.lineage target subject start depth .descendant).execute Backend.memory).runFrom base
        = (.ok none, dbDown) ∧
      IsLineage .descendant (connectionsOf subject kept edges) starts depth down downEdges ∧
      LineageWritten base target down downEdges dbDown ∧
      ((Instruction.lineage target subject start depth .both).execute Backend.memory).runFrom base
        = (.ok none, dbBoth) ∧
      all.Perm (up ++ down) ∧ allEdges.Perm (upEdges ++ downEdges) ∧
      LineageWritten base target all allEdges dbBoth := by
  obtain ⟨up, upEdges, dbUp, hrunUp, hup, hwrittenUp⟩ := lineage_single h hsize depth (d := .ancestor) rfl
  obtain ⟨down, downEdges, dbDown, hrunDown, hdown, hwrittenDown⟩ :=
    lineage_single h hsize depth (d := .descendant) rfl
  obtain ⟨dbBoth, hrun, parts, hdone, hparts, hwritten⟩ := lineage_grows h hsize depth .both
  obtain ⟨⟨_, up', upEdges'⟩, rest, rfl, rfl, hrest⟩ := List.map_eq_cons_iff.1 hdone
  obtain ⟨⟨_, down', downEdges'⟩, rfl, rfl⟩ := List.map_eq_singleton_iff.1 hrest
  rw [List.forall_mem_cons, List.forall_mem_singleton] at hparts
  refine ⟨up, upEdges, down, downEdges, up' ++ down', upEdges' ++ downEdges', dbUp, dbDown, dbBoth, hrunUp, hup,
    hwrittenUp, hrunDown, hdown, hwrittenDown, hrun, ?_, ?_, by simpa using hwritten⟩
  · exact (hparts.1.perm hup).1.append (hparts.2.perm hdown).1
  · exact (hparts.1.perm hup).2.append (hparts.2.perm hdown).2

end Grow

theorem lineage_exact_diamond : ∃ (up down all : List Int) (db : Database),
    ((Instruction.lineage ⟨"trace_3"⟩ .base ⟨"trace_1"⟩ 1 .both).execute Backend.memory).runFrom
        (charted diamond [2, 2] []) = (.ok none, db) ∧
      (∀ v, v ∈ up ↔ distance (connectionsOf .base [] [⟨10, 1, 2⟩, ⟨11, 2, 4⟩, ⟨12, 1, 3⟩, ⟨13, 1, 4⟩]) [v] [2, 2]
        ≤ (1 : ℕ)) ∧
      (∀ v, v ∈ down ↔ distance (connectionsOf .base [] [⟨10, 1, 2⟩, ⟨11, 2, 4⟩, ⟨12, 1, 3⟩, ⟨13, 1, 4⟩]) [2, 2] [v]
        ≤ (1 : ℕ)) ∧
      all.Perm (up ++ down) ∧ db.HoldsIntegers "trace_3_vertex" graphColumns (all.map one) := by
  have h : Traces (charted diamond [2, 2] []) ⟨"trace_3"⟩ .base ⟨"trace_1"⟩
      [⟨10, 1, 2⟩, ⟨11, 2, 4⟩, ⟨12, 1, 3⟩, ⟨13, 1, 4⟩] [] [2, 2] :=
    ⟨⟨by decide +kernel, fun h => absurd h (by decide)⟩, by decide +kernel, fun side => by
      cases side <;> decide +kernel, fun h => absurd h (by decide), by decide +kernel⟩
  obtain ⟨up, upEdges, down, downEdges, all, allEdges, -, -, db, -, hup, -, -, hdown, -, hrun, hperm, -, hwritten⟩ :=
    lineage_exact h (by decide) 1
  exact ⟨up, down, all, db, hrun, hup.mem_vertices, hdown.mem_vertices, hperm, hwritten.vertices⟩

/-- A store with one edge, and with a graph of some edges that is named like scratch tables. -/
def misnamed (ids : List Int) : Database :=
  ((charted ⟨[⟨1, none, []⟩, ⟨2, none, []⟩], [⟨10, 1, 2, []⟩]⟩ [1] []).add
    ⟨(Graph.mk "m_answer").vertexTable, graphColumns, [], []⟩).add
    ⟨(Graph.mk "m_answer").edgeTable, graphColumns, [], (ids.map one).map integers⟩

/-- As a subject this graph loses its edges when the scratch table of their name is created, so that a vertex
within the depth is not written. As a target it loses them when the scratch tables are dropped. -/
theorem lineage_not_exact :
    (Recorded (misnamed [10]) ⟨"m_answer"⟩ [⟨10, 1, 2⟩] [10] ∧
      (misnamed [10]).HoldsIntegers "trace_1_vertex" graphColumns ([1].map one) ∧
      (∀ side, (misnamed [10]).HoldsIntegers ((⟨"trace_3"⟩ : Graph).table side) graphColumns []) ∧
      distanceFrom .descendant (connectionsOf ⟨"m_answer"⟩ [10] [⟨10, 1, 2⟩]) [1] 2 ≤ (1 : ℕ) ∧
      ∃ db, ((Instruction.lineage ⟨"trace_3"⟩ ⟨"m_answer"⟩ ⟨"trace_1"⟩ 1 .descendant).execute
          Backend.memory).runFrom (misnamed [10]) = (.ok none, db) ∧
        db.HoldsIntegers "trace_3_vertex" graphColumns ([1].map one) ∧
        db.HoldsIntegers "trace_3_edge" graphColumns []) ∧
    (∀ side, (misnamed []).HoldsIntegers ((⟨"m_answer"⟩ : Graph).table side) graphColumns []) ∧
      ∃ db, ((Instruction.lineage ⟨"m_answer"⟩ .base ⟨"trace_1"⟩ 1 .descendant).execute
          Backend.memory).runFrom (misnamed []) = (.ok none, db) ∧
        db.HoldsIntegers "m_answer_vertex" graphColumns ([1, 2].map one) ∧ db.table? "m_answer_edge" = none := by
  refine ⟨⟨⟨by decide +kernel, fun _ => by decide +kernel⟩, by decide +kernel, fun side => by
    cases side <;> decide +kernel, ?_, _, Prod.ext (by decide +kernel) rfl, by decide +kernel, by decide +kernel⟩,
    fun side => by cases side <;> decide +kernel, _, Prod.ext (by decide +kernel) rfl, by decide +kernel,
    by decide +kernel⟩
  exact distance_le_iff.2 ⟨1, by simp, 2, by simp, [2], .single ⟨⟨10, 1, 2⟩, by decide, rfl, rfl⟩, le_rfl⟩

end Provenance.Traversal

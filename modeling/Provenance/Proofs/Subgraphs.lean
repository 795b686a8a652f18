import Provenance.Proofs.BoundedPaths

/-!
# Induced subgraphs

A subgraph has the vertices of its subject that a skeleton touches, and the subject's edges between these.
Each is written once, whatever is repeated in the graphs that are read. An edge between written vertices
touches no others, so the subgraph that a subgraph cuts out is that subgraph again.
-/

namespace Provenance.Algebra

open Store Database Traversal IntegerTable Action

variable {base db : Database} {target subject skeleton : Graph} {edges : List Connection}
  {V E SV SE answer : List Int}

/-! ## The touched vertices -/

/-- A vertex that some ids of vertices and of edges touch: it is one of them, or an end of one of them. -/
def Touched (edges : List Connection) (vertices kept : List Int) (v : Int) : Prop :=
  v ∈ vertices ∨ ∃ e ∈ edges, e.id ∈ kept ∧ (e.src = v ∨ e.dst = v)

/-- One end of the edges of a skeleton, where it is a vertex of the subject. -/
def touchedEnds (f : Connection → Int) (edges : List Connection) (V SE : List Int) : List Int :=
  (edges.filter fun e => e.id ∈ SE ∧ f e ∈ V).map f

/-- The touched vertices of the subject, in the order in which they are found. -/
def touchedVertices (edges : List Connection) (V SV SE : List Int) : List Int :=
  SV.filter (· ∈ V) ++ touchedEnds Connection.src edges V SE ++ touchedEnds Connection.dst edges V SE

theorem mem_touchedVertices {v : Int} : v ∈ touchedVertices edges V SV SE ↔ v ∈ V ∧ Touched edges SV SE v := by
  simp only [touchedVertices, touchedEnds, List.mem_append, List.mem_filter, List.mem_map, decide_eq_true_eq, Touched]
  constructor
  · rintro ((⟨hv, hV⟩ | ⟨e, ⟨he, hid, hV⟩, rfl⟩) | ⟨e, ⟨he, hid, hV⟩, rfl⟩)
    · exact ⟨hV, .inl hv⟩
    · exact ⟨hV, .inr ⟨e, he, hid, .inl rfl⟩⟩
    · exact ⟨hV, .inr ⟨e, he, hid, .inr rfl⟩⟩
  · rintro ⟨hV, hv | ⟨e, he, hid, rfl | rfl⟩⟩
    · exact .inl (.inl ⟨hv, hV⟩)
    · exact .inl (.inr ⟨e, ⟨he, hid, hV⟩, rfl⟩)
    · exact .inr ⟨e, ⟨he, hid, hV⟩, rfl⟩

/-! ## What is written -/

/-- The part of a subject that a skeleton touches: each of its vertices and edges once. -/
structure IsSubgraph (edges : List Connection) (V E SV SE vertices written : List Int) : Prop where
  verticesOnce : vertices.Nodup
  mem_vertices : ∀ v, v ∈ vertices ↔ v ∈ V ∧ Touched edges SV SE v
  edgesOnce : written.Nodup
  mem_edges : ∀ i, i ∈ written ↔ i ∈ E ∧ ∃ e ∈ edges, e.id = i ∧ e.src ∈ vertices ∧ e.dst ∈ vertices

namespace IsSubgraph

variable {vertices written vertices' written' : List Int}

/-- The part that a part touches is the same again. -/
theorem again (hdistinct : (edges.map Connection.id).Nodup) (h : IsSubgraph edges V E SV SE vertices written)
    (h' : IsSubgraph edges V E vertices written vertices' written') :
    vertices'.Perm vertices ∧ written'.Perm written := by
  have hvertices : ∀ v, v ∈ vertices' ↔ v ∈ vertices := fun v => by
    rw [h'.mem_vertices]
    refine ⟨?_, fun hv => ⟨((h.mem_vertices v).1 hv).1, .inl hv⟩⟩
    rintro ⟨-, hv | ⟨e, he, hid, hends⟩⟩
    · exact hv
    -- The ends of a written edge are written.
    · obtain ⟨-, e', he', heq, hsrc, hdst⟩ := (h.mem_edges e.id).1 hid
      obtain rfl := List.inj_on_of_nodup_map hdistinct he' he heq
      obtain rfl | rfl := hends
      · exact hsrc
      · exact hdst
  refine ⟨(List.perm_ext_iff_of_nodup h'.verticesOnce h.verticesOnce).2 hvertices,
    (List.perm_ext_iff_of_nodup h'.edgesOnce h.edgesOnce).2 fun i => ?_⟩
  rw [h'.mem_edges, h.mem_edges]
  simp only [hvertices]

theorem vertices_eq_nil (h : IsSubgraph edges [] E SV SE vertices written) : vertices = [] :=
  List.eq_nil_iff_forall_not_mem.2 fun v hv => List.not_mem_nil ((h.mem_vertices v).1 hv).1

theorem edges_eq_nil (h : IsSubgraph edges V [] SV SE vertices written) : written = [] :=
  List.eq_nil_iff_forall_not_mem.2 fun i hi => List.not_mem_nil ((h.mem_edges i).1 hi).1

end IsSubgraph

/-! ## What is read -/

/-- What a subgraph reads and writes: the recorded edges, a subject, a skeleton, and an empty target. -/
structure Projects (db : Database) (target subject skeleton : Graph) (edges : List Connection)
    (V E SV SE : List Int) : Prop where
  edges : db.HoldsIntegers edgeTable Storage.edgeTable.columns (edges.map Connection.row)
  subject : HoldsGraph db subject V E
  skeleton : HoldsGraph db skeleton SV SE
  target : HoldsGraph db target [] []

/-- The table of the touched vertices is the only scratch table. -/
abbrev Answering (base : Database) (answer : List Int) : Database → Prop :=
  Over base [⟨sweepTables.reached, ["id"], answer.map one⟩]

namespace Projects

variable (h : Projects base target subject skeleton edges V E SV SE)
include h

theorem overScratch (hdb : Answering base answer db) : Projects db target subject skeleton edges V E SV SE where
  edges := hdb.reads sameName_sweepNames_edge h.edges
  subject := h.subject.overScratch hdb
  skeleton := h.skeleton.overScratch hdb
  target := h.target.overScratch hdb

/-- One end of the skeleton's edges, where it is a vertex of the subject. -/
theorem rows_touched {column : String} {f : Connection → Int} (hcolumn : column ∈ ["id", "src", "dst"])
    (hf : ∀ e : Connection, Scope.find? [⟨edgeTable, Storage.edgeTable.columns, integers e.row⟩] (.plain column)
      = some (.integer, .integer (f e))) :
    (touched column subject skeleton).rows base = .ok (((touchedEnds f edges V SE).map one).map integers) := by
  have hids := hasIds_one h.skeleton.edges
  have hvertices := hasIds_one h.subject.vertices
  have hreads : Selection.ReadsIntegers base edgeTable Storage.edgeTable.columns edges Connection.row
      [.within (.plain "id") skeleton.edgeTable, .within (.plain column) subject.vertexTable]
      fun e => decide (e.id ∈ SE ∧ f e ∈ V) := by
    refine ⟨h.edges, ?_, fun e => ?_⟩
    · simp only [List.forall_mem_cons, List.not_mem_nil, false_implies, implies_true, and_true,
        Condition.fits_within]
      exact ⟨⟨knows_edge (by decide) _, hids.isSome⟩, knows_edge hcolumn _, hvertices.isSome⟩
    · rw [List.all_cons, List.all_cons, List.all_nil, Bool.and_true,
        Condition.holds_within_integers (find?_number e _) hids, Condition.holds_within_integers (hf e) hvertices,
        Bool.decide_and]
  have hrows := hreads.rows_columns [column] (f := fun e => one (f e)) (List.cons_subset.2 ⟨hcolumn, List.nil_subset _⟩)
    fun e => by
      rw [List.map_cons, List.map_nil, Scope.cell_of_find? (hf e)]
      rfl
  rw [touched, hrows, touchedEnds, List.map_map (f := f)]
  rfl

/-- The touched vertices are gathered. -/
theorem leads_answer : Leads (Answering base [])
    [.insertFrom sweepTables.reached
        (.idsWhere skeleton.vertexTable [.within (.plain "id") subject.vertexTable]),
      .insertFrom sweepTables.reached (touched "src" subject skeleton),
      .insertFrom sweepTables.reached (touched "dst" subject skeleton)]
    (Answering base (touchedVertices edges V SV SE)) := by
  refine .cons (J := Answering base (SV.filter (· ∈ V))) (fun db hdb => ?_) (.cons
    (J := Answering base (SV.filter (· ∈ V) ++ touchedEnds Connection.src edges V SE)) (fun db hdb => ?_)
    (.single fun db hdb => ?_))
  · have hdb' := h.overScratch hdb
    exact Over.insertFrom (l := []) [] hdb (fun _ => rfl)
      (rows_within hdb'.skeleton.vertices (hasIds_one hdb'.subject.vertices))
  · exact Over.insertFrom [] hdb (fun _ => rfl) ((h.overScratch hdb).rows_touched (by decide) (find?_src · _))
  · exact Over.insertFrom [] hdb (fun _ => rfl) ((h.overScratch hdb).rows_touched (by decide) (find?_dst · _))

end Projects

/-! ## The edges -/

/-- Halfway: the vertices are written, and what is needed for the edges can still be read. -/
structure Projected (base : Database) (target subject : Graph) (edges : List Connection) (E vertices : List Int)
    (db : Database) : Prop where
  edges : db.HoldsIntegers edgeTable Storage.edgeTable.columns (edges.map Connection.row)
  subject : db.HoldsIntegers subject.edgeTable graphColumns (E.map one)
  answer : ∃ answer : List Int, (∀ v, v ∈ answer ↔ v ∈ vertices) ∧ db.HasIds sweepTables.reached (answer.map .integer)
  written : Written base target vertices [] db

/-- An edge of the subject beside a recorded one. -/
abbrev besideEdge (z : Int × Connection) : Scope :=
  Selection.beside "s" "e" graphColumns Storage.edgeTable.columns one Connection.row z

theorem find?_besideEdge (z : Int × Connection) {column : String} {n : Int}
    (h : Scope.find? [⟨"e", Storage.edgeTable.columns, integers z.2.row⟩] (.plain column)
      = some (.integer, .integer n)) :
    (besideEdge z).find? (.of "e" column) = some (.integer, .integer n) :=
  (Selection.find?_beside_right (sameName_eq_false_of_isLower (by decide) (by decide) (by decide)) z column).trans h

theorem find?_besideSubject (z : Int × Connection) :
    (besideEdge z).find? (.of "s" "id") = some (.integer, .integer z.1) :=
  (Selection.find?_beside_left z "id").trans (find?_id _ z.1)

/-- An edge of the subject next to a recorded one is that edge, and lies between written vertices. -/
theorem Projected.pairs {vertices answer : List Int} (h : Projected base target subject edges E vertices db)
    (hanswer : ∀ v, v ∈ answer ↔ v ∈ vertices) (hids : db.HasIds sweepTables.reached (answer.map .integer)) :
    Selection.Pairs db subject.edgeTable edgeTable "s" "e" graphColumns Storage.edgeTable.columns E one
      edges Connection.row [.same (.of "s" "id") (.of "e" "id"), .within (.of "e" "src") sweepTables.reached,
        .within (.of "e" "dst") sweepTables.reached]
      fun z => decide (z.1 = z.2.id ∧ z.2.src ∈ vertices ∧ z.2.dst ∈ vertices) := by
  refine ⟨h.subject, h.edges, ?_, fun z _ => ?_⟩
  · simp (disch := decide) [Scope.hasColumn_of_mem, hids.isSome]
  · rw [List.all_cons, List.all_cons, List.all_cons, List.all_nil, Bool.and_true,
      Condition.holds_same_integers (find?_besideSubject z) (find?_besideEdge z (find?_number z.2 _)),
      Condition.holds_within_integers (find?_besideEdge z (find?_src z.2 _)) hids,
      Condition.holds_within_integers (find?_besideEdge z (find?_dst z.2 _)) hids]
    simp only [hanswer, Bool.decide_and]

theorem Projected.rows_edges {vertices : List Int} (h : Projected base target subject edges E vertices db) :
    ∃ written : List Int, (written.Nodup ∧ ∀ i, i ∈ written ↔
        i ∈ E ∧ ∃ e ∈ edges, e.id = i ∧ e.src ∈ vertices ∧ e.dst ∈ vertices) ∧
      ((Selection.join [.column (.of "s" "id")] [⟨subject.edgeTable, some "s", []⟩, ⟨edgeTable, some "e",
        [.same (.of "s" "id") (.of "e" "id"), .within (.of "e" "src") sweepTables.reached,
          .within (.of "e" "dst") sweepTables.reached]⟩]).grouped [.of "s" "id"]).rows db
        = .ok ((written.map one).map integers) := by
  obtain ⟨answer, hanswer, hids⟩ := h.answer
  have hpairs := h.pairs hanswer hids
  have hcell : ∀ z, (besideEdge z).cell (.of "s" "id") = .integer z.1 := fun z =>
    Scope.cell_of_find? (find?_besideSubject z)
  obtain ⟨found, hnodup, hmem, heq, hrows⟩ := Selection.rows_join_grouped Cell.order_integer (c := one)
    (R := fun k i => k = one i)
    (hpairs.finds [.column (.of "s" "id")] [.of "s" "id"]
      (by simp (disch := decide) [Term.mentions, Scope.hasColumn_of_mem])
      (by simp (disch := decide) [Scope.hasColumn_of_mem]))
    hpairs.scopes (List.cons_ne_nil _ _) (f := fun z => one z.1) (fun z _ => congrArg (fun c => [c]) (hcell z))
    fun k group hne hgroup => by
      obtain ⟨sc, rest, rfl⟩ := List.exists_cons_of_ne_nil hne
      obtain ⟨z, hz, rfl, rfl⟩ := (hgroup sc).1 List.mem_cons_self
      exact ⟨z.1, congrArg (fun c => [c]) (hcell z), rfl⟩
  have hkeys : found.map Prod.fst = (found.map Prod.snd).map one := by
    rw [List.map_map]
    exact List.map_congr_left heq
  rw [hkeys] at hnodup hmem
  refine ⟨found.map Prod.snd, ⟨hnodup.of_map one, fun i => ?_⟩, by rw [hrows, List.map_map (g := one)]; rfl⟩
  rw [← List.mem_map_of_injective one_injective, hmem]
  simp only [List.mem_filter, decide_eq_true_eq, one_injective.eq_iff, Prod.exists, List.mem_product]
  constructor
  · rintro ⟨_, e, ⟨⟨hE, he⟩, rfl, hsrc, hdst⟩, rfl⟩
    exact ⟨hE, e, he, rfl, hsrc, hdst⟩
  · rintro ⟨hE, e, he, rfl, hsrc, hdst⟩
    exact ⟨e.id, e, ⟨⟨hE, he⟩, rfl, hsrc, hdst⟩, rfl⟩

namespace Projects

variable (h : Projects base target subject skeleton edges V E SV SE)
include h

/-- The touched vertices are written, each once. -/
theorem leads_vertices : Leads (Answering base (touchedVertices edges V SV SE))
    [.insertFrom target.vertexTable ((Selection.ids sweepTables.reached).groupedBy ["id"])]
    fun db => ∃ vertices : List Int, (vertices.Nodup ∧ ∀ v, v ∈ vertices ↔ v ∈ V ∧ Touched edges SV SE v) ∧
      Projected base target subject edges E vertices db := by
  refine .single fun db hdb => ?_
  have hdb' := h.overScratch hdb
  have hanswer : db.HoldsIntegers sweepTables.reached graphColumns ((touchedVertices edges V SV SE).map one) :=
    hdb.holds _ (List.mem_singleton_self _)
  have hreads : Selection.ReadsIntegers db sweepTables.reached graphColumns (touchedVertices edges V SV SE) one []
      fun _ => true := ⟨hanswer, nofun, fun _ => rfl⟩
  obtain ⟨vertices, hnodup, hmem, hrows⟩ := hreads.rows_grouped ["id"] (f := one) (g := id) (by decide) (fun n => by
    rw [List.map_cons, List.map_nil, Scope.cell_of_find? (find?_id _ n)]
    rfl) one_injective (fun _ => rfl) (by decide)
  obtain ⟨db', happly, hvertices, hkeeps⟩ := hdb'.target.vertices.insertFrom (areIntegers_map _) (isOpen_map _) hrows
    fun row hrow => by
      obtain ⟨n, -, rfl⟩ := List.mem_map.1 hrow
      rfl
  have hscratch : sameName (target.table .vertex) sweepTables.reached = false := by
    rw [sameName_comm]
    exact sameName_sweepNames_table target .vertex _ (by decide)
  simp only [id_eq, true_and, exists_eq_right, mem_touchedVertices] at hmem
  refine ⟨db', happly, vertices, ⟨hnodup, hmem⟩, ?_, ?_,
    ⟨touchedVertices edges V SV SE, fun v => ?_, ?_⟩, hvertices, ?_, fun name hname hside => ?_⟩
  · exact hdb'.edges.congr (hkeeps _ (sameName_table_edgeTable target .vertex))
  · exact hdb'.subject.edges.congr (hkeeps _ (sameName_vertexTable_edgeTable target subject))
  · rw [mem_touchedVertices, hmem]
  · exact (hasIds_one hanswer).congr (hkeeps _ hscratch)
  · exact hdb'.target.edges.congr (hkeeps _ (sameName_vertexTable_edgeTable target target))
  · rw [hkeeps name (hside .vertex), hdb.others name hname]

/-- The part of the subject that the skeleton touches is written. -/
theorem subgraph_writes : ∃ (vertices written : List Int) (db : Database),
    ((Instruction.subgraph target subject skeleton).execute Backend.memory).runFrom base = (.ok none, db) ∧
      IsSubgraph edges V E SV SE vertices written ∧ Written base target vertices written db := by
  have hruns : ∃ x db db', (subgraph Backend.memory target subject skeleton).runFrom base = (.ok x, db') ∧
      (∃ vertices written : List Int, IsSubgraph edges V E SV SE vertices written ∧
        Written base target vertices written db) ∧
      ∀ name, (∀ n ∈ sweepNames, sameName n name = false) → db'.table? name = db.table? name := by
    refine runFrom_within (K := fun _ db => ∃ vertices written : List Int, IsSubgraph edges V E SV SE vertices written ∧
      Written base target vertices written db) (Over.nil base) ?_
    refine ends_createIntegers [] (List.Sublist.refl _) (by decide) (by simp) ?_
    refine (ends_performAll (h.leads_answer.append h.leads_vertices)).bind fun _ => ends_performAll ?_
    refine .single fun db => ?_
    rintro ⟨vertices, ⟨hnodup, hmem⟩, hdb⟩
    obtain ⟨written, ⟨honce, hwritten⟩, hrows⟩ := hdb.rows_edges
    obtain ⟨db', happly, hedges, hkeeps⟩ := hdb.written.edges.insertFrom (areIntegers_map _) (isOpen_map _) hrows
      fun row hrow => by
        obtain ⟨n, -, rfl⟩ := List.mem_map.1 hrow
        rfl
    refine ⟨db', happly, vertices, written, ⟨hnodup, hmem, honce, hwritten⟩, hdb.written.vertices.congr (hkeeps _ ?_),
      hedges, fun name hname hside => ?_⟩
    · rw [sameName_comm]
      exact sameName_vertexTable_edgeTable target target
    · rw [hkeeps name (hside .edge), hdb.written.others name hname hside]
  obtain ⟨⟨⟩, db, db', hrun, ⟨vertices, written, hsubgraph, hwritten⟩, hdb⟩ := hruns
  refine ⟨vertices, written, db', ?_, hsubgraph, hwritten.congr hdb⟩
  rw [Instruction.execute, Instruction.execute.silently, runFrom_bind_ok hrun]
  rfl

/-- A subgraph has, each once, just the vertices of the subject that are vertices of the skeleton or ends of its
edges, and just the edges of the subject between these. With it as the skeleton, the same subject has the same
subgraph. -/
theorem subgraph_induced (hdistinct : (edges.map Connection.id).Nodup) :
    ∃ (vertices written : List Int) (db : Database),
      ((Instruction.subgraph target subject skeleton).execute Backend.memory).runFrom base = (.ok none, db) ∧
      IsSubgraph edges V E SV SE vertices written ∧ Written base target vertices written db ∧
      ∀ other : Graph, HoldsGraph db other [] [] → ∃ (vertices' written' : List Int) (db' : Database),
        ((Instruction.subgraph other subject target).execute Backend.memory).runFrom db = (.ok none, db') ∧
        vertices'.Perm vertices ∧ written'.Perm written ∧ Written db other vertices' written' db' := by
  obtain ⟨vertices, written, db, hrun, hsubgraph, hwritten⟩ := h.subgraph_writes
  refine ⟨vertices, written, db, hrun, hsubgraph, hwritten, fun other hother => ?_⟩
  have hagain : Projects db other subject target edges V E vertices written :=
    ⟨h.edges.congr (hwritten.others _ sameName_sweepNames_edge (sameName_table_edgeTable target)),
      h.subject.of_written h.target hwritten (fun hnil => (hnil ▸ hsubgraph).vertices_eq_nil)
        fun hnil => (hnil ▸ hsubgraph).edges_eq_nil, hwritten.graph, hother⟩
  obtain ⟨vertices', written', db', hrun', hsubgraph', hwritten'⟩ := hagain.subgraph_writes
  obtain ⟨hvertices, hedges⟩ := hsubgraph.again hdistinct hsubgraph'
  exact ⟨vertices', written', db', hrun', hvertices, hedges, hwritten'⟩

end Projects

/-- A store with a document, with a graph of some vertices and edges, and with two empty graphs. -/
def sketched (d : Document) (vertices kept : List Int) : Database :=
  [("trace_1", vertices, kept), ("trace_2", [], []), ("trace_3", [], [])].foldl (fun db (name, ns, ms) =>
    (db.add ⟨(Graph.mk name).vertexTable, graphColumns, [], (ns.map one).map integers⟩).add
      ⟨(Graph.mk name).edgeTable, graphColumns, [], (ms.map one).map integers⟩)
    ((Storage.load d).runFrom Storage.fresh).2

/-- The skeleton repeats a vertex and an edge, and has an edge that is not known. -/
theorem subgraph_induced_diamond : ∃ (vertices written vertices' written' : List Int) (db db' : Database),
    ((Instruction.subgraph ⟨"trace_2"⟩ .base ⟨"trace_1"⟩).execute Backend.memory).runFrom
        (sketched diamond [4, 4] [12, 12, 77]) = (.ok none, db) ∧
      vertices.Perm [1, 3, 4] ∧ written.Perm [12, 13] ∧ HoldsGraph db ⟨"trace_2"⟩ vertices written ∧
      ((Instruction.subgraph ⟨"trace_3"⟩ .base ⟨"trace_2"⟩).execute Backend.memory).runFrom db = (.ok none, db') ∧
      vertices'.Perm [1, 3, 4] ∧ written'.Perm [12, 13] ∧ HoldsGraph db' ⟨"trace_3"⟩ vertices' written' := by
  have h : Projects (sketched diamond [4, 4] [12, 12, 77]) ⟨"trace_2"⟩ .base ⟨"trace_1"⟩
      [⟨10, 1, 2⟩, ⟨11, 2, 4⟩, ⟨12, 1, 3⟩, ⟨13, 1, 4⟩] [1, 2, 3, 4] [10, 11, 12, 13] [4, 4] [12, 12, 77] :=
    ⟨by decide +kernel, ⟨by decide +kernel, by decide +kernel⟩, ⟨by decide +kernel, by decide +kernel⟩,
      by decide +kernel, by decide +kernel⟩
  have hempty : HoldsGraph (sketched diamond [4, 4] [12, 12, 77]) ⟨"trace_3"⟩ [] [] :=
    ⟨by decide +kernel, by decide +kernel⟩
  obtain ⟨vertices, written, db, hrun, hsubgraph, hwritten, hagain⟩ := h.subgraph_induced (by decide)
  have hvertices : vertices.Perm [1, 3, 4] := by
    refine (List.perm_ext_iff_of_nodup hsubgraph.verticesOnce (by decide)).2 fun v => ?_
    rw [hsubgraph.mem_vertices]
    simp [Touched]
    omega
  have hedges : written.Perm [12, 13] := by
    refine (List.perm_ext_iff_of_nodup hsubgraph.edgesOnce (by decide)).2 fun i => ?_
    rw [hsubgraph.mem_edges]
    simp [hvertices.mem_iff]
    omega
  obtain ⟨vertices', written', db', hrun', hvertices', hedges', hwritten'⟩ :=
    hagain _ (hempty.of_apart hwritten fun side => by cases side <;> decide +kernel)
  exact ⟨vertices, written, vertices', written', db, db', hrun, hvertices, hedges, hwritten.graph, hrun',
    hvertices'.trans hvertices, hedges'.trans hedges, hwritten'.graph⟩

end Provenance.Algebra

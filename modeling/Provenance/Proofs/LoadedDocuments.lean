import Provenance.Proofs.ConsistentStores
import Provenance.Proofs.ExportedGraphs

/-!
# Loaded documents

A document that was read and loaded into a new store is still there after any plain queries: a forced dump of
a variable shows what the document says of its elements, and one of the base graph shows the document.
-/

namespace Provenance

open Store Action Workspace SymbolTable Resolution

/-! ## What is shown of a document -/

namespace Document

variable {d : Document}

theorem id_of_shownEdge? {n : Int} {e : ExportedEdge} (h : d.shownEdge? n = some e) : e.id = n := by
  obtain ⟨f, hf, rfl⟩ := Option.map_eq_some_iff.1 h
  exact of_decide_eq_true (List.find?_some (p := fun f : EdgeRecord => f.id = n) hf)

/-- Vertices are shown in the order of their ids, and so are edges. -/
theorem pairwise_shown (d : Document) (vertices edges : List Int) :
    ((d.shown vertices edges).vertices.map ExportedVertex.id).Pairwise (· < ·) ∧
      ((d.shown vertices edges).edges.map ExportedEdge.id).Pairwise (· < ·) := by
  constructor
  · rw [shown, List.map_map]
    exact (List.map_id (OrderedMap.ascending vertices)).symm ▸ OrderedMap.pairwise_ascending vertices
  · rw [shown, List.pairwise_map, List.pairwise_filterMap]
    refine (OrderedMap.pairwise_ascending edges).imp fun hlt e he f hf => ?_
    rwa [id_of_shownEdge? he, id_of_shownEdge? hf]

/-- An export of all that a document has, in the order of the ids. -/
structure IsShownBy (d : Document) (g : ExportedGraph) : Prop where
  vertices : g.vertices.Perm (d.vertices.map fun v => ⟨v.id, v.annotations⟩)
  edges : g.edges.Perm (d.edges.map fun e => ⟨e.id, e.src, e.dst, e.annotations⟩)
  ascendingVertices : (g.vertices.map ExportedVertex.id).Pairwise (· < ·)
  ascendingEdges : (g.edges.map ExportedEdge.id).Pairwise (· < ·)

theorem perm_ascending {ids : List Int} (h : ids.Nodup) : (OrderedMap.ascending ids).Perm ids :=
  (List.perm_ext_iff_of_nodup ((OrderedMap.pairwise_ascending ids).imp ne_of_lt) h).2 fun _ =>
    OrderedMap.mem_ascending

/-- All elements of a document are shown as the document has them. -/
theorem IsSound.isShownBy (h : d.IsSound) :
    d.IsShownBy (d.shown (d.vertices.map VertexRecord.id) (d.edges.map EdgeRecord.id)) where
  vertices := by
    refine ((perm_ascending h.vertices).map d.shownVertex).trans (.of_eq ?_)
    rw [List.map_map]
    refine List.map_congr_left fun v hv => ?_
    have hannotations : OrderedMap.find? (d.elements .vertex) v.id = some v.annotations :=
      OrderedMap.find?_of_mem (h.nodup_elements .vertex)
        (List.mem_map_of_mem (f := fun v : VertexRecord => (v.id, v.annotations)) hv)
    rw [Function.comp_apply, shownVertex, hannotations]
    rfl
  edges := by
    refine ((perm_ascending h.edges).filterMap d.shownEdge?).trans (.of_eq ?_)
    rw [List.filterMap_map, ← List.filterMap_eq_map]
    refine List.filterMap_congr fun e he => ?_
    rw [Function.comp_apply, shownEdge?, h.find?_edges he]
    rfl
  ascendingVertices := (d.pairwise_shown _ _).1
  ascendingEdges := (d.pairwise_shown _ _).2

end Document

/-! ## Tables of ids -/

/-- A typed table of a graph has ids that are words. -/
theorem Store.Database.Has.exists_hasIds {db : Database} {name : String}
    (h : db.Has name graphColumns) : ∃ ids : List Int, (∀ n ∈ ids, Text.isWord n = true) ∧
      db.HasIds name (ids.map .integer) := by
  obtain ⟨⟨_, columns, _, rows⟩, ht, -, hcolumns, htyped⟩ := h
  obtain ⟨ids, hwords, hrows⟩ := htyped.exists_integers hcolumns rfl
  obtain rfl : columns = graphColumns := hcolumns
  obtain rfl : rows = ids.map fun n => [.integer n] := hrows
  refine ⟨ids, hwords, _, .integer "id", ht, congrArg some (congrArg (Prod.mk _) ?_)⟩
  rw [List.map_map]
  rfl

/-- The base graph of a store has the ids of the recorded document. -/
theorem Storage.Records.hasIds_base {d : Document} {db : Database}
    (h : Storage.Records (Storage.documentLog d) db) (side : Side) :
    db.HasIds (Graph.base.table side) (((d.elements side).map Prod.fst).map .integer) := by
  obtain ⟨ids, hrecorded, hids, -⟩ := h.hasIds_mirrored (Storage.Log.mirrors_documentLog d side)
  suffices (d.elements side).map Prod.fst = ids by rwa [this]
  have hinjective : Function.Injective fun n : Int => some (Cell.integer n) := fun m n h => by simpa using h
  refine hinjective.list_map (.trans ?_ hrecorded)
  cases side
  · rw [Storage.rows_vertices, Document.elements, List.map_map, List.map_map, List.map_map]
    rfl
  · rw [Storage.rows_edges, Document.elements, List.map_map, List.map_map, List.map_map]
    rfl

namespace Session

/-! ## Forced dumps -/

/-- The variable of a query that only dumps it, of whatever size it is. -/
def dumped? (query : String) : Option Query.Variable :=
  match Query.parse query with
  | .ok [.command _ "dump" [.name _ "force", .var _ v]] => some v
  | _ => none

theorem dumped?_eq_some {query : String} {v : Query.Variable} (h : dumped? query = some v) :
    ∃ p p' p'', Query.parse query = .ok [.command p "dump" [.name p' "force", .var p'' v]] := by
  rw [dumped?] at h
  split at h
  · next hparse =>
    cases h
    exact ⟨_, _, _, hparse⟩
  · cases h

section Resolve

variable {σ : Type} (b : Backend σ) {w : Workspace σ} {v : Query.Variable} (hkind : v.kind = .graph) {name : String}
  (hname : w.symbols.lookup? v.name = some name)
include hkind hname

/-- The dump of a bound variable exports what it names. -/
theorem runFrom_command_dump (p p' p'' : Query.Position) :
    (command b p "dump" [.name p' "force", .var p'' v]).runFrom ⟨w, []⟩
      = (.ok (), ⟨w, [.exportGraph ⟨name⟩ .plain true none]⟩) := by
  have hfind : Command.find? "dump" = some .dump := by decide
  have hsplit : splitKeywords .dump [.name p' "force", .var p'' v] = .ok (["force"], [.var p'' v]) := rfl
  have hkeywords : checkKeywords .dump ["force"] [.var p'' v] p = .ok () := rfl
  have harity : checkArity "dump" (.exactly Command.dump.operands.length) [Query.Expr.var p'' v].length p = .ok () := rfl
  have hoperands : checkOperands "dump" 0 Command.dump.operands [.var p'' v] = .ok () := by
    rw [Command.operands, checkOperands, kindOf, hkind]
    rfl
  have hvalue : (valueOf v p'').runFrom ⟨w, []⟩ = (.ok (.graph ⟨name⟩), (⟨w, []⟩ : Draft σ)) := by
    simp only [valueOf, runFrom_bind, runFrom_get, hname, hkind]
    rfl
  have hvalues : (evaluateAll b [.var p'' v]).runFrom ⟨w, []⟩ = (.ok [.graph ⟨name⟩], ⟨w, []⟩) := by
    simp only [evaluateAll, evaluate, runFrom_bind, hvalue, runFrom_pure]
  simp only [command, hfind, hsplit, hkeywords, harity, hoperands, Draft.require, Except.mapError,
    runFrom_bind, runFrom_ofExcept, hvalues]
  rfl

/-- A query that dumps a bound variable becomes the program that exports what it names. -/
theorem runFrom_resolve_dump (hpending : w.symbols.pending = []) (hcleared : w.symbols.cleared = false)
    (p p' p'' : Query.Position) :
    (resolve b [.command p "dump" [.name p' "force", .var p'' v]]).runFrom w
      = (.ok [.exportGraph ⟨name⟩ .plain true none], w) := by
  have hstatements : ([Query.Statement.command p "dump" [.name p' "force", .var p'' v]].forM (statement b)).runFrom
      ⟨w, []⟩ = (.ok (), ⟨w, [.exportGraph ⟨name⟩ .plain true none]⟩) := by
    rw [Action.forM_cons, statement, runFrom_bind_ok (runFrom_command_dump b hkind hname p p' p'')]
    rfl
  have hcommit : (commit b).runFrom w = (.ok (), w) := by
    obtain ⟨⟨bindings, pending, cleared, counter⟩, s⟩ := w
    dsimp only at hpending hcleared
    subst hpending hcleared
    rfl
  simp only [resolve, runFrom_of, hstatements, hcommit]

end Resolve

/-- A dump of a bound variable answers with the export of what the variable names. -/
theorem execute_dump {db : Database} (h : Whole db) {v : Query.Variable} (hkind : v.kind = .graph) {name : String}
    (hname : nameOf? db v.name = some name) {query : String} (hquery : dumped? query = some v) {g : ExportedGraph}
    (hexport : (Algebra.exportedGraph Backend.memory ⟨name⟩).runFrom ((SymbolTable.load Backend.memory).runFrom db).2
      = (.ok g, ((SymbolTable.load Backend.memory).runFrom db).2)) :
    ((execute Backend.memory query).runFrom db).1 = .ok (.graph g) := by
  obtain ⟨p, p', p'', hparse⟩ := dumped?_eq_some hquery
  obtain ⟨t, db', -, hload, -, -, hpending, hcleared, hnames, -⟩ :=
    load_reliable Backend.isDatabase_memory h.intact h.counter
  obtain ⟨-, hbindings⟩ := h.loaded Backend.isDatabase_memory hload
  rw [hload] at hexport
  have hlookup : t.lookup? v.name = some name := by
    rw [← hname, SymbolTable.lookup?, nameOf?, hbindings, hnames]
    rfl
  have hresolve := runFrom_resolve_dump Backend.memory (w := ⟨t, db'⟩) hkind hlookup hpending hcleared p p' p''
  have hanswer : ((Instruction.exportGraph ⟨name⟩ .plain true none).execute Backend.memory).runFrom db'
      = (.ok (some (.graph g)), db') := by
    have hforced : (Algebra.exportGraph Backend.memory ⟨name⟩ .plain true none).runFrom db' = (.ok (.graph g), db') := by
      simp only [Algebra.exportGraph, if_true, pure_bind]
      rw [if_neg (by decide), runFrom_bind_ok hexport]
      rfl
    rw [Instruction.execute, runFrom_map, hforced]
  have hreplies : Program.Replies Backend.memory [.exportGraph ⟨name⟩ .plain true none] db' [.graph g] db' :=
    .cons hanswer (.nil db')
  have hrun := runFrom_resolveAndRun_ok hresolve
  rw [runFrom_run_of_replies hreplies] at hrun
  obtain ⟨db'', hexecute, -⟩ := runFrom_execute Backend.isDatabase_memory hparse hload hrun
  rw [hexecute]
  rfl

/-! ## What variables show -/

/-- A graph that a variable names has tables of ids. -/
theorem Whole.exists_hasIds {db : Database} (h : Whole db) {v : Query.Variable} (hkind : v.kind = .graph)
    {name : String} (hname : nameOf? db v.name = some name) (side : Side) : ∃ ids : List Int,
      (∀ n ∈ ids, Text.isWord n = true) ∧ db.HasIds ((⟨name⟩ : Graph).table side) (ids.map .integer) := by
  have hnamed : named v name = .graph ⟨name⟩ := by
    rw [named, hkind]
    rfl
  have hhas := h.meets _ _ (.handle (.bound hname) (by rw [hnamed]; rfl) side)
  rw [hnamed] at hhas
  exact hhas.exists_hasIds

/-- A forced dump shows the elements of the graph that a variable names as the document has them. -/
theorem execute_dump_recorded {d : Document} (hd : d.IsSound) {db : Database} (h : Whole db)
    (hrecords : Storage.Records (Storage.documentLog d) db) {v : Query.Variable} (hkind : v.kind = .graph)
    {name : String} (hname : nameOf? db v.name = some name) : ∃ vertices edges : List Int,
      db.HasIds (Graph.mk name).vertexTable (vertices.map .integer) ∧
      db.HasIds (Graph.mk name).edgeTable (edges.map .integer) ∧
      ∀ query, dumped? query = some v →
        ((execute Backend.memory query).runFrom db).1 = .ok (.graph (d.shown vertices edges)) := by
  obtain ⟨vertices, hwords, hvertices⟩ := h.exists_hasIds hkind hname .vertex
  obtain ⟨edges, -, hedges⟩ := h.exists_hasIds hkind hname .edge
  refine ⟨vertices, edges, hvertices, hedges, fun query hquery => execute_dump h hkind hname hquery ?_⟩
  have hspares : Spares db ((SymbolTable.load Backend.memory).runFrom db).2 :=
    SymbolTable.load_preserves Backend.isDatabase_memory (undisturbed_spares db) db (Spares.refl db)
  have hkept : ∀ side, ((SymbolTable.load Backend.memory).runFrom db).2.table? ((⟨name⟩ : Graph).table side)
      = db.table? ((⟨name⟩ : Graph).table side) := fun side =>
    hspares.others _ (by rw [sameName_comm, Graph.sameName_table_relation])
  exact Storage.Records.runFrom_exportedGraph hd (hrecords.loaded Backend.isDatabase_memory) hwords
    (hvertices.congr (hkept .vertex)) (hedges.congr (hkept .edge))

/-- Plain queries, one after the other. -/
inductive Queried : Database → Database → Prop
  | refl (db : Database) : Queried db db
  | query {db db' : Database} (h : Queried db db') {query : String} (hplain : Query.IsPlain query)
    (hfits : ∀ e, TooMany e → ((execute Backend.memory query).runFrom db').1 ≠ .error (.backend e)) :
    Queried db ((execute Backend.memory query).runFrom db').2

namespace Queried

variable {db db' : Database}

theorem whole (h : Queried db db') (hdb : Whole db) : Whole db' := by
  induction h with
  | refl => exact hdb
  | query _ hplain hfits ih =>
    obtain ⟨e, he, hmany⟩ | ⟨-, hwhole⟩ := ih.executed Backend.isDatabase_memory hplain
    · exact (hfits e hmany he).elim
    · exact hwhole

theorem records (h : Queried db db') {log : Storage.Log} (hdb : Storage.Records log db) :
    Storage.Records log db' := by
  induction h with
  | refl => exact hdb
  | query _ hplain _ ih => exact ih.executed Backend.isDatabase_memory hplain

end Queried

/-- A text that is accepted is that of a document with distinct ids and known ends. Once it is loaded into a new
store, a forced dump shows, after any plain queries, what the document says of the elements of a variable's
graph, and just the document if the variable is that of the base graph. -/
theorem dumped_as_loaded {source : String} {d : Document} (hread : Document.read source = .ok d) :
    ((d.vertices.map VertexRecord.id).Nodup ∧ (d.edges.map EdgeRecord.id).Nodup ∧
      ∀ e ∈ d.edges, e.src ∈ d.vertices.map VertexRecord.id ∧ e.dst ∈ d.vertices.map VertexRecord.id) ∧
    ∃ loaded, (Storage.load d).runFrom Storage.fresh = (.ok (d.vertices.length, d.edges.length), loaded) ∧
      ∀ db, Queried loaded db →
        (∀ query, dumped? query = some ⟨baseVariable⟩ →
          ∃ g, ((execute Backend.memory query).runFrom db).1 = .ok (.graph g) ∧ d.IsShownBy g) ∧
        ∀ (v : Query.Variable) name, v.kind = .graph → nameOf? db v.name = some name →
          ∃ vertices edges : List Int, db.HasIds (Graph.mk name).vertexTable (vertices.map .integer) ∧
            db.HasIds (Graph.mk name).edgeTable (edges.map .integer) ∧
            ∀ query, dumped? query = some v →
              ((execute Backend.memory query).runFrom db).1 = .ok (.graph (d.shown vertices edges)) := by
  have hd := Document.isSound_of_read hread
  refine ⟨⟨hd.vertices, hd.edges, hd.ends⟩, ?_⟩
  obtain ⟨loaded, hload, hrecords⟩ := Storage.Records.fresh.load d
  have hwhole : Whole loaded := by
    have hholds := (History.fresh.load hd.words : History (fun _ => False) _ _).holds.1
    rwa [hload] at hholds
  refine ⟨loaded, hload, fun db hqueried => ⟨fun query hquery => ?_, fun v name hkind hname =>
    execute_dump_recorded hd (hqueried.whole hwhole) (hqueried.records hrecords) hkind hname⟩⟩
  have hdb := hqueried.records hrecords
  obtain ⟨vertices, edges, hvertices, hedges, hdump⟩ := execute_dump_recorded hd (hqueried.whole hwhole) hdb
    (v := ⟨baseVariable⟩) (by decide) (by rw [nameOf?, if_pos rfl])
  have hids : ∀ {side} {ids : List Int}, db.HasIds (Graph.base.table side) (ids.map .integer) →
      ids = (d.elements side).map Prod.fst := fun {side} {ids} hids =>
    (List.map_injective_iff.2 fun m n h => Cell.integer.inj h) (hids.eq (hdb.hasIds_base side))
  obtain rfl : vertices = d.vertices.map VertexRecord.id := (hids hvertices).trans List.map_map
  obtain rfl : edges = d.edges.map EdgeRecord.id := (hids hedges).trans List.map_map
  exact ⟨_, hdump query hquery, hd.isShownBy⟩

/-- A text with quotes in an annotation, whose vertices do not ascend. -/
def quotedText : String :=
  "\x7b\"vertices\":[\x7b\"id\":7,\"annotations\":\x7b\"name\":\"it's \\\"a\\\"\\n\"\x7d\x7d,\x7b\"id\":2\x7d]"
    ++ ",\"edges\":[\x7b\"id\":5,\"src\":2,\"dst\":7\x7d]\x7d"

def quoted : Document where
  vertices := [⟨7, none, [("name", "it's \"a\"\n")]⟩, ⟨2, none, []⟩]
  edges := [⟨5, 2, 7, []⟩]

/-- After a query that adds the base graph to itself. -/
theorem dumped_as_loaded_quoted : Document.read quotedText = .ok quoted ∧
    ∃ db, Queried ((Storage.load quoted).runFrom Storage.fresh).2 db ∧
      (∃ g, ((execute Backend.memory "dump force $base").runFrom db).1 = .ok (.graph g) ∧ quoted.IsShownBy g) ∧
      nameOf? db "$a" = some "trace_1" ∧
      ∃ vertices edges : List Int, db.HasIds "trace_1_vertex" (vertices.map .integer) ∧
        db.HasIds "trace_1_edge" (edges.map .integer) ∧
        ((execute Backend.memory "dump force $a").runFrom db).1 = .ok (.graph (quoted.shown vertices edges)) := by
  have hread : Document.read quotedText = .ok quoted := by decide +kernel
  obtain ⟨-, loaded, hload, hdumps⟩ := dumped_as_loaded hread
  have houtcome : (outcome? "$a = $base + $base" loaded).map
      (fun x => (x.1.isOk, storedName? x.2.store "$a")) = some (true, some "trace_1") := by
    rw [show loaded = ((Storage.load quoted).runFrom Storage.fresh).2 by rw [hload]]
    decide +kernel
  obtain ⟨⟨result, w⟩, houtcome, heq⟩ := Option.map_eq_some_iff.1 houtcome
  obtain ⟨hresult, hstored⟩ := Prod.mk.inj heq
  obtain ⟨hexecute, hw⟩ := execute_of_outcome? houtcome
  have hqueried : Queried loaded ((execute Backend.memory "$a = $base + $base").runFrom loaded).2 :=
    (Queried.refl loaded).query (by decide +kernel) (fits_of_isOk (by rw [hexecute]; exact hresult))
  have hname : nameOf? ((execute Backend.memory "$a = $base + $base").runFrom loaded).2 "$a" = some "trace_1" := by
    rw [nameOf?, if_neg (by decide), storedName?_execute_memory hw, hstored]
  obtain ⟨hbase, hbound⟩ := hdumps _ hqueried
  obtain ⟨vertices, edges, hvertices, hedges, hdump⟩ := hbound ⟨"$a"⟩ "trace_1" (by decide) hname
  exact ⟨hread, _, by rwa [hload], hbase "dump force $base" (by decide +kernel), hname, vertices, edges, hvertices,
    hedges, hdump "dump force $a" (by decide +kernel)⟩

end Session

end Provenance

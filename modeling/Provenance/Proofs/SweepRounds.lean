import Provenance.Proofs.Distances
import Provenance.Proofs.SweptTables

/-!
# Rounds of traversals

What one round of a traversal does to the lists in its scratch tables. The recorded edges and the edges
of the subject are lists as well.
-/

namespace Provenance.Traversal

open Store Database IntegerTable Action

/-! ## Ids -/

/-- A row of one integer. -/
def one (n : Int) : List Int := [n]

theorem one_injective : Function.Injective one := fun _ _ h => by simpa [one] using h

section Ids

variable {db : Database} {table other : String} {ns ms : List Int}

theorem find?_id (source : String) (n : Int) :
    Scope.find? [⟨source, graphColumns, integers (one n)⟩] (.plain "id") = some (.integer, .integer n) :=
  Scope.find?_named (by decide) (by decide) 0 (rfl : (["id"])[0]? = some "id") rfl source

theorem hasIds_one (h : db.HoldsIntegers table graphColumns (ns.map one)) : db.HasIds table (ns.map .integer) := by
  have := h.hasIds (f := id) rfl fun _ => rfl
  rwa [List.map_id] at this

theorem reads_ids (conditions : List Condition) {p : Int → Bool} (h : db.HoldsIntegers table graphColumns (ns.map one))
    (hfits : ∀ c ∈ conditions, c.Fits db [⟨table, graphColumns, []⟩])
    (hholds : ∀ n, conditions.all (·.holds db [⟨table, graphColumns, integers (one n)⟩]) = p n) :
    (Selection.idsWhere table conditions).rows db = .ok (((ns.filter p).map one).map integers) :=
  Selection.ReadsIntegers.rows_columns _ ⟨h, hfits, hholds⟩ (by decide) fun n => by
    rw [List.map_cons, List.map_nil, Scope.cell_of_find? (find?_id table n)]
    rfl

theorem rows_ids (h : db.HoldsIntegers table graphColumns (ns.map one)) :
    (Selection.ids table).rows db = .ok ((ns.map one).map integers) := by
  have := reads_ids [] (p := fun _ => true) h nofun fun _ => rfl
  rwa [List.filter_true] at this

theorem knows_id (source : String) : Scope.knows [⟨source, graphColumns, []⟩] (.plain "id") = true :=
  Scope.knows_plain_of_mem source (by decide)

/-- The ids of a table that are ids of another one. -/
theorem rows_within (h : db.HoldsIntegers table graphColumns (ns.map one))
    (hother : db.HasIds other (ms.map .integer)) :
    (Selection.idsWhere table [.within (.plain "id") other]).rows db
      = .ok (((ns.filter (· ∈ ms)).map one).map integers) :=
  reads_ids _ h (List.forall_mem_singleton.2 (Condition.fits_within.2 ⟨knows_id table, hother.isSome⟩)) fun n => by
    rw [List.all_cons, List.all_nil, Bool.and_true, Condition.holds_within_integers (find?_id table n) hother]

/-- The ids of a table that are no ids of another one. -/
theorem rows_outside (h : db.HoldsIntegers table graphColumns (ns.map one))
    (hother : db.HasIds other (ms.map .integer)) :
    (Selection.idsWhere table [.outside (.plain "id") other]).rows db
      = .ok (((ns.filter (· ∉ ms)).map one).map integers) :=
  reads_ids _ h (List.forall_mem_singleton.2 (Condition.fits_outside.2 ⟨knows_id table, hother.isSome⟩)) fun n => by
    rw [List.all_cons, List.all_nil, Bool.and_true, Condition.holds_outside_integers (find?_id table n) hother]

end Ids

/-! ## Frontiers -/

/-- The scratch tables of a traversal. -/
abbrev sweepTables : Tables := ⟨scratchPrefix ++ "cur", scratchPrefix ++ "next", scratchPrefix ++ "answer"⟩

/-- Vertices in the frontier, one edge further, and reached; and more tables. -/
def Stands (base : Database) (frontier next reached : List Int) (more : List IntegerTable) : Database → Prop :=
  Over base (⟨sweepTables.frontier, ["id"], frontier.map one⟩ :: ⟨sweepTables.next, ["id"], next.map one⟩
    :: ⟨sweepTables.reached, ["id"], reached.map one⟩ :: more)

variable {base db : Database} {frontier next reached : List Int} {more : List IntegerTable}

namespace Stands

variable (h : Stands base frontier next reached more db)
include h

theorem inFrontier : db.HoldsIntegers sweepTables.frontier graphColumns (frontier.map one) := Over.holds h _ (.head _)

theorem inNext : db.HoldsIntegers sweepTables.next graphColumns (next.map one) := Over.holds h _ (.tail _ (.head _))

theorem inReached : db.HoldsIntegers sweepTables.reached graphColumns (reached.map one) :=
  Over.holds h _ (.tail _ (.tail _ (.head _)))

end Stands

theorem leads_advance : Leads (Stands base frontier next reached more) sweepTables.advance
    (Stands base (next.filter (· ∉ reached)) next (reached ++ next.filter (· ∉ reached)) more) := by
  refine .cons (J := Stands base [] next reached more) (fun db h => Over.clear [] h) ?_
  refine .cons (J := Stands base (next.filter (· ∉ reached)) next reached more) (fun db h => ?_)
    (.single fun db h => ?_)
  · exact Over.insertFrom (l := []) [] h (fun _ => rfl) (rows_outside h.inNext (hasIds_one h.inReached))
  · exact Over.insertFrom [_, _] h (fun _ => rfl) (rows_ids h.inFrontier)

/-! ## Recorded edges -/

/-- A recorded edge as a row. -/
def Connection.row (e : Connection) : List Int := [e.id, e.src, e.dst]

/-- The edges of a subject, if that has these ids. -/
def connectionsOf (subject : Graph) (kept : List Int) (edges : List Connection) : List Connection :=
  edges.filter fun e => subject.isBase || decide (e.id ∈ kept)

/-- The database has just these recorded edges, and the subject has edges with these ids. -/
structure Recorded (db : Database) (subject : Graph) (edges : List Connection) (kept : List Int) : Prop where
  edges : db.HoldsIntegers Algebra.edgeTable Storage.edgeTable.columns (edges.map Connection.row)
  kept : subject.isBase = false → db.HasIds subject.edgeTable (kept.map .integer)

section Edges

variable {subject : Graph} {edges : List Connection} {kept : List Int} (e : Connection)

theorem find?_edge {column : String} {n : Int} (i : ℕ)
    (hcolumn : (Storage.edgeTable.columns.map Column.name)[i]? = some column) (hn : e.row[i]? = some n)
    (source : String) :
    Scope.find? [⟨source, Storage.edgeTable.columns, integers e.row⟩] (.plain column) = some (.integer, .integer n) :=
  Scope.find?_integers areIntegers_edge (by decide) (by decide) hcolumn hn

theorem find?_number (source : String) :
    Scope.find? [⟨source, Storage.edgeTable.columns, integers e.row⟩] (.plain "id")
      = some (.integer, .integer e.id) := find?_edge e 0 rfl rfl source

theorem find?_src (source : String) : Scope.find? [⟨source, Storage.edgeTable.columns, integers e.row⟩] (.plain "src")
    = some (.integer, .integer e.src) := find?_edge e 1 rfl rfl source

theorem find?_dst (source : String) : Scope.find? [⟨source, Storage.edgeTable.columns, integers e.row⟩] (.plain "dst")
    = some (.integer, .integer e.dst) := find?_edge e 2 rfl rfl source

/-- That an edge is one of the subject's. -/
theorem Recorded.holds_onEdgesOf (h : Recorded db subject edges kept) :
    (onEdgesOf subject).all (·.holds db [⟨Algebra.edgeTable, Storage.edgeTable.columns, integers e.row⟩])
      = (subject.isBase || decide (e.id ∈ kept)) := by
  rw [onEdgesOf]
  cases hbase : subject.isBase with
  | true => rfl
  | false =>
    have hfind : Scope.find? [⟨Algebra.edgeTable, Storage.edgeTable.columns, integers e.row⟩]
        (.of Algebra.edgeTable "id") = some (.integer, .integer e.id) := by
      rw [Scope.find?_of_cons, if_pos (sameName_self _), find?_number]
    simp only [Bool.false_eq_true, if_false, List.all_cons, List.all_nil, Bool.and_true, Bool.false_or,
      Condition.holds_within_integers hfind (h.kept hbase)]

/-- Selections of edges of the subject that meet further conditions. -/
theorem Recorded.reads (h : Recorded db subject edges kept) (conditions : List Condition) {p : Connection → Bool}
    (hfits : ∀ c ∈ conditions, c.Fits db [⟨Algebra.edgeTable, Storage.edgeTable.columns, []⟩])
    (hholds : ∀ e : Connection, conditions.all
      (·.holds db [⟨Algebra.edgeTable, Storage.edgeTable.columns, integers e.row⟩]) = p e) :
    Selection.ReadsIntegers db Algebra.edgeTable Storage.edgeTable.columns edges Connection.row
      (conditions ++ onEdgesOf subject) fun e => p e && (subject.isBase || decide (e.id ∈ kept)) where
  rows := h.edges
  fits c hc := by
    obtain hc | hc := List.mem_append.1 hc
    · exact hfits c hc
    · rw [onEdgesOf] at hc
      split at hc
      · cases hc
      · next hbase =>
        rw [List.mem_singleton.1 hc, Condition.fits_within]
        exact ⟨Scope.knows_of_mem ⟨Algebra.edgeTable, Storage.edgeTable.columns, []⟩ (by simp) (by decide),
          (h.kept (by simpa using hbase)).isSome⟩
  holds e := by rw [List.all_append, hholds, h.holds_onEdgesOf e]

/-- The recorded edges and those of the subject are no scratch tables. -/
theorem Recorded.overScratch (h : Recorded base subject edges kept) {tables : List IntegerTable} (hdb : Over base tables db) :
    Recorded db subject edges kept where
  edges := hdb.reads sameName_sweepNames_edge h.edges
  kept hbase := (h.kept hbase).congr (hdb.others _ (sameName_sweepNames_table subject .edge))

theorem knows_edge {column : String} (h : column ∈ ["id", "src", "dst"]) (source : String) :
    Scope.knows [⟨source, Storage.edgeTable.columns, []⟩] (.plain column) = true :=
  Scope.knows_plain_of_mem source h

end Edges

/-! ## Rounds between vertices -/

/-- A crossed edge with the round in which it was noted. -/
structure Note where
  src : Int
  dst : Int
  depth : Int
  deriving DecidableEq

def Note.row (n : Note) : List Int := [n.src, n.dst, n.depth]

/-- The note of an edge that is crossed in a round. -/
def Connection.note (hop : Int) (e : Connection) : Note := ⟨e.src, e.dst, hop⟩

/-- The table of notes. -/
def notedTable (notes : List Note) : IntegerTable :=
  ⟨scratchPrefix ++ "sgconn", ["src", "dst", "depth"], notes.map Note.row⟩

section Rounds

variable {subject : Graph} {edges : List Connection} {kept : List Int} {notes : List Note}

section Ends

variable {near far : String} {f g : Connection → Int} (hbase : Recorded base subject edges kept)
  (hnear : near ∈ ["id", "src", "dst"])
  (hf : ∀ e : Connection, Scope.find? [⟨Algebra.edgeTable, Storage.edgeTable.columns, integers e.row⟩] (.plain near)
    = some (.integer, .integer (f e)))

include hbase hnear hf

/-- The edges with one end in the frontier. -/
theorem Stands.reads_edges (h : Stands base frontier next reached more db) :
    Selection.ReadsIntegers db Algebra.edgeTable Storage.edgeTable.columns edges Connection.row
      (.within (.plain near) sweepTables.frontier :: onEdgesOf subject)
      fun e => decide (f e ∈ frontier) && (subject.isBase || decide (e.id ∈ kept)) := by
  have hids := hasIds_one h.inFrontier
  refine (hbase.overScratch h).reads [_] (List.forall_mem_singleton.2 (Condition.fits_within.2
    ⟨knows_edge hnear _, hids.isSome⟩)) fun e => ?_
  rw [List.all_cons, List.all_nil, Bool.and_true, Condition.holds_within_integers (hf e) hids]

/-- The vertices at the other ends of these edges are found, each once. -/
theorem leads_neighbours (hfar : far ∈ ["id", "src", "dst"])
    (hg : ∀ e : Connection, Scope.find? [⟨Algebra.edgeTable, Storage.edgeTable.columns, integers e.row⟩] (.plain far)
      = some (.integer, .integer (g e))) :
    Leads (Stands base frontier [] reached more)
      [.insertFrom sweepTables.next (sweepTables.neighbours near far (onEdgesOf subject))] fun db =>
        ∃ found : List Int,
          (found.Nodup ∧ ∀ u, u ∈ found ↔ ∃ e ∈ connectionsOf subject kept edges, f e ∈ frontier ∧ g e = u) ∧
          Stands base frontier found reached more db := by
  refine .single fun db hdb => ?_
  obtain ⟨found, hnodup, hmem, hrows⟩ := (hdb.reads_edges hbase hnear hf).rows_grouped [far] (f := fun e => [g e])
    (g := g) (List.cons_subset.2 ⟨hfar, List.nil_subset _⟩) (fun e => by
      rw [List.map_cons, List.map_nil, Scope.cell_of_find? (hg e)]
      rfl) one_injective (fun _ => rfl) (List.cons_ne_nil _ _)
  obtain ⟨db', happly, hdb'⟩ := Over.insertFrom (l := []) [_] hdb (fun _ => rfl) hrows
  refine ⟨db', happly, found, ⟨hnodup, fun u => ?_⟩, hdb'⟩
  simp only [hmem, connectionsOf, List.mem_filter, Bool.and_eq_true, decide_eq_true_eq, and_assoc, and_left_comm]

end Ends

/-- A backward round notes the edges into the frontier, and finds what they come from. -/
theorem leads_noteRound (h : Recorded base subject edges kept) (hop : Int) :
    Leads (Stands base frontier next reached [notedTable notes])
      (noteRound sweepTables subject (scratchPrefix ++ "sgconn") hop) fun db => ∃ found : List Int,
        (found.Nodup ∧ ∀ u, u ∈ found ↔ ∃ e ∈ connectionsOf subject kept edges, e.dst ∈ frontier ∧ e.src = u) ∧
        Stands base (found.filter (· ∉ reached)) found (reached ++ found.filter (· ∉ reached))
          [notedTable (notes ++ ((connectionsOf subject kept edges).filter (·.dst ∈ frontier)).map
            (Connection.note hop))] db := by
  rw [noteRound]
  refine .append (J := fun db => ∃ found : List Int,
      (found.Nodup ∧ ∀ u, u ∈ found ↔ ∃ e ∈ connectionsOf subject kept edges, e.dst ∈ frontier ∧ e.src = u) ∧
      Stands base frontier found reached
        [notedTable (notes ++ ((connectionsOf subject kept edges).filter (·.dst ∈ frontier)).map
          (Connection.note hop))] db) ?_ (.exists_imp fun found _ => leads_advance)
  refine .cons (J := Stands base frontier next reached
    [notedTable (notes ++ ((connectionsOf subject kept edges).filter (·.dst ∈ frontier)).map
      (Connection.note hop))]) (fun db hdb => ?_) (.cons (J := Stands base frontier [] reached
    [notedTable (notes ++ ((connectionsOf subject kept edges).filter (·.dst ∈ frontier)).map
      (Connection.note hop))]) (fun db hdb => Over.clear [_] hdb)
    (leads_neighbours h (by decide) (find?_dst · _) (by decide) (find?_src · _)))
  refine Over.insertFrom [_, _, _] hdb (fun _ => rfl) ?_
  refine ((hdb.reads_edges h (by decide) (find?_dst · _)).rows_terms (f := fun e => (e.note hop).row) ?_
    fun e => ?_).trans ?_
  · simp (disch := decide) [Term.mentions, Scope.hasColumn_of_mem]
  · simp only [List.map_cons, List.map_nil, Term.value, List.head?_cons, Option.map_some, Option.getD_some,
      Scope.cell_of_find? (find?_src e _), Scope.cell_of_find? (find?_dst e _)]
    rfl
  · simp only [connectionsOf, List.filter_filter, List.map_map, Function.comp_def]

theorem find?_note {column : String} {k : Int} (i : ℕ) (n : Note)
    (hcolumn : (["src", "dst", "depth"])[i]? = some column) (hn : n.row[i]? = some k) (source : String) :
    Scope.find? [⟨source, ["src", "dst", "depth"].map Column.integer, integers n.row⟩] (.plain column)
      = some (.integer, .integer k) := Scope.find?_named (by decide) (by decide) i hcolumn hn source

/-- A forward round follows the notes that start in the frontier and still fit the bound. -/
theorem leads_followRound (maxDepth hop : Int) :
    Leads (Stands base frontier next reached [notedTable notes])
      (followRound sweepTables (scratchPrefix ++ "sgconn") maxDepth hop) fun db => ∃ found : List Int,
        (found.Nodup ∧ ∀ w, w ∈ found ↔ ∃ n ∈ notes, (n.src ∈ frontier ∧ n.depth + hop ≤ maxDepth) ∧ n.dst = w) ∧
        Stands base (found.filter (· ∉ reached)) found (reached ++ found.filter (· ∉ reached))
          [notedTable notes] db := by
  rw [followRound]
  refine .append (J := fun db => ∃ found : List Int,
      (found.Nodup ∧ ∀ w, w ∈ found ↔ ∃ n ∈ notes, (n.src ∈ frontier ∧ n.depth + hop ≤ maxDepth) ∧ n.dst = w) ∧
      Stands base frontier found reached [notedTable notes] db) ?_ (.exists_imp fun found _ => leads_advance)
  refine .cons (J := Stands base frontier [] reached [notedTable notes]) (fun db hdb => Over.clear [_] hdb)
    (.single fun db hdb => ?_)
  have hids := hasIds_one hdb.inFrontier
  have hreads : Selection.ReadsIntegers db (scratchPrefix ++ "sgconn") (["src", "dst", "depth"].map Column.integer)
      notes Note.row [.within (.plain "src") sweepTables.frontier, .atMost (.plain "depth") hop maxDepth]
      fun n => decide (n.src ∈ frontier ∧ n.depth + hop ≤ maxDepth) := by
    refine ⟨Over.holds hdb (notedTable notes) (by simp), ?_, fun n => ?_⟩
    · simp (disch := decide) [Scope.hasColumn_of_mem, hids.isSome]
    · rw [List.all_cons, List.all_cons, List.all_nil, Bool.and_true,
        Condition.holds_within_integers (find?_note 0 n rfl rfl _) hids,
        Condition.holds_atMost_integers (find?_note 2 n rfl rfl _), Bool.decide_and]
  obtain ⟨found, hnodup, hmem, hrows⟩ := hreads.rows_grouped ["dst"] (f := fun n => [n.dst])
    (g := Note.dst) (by decide) (fun n => by
      rw [List.map_cons, List.map_nil, Scope.cell_of_find? (find?_note 1 n rfl rfl _)]
      rfl) one_injective (fun _ => rfl) (by decide)
  obtain ⟨db', happly, hdb'⟩ := Over.insertFrom (l := []) [_] hdb (fun _ => rfl) hrows
  exact ⟨db', happly, found, ⟨hnodup, fun w => by simp only [hmem, decide_eq_true_eq]⟩, hdb'⟩

/-- The sources among the reached vertices are the new frontier, and all that is reached. -/
theorem ends_restart {source : Graph} {starts : List Int}
    (h : base.HoldsIntegers source.vertexTable graphColumns (starts.map one)) :
    Ends Never (Kept (Stands base frontier next reached more)) (restart scratchMemory sweepTables source) fun _ =>
      Kept (Stands base (starts.filter (· ∈ reached)) next (starts.filter (· ∈ reached)) more) := by
  refine ends_performAll ?_
  refine .cons (J := Stands base [] next reached more) (fun db hdb => Over.clear [] hdb) (.cons
    (J := Stands base (starts.filter (· ∈ reached)) next reached more) (fun db hdb => ?_) (.cons
    (J := Stands base (starts.filter (· ∈ reached)) next [] more) (fun db hdb => Over.clear [_, _] hdb)
    (.single fun db hdb => ?_)))
  · exact Over.insertFrom (l := []) [] hdb (fun _ => rfl) (rows_within
      (Over.reads hdb (sameName_sweepNames_table source .vertex) h) (hasIds_one hdb.inReached))
  · exact Over.insertFrom (l := []) [_, _] hdb (fun _ => rfl) (rows_ids hdb.inFrontier)

end Rounds

/-! ## What is written -/

/-- The ids of the connections between some vertices. -/
def between (E : List Connection) (vertices : List Int) : List Int :=
  (E.filter fun e => e.src ∈ vertices ∧ e.dst ∈ vertices).map Connection.id

theorem sameName_vertexTable_edgeTable (g g' : Graph) : sameName (g.table .vertex) (g'.table .edge) = false :=
  Graph.sameName_table (by
    rw [Graph.table, folded_append, List.getLast?_append_of_ne_nil _ (by decide)]
    decide)

/-- The target has just these vertices and edges, in this order; all else, scratch tables aside, is as it was. -/
structure Written (base : Database) (target : Graph) (vertices edges : List Int) (db : Database) : Prop where
  vertices : db.HoldsIntegers target.vertexTable graphColumns (vertices.map one)
  edges : db.HoldsIntegers target.edgeTable graphColumns (edges.map one)
  others : ∀ name, (∀ n ∈ sweepNames, sameName n name = false) → (∀ side, sameName (target.table side) name = false) →
    db.table? name = base.table? name

/-- Nothing that is written is a scratch table. -/
theorem Written.congr {target : Graph} {vertices edges : List Int} (h : Written base target vertices edges db)
    {db' : Database} (hdb : ∀ name, (∀ n ∈ sweepNames, sameName n name = false) → db'.table? name = db.table? name) :
    Written base target vertices edges db' where
  vertices := h.vertices.congr (hdb _ (sameName_sweepNames_table target .vertex))
  edges := h.edges.congr (hdb _ (sameName_sweepNames_table target .edge))
  others name hname hside := by rw [hdb name hname, h.others name hname hside]

/-- A graph has just these vertices and edges, in this order. -/
structure HoldsGraph (db : Database) (g : Graph) (vertices edges : List Int) : Prop where
  vertices : db.HoldsIntegers g.vertexTable graphColumns (vertices.map one)
  edges : db.HoldsIntegers g.edgeTable graphColumns (edges.map one)

/-- A relation of a graph that is none of the target's is as it was. -/
theorem Written.apart {target g : Graph} {vertices edges : List Int} (h : Written base target vertices edges db)
    {side : Side} (hapart : sameName (target.table side) (g.table side) = false) :
    db.table? (g.table side) = base.table? (g.table side) := by
  refine h.others _ (sameName_sweepNames_table g side) fun other => ?_
  cases side <;> cases other
  case vertex.vertex => exact hapart
  case vertex.edge =>
    rw [sameName_comm]
    exact sameName_vertexTable_edgeTable g target
  case edge.vertex => exact sameName_vertexTable_edgeTable target g
  case edge.edge => exact hapart

theorem Written.graph {target : Graph} {vertices edges : List Int} (h : Written base target vertices edges db) :
    HoldsGraph db target vertices edges := ⟨h.vertices, h.edges⟩

namespace HoldsGraph

variable {g target : Graph} {V E vertices edges : List Int}

/-- No graph is taken for scratch tables of traversals. -/
theorem overScratch (h : HoldsGraph base g V E) {tables : List IntegerTable} (hdb : Over base tables db) :
    HoldsGraph db g V E :=
  ⟨hdb.reads (sameName_sweepNames_table g .vertex) h.vertices, hdb.reads (sameName_sweepNames_table g .edge) h.edges⟩

/-- A graph of another name is as it was. -/
theorem of_apart (h : HoldsGraph base g V E) (hwritten : Written base target vertices edges db)
    (hapart : ∀ side, sameName (target.table side) (g.table side) = false) : HoldsGraph db g V E :=
  ⟨h.vertices.congr (hwritten.apart (hapart .vertex)), h.edges.congr (hwritten.apart (hapart .edge))⟩

/-- A graph can still be read when another one is written. If it is that one, it was empty, and then nothing may be
written. -/
theorem of_written (h : HoldsGraph base g V E) (htarget : HoldsGraph base target [] [])
    (hwritten : Written base target vertices edges db) (hV : V = [] → vertices = []) (hE : E = [] → edges = []) :
    HoldsGraph db g V E where
  vertices := by
    cases hsame : sameName target.vertexTable g.vertexTable with
    | true =>
      have hnone : V = [] := by simpa using (htarget.vertices.of_sameName hsame).eq h.vertices
      rw [hnone, ← hV hnone]
      exact hwritten.vertices.of_sameName hsame
    | false => exact h.vertices.congr (hwritten.apart hsame)
  edges := by
    cases hsame : sameName target.edgeTable g.edgeTable with
    | true =>
      have hnone : E = [] := by simpa using (htarget.edges.of_sameName hsame).eq h.edges
      rw [hnone, ← hE hnone]
      exact hwritten.edges.of_sameName hsame
    | false => exact h.edges.congr (hwritten.apart hsame)

end HoldsGraph

/-- What a body writes that uses scratch tables of traversals. -/
theorem exists_written {target : Graph}
    {body : Backend (Scratch Database) → Action (Scratch Database) BackendError Unit} {P : List Int → Prop}
    {f : List Int → List Int}
    (hbody : Ends Never (Kept (Over base [])) (body scratchMemory) fun _ => Kept fun db =>
      ∃ vertices, P vertices ∧ Written base target vertices (f vertices) db) :
    ∃ (vertices : List Int) (db : Database),
      (Instruction.execute.silently (Scratch.within Backend.memory body)).runFrom base = (.ok none, db) ∧ P vertices ∧
        Written base target vertices (f vertices) db := by
  obtain ⟨⟨⟩, db, db', hrun, ⟨vertices, hvertices, hwritten⟩, hdb⟩ :=
    runFrom_within (K := fun _ db => ∃ vertices, P vertices ∧ Written base target vertices (f vertices) db)
      (Over.nil base) hbody
  refine ⟨vertices, db', ?_, hvertices, hwritten.congr hdb⟩
  rw [Instruction.execute.silently, runFrom_bind_ok hrun]
  rfl

section Induced

variable {target subject : Graph} {edges : List Connection} {kept : List Int}

/-- Halfway: the vertices are written, and what is needed for the edges can still be read. -/
def Halfway (base : Database) (target subject : Graph) (edges : List Connection) (kept reached : List Int)
    (db : Database) : Prop :=
  Recorded db subject edges kept ∧ db.HasIds sweepTables.reached (reached.map .integer) ∧
    Written base target reached [] db

theorem leads_writeVertices (h : Recorded base subject edges kept)
    (htarget : ∀ side, base.HoldsIntegers (target.table side) graphColumns []) :
    Leads (Stands base frontier next reached more)
      [.insertFrom target.vertexTable (Selection.ids sweepTables.reached)]
      (Halfway base target subject edges kept reached) := by
  refine .single fun db hdb => ?_
  have hids := hasIds_one hdb.inReached
  have hrecorded := h.overScratch hdb
  have hscratch : sameName (target.table .vertex) sweepTables.reached = false := by
    rw [sameName_comm]
    exact sameName_sweepNames_table target .vertex _ (by decide)
  obtain ⟨db', happly, hrows, hkeeps⟩ := (Over.reads hdb (sameName_sweepNames_table target .vertex)
    (htarget .vertex)).insertFrom (areIntegers_map _) (isOpen_map _) (rows_ids hdb.inReached) fun row hrow => by
      obtain ⟨n, -, rfl⟩ := List.mem_map.1 hrow
      rfl
  refine ⟨db', happly, ⟨hrecorded.edges.congr (hkeeps _ (sameName_table_edgeTable target .vertex)), fun hbase =>
    (hrecorded.kept hbase).congr (hkeeps _ (sameName_vertexTable_edgeTable target subject))⟩,
    hids.congr (hkeeps _ hscratch), hrows, ?_, fun name hname hside => ?_⟩
  · exact (Over.reads hdb (sameName_sweepNames_table target .edge) (htarget .edge)).congr
      (hkeeps _ (sameName_vertexTable_edgeTable target target))
  · rw [hkeeps name (hside .vertex), Over.others hdb name hname]

theorem leads_writeEdges : Leads (Halfway base target subject edges kept reached)
    [.insertFrom target.edgeTable (.idsWhere Algebra.edgeTable ([.within (.plain "src") sweepTables.reached,
      .within (.plain "dst") sweepTables.reached] ++ onEdgesOf subject))]
    (Written base target reached (between (connectionsOf subject kept edges) reached)) := by
  refine .single ?_
  rintro db ⟨hrecorded, hids, hwritten⟩
  have hreads := hrecorded.reads [.within (.plain "src") sweepTables.reached,
    .within (.plain "dst") sweepTables.reached] (p := fun e => decide (e.src ∈ reached ∧ e.dst ∈ reached))
    (by simp (disch := decide) [Scope.hasColumn_of_mem, hids.isSome]) fun e => by
      rw [List.all_cons, List.all_cons, List.all_nil, Bool.and_true,
        Condition.holds_within_integers (find?_src e _) hids, Condition.holds_within_integers (find?_dst e _) hids,
        Bool.decide_and]
  have hrows := hreads.rows_columns ["id"] (f := fun e => one e.id) (by decide) fun e => by
    rw [List.map_cons, List.map_nil, Scope.cell_of_find? (find?_number e _)]
    rfl
  obtain ⟨db', happly, hedges, hkeeps⟩ := hwritten.edges.insertFrom (areIntegers_map _) (isOpen_map _) hrows
    fun row hrow => by
      obtain ⟨e, -, rfl⟩ := List.mem_map.1 hrow
      rfl
  refine ⟨db', happly, hwritten.vertices.congr (hkeeps _ ?_), ?_, fun name hname hside => ?_⟩
  · rw [sameName_comm]
    exact sameName_vertexTable_edgeTable target target
  · simpa only [between, connectionsOf, List.filter_filter, List.map_map, Function.comp_def, List.map_nil,
      List.nil_append] using hedges
  · rw [hkeeps name (hside .edge), hwritten.others name hname hside]

/-- The reached vertices are written, with the edges between them. -/
theorem ends_writeInduced (h : Recorded base subject edges kept)
    (htarget : ∀ side, base.HoldsIntegers (target.table side) graphColumns []) :
    Ends Never (Kept (Stands base frontier next reached more))
      (writeInduced scratchMemory target subject sweepTables.reached) fun _ =>
        Kept (Written base target reached (between (connectionsOf subject kept edges) reached)) :=
  ends_performAll ((leads_writeVertices h htarget).append leads_writeEdges)

end Induced

end Provenance.Traversal

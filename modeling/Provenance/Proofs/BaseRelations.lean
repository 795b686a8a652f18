import Mathlib.Data.List.Nodup
import Provenance.Proofs.KeptValues

/-!
# The base relations

The base relations hold what was recorded: each vertex, edge and annotation, and the elements of the base
graph. Recording an element appends its rows to them. Queries and collections leave them as they are, and
a reset empties them.

What they hold is told by a log, a list of rows each with the name of its relation.
-/

namespace Provenance

open Store Database SymbolTable Workspace Action

namespace Storage

/-- The names of the base relations. -/
def baseNames : List String := baseTables.map Table.name

theorem isLower_of_mem_baseNames {name : String} (h : name ∈ baseNames) : IsLower name :=
  (show ∀ n ∈ baseNames, IsLower n by decide) name h

theorem mem_baseNames {name : String} :
    name ∈ baseNames ↔ (∃ side, name = Graph.base.table side) ∨
      name ∈ Side.all.map Side.baseTable ++ Side.all.map Side.annotationTable := by
  constructor
  · intro h
    simp only [baseNames, baseTables, List.map_cons, List.map_nil, List.mem_cons, List.not_mem_nil, or_false] at h
    obtain rfl | rfl | rfl | rfl | rfl | rfl := h
    · exact .inr (by decide)
    · exact .inr (by decide)
    · exact .inr (by decide)
    · exact .inr (by decide)
    · exact .inl ⟨.vertex, rfl⟩
    · exact .inl ⟨.edge, rfl⟩
  · rintro (⟨side, rfl⟩ | h)
    · cases side <;> decide
    · revert name
      decide

/-! ## Rows that are logged -/

/-- Rows that were recorded, each with the name of its relation. -/
abbrev Log := List (String × Row)

/-- The rows of a relation in the log. -/
def Log.rows (log : Log) (name : String) : List Row := (log.filter fun p => p.1 == name).map Prod.snd

namespace Log

variable (log log' : Log) (name : String)

@[simp] theorem rows_append : Log.rows (log ++ log') name = log.rows name ++ log'.rows name := by
  simp [rows]

theorem rows_cons (row : Row) (other : String) :
    Log.rows ((other, row) :: log) name = (if other = name then [row] else []) ++ log.rows name := by
  by_cases h : other = name <;> simp [rows, h]

@[simp] theorem rows_nil : Log.rows [] name = [] := rfl

end Log

/-- The base relations hold what is logged; all tables have names in lower case. -/
structure Records (log : Log) (db : Database) : Prop where
  lower : db.IsLowerCased
  holds : ∀ t ∈ baseTables, db.table? t.name = some { t with rows := log.rows t.name }

namespace Records

variable {log : Log} {db db' : Database}

theorem congr (h : Records log db) (hlower : db'.IsLowerCased)
    (hdb : ∀ name ∈ baseNames, db'.table? name = db.table? name) : Records log db' :=
  ⟨hlower, fun t ht => by rw [hdb t.name (List.mem_map_of_mem ht), h.holds t ht]⟩

theorem fresh : Records [] Storage.fresh where
  lower := fun t ht => (show ∀ t ∈ baseTables, IsLower t.name by decide) t ht
  holds := by
    intro t ht
    simp only [baseTables, List.mem_cons, List.not_mem_nil, or_false] at ht
    obtain rfl | rfl | rfl | rfl | rfl | rfl := ht <;> rfl

/-! ### Recording -/

theorem violation?_eq_none {t : Table} {row : Row} (hkeys : ∀ c ∈ t.columns, c.primaryKey = false)
    (hcells : ∀ p ∈ t.columns.zip row, p.1.notNull = true → p.2.isNull = false) : t.violation? row = none := by
  rw [Table.violation?, Option.or_eq_none_iff]
  refine ⟨List.findSome?_eq_none_iff.2 fun p hp => ?_, List.findSome?_eq_none_iff.2 fun p hp => ?_⟩
  · have := hcells p hp
    cases hnull : p.1.notNull <;> simp_all
  · simp [hkeys p.1 (List.of_mem_zip (a := p.1) (b := p.2) hp).1]

/-- A row with a cell for each column is a row of the whole table. -/
theorem spread_columns {t : Table} (hdistinct : (t.columns.map Column.name).Pairwise (sameName · · = false))
    {row : Row} (hlength : row.length = t.columns.length) :
    spread t (t.columns.map Column.name) row = row := by
  refine List.ext_getElem (by simp [spread, hlength]) fun i hi hi' => ?_
  have hzip : i < ((t.columns.map Column.name).zip row).length := by
    simp only [List.length_zip, List.length_map, hlength, Nat.min_self]
    omega
  have hfind : (((t.columns.map Column.name).zip row).find? fun p => sameName p.1 t.columns[i].name)
      = some ((t.columns.map Column.name).zip row)[i] := by
    refine List.find?_eq_some_iff_getElem.2 ⟨by simp, i, hzip, rfl, fun j hj => ?_⟩
    have := List.pairwise_iff_getElem.1 hdistinct j i (by simp; omega) (by simp; omega) hj
    simpa using this
  simp [spread, hfind]

theorem distinct_columns {t : Table} (ht : t ∈ baseTables) :
    (t.columns.map Column.name).Pairwise (sameName · · = false) := by
  obtain ⟨hlower, hdistinct⟩ := (show ∀ u ∈ baseTables, (∀ n ∈ u.columns.map Column.name, IsLower n) ∧
    (u.columns.map Column.name).Nodup by decide) t ht
  exact hdistinct.imp_of_mem fun hm hn hne => sameName_eq_false_of_isLower (hlower _ hm) (hlower _ hn) hne

/-- A row that breaks no constraint of a base relation can be inserted. -/
theorem insert (h : Records log db) {t : Table} (ht : t ∈ baseTables) {row : Row}
    (hlength : row.length = t.columns.length) (hfits : t.fit row = row)
    (hcells : ∀ p ∈ t.columns.zip row, p.1.notNull = true → p.2.isNull = false) :
    ∃ db', db.apply (.insert t.name (t.columns.map Column.name) [row]) = .ok (db', none) ∧
      Records (log ++ [(t.name, row)]) db' := by
  have hkeys : ∀ c ∈ t.columns, c.primaryKey = false :=
    (show ∀ u ∈ baseTables, ∀ c ∈ u.columns, c.primaryKey = false by decide) t ht
  have hnames : t.columns.map Column.name ≠ [] :=
    (show ∀ u ∈ baseTables, u.columns.map Column.name ≠ [] by decide) t ht
  have harrange : arrange { t with rows := log.rows t.name } t.name (t.columns.map Column.name) [row]
      = .ok [row] := by
    have hunknown : ((t.columns.map Column.name).find? fun n =>
        (Table.index? { t with rows := log.rows t.name } n).isNone) = none :=
      List.find?_eq_none.2 fun n hn => by
        obtain ⟨c, hc, rfl⟩ := List.mem_map.1 hn
        rw [Option.isNone_iff_eq_none, ← ne_eq, ← Option.isSome_iff_ne_none, Table.index?, List.findIdx?_isSome]
        exact List.any_eq_true.2 ⟨c, hc, sameName_self _⟩
    have hwidth : ([row].find? fun r => r.length != (t.columns.map Column.name).length) = none := by
      simp [hlength]
    have hspread : spread { t with rows := log.rows t.name } (t.columns.map Column.name) row = row :=
      spread_columns (distinct_columns ht) hlength
    simp only [arrange, List.isEmpty_iff, hnames, if_false, hunknown, hwidth, List.map_singleton, hspread]
  have hadd : Table.addAll { t with rows := log.rows t.name } [row]
      = .ok { t with rows := log.rows t.name ++ [row] } := by
    have hviolation : Table.violation? { t with rows := log.rows t.name } row = none :=
      violation?_eq_none hkeys hcells
    have hfit : Table.fit { t with rows := log.rows t.name } row = row := hfits
    rw [Table.addAll]
    split
    · rw [List.foldlM_cons, Table.add, hfit, hviolation]
      rfl
    · rw [List.map_singleton, hfit]
  have hlower : IsLower t.name := isLower_of_mem_baseNames (List.mem_map_of_mem ht)
  refine ⟨db.replace { t with rows := log.rows t.name ++ [row] }, ?_, ?_, fun u hu => ?_⟩
  · simp only [apply, Database.insert, find_eq_ok.2 (h.holds t ht), harrange, hadd, bind, Except.bind, pure,
      Except.pure]
  · intro u hu
    obtain ⟨v, hv, rfl⟩ := List.mem_map.1 hu
    split
    · exact hlower
    · exact h.lower v hv
  · have hsame : sameName t.name u.name = decide (t.name = u.name) :=
      sameName_of_isLower hlower (isLower_of_mem_baseNames (List.mem_map_of_mem hu))
    rw [table?_replace, h.holds u hu, hsame, Log.rows_append, Log.rows_cons]
    by_cases heq : t.name = u.name
    · obtain rfl : t = u := List.inj_on_of_nodup_map (by decide : (baseTables.map Table.name).Nodup) ht hu heq
      simp
    · simp [heq]

end Records

/-- Over the base relations, a statement succeeds and adds a row. -/
def Adds (s : Statement) (entry : String × Row) : Prop :=
  ∀ log db, Records log db → ∃ db', db.apply s = .ok (db', none) ∧ Records (log ++ [entry]) db'

theorem Records.runAll {ss : List Statement} {entries : Log} (hss : List.Forall₂ Adds ss entries) {log : Log}
    {db : Database} (h : Records log db) (closed : Bool) (last : Option (List Row)) :
    ∃ db', Database.runAll closed db last ss = (.ok last, db') ∧ Records (log ++ entries) db' := by
  induction hss generalizing log db with
  | nil => exact ⟨db, rfl, by rwa [List.append_nil]⟩
  | @cons s entry ss entries hs _ ih =>
    obtain ⟨db₁, happly, h₁⟩ := hs log db h
    obtain ⟨db', hrun, h'⟩ := ih h₁
    refine ⟨db', ?_, by rwa [List.append_assoc] at h'⟩
    rw [runAll_cons_ok happly, Option.none_or, hrun]

theorem Records.transaction {ss : List Statement} {entries : Log} (hss : List.Forall₂ Adds ss entries)
    {log : Log} {db : Database} (h : Records log db) :
    ∃ db', (transaction ss).runFrom db = (.ok (), db') ∧ Records (log ++ entries) db' := by
  obtain ⟨db', hrun, h'⟩ := h.runAll hss false none
  refine ⟨db', ?_, h'⟩
  simp only [Storage.transaction, runFrom_of, Request.sequence, Database.run, hrun]

/-! ### Elements -/

/-- The rows of an element's annotations, and of the element in the base graph. -/
def commonLog (side : Side) (id : Int) (annotations : List (String × String)) : Log :=
  (annotations.map fun (field, value) => (side.annotationTable, annotationRow id field value))
    ++ [(Graph.base.table side, [.integer id])]

/-- The rows of a vertex. -/
def vertexLog (id : Int) (md5 : Option String) (annotations : List (String × String)) : Log :=
  (Side.vertex.baseTable, [.integer id, md5.elim .null .text]) :: commonLog .vertex id annotations

/-- The rows of an edge. -/
def edgeLog (id src dst : Int) (annotations : List (String × String)) : Log :=
  (Side.edge.baseTable, [.integer id, .integer src, .integer dst]) :: commonLog .edge id annotations

theorem adds_annotation (side : Side) (id : Int) (field value : String) :
    Adds (.insert side.annotationTable ["id", "field", "value"] [annotationRow id field value])
      (side.annotationTable, annotationRow id field value) := by
  intro log db h
  refine h.insert (t := annotationTable side) (by cases side <;> decide) rfl rfl ?_
  simp [annotationRow, annotationTable, Column.required, Column.integer, Column.text, Cell.isNull]

theorem adds_element (side : Side) (id : Int) :
    Adds (.insertIds (Graph.base.table side) [id]) (Graph.base.table side, [.integer id]) := by
  intro log db h
  refine h.insert (t := baseGraphTable side) (by cases side <;> decide) rfl rfl ?_
  simp [baseGraphTable, Column.integer]

theorem adds_insertCommon (side : Side) (id : Int) (annotations : List (String × String)) :
    List.Forall₂ Adds (insertCommon side id annotations) (commonLog side id annotations) := by
  refine List.rel_append ?_ (.cons (adds_element side id) .nil)
  rw [List.forall₂_map_left_iff, List.forall₂_map_right_iff, List.forall₂_same]
  exact fun p _ => adds_annotation side id p.1 p.2

theorem Records.putVertex {log : Log} {db : Database} (h : Records log db) (id : Int) (md5 : Option String)
    (annotations : List (String × String)) : ∃ db', (putVertex id md5 annotations).runFrom db = (.ok (), db') ∧
      Records (log ++ vertexLog id md5 annotations) db' := by
  refine h.transaction (.cons (fun log db h => ?_) (adds_insertCommon .vertex id annotations))
  refine h.insert (t := vertexTable) (by decide) rfl ?_ ?_
  · cases md5 <;> rfl
  · simp [vertexTable, Column.required, Column.integer, Column.text, Cell.isNull]

theorem Records.putEdge {log : Log} {db : Database} (h : Records log db) (id src dst : Int)
    (annotations : List (String × String)) : ∃ db', (putEdge id src dst annotations).runFrom db = (.ok (), db') ∧
      Records (log ++ edgeLog id src dst annotations) db' := by
  refine h.transaction (.cons (fun log db h => ?_) (adds_insertCommon .edge id annotations))
  refine h.insert (t := edgeTable) (by decide) rfl rfl ?_
  simp [edgeTable, Column.required, Column.integer, Cell.isNull]

/-- The rows of a document. -/
def documentLog (d : Document) : Log :=
  (d.vertices.flatMap fun v => vertexLog v.id v.md5 v.annotations)
    ++ d.edges.flatMap fun e => edgeLog e.id e.src e.dst e.annotations

/-- Elements that are recorded one after the other. -/
theorem Records.forM {α ε : Type} {put : α → Action Database ε PUnit} {entries : α → Log}
    (hput : ∀ x log db, Records log db → ∃ db', (put x).runFrom db = (.ok (), db') ∧
      Records (log ++ entries x) db')
    (xs : List α) {log : Log} {db : Database} (h : Records log db) :
    ∃ db', (xs.forM put).runFrom db = (.ok (), db') ∧ Records (log ++ xs.flatMap entries) db' := by
  induction xs generalizing log db with
  | nil => exact ⟨db, rfl, by rwa [List.flatMap_nil, List.append_nil]⟩
  | cons x xs ih =>
    obtain ⟨db₁, hx, h₁⟩ := hput x log db h
    obtain ⟨db', hxs, h'⟩ := ih h₁
    refine ⟨db', ?_, by rwa [List.flatMap_cons, ← List.append_assoc]⟩
    rw [forM_cons, runFrom_bind_ok hx, hxs]

/-- An action that succeeds does so whatever its errors would be. -/
theorem runFrom_mapError_ok {σ α ε ε' : Type} {a : Action σ ε α} {s t : σ} {x : α}
    (h : a.runFrom s = (.ok x, t)) (f : ε → ε') : (a.mapError f).runFrom s = (.ok x, t) := by
  rw [runFrom_mapError, h]
  rfl

/-- A document is loaded as a whole. -/
theorem Records.load {log : Log} {db : Database} (h : Records log db) (d : Document) :
    ∃ db', (load d).runFrom db = (.ok (d.vertices.length, d.edges.length), db') ∧
      Records (log ++ documentLog d) db' := by
  obtain ⟨db₁, hvertices, h₁⟩ := Records.forM (fun (v : VertexRecord) log db h => by
    obtain ⟨db', hrun, h'⟩ := h.putVertex v.id v.md5 v.annotations
    exact ⟨db', runFrom_mapError_ok hrun fun fault => LoadError.mk .vertex v.id fault, h'⟩) d.vertices h
  obtain ⟨db₂, hedges, h₂⟩ := Records.forM (fun (e : EdgeRecord) log db h => by
    obtain ⟨db', hrun, h'⟩ := h.putEdge e.id e.src e.dst e.annotations
    exact ⟨db', runFrom_mapError_ok hrun fun fault => LoadError.mk .edge e.id fault, h'⟩) d.edges h₁
  refine ⟨db₂, ?_, by rwa [List.append_assoc] at h₂⟩
  rw [Storage.load, runFrom_bind_ok hvertices, runFrom_bind_ok hedges, runFrom_pure]

/-! ## Resets -/

/-- Tables of new names are added as they are. -/
theorem foldl_installTable {ts : List Table} (hdistinct : (ts.map Table.name).Pairwise (sameName · · = false))
    {db : Database} (hnew : ∀ t ∈ ts, db.table? t.name = none) : ts.foldl installTable db = ⟨db.tables ++ ts⟩ := by
  induction ts generalizing db with
  | nil => simp
  | cons t ts ih =>
    obtain ⟨hfirst, hrest⟩ := List.pairwise_cons.1 hdistinct
    have hadd : installTable db t = db.add t := by rw [installTable, hnew t List.mem_cons_self]
    rw [List.foldl_cons, hadd, ih hrest fun u hu => ?_]
    · simp [Database.add]
    · rw [table?_add, hnew u (List.mem_cons_of_mem t hu), hfirst _ (List.mem_map_of_mem hu)]
      rfl

theorem distinct_baseNames : baseNames.Pairwise (sameName · · = false) :=
  (show baseNames.Nodup by decide).imp_of_mem fun ha hb hne =>
    sameName_eq_false_of_isLower (isLower_of_mem_baseNames ha) (isLower_of_mem_baseNames hb) hne

/-- A reset leaves nothing that was recorded. -/
theorem Records.reset {log : Log} {db : Database} (h : Records log db) : Records [] (Storage.reset db) := by
  have hnone : ∀ t ∈ baseTables, (db.tableNames.foldl remove db).table? t.name = none := by
    intro t ht
    have htable := h.holds t ht
    have hhidden : isHidden t.name = false := (show ∀ u ∈ baseTables, isHidden u.name = false by decide +kernel) t ht
    have hlisted : t.name ∈ db.tableNames := mem_tableNames.2 ⟨⟨_, table?_mem htable, rfl⟩, hhidden⟩
    rw [table?_foldl_remove, if_pos]
    exact List.any_eq_true.2 ⟨t.name, hlisted, sameName_self _⟩
  have hreset : Storage.reset db = ⟨(db.tableNames.foldl remove db).tables ++ baseTables⟩ :=
    foldl_installTable distinct_baseNames hnone
  rw [hreset]
  constructor
  · intro t ht
    obtain ht | ht := List.mem_append.1 ht
    · exact h.lower t (mem_tables_foldl_remove.1 ht).1
    · exact isLower_of_mem_baseNames (List.mem_map_of_mem ht)
  · intro t ht
    have hfound : baseTables.find? (fun u => sameName u.name t.name) = some { t with rows := [] } :=
      Records.fresh.holds t ht
    simp only [table?, List.find?_append]
    rw [show List.find? _ _ = none from hnone t ht, hfound]
    rfl

/-! ## Queries and collections -/

theorem isCollected_of_mem_baseNames {t : SymbolTable} {name : String} (h : name ∈ baseNames) :
    t.isCollected name = false := by
  obtain ⟨side, rfl⟩ | h := mem_baseNames.1 h
  · exact isCollected_base side
  · by_contra hcollected
    have hhead := head?_of_isCollected (Bool.not_eq_false _ ▸ hcollected)
    exact absurd hhead ((show ∀ n ∈ Side.all.map Side.baseTable ++ Side.all.map Side.annotationTable,
      ¬ ((folded n).head? = some 'm' ∨ (folded n).head? = some 't') by decide) name h)

theorem Records.collected {log : Log} {db : Database} (h : Records log db) (t : SymbolTable) :
    Records log ((Workspace.collected t db).foldl remove db) := by
  refine h.congr (fun u hu => h.lower u (mem_tables_foldl_remove.1 hu).1) fun name hname => ?_
  rw [table?_collected h.lower (isLower_of_mem_baseNames hname), if_neg]
  intro hmem
  rw [Workspace.collected, List.mem_filter, isCollected_of_mem_baseNames hname] at hmem
  exact Bool.false_ne_true hmem.2

/-- What touches no base relation leaves what is recorded. -/
theorem Records.confined {touched : String → Prop} {log : Log} {db db' : Database} (h : Records log db)
    (hdb : Confined touched db db') (htouched : ∀ name ∈ baseNames, ¬ touched name) : Records log db' := by
  refine h.congr (fun t ht => ?_) fun name hname => hdb.others name (htouched name hname)
  obtain hlower | ⟨u, hu, heq⟩ := hdb.names t ht
  · exact hlower
  · rw [← heq]
    exact h.lower u hu

theorem not_isBindings {name : String} (h : name ∈ baseNames) : ¬ IsBindings name := by
  rw [IsBindings, sameName_of_isLower (by decide) (isLower_of_mem_baseNames h), decide_eq_true_eq]
  rintro rfl
  exact absurd h (by decide)

/-- No base relation is one of a generated handle. -/
theorem table_not_mem_baseNames {handle : String} (hhandle : IsGenerated handle) (side : Side) :
    (⟨handle⟩ : Graph).table side ∉ baseNames := fun h => by
  obtain ⟨side', heq⟩ | h := mem_baseNames.1 h
  · obtain rfl : handle = Graph.base.name := congrArg Graph.name (Graph.table_injective heq).1
    obtain ⟨n, hn⟩ := hhandle
    exact not_isNumbered_base n hn
  · exact table_not_mem_base _ side (List.mem_append_left _ h)

/-- A program of new handles touches no base relation. -/
theorem not_touches {program : Program} (hcreates : ∀ handle, program.Creates handle → IsGenerated handle)
    {name : String} (h : name ∈ baseNames) : ¬ program.Touches name := by
  have hlower := isLower_of_mem_baseNames h
  rintro (⟨table, htable, hsame⟩ | ⟨handle, side, hhandle, hsame⟩)
  · obtain rfl := eq_of_sameName htable.2 hlower hsame
    exact absurd htable.1 ((show ∀ n ∈ baseNames, ¬ beginsWith scratchPrefix n = true by decide) _ h)
  · have hgenerated := hcreates handle hhandle
    obtain rfl := eq_of_sameName (Graph.isLower_table (g := ⟨handle⟩) hgenerated.isLower side) hlower hsame
    exact table_not_mem_baseNames hgenerated side h

/-- Nor does a program that a query resolves to. -/
theorem not_touches_resolved {σ : Type} {b : Backend σ} {ss : List Query.Statement} {w w' : Workspace σ}
    {program : Program} (h : (Resolution.resolve b ss).runFrom w = (.ok program, w')) {name : String}
    (hname : name ∈ baseNames) : ¬ program.Touches name := by
  refine not_touches (fun handle hhandle => ?_) hname
  obtain ⟨j, -, -, hnumber⟩ := (Resolution.resolve_creates h).2 handle hhandle
  exact hnumber.isGenerated

end Storage

namespace Storage.Records

variable {σ : Type} {b : Backend σ} {view : σ → Database} {fails : Prop} {log : Log}

theorem loaded (hb : b.IsDatabase view fails) {s : σ} (h : Records log (view s)) :
    Records log (view ((SymbolTable.load b).runFrom s).2) :=
  h.confined (SymbolTable.load_preserves hb (undisturbed_confined (view s)) s (.refl _ _)) fun _ => not_isBindings

theorem collect (hb : b.IsDatabase view fails) {w : Workspace σ} (h : Records log (view w.store)) :
    Records log (view ((Workspace.collect b).runFrom w).2.store) := by
  obtain ⟨-, e, s, hs, hv⟩ | ⟨n, s, hs, hv⟩ := collect_spec (w := w) hb
  · rw [hs, hv]
    exact h
  · rw [hs, hv]
    exact h.collected w.symbols

/-- No query without texts of its own changes what is recorded, whatever fails. -/
theorem executed (hb : b.IsDatabase view fails) {query : String} (hquery : Query.IsPlain query) {s : σ}
    (h : Records log (view s)) : Records log (view ((Session.execute b query).runFrom s).2) := by
  obtain ⟨-, -, hsame | ⟨e, hload⟩⟩ | ⟨ss, symbols, s', hparse, hload, -, -, hafter⟩ :=
    Session.execute_cases b query s
  · rwa [hsame]
  · have hloaded := h.loaded hb
    rwa [hload] at hloaded
  · have hloaded := h.loaded hb
    rw [hload] at hloaded
    have hconfined := Session.resolveAndRun_confined hb (hquery ss hparse) ⟨symbols, s'⟩
    rw [hafter]
    refine (hloaded.confined hconfined fun name hname => ?_).collect hb
    rintro (hbindings | ⟨program, w', hresolve, htouches⟩)
    · exact not_isBindings hname hbindings
    · exact not_touches_resolved hresolve hname htouches

theorem collectedGarbage (hb : b.IsDatabase view fails) {s : σ} (h : Records log (view s)) :
    Records log (view ((Session.collectGarbage b).runFrom s).2) := by
  have hloaded := h.loaded hb
  simp only [Session.collectGarbage, Session.withSymbols, runFrom_of]
  generalize (SymbolTable.load b).runFrom s = x at hloaded
  obtain ⟨result, s'⟩ := x
  cases result with
  | error e => exact hloaded
  | ok symbols => exact collect hb (w := ⟨symbols, s'⟩) hloaded

end Storage.Records

end Provenance

import Provenance.Proofs.BaseRelations
import Provenance.Proofs.FreshNames
import Provenance.Proofs.StatementTexts

/-!
# Starting over

All tables that are listed are dropped, and the base relations are added again. Which tables are listed is decided
by a pattern in which `_` stands for any character, so that tables stay that are not kept for the store itself: those
whose names begin with `sqlite` and go on with another character. Without such a table the store is as good as new. With
one, too, no variable is bound and numbers are given out from the first one on.
-/

namespace Provenance

open Store Database SymbolTable Workspace Action

/-! ## Names that elude the listing -/

namespace Store.Database

/-- Whether a table may have the name and is not listed under it: it begins with `sqlite`, in any case, and does not go
on with `_`. -/
def eludes (name : String) : Bool :=
  "sqlite".toList.isPrefixOf (folded name) && (folded name)[6]?.any (· != '_')

theorem length_eq_folded (name : String) : name.length = (folded name).length := by
  rw [folded, List.length_map, String.length_toList]

/-- Whether a table is listed does not depend on the case of its name. -/
theorem isHidden_congr {a b : String} (h : sameName a b = true) : isHidden a = isHidden b := by
  have hfolded := folded_eq_of_sameName h
  rw [isHidden, isHidden, toList_toLower, toList_toLower, length_eq_folded, length_eq_folded, hfolded]

/-- Of the names that a table may have, those that elude the listing are the ones that are not listed. -/
theorem isHidden_eq_eludes {name : String} (h : isReserved name = false) : isHidden name = eludes name := by
  rw [isReserved, toList_toLower] at h
  rw [isHidden, toList_toLower, eludes, length_eq_folded]
  by_cases hstart : "sqlite".toList.isPrefixOf (folded name) = true
  · obtain ⟨rest, hrest⟩ := List.isPrefixOf_iff_prefix.1 hstart
    rw [← hrest] at h ⊢
    cases rest with
    | nil => decide
    | cons c rest =>
      have hother : c ≠ '_' := by
        rintro rfl
        rw [← Bool.not_eq_true, List.isPrefixOf_iff_prefix] at h
        exact h ⟨rest, rfl⟩
      simp [hother]
  · rw [Bool.not_eq_true] at hstart
    rw [hstart, Bool.false_and, Bool.false_and]

/-- What is left when all listed tables are dropped. -/
theorem foldl_remove_tableNames (db : Database) :
    db.tableNames.foldl remove db = ⟨db.tables.filter fun t => isHidden t.name⟩ := by
  refine foldl_remove_eq_filter fun t ht => ?_
  constructor
  · intro hhidden n hn
    obtain ⟨-, hlisted⟩ := mem_tableNames.1 hn
    rw [Bool.eq_false_iff]
    intro hsame
    rw [isHidden_congr hsame, hlisted] at hhidden
    cases hhidden
  · intro h
    by_contra hlisted
    rw [Bool.not_eq_true] at hlisted
    have hmem : t.name ∈ db.tableNames := mem_tableNames.2 ⟨⟨t, ht, rfl⟩, hlisted⟩
    exact absurd ((sameName_self t.name).symm.trans (h t.name hmem)) Bool.noConfusion

/-- The names of tables are no names that are kept for the store itself. -/
def Unreserved (db : Database) : Prop := ∀ t ∈ db.tables, isReserved t.name = false

theorem create_unreserved {ifAbsent : Bool} {name : String} {columns : Columns} {db db' : Database}
    (h : db.create ifAbsent name columns = .ok db') : isReserved name = false := by
  rw [Bool.eq_false_iff]
  intro hreserved
  rw [create, hreserved] at h
  cases hlist : columnList columns <;> rw [hlist] at h <;> cases h

theorem apply_unreserved (s : Statement) (db db' : Database) (answer : Option (List Row)) (hdb : db.Unreserved)
    (h : db.apply s = .ok (db', answer)) : db'.Unreserved := by
  refine apply_names (P := fun name => isReserved name = false) h ?_ hdb
  rintro ifAbsent name columns rfl
  exact create_unreserved (operation_ok h)

theorem run_unreserved (r : Request) (db : Database) (hdb : db.Unreserved) : (db.run r).2.Unreserved :=
  run_preserves apply_unreserved r hdb

end Store.Database

/-! ## The store after a reset -/

namespace Storage

theorem fresh_eq : fresh = ⟨baseTables⟩ := rfl

/-- A reset leaves the tables that are not listed, and adds those of a new store. -/
theorem reset_eq (db : Database) : reset db = ⟨(db.tables.filter fun t => isHidden t.name) ++ fresh.tables⟩ := by
  rw [reset, foldl_remove_tableNames, install, fresh_eq]
  refine foldl_installTable distinct_baseNames fun t ht => List.find?_eq_none.2 fun u hu hsame => ?_
  have hbase : isHidden t.name = false := (show ∀ u ∈ baseTables, isHidden u.name = false by decide +kernel) t ht
  have hhidden := (List.mem_filter.1 hu).2
  rw [isHidden_congr hsame, hbase] at hhidden
  cases hhidden

theorem unreserved_fresh : fresh.Unreserved :=
  show ∀ t ∈ baseTables, isReserved t.name = false by decide +kernel

theorem unreserved_reset {db : Database} (hdb : db.Unreserved) : (reset db).Unreserved := by
  rw [reset_eq]
  intro t ht
  obtain ht | ht := List.mem_append.1 ht
  · exact hdb t (List.mem_filter.1 ht).1
  · exact unreserved_fresh t ht

theorem unreserved_install {db : Database} (hdb : db.Unreserved) : (install db).Unreserved := by
  have hbase : ∀ t ∈ baseTables, isReserved t.name = false := unreserved_fresh
  rw [Storage.install]
  generalize baseTables = tables at hbase
  induction tables generalizing db with
  | nil => exact hdb
  | cons t tables ih =>
    have hinstalled : (installTable db t).Unreserved := by
      intro u hu
      rw [installTable] at hu
      split at hu
      · obtain hu | hu := List.mem_append.1 hu
        · exact hdb u hu
        · rw [List.mem_singleton.1 hu]
          exact hbase t List.mem_cons_self
      · next found hfound =>
        obtain ⟨v, hv, rfl⟩ := List.mem_map.1 hu
        split
        · exact hdb found (table?_mem hfound)
        · exact hdb v hv
    exact ih hinstalled fun u hu => hbase u (List.mem_cons_of_mem t hu)

/-- No relation of bindings is there. -/
theorem table?_relation_reset (db : Database) : (reset db).table? relation = none := by
  have hlisted : isHidden relation = false := by decide +kernel
  have hother : ∀ t ∈ baseTables, sameName t.name relation = false := by decide +kernel
  rw [reset_eq]
  refine List.find?_eq_none.2 fun t ht hsame => ?_
  obtain ht | ht := List.mem_append.1 ht
  · have hhidden := (List.mem_filter.1 ht).2
    rw [isHidden_congr hsame, hlisted] at hhidden
    cases hhidden
  · exact absurd (hsame.symm.trans (hother t ht)) Bool.noConfusion

/-- The statement text of a reset drops all listed tables, if their names are plain identifiers. -/
theorem run_resetText {db : Database} (hplain : ∀ t ∈ db.tables, Token.isPlain t.name = true) :
    db.run (.raw (Request.lines (db.tableNames.map Statement.discard)).text)
      = (.ok none, ⟨db.tables.filter fun t => isHidden t.name⟩) := by
  have hread := (Reader.statements?_discards_iff db.tableNames).2 fun name hname => by
    obtain ⟨⟨t, ht, rfl⟩, -⟩ := mem_tableNames.1 hname
    exact hplain t ht
  have hrun := run_discards db.tableNames db
  rw [foldl_remove_tableNames] at hrun
  exact Reader.runText_of_statementsFrom hread hrun

end Storage

/-! ## Histories -/

namespace Session

/-- What may be done with a store: any query, any request, a collection, a reset, and opening it again. -/
inductive Uses : Database → Database → Prop
  | query (db : Database) (text : String) : Uses db ((execute Backend.memory text).runFrom db).2
  | request (db : Database) (r : Request) : Uses db (db.run r).2
  | collection (db : Database) : Uses db ((collectGarbage Backend.memory).runFrom db).2
  | reset (db : Database) : Uses db (Storage.reset db)
  | reopened (db : Database) : Uses db (Storage.install db)

/-- What all requests preserve is preserved by a collection. -/
theorem collectGarbage_preserves {I : Database → Prop} (hI : ∀ r db, I db → I (db.run r).2) :
    Preserves I (collectGarbage Backend.memory) := by
  intro db hdb
  have hload := SymbolTable.load_preserves Backend.isDatabase_memory (fun closed ss _ db => hI _ db) db hdb
  simp only [collectGarbage, withSymbols, runFrom_of]
  rcases hrun : (SymbolTable.load Backend.memory).runFrom db with ⟨e | t, s⟩ <;> rw [hrun] at hload
  · exact hload
  · exact collect_preserves Backend.isDatabase_memory hI ⟨t, s⟩ hload

theorem Uses.unreserved {db db' : Database} (h : Uses db db') (hdb : db.Unreserved) : db'.Unreserved := by
  cases h with
  | query text => exact execute_preserves Backend.isDatabase_memory run_unreserved text db hdb
  | request r => exact run_unreserved r db hdb
  | collection => exact collectGarbage_preserves run_unreserved db hdb
  | reset => exact Storage.unreserved_reset hdb
  | reopened => exact Storage.unreserved_install hdb

/-- No history leads to a table with a name that is kept for the store itself. -/
theorem Reachable.unreserved {db : Database} (h : Reachable Uses db) : db.Unreserved := by
  induction h with
  | fresh => exact Storage.unreserved_fresh
  | load d _ ih => exact document_preserves (fun s _ db db' answer => apply_unreserved s db db' answer) d _ ih
  | step _ hstep ih => exact hstep.unreserved ih

/-- A session over a store that was reset finds no bindings, and the first number that is given out is 1. -/
theorem load_reset {σ : Type} {b : Backend σ} {view : σ → Database} (hb : b.IsDatabase view False) {db : Database}
    {s : σ} (hs : view s = Storage.reset db) :
    ∃ s' s'', (SymbolTable.load b).runFrom s = (.ok ⟨[], [], false, 0⟩, s') ∧
      (freshNumber b).runFrom ⟨⟨[], [], false, 0⟩, s'⟩ = (.ok 1, ⟨⟨[], [], false, 1⟩, s''⟩) := by
  have hnone : (view s).table? relation = none := by rw [hs, Storage.table?_relation_reset]
  have hcounter : storedCounter? (view s) = some 0 := by rw [storedCounter?, hnone]
  obtain ⟨⟨bindings, pending, cleared, counter⟩, s', entries, hload, hkeeps, hreads, rfl, rfl, hnames, hsame⟩ :=
    load_reliable hb (.inl hnone) (by rw [hcounter]; rfl)
  obtain rfl : counter = 0 := Option.some.inj (hreads.counter.symm.trans (hsame.trans hcounter))
  obtain rfl : bindings = [] := by
    cases bindings with
    | nil => rfl
    | cons p rest =>
      have hfound : OrderedMap.find? (p :: rest) p.1 = none := by
        rw [hreads.bindings, hnames, storedName?, hnone, ite_self]
      rw [OrderedMap.find?_cons, if_pos rfl] at hfound
      cases hfound
  obtain ⟨s'', hnumber, -⟩ := freshNumber_reliable (w := ⟨⟨[], [], false, 0⟩, s'⟩) hb hkeeps
  exact ⟨s', s'', hload, hnumber⟩

/-- Whatever happened to a store, a reset leaves the tables with names that elude the listing and else a new store. So
it leaves a new store just if there is no such table. In any case no bindings are found afterwards, and numbers are
given out from 1 on. What is executed for it is the text that drops the listed tables, if names are plain. -/
theorem reset_reachable {db : Database} (h : Reachable Uses db) :
    Storage.reset db = ⟨(db.tables.filter fun t => eludes t.name) ++ Storage.fresh.tables⟩ ∧
      (Storage.reset db = Storage.fresh ↔ ∀ t ∈ db.tables, eludes t.name = false) ∧
      ((∀ t ∈ db.tables, Token.isPlain t.name = true) →
        db.run (.raw (Request.lines (db.tableNames.map Statement.discard)).text)
          = (.ok none, ⟨db.tables.filter fun t => eludes t.name⟩)) ∧
      ∀ {σ : Type} {b : Backend σ} {view : σ → Database}, b.IsDatabase view False →
        ∀ s, view s = Storage.reset db → ∃ s' s'',
          (SymbolTable.load b).runFrom s = (.ok ⟨[], [], false, 0⟩, s') ∧
            (freshNumber b).runFrom ⟨⟨[], [], false, 0⟩, s'⟩ = (.ok 1, ⟨⟨[], [], false, 1⟩, s''⟩) := by
  have hleft : (db.tables.filter fun t => isHidden t.name) = db.tables.filter fun t => eludes t.name :=
    List.filter_congr fun t ht => isHidden_eq_eludes (h.unreserved t ht)
  refine ⟨by rw [Storage.reset_eq, hleft], ?_, fun hplain => by rw [Storage.run_resetText hplain, hleft],
    fun hb s hs => load_reset hb hs⟩
  rw [Storage.reset_eq, hleft]
  constructor
  · intro hsame t ht
    have hnone := List.append_left_eq_self.1 (congrArg Database.tables hsame)
    rw [Bool.eq_false_iff]
    exact fun heludes => absurd (List.mem_filter.2 ⟨ht, heludes⟩) (hnone ▸ List.not_mem_nil)
  · intro hnone
    rw [List.filter_eq_nil_iff.2 fun t ht => by simp [hnone t ht], List.nil_append]

/-- The store in which the user made a table. -/
def withUserTable (table : String) : Database :=
  ⟨Storage.fresh.tables ++ [emptyRelation, ⟨table, [.declared "id" "INTEGER" false false], [], []⟩]⟩

/-- What a query leaves when nothing is to be collected. -/
theorem execute_memory_eq {query : String} {db db' : Database}
    (h : (beforeCollection? Backend.memory query db).map (fun w =>
      (w.store, w.store.tables.all fun t => !w.symbols.isCollected t.name)) = some (db', true)) :
    ((execute Backend.memory query).runFrom db).2 = db' := by
  obtain ⟨w, hw, hpair⟩ := Option.map_eq_some_iff.1 h
  obtain ⟨rfl, hall⟩ := Prod.mk.inj hpair
  rw [List.all_eq_true] at hall
  exact execute_memory_of_kept hw fun t ht => by simpa using hall t ht

theorem reset_reachable_notes :
    Reachable Uses (withUserTable "notes") ∧ Storage.reset (withUserTable "notes") = Storage.fresh ∧
      (withUserTable "notes").run
          (.raw (Request.lines ((withUserTable "notes").tableNames.map Statement.discard)).text) = (.ok none, .empty) ∧
      ∃ s' s'', (SymbolTable.load Backend.memory).runFrom (Storage.reset (withUserTable "notes"))
          = (.ok ⟨[], [], false, 0⟩, s') ∧
        (freshNumber Backend.memory).runFrom ⟨⟨[], [], false, 0⟩, s'⟩ = (.ok 1, ⟨⟨[], [], false, 1⟩, s''⟩) := by
  have hmade : ((execute Backend.memory "native 'CREATE TABLE notes (id INTEGER)'").runFrom Storage.fresh).2
      = withUserTable "notes" := execute_memory_eq (by decide +kernel)
  have hreachable : Reachable Uses (withUserTable "notes") := .step .fresh (hmade ▸ .query _ _)
  obtain ⟨-, hfresh, htext, hsession⟩ := reset_reachable hreachable
  refine ⟨hreachable, hfresh.2 (by decide +kernel), (htext (by decide +kernel)).trans (by decide +kernel), ?_⟩
  exact hsession Backend.isDatabase_memory _ rfl

/-- The name is a plain identifier and begins not with `sqlite_`, yet the table is still there. -/
theorem reset_eluded :
    Token.isPlain "sqlitex" = true ∧ isReserved "sqlitex" = false ∧
      ((execute Backend.memory "native 'CREATE TABLE sqlitex (id INTEGER)'").runFrom Storage.fresh).2
        = withUserTable "sqlitex" ∧
      ((Storage.reset (withUserTable "sqlitex")).table? "sqlitex").isSome = true ∧
      Storage.reset (withUserTable "sqlitex") ≠ Storage.fresh := by
  have hstays : ((Storage.reset (withUserTable "sqlitex")).table? "sqlitex").isSome = true := by
    rw [Storage.reset_eq]
    decide +kernel
  refine ⟨by decide +kernel, by decide +kernel, execute_memory_eq (by decide +kernel), hstays, ?_⟩
  intro hsame
  rw [hsame] at hstays
  exact absurd hstays (by decide +kernel)

end Session

end Provenance

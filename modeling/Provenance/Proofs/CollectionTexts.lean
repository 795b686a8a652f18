import Provenance.Proofs.Collections
import Provenance.Proofs.Listings
import Provenance.Proofs.Relations
import Provenance.Proofs.StatementTexts

/-!
# The text of a collection

A collection names the tables that it drops in a text, and puts no quotes around their names. A name that is a plain
identifier is read back as it was written. A name that is not is read as something else: a mark in it ends the name,
and what is dropped then may be a table that was to be kept. So the text drops what it should if all names are plain,
and only then.
-/

namespace Provenance

open Store

namespace Workspace

open SymbolTable Action Database Store.Token Store.Reader

variable {σ : Type} {b : Backend σ} {w : Workspace σ} {names : List String} {s : σ}

/-- A collection sends one request, unless there is nothing to drop, and counts what it drops. -/
theorem runFrom_collect (hlisted : b.relationNames.runFrom w.store = (.ok names, s)) :
    (collect b).runFrom w =
      if names.filter w.symbols.isCollected = [] then (.ok 0, ⟨w.symbols, s⟩)
      else
        let sent := (b.execute (.lines ((names.filter w.symbols.isCollected).map Statement.discard))).runFrom s
        (sent.1.map fun _ => (names.filter w.symbols.isCollected).length, ⟨w.symbols, sent.2⟩) := by
  simp only [collect, runFrom_bind, runFrom_along, runFrom_get, storeLens, hlisted, List.isEmpty_iff]
  split
  · next hnone => simp only [hnone, runFrom_pure, List.length_nil]
  · simp only [send, Backend.perform, runFrom_along, storeLens, runFrom_bind]
    rcases (b.execute _).runFrom s with ⟨e | out, t⟩ <;> rfl

/-- Tables of a store in which names are kept apart are dropped by their exact names. -/
theorem foldl_remove_exactly {t : SymbolTable} {db : Database} (hdb : db.Distinct) :
    (collected t db).foldl remove db = ⟨db.tables.filter fun u => !t.isCollected u.name⟩ := by
  refine foldl_remove_eq_filter fun u hu => ?_
  rw [Bool.not_eq_true']
  constructor
  · intro hkept n hn
    obtain ⟨hmem, hcollected⟩ := List.mem_filter.1 hn
    obtain ⟨⟨v, hv, rfl⟩, -⟩ := mem_tableNames.1 hmem
    rw [Bool.eq_false_iff]
    intro hsame
    have huv := (hdb.table?_eq hu hsame).symm.trans (hdb.table?_eq hv (sameName_self v.name))
    cases huv
    rw [hkept] at hcollected
    cases hcollected
  · intro h
    rw [Bool.eq_false_iff]
    intro hcollected
    have hlisted : u.name ∈ collected t db :=
      List.mem_filter.2 ⟨mem_tableNames.2 ⟨⟨u, hu, rfl⟩, isHidden_of_isCollected hcollected⟩, hcollected⟩
    exact absurd ((sameName_self u.name).symm.trans (h u.name hlisted)) Bool.noConfusion

/-- Whatever names a store lists, a collection sends the text that drops those to be collected, once each and in their
order, and gives their number. The text is read as that, and has that effect, if the names are plain identifiers; if
one of them is not, then it is read as something else. -/
theorem collect_text (hlisted : b.relationNames.runFrom w.store = (.ok names, s)) :
    let dropped := names.filter w.symbols.isCollected
    let request := Request.lines (dropped.map Statement.discard)
    (collect b).runFrom w =
        (if dropped = [] then (.ok 0, ⟨w.symbols, s⟩)
        else (((b.execute request).runFrom s).1.map fun _ => dropped.length,
          ⟨w.symbols, ((b.execute request).runFrom s).2⟩)) ∧
      (statements? request.text = some (dropped.map Statement.discard) ↔ ∀ name ∈ dropped, isPlain name = true) ∧
      ((∀ name ∈ dropped, isPlain name = true) → ∀ db : Database, db.Distinct → db.tableNames = names →
        db.run (.raw request.text) = (.ok none, ⟨db.tables.filter fun t => !w.symbols.isCollected t.name⟩)) := by
  refine ⟨runFrom_collect hlisted, statements?_discards_iff _, ?_⟩
  rintro hplain db hdb rfl
  have hread := (statements?_discards_iff _).2 hplain
  have hrun := run_discards (collected w.symbols db) db
  rw [foldl_remove_exactly hdb] at hrun
  exact runText_of_statementsFrom hread hrun

/-- A workspace with empty tables of the given names, in which `$a` is bound to a graph. -/
def withTables (names : List String) : Workspace Database :=
  ⟨⟨[("$a", "trace_1")], [], false, 2⟩, ⟨names.map fun name => newTable name [.integer "id"]⟩⟩

theorem tableNames_withTables {names : List String} (hnames : ∀ name ∈ names, isHidden name = false)
    (hsorted : names.Pairwise (· ≤ ·)) : (withTables names).store.tableNames = names := by
  have hlisted : ((withTables names).store.tables.map Table.name).filter (fun n => !isHidden n) = names := by
    simp only [withTables, List.map_map, Function.comp_def, newTable, List.map_id']
    exact List.filter_eq_self.2 fun name hname => by rw [hnames name hname]; rfl
  rw [tableNames, hlisted]
  exact List.mergeSort_of_pairwise (hsorted.imp fun h => decide_eq_true h)

theorem collect_text_memory :
    ((collect Backend.memory).runFrom (withTables ["m_cur", "notes", "trace_1_vertex", "trace_2_vertex"])).1 = .ok 2 ∧
      (withTables ["m_cur", "notes", "trace_1_vertex", "trace_2_vertex"]).store.run
          (.raw "DROP TABLE IF EXISTS m_cur;\nDROP TABLE IF EXISTS trace_2_vertex;\n")
        = (.ok none, (withTables ["notes", "trace_1_vertex"]).store) := by
  let w := withTables ["m_cur", "notes", "trace_1_vertex", "trace_2_vertex"]
  have hnames : w.store.tableNames = ["m_cur", "notes", "trace_1_vertex", "trace_2_vertex"] :=
    tableNames_withTables (by decide +kernel) (by decide +kernel)
  have hdropped : ["m_cur", "notes", "trace_1_vertex", "trace_2_vertex"].filter w.symbols.isCollected
      = ["m_cur", "trace_2_vertex"] := by decide +kernel
  have hlisted : Backend.memory.relationNames.runFrom w.store = (.ok w.store.tableNames, w.store) := rfl
  rw [hnames] at hlisted
  have hdistinct : w.store.Distinct := by unfold Distinct; decide +kernel
  have hsent := (collect_text hlisted).1
  have htext := (collect_text hlisted).2.2 (by rw [hdropped]; decide +kernel) w.store hdistinct hnames
  rw [hdropped] at hsent htext
  refine ⟨?_, ?_⟩
  · rw [show withTables _ = w from rfl, hsent]
    decide +kernel
  · rw [show "DROP TABLE IF EXISTS m_cur;\nDROP TABLE IF EXISTS trace_2_vertex;\n"
      = (Request.lines (["m_cur", "trace_2_vertex"].map Statement.discard)).text by decide +kernel]
    refine htext.trans ?_
    decide +kernel

/-- A name with a semicolon in it: what is dropped in its place is a table of the base graph. -/
theorem collect_text_semicolon :
    let w := withTables ["trace_base_vertex", "trace_base_vertex;"]
    let dropped := w.store.tableNames.filter w.symbols.isCollected
    let request := Request.lines (dropped.map Statement.discard)
    dropped = ["trace_base_vertex;"] ∧ Graph.base.vertexTable ∈ w.symbols.reachable ∧
      statements? request.text = some [.discard Graph.base.vertexTable] ∧
      w.store.run (.raw request.text) = (.ok none, (withTables ["trace_base_vertex;"]).store) := by
  intro w dropped request
  have hdropped : dropped = ["trace_base_vertex;"] := by
    rw [show dropped = w.store.tableNames.filter w.symbols.isCollected from rfl,
      tableNames_withTables (by decide +kernel) (by decide +kernel)]
    decide +kernel
  have htext : request.text = "DROP TABLE IF EXISTS trace_base_vertex;;\n" := by
    rw [show request = .lines (dropped.map Statement.discard) from rfl, hdropped]
    decide +kernel
  rw [htext]
  exact ⟨hdropped, by decide +kernel, by decide +kernel, by decide +kernel⟩

end Workspace

end Provenance

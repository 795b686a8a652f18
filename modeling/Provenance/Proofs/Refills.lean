import Provenance.Proofs.IntegerTables

/-!
# Statements that refill tables

Statements that clear tables, or add the rows of selections to them. They leave all columns as they are, so
that whether they run through does not change while they are run. A selection that joins an empty table, or
asks for ids of one, answers with no rows, and adding none changes nothing.
-/

namespace Provenance.Store

/-- The statement clears a table, or adds the rows of a selection to it. -/
inductive Statement.IsRefill : Statement → Prop
  | clear (table : String) : IsRefill (.clear table)
  | insertFrom (table : String) (q : Selection) : IsRefill (.insertFrom table q)

attribute [simp] Statement.IsRefill.clear Statement.IsRefill.insertFrom

/-! ## The same columns -/

namespace Database

/-- Two databases have tables of the same names, with the same columns. -/
def SameColumns (db db' : Database) : Prop :=
  ∀ name, (db'.table? name).map Table.columns = (db.table? name).map Table.columns

variable {db db' db'' : Database} {table name : String}

namespace SameColumns

theorem refl (db : Database) : SameColumns db db := fun _ => rfl

theorem symm (h : SameColumns db db') : SameColumns db' db := fun name => (h name).symm

theorem trans (h : SameColumns db db') (h' : SameColumns db' db'') : SameColumns db db'' :=
  fun name => (h' name).trans (h name)

theorem isSome (h : SameColumns db db') (name : String) : (db'.table? name).isSome = (db.table? name).isSome := by
  simpa only [Option.isSome_map] using congrArg Option.isSome (h name)

theorem outline (h : SameColumns db db') (table source : String) :
    db'.outline table source = db.outline table source := by
  have hcolumns := h table
  unfold Database.outline
  cases ht : db.table? table with
  | none =>
    rw [ht, Option.map_none, Option.map_eq_none_iff] at hcolumns
    rw [hcolumns]
  | some t =>
    rw [ht, Option.map_some, Option.map_eq_some_iff] at hcolumns
    obtain ⟨t', ht', hcolumns⟩ := hcolumns
    simp only [ht', hcolumns]

end SameColumns

theorem Rewrites.sameColumns (h : db.Rewrites table db') : SameColumns db db' := by
  obtain ⟨t, rows, ht, rfl⟩ := h
  intro name
  rw [table?_replace]
  split
  · next hsame =>
    rw [← table?_congr hsame, table?_congr (table?_name ht), ht]
    rfl
  · rfl

end Database

/-! ## Selections that can be read -/

namespace Selection

variable {db db' : Database} {q : Selection}

theorem IsReadable.congr (h : q.IsReadable db) (hdb : db.SameColumns db') : q.IsReadable db' where
  tables t ht := (hdb.isSome t).trans (h.tables t ht)
  columns := by
    have hcolumns := h.columns
    unfold unknownColumn? at hcolumns ⊢
    simpa only [hdb.outline] using hcolumns

end Selection

/-! ## Statements that can be run -/

namespace Statement

variable {db db' : Database} {s : Statement} {ss : List Statement} {table : String} {q : Selection}

/-- The table to be refilled is there, and so is all that is read. -/
def IsReady (db : Database) : Statement → Prop
  | .insertFrom table q => (db.table? table).isSome = true ∧ q.IsReadable db
  | .delete table none => (db.table? table).isSome = true
  | _ => False

theorem IsReady.congr (h : s.IsReady db) (hdb : db.SameColumns db') : s.IsReady db' := by
  cases s with
  | insertFrom table q => exact ⟨(hdb.isSome table).trans h.1, h.2.congr hdb⟩
  | delete table only =>
    cases only with
    | none => exact (hdb.isSome table).trans h
    | some _ => exact h
  | _ => exact h

namespace IsRefill

theorem rewrites (hs : s.IsRefill) {answer : Option (List Row)} (h : db.apply s = .ok (db', answer)) :
    ∃ table ∈ s.target?, db.Rewrites table db' := by
  cases hs with
  | clear table => exact ⟨table, rfl, Database.delete_rewrites (Database.operation_ok h)⟩
  | insertFrom table q =>
    obtain ⟨t, rows, ht, -, rfl⟩ := Database.insertFrom_ok (Database.operation_ok h)
    exact ⟨table, rfl, t, _, ht, rfl⟩

theorem isReady (hs : s.IsRefill) {answer : Option (List Row)} (h : db.apply s = .ok (db', answer)) :
    s.IsReady db := by
  cases hs with
  | clear table =>
    obtain ⟨t, rows, ht, -⟩ := Database.delete_rewrites (Database.operation_ok h)
    exact Option.isSome_iff_exists.2 ⟨t, ht⟩
  | insertFrom table q =>
    obtain ⟨t, rows, ht, hrows, -⟩ := Database.insertFrom_ok (Database.operation_ok h)
    exact ⟨Option.isSome_iff_exists.2 ⟨t, ht⟩, Selection.isReadable_of_rows hrows⟩

end IsRefill

/-- Columns stay when tables are refilled, also if that fails half-way. -/
theorem sameColumns_of_runAll (hss : ∀ s ∈ ss, s.IsRefill) {closed : Bool} {last : Option (List Row)}
    {result : Except Fault (Option (List Row))} (h : Database.runAll closed db last ss = (result, db')) :
    db.SameColumns db' := by
  have hkept := Database.runAll_preserves (I := db.SameColumns) (fun s hs _ _ _ hdb happly =>
    let ⟨_, _, hrewrites⟩ := (hss s hs).rewrites happly
    hdb.trans hrewrites.sameColumns) closed last (.refl db)
  rwa [h] at hkept

/-- Statements that have run through can be run again. -/
theorem isReady_of_runAll (hss : ∀ s ∈ ss, s.IsRefill) {closed : Bool} {last answer : Option (List Row)}
    (h : Database.runAll closed db last ss = (.ok answer, db')) : ∀ s ∈ ss, s.IsReady db' := by
  have hcolumns := sameColumns_of_runAll hss h
  suffices ∀ s ∈ ss, s.IsReady db from fun s hs => (this s hs).congr hcolumns
  clear hcolumns
  induction ss generalizing db last with
  | nil => exact nofun
  | cons s ss ih =>
    rw [Database.runAll] at h
    split at h
    · next db₁ found happly =>
      have hs := hss s List.mem_cons_self
      obtain ⟨_, -, hrewrites⟩ := hs.rewrites happly
      refine List.forall_mem_cons.2 ⟨hs.isReady happly, fun s' hs' => ?_⟩
      exact (ih (fun s hs => hss s (List.mem_cons_of_mem _ hs)) h s' hs').congr hrewrites.sameColumns.symm
    · cases h

end Statement

/-! ## Selections without rows -/

namespace Database

variable {db : Database} {table : String}

/-- The table, if it is there, has no rows. -/
def HasNoRows (db : Database) (table : String) : Prop := ∀ t ∈ db.table? table, t.rows = []

theorem HasNoRows.visible (h : db.HasNoRows table) (source : String) : db.visible table source = [] := by
  unfold Database.visible
  split
  · next t ht => rw [h t ht, List.map_nil]
  · rfl

theorem HasNoRows.ids (h : db.HasNoRows table) : (db.ids table).2 = [] := by
  unfold Database.ids
  split
  · next c cells hcells =>
    obtain ⟨t, ht, hcells⟩ := Option.bind_eq_some_iff.1 hcells
    simp only [Table.column?, h t ht, List.map_nil, Option.bind_eq_bind, Option.bind_eq_some_iff, Option.pure_def,
      Option.some.injEq, Prod.mk.injEq] at hcells
    obtain ⟨_, -, _, -, -, rfl⟩ := hcells
    rfl
  · rfl

theorem HasNoRows.congr {db' : Database} (h : db.HasNoRows table) (hdb : db'.table? table = db.table? table) :
    db'.HasNoRows table := by rwa [HasNoRows, hdb]

end Database

namespace Selection

variable {db : Database} {table : String} {q : Selection}

/-- The selection joins the table, or asks for ids of it, so that it has nothing to answer with if the table
is empty. -/
structure StandsOn (table : String) (q : Selection) : Prop where
  terms : ∃ terms, q.output = .terms terms
  source : ∃ s ∈ q.sources, s.table = table ∨ ∃ ref, .within ref table ∈ s.conditions

theorem extend_of_hasNoRows {s : Source} (hs : s.table = table ∨ ∃ ref, .within ref table ∈ s.conditions)
    (h : db.HasNoRows table) (scope : Scope) : extend db scope s = [] := by
  rw [extend]
  obtain rfl | ⟨ref, href⟩ := hs
  · rw [h.visible, List.map_nil, List.filter_nil]
  · refine List.filter_eq_nil_iff.2 fun joined _ hall => ?_
    have hwithin := List.all_eq_true.1 hall _ href
    have hnone : Condition.member? db joined ref table = some false := by
      simp only [Condition.member?, h.ids, List.map_nil]
      split <;> rfl
    rw [Condition.holds, Condition.holds?, hnone] at hwithin
    cases hwithin

theorem scopes_of_hasNoRows {sources : List Source} {s : Source} (hmem : s ∈ sources)
    (hs : s.table = table ∨ ∃ ref, .within ref table ∈ s.conditions) (h : db.HasNoRows table) :
    scopes db sources = [] := by
  have hnone : ∀ sources : List Source,
      sources.foldl (fun found s => found.flatMap fun scope => extend db scope s) [] = [] := by
    intro sources
    induction sources with
    | nil => rfl
    | cons s sources ih => exact ih
  unfold scopes
  generalize [[]] = found
  induction sources generalizing found with
  | nil => cases hmem
  | cons first sources ih =>
    rw [List.foldl_cons]
    obtain rfl | hmem := List.mem_cons.1 hmem
    · rw [List.flatMap_eq_nil_iff.2 fun scope _ => extend_of_hasNoRows hs h scope]
      exact hnone sources
    · exact ih hmem _

/-- Where there is nothing to stand on, there are no rows. -/
theorem StandsOn.rows (hq : q.StandsOn table) (h : db.HasNoRows table) (hreadable : q.IsReadable db) :
    q.rows db = .ok [] := by
  obtain ⟨⟨terms, hterms⟩, s, hmem, hs⟩ := hq
  have hscopes := scopes_of_hasNoRows hmem hs h
  have hgroups : cutOff q.limit (sortGroups q.orderBy (groups q.groupBy [])) = [] := by
    refine List.eq_nil_iff_forall_not_mem.2 fun group hgroup => ?_
    obtain ⟨hne, hscope⟩ := mem_groups (mem_sortGroups (mem_cutOff hgroup))
    obtain ⟨scope, hmem⟩ := List.exists_mem_of_ne_nil group hne
    exact List.not_mem_nil (hscope scope hmem)
  rw [hreadable.rows, answer, hterms, hscopes, hgroups]
  simp only [List.map_nil]
  split <;> rfl

end Selection

/-! ## What refilling changes -/

namespace Database

variable {db : Database} {table : String} {q : Selection}

/-- A table that takes its own place changes nothing. -/
theorem table?_replace_self {t : Table} (ht : db.table? table = some t) (name : String) :
    (db.replace t).table? name = db.table? name := by
  rw [table?_replace]
  split
  · next hsame =>
    rw [← table?_congr hsame, table?_congr (table?_name ht), ht]
    rfl
  · rfl

/-- Adding no rows changes nothing. -/
theorem insertFrom_none (htable : (db.table? table).isSome = true) (hrows : q.rows db = .ok []) :
    ∃ db', db.apply (.insertFrom table q) = .ok (db', none) ∧ ∀ name, db'.table? name = db.table? name := by
  obtain ⟨t, ht⟩ := Option.isSome_iff_exists.1 htable
  have hadd : t.addAll [] = .ok t := by
    unfold Table.addAll
    split
    · rfl
    · simp
  refine ⟨db.replace t, ?_, table?_replace_self ht⟩
  simp only [apply, insertFrom, find_eq_ok.2 ht, hrows, arrange, List.isEmpty_nil, if_true, List.find?_nil, hadd,
    bind, Except.bind, pure, Except.pure]

end Database

end Provenance.Store

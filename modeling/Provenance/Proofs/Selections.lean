import Provenance.Proofs.Database

/-!
# Rows of simple selections

A selection of some columns of one table answers with these columns of the rows that meet the
conditions, in the order of the table.
-/

namespace Provenance.Store

variable {db : Database}

/-- A row of a table, as a condition sees it. -/
def Table.scope (t : Table) (source : String) (row : Row) : Scope := [⟨source, t.columns, row⟩]

namespace Selection

/-- All tables and columns of the selection are there. -/
structure IsReadable (db : Database) (q : Selection) : Prop where
  tables : ∀ t ∈ q.tables, (db.table? t).isSome = true
  columns : q.unknownColumn? db = none

theorem IsReadable.rows {q : Selection} (h : q.IsReadable db) : q.rows db = .ok (q.answer db) := by
  have htables : (q.tables.find? fun t => (db.table? t).isNone) = none :=
    List.find?_eq_none.2 fun t ht => by simpa [Option.isSome_iff_ne_none] using h.tables t ht
  rw [Selection.rows, htables, h.columns]

theorem isReadable_of_rows {q : Selection} {rows : List Row} (h : q.rows db = .ok rows) : q.IsReadable db := by
  unfold Selection.rows at h
  split at h
  · cases h
  · next htables =>
    split at h
    · cases h
    · next hcolumns =>
      exact ⟨fun t ht => by simpa [Option.isSome_iff_ne_none] using List.find?_eq_none.1 htables t ht, hcolumns⟩

theorem scopes_single {s : Source} {t : Table} (h : db.table? s.table = some t) :
    scopes db [s] = (t.rows.map (t.scope s.name)).filter fun scope =>
      s.conditions.all (·.holds db scope) := by
  simp only [scopes, List.foldl_cons, List.foldl_nil, List.flatMap_cons, List.flatMap_nil,
    List.append_nil, extend, Database.visible, h, List.map_map, List.nil_append]
  rfl

@[simp] theorem groups_nil (list : List Scope) : groups [] list = list.map fun scope => [scope] := rfl

@[simp] theorem sortGroups_nil (list : List (List Scope)) : sortGroups [] list = list := rfl

@[simp] theorem cutOff_none {α : Type} (list : List α) : cutOff none list = list := rfl

/-- The rows of one table that meet the conditions, column by column. -/
theorem answer_columns {names : List String} {table : String} {conditions : List Condition}
    {t : Table} (h : db.table? table = some t) :
    (columns names table conditions).answer db =
      (t.rows.filter fun row => conditions.all (·.holds db (t.scope table row))).map fun row =>
        names.map fun n => (t.scope table row).cell (.plain n) := by
  have hs : scopes db (columns names table conditions).sources
      = (t.rows.filter fun row => conditions.all (·.holds db (t.scope table row))).map
        (t.scope table) := by
    rw [columns, scopes_single h, List.filter_map]; rfl
  simp only [answer, hs]
  simp [columns, Term.value, Function.comp_def]

/-- All tables and columns of a selection of one table are there. -/
theorem rows_columns {names : List String} {table : String} {t : Table}
    (h : db.table? table = some t) (hnames : ∀ n ∈ names, (t.index? n).isSome = true) :
    (columns names table []).rows db = .ok ((columns names table []).answer db) := by
  have hknows : ((names.flatMap fun n => [ColumnRef.plain n]).find? fun r =>
      !Scope.knows [db.outline table table] r) = none := by
    refine List.find?_eq_none.2 fun r hr => ?_
    obtain ⟨n, hn, hr⟩ := List.mem_flatMap.1 hr
    obtain rfl := List.mem_singleton.1 hr
    have := hnames n hn
    rw [Table.index?, List.findIdx?_isSome] at this
    simpa [Scope.knows, ColumnRef.plain, Database.outline, h, Visible.hasColumn] using this
  have hcols : unknownColumn? db (columns names table []) = none := by
    simp only [unknownColumn?, columns, List.map_cons, List.map_nil, Source.name, Option.getD_none,
      List.flatMap_map, Term.mentions, hknows, Option.map_none, Option.none_or,
      List.findSome?_cons, List.findSome?_nil, List.find?_nil]
  exact IsReadable.rows ⟨by simp [tables, columns, h], hcols⟩

end Selection

end Provenance.Store

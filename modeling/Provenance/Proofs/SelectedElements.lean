import Mathlib.Data.Set.List
import Provenance.Proofs.BaseTraversals
import Provenance.Proofs.Selections
import Provenance.Proofs.TypedTables

/-!
# Rows of the elements of a graph

An export reads whole rows of a relation, those whose id is an id of another table, and the ids of a table
without repetitions. What is said here of the answers to such selections holds in any order in which an
index gives the rows.
-/

namespace Provenance.Store

open Database

/-! ## Cells of a row -/

theorem Visible.cell?_snd (v : Visible) (column : String) :
    (v.cell? column).map Prod.snd
      = (v.columns.findIdx? fun c => sameName c.name column).bind fun i => v.cells[i]? := by
  obtain ⟨source, columns, cells⟩ := v
  simp only [Visible.cell?, Option.map_map]
  induction columns generalizing cells with
  | nil => rfl
  | cons c columns ih =>
    cases cells with
    | nil => simp
    | cons cell cells =>
      rw [List.zip_cons_cons, List.find?_cons, List.findIdx?_cons]
      by_cases hc : sameName c.name column = true
      · simp [hc]
      · simp only [hc, ih, Bool.false_eq_true, if_false]
        cases columns.findIdx? fun c => sameName c.name column <;> rfl

namespace Table

variable {t : Table}

theorem cell_scope (source column : String) (row : Row) :
    (t.scope source row).cell (.plain column) = ((t.index? column).bind fun i => row[i]?).getD .null := by
  rw [index?, ← (⟨source, t.columns, row⟩ : Visible).cell?_snd column]
  simp [scope, Scope.cell, Scope.find?, ColumnRef.plain]

/-- All columns of a row are the row. -/
theorem cells_columns (hdistinct : (t.columns.map Column.name).Pairwise (sameName · · = false)) {row : Row}
    (hlength : row.length = t.columns.length) (source : String) :
    (t.columns.map Column.name).map (fun n => (t.scope source row).cell (.plain n)) = row := by
  refine List.ext_getElem (by simp [hlength]) fun i hi hi' => ?_
  have hi'' : i < t.columns.length := hlength ▸ hi'
  have hindex : t.index? t.columns[i].name = some i := by
    refine List.findIdx?_eq_some_iff_getElem.2 ⟨hi'', sameName_self _, fun j hj => ?_⟩
    have := List.pairwise_iff_getElem.1 hdistinct j i (by simp; omega) (by simpa) hj
    simpa using this
  rw [List.getElem_map, List.getElem_map, cell_scope, hindex, Option.bind_some, List.getElem?_eq_getElem hi']
  rfl

end Table

/-! ## Ids of another table -/

theorem Cell.equals?_integers (n m : Int) : (Cell.integer n).equals? (.integer m) = some (decide (n = m)) := by
  show some (compare n m == .eq) = _
  congr 1
  rw [Bool.eq_iff_iff, beq_iff_eq, compare_eq_iff_eq, decide_eq_true_iff]

theorem Cell.among?_integers (n : Int) (ns : List Int) :
    (Cell.integer n).among? (ns.map .integer) = some (decide (n ∈ ns)) := by
  have hequals := Cell.equals?_integers n
  have hnone : (ns.map Cell.integer).any (fun b => ((Cell.integer n).equals? b).isNone) = false := by
    simp [hequals]
  have hany : (ns.map Cell.integer).any (fun b => (Cell.integer n).equals? b == some true) = decide (n ∈ ns) := by
    rw [Bool.eq_iff_iff, List.any_map, List.any_eq_true, decide_eq_true_iff]
    simp [hequals]
  rw [among?, hany, hnone]
  cases ns with
  | nil => rfl
  | cons m ns => by_cases h : n ∈ m :: ns <;> simp [h]

namespace Condition

variable {db : Database} {scope : Scope} {ref : ColumnRef} {other : String} {ns : List Int} {n : Int}

/-- An integer is among the ids of a table or it is not. -/
theorem member?_integers (hfind : scope.find? ref = some (.integer, .integer n))
    (hids : db.HasIds other (ns.map .integer)) : member? db scope ref other = some (decide (n ∈ ns)) := by
  obtain ⟨u, d, hu, hd⟩ := hids
  have hother : db.ids other = (d.affinity, ns.map .integer) := by
    rw [Database.ids, hu, Option.bind_some, hd]
  simp only [member?, Scope.affinity, Scope.cell, hfind, hother, Option.map_some, Option.getD_some]
  cases d.affinity
  case integer => exact Cell.among?_integers n ns
  all_goals
    have hstore : (ns.map Cell.integer).map Affinity.numeric.store = ns.map .integer := by
      rw [List.map_map]
      rfl
    exact (congrArg (Cell.integer n).among? hstore).trans (Cell.among?_integers n ns)

theorem holds_within_integers (hfind : scope.find? ref = some (.integer, .integer n))
    (hids : db.HasIds other (ns.map .integer)) : (within ref other).holds db scope = decide (n ∈ ns) := by
  rw [holds, holds?, member?_integers hfind hids]
  cases decide (n ∈ ns) <;> rfl

/-- The first column of a row. -/
theorem holds_within (hids : db.HasIds other (ns.map .integer)) {t : Table} {c : Column}
    {columns : List Column} (hcolumns : t.columns = c :: columns) (hname : c.name = "id")
    (haffinity : c.affinity = .integer) (source : String) (n : Int) (rest : Row) :
    Condition.holds db (t.scope source (.integer n :: rest)) (.within (.plain "id") other)
      = decide (n ∈ ns) := by
  refine holds_within_integers ?_ hids
  simp [Table.scope, Scope.find?, ColumnRef.plain, Visible.cell?, hcolumns, hname, haffinity, sameName_self]

end Condition

/-! ## Selections of one table -/

namespace Selection

variable {db : Database} {q : Selection} {names : List String} {table : String} {t : Table}

/-- A selection of columns of one table succeeds if all that it names is there. -/
theorem rows_single (ht : db.table? table = some t) {conditions : List Condition}
    (hsources : q.sources = [⟨table, none, conditions⟩])
    (hconditions : ∀ c ∈ conditions, ∃ other, c = .within (.plain "id") other ∧ (db.table? other).isSome = true)
    (houtput : q.output = .terms (names.map fun n => .column (.plain n)))
    (hnames : ∀ n ∈ "id" :: names, (t.index? n).isSome = true) (hgroup : q.groupBy = [])
    (horder : ∀ ref ∈ q.orderBy, ∃ n ∈ names, ref = .plain n) : q.rows db = .ok (q.answer db) := by
  have htables : (q.tables.find? fun t => (db.table? t).isNone) = none := by
    refine List.find?_eq_none.2 fun other hother => ?_
    rw [Option.isNone_iff_eq_none, ← ne_eq, ← Option.isSome_iff_ne_none]
    simp only [tables, hsources, List.map_cons, List.map_nil, List.flatMap_cons, List.flatMap_nil, List.append_nil,
      List.mem_append, List.mem_singleton, List.mem_filterMap] at hother
    obtain rfl | ⟨c, hc, hother⟩ := hother
    · rw [ht]
      rfl
    · obtain ⟨other', rfl, hsome⟩ := hconditions c hc
      cases hother
      exact hsome
  have hknows : ∀ n ∈ "id" :: names, Scope.knows [db.outline table table] (.plain n) = true := fun n hn => by
    have := hnames n hn
    rw [Table.index?, List.findIdx?_isSome] at this
    simpa [Scope.knows, ColumnRef.plain, Database.outline, ht, Visible.hasColumn] using this
  have hmissing : ∀ refs : List ColumnRef, (∀ ref ∈ refs, ∃ n ∈ "id" :: names, ref = .plain n) →
      refs.find? (fun r => !Scope.knows [db.outline table table] r) = none := fun refs hrefs =>
    List.find?_eq_none.2 fun ref href => by
      obtain ⟨n, hn, rfl⟩ := hrefs ref href
      simp [hknows n hn]
  have hcolumns : unknownColumn? db q = none := by
    have hterms := hmissing ((names.map fun n => Term.column (.plain n)).flatMap Term.mentions) fun ref href => by
      obtain ⟨term, hterm, href⟩ := List.mem_flatMap.1 href
      obtain ⟨n, hn, rfl⟩ := List.mem_map.1 hterm
      exact ⟨n, List.mem_cons_of_mem _ hn, List.mem_singleton.1 href⟩
    have horders := hmissing q.orderBy fun ref href => by
      obtain ⟨n, hn, rfl⟩ := horder ref href
      exact ⟨n, List.mem_cons_of_mem _ hn, rfl⟩
    simp only [unknownColumn?, hsources, houtput, hgroup, List.map_cons, List.map_nil, Source.name,
      Option.getD_none, hterms, horders, Option.map_none, Option.none_or, List.findSome?_cons, List.findSome?_nil,
      List.find?_nil, Option.or_none]
    rw [List.findSome?_eq_none_iff.2]
    intro c hc
    obtain ⟨other, rfl, -⟩ := hconditions c hc
    rw [Option.map_eq_none_iff]
    exact hmissing [.plain "id"] fun ref href => ⟨"id", List.mem_cons_self, List.mem_singleton.1 href⟩
  rw [rows, htables, hcolumns]

/-- Whole rows whose id is an id of another table. -/
theorem shownRows_within (ht : db.table? table = some t)
    (hdistinct : (t.columns.map Column.name).Pairwise (sameName · · = false))
    (hlength : ∀ row ∈ t.rows, row.length = t.columns.length) (hid : (t.index? "id").isSome = true)
    {other : String} (hother : (db.table? other).isSome = true) :
    (columns (t.columns.map Column.name) table [.within (.plain "id") other]).shownRows db
      = .ok (t.rows.filter fun row => Condition.holds db (t.scope table row) (.within (.plain "id") other)) := by
  have hscanned : scannedIndex? db
      (columns (t.columns.map Column.name) table [.within (.plain "id") other]) = none := by
    unfold scannedIndex?
    split
    · next hsources => cases hsources
    · rfl
  have hnames : ∀ n ∈ "id" :: t.columns.map Column.name, (t.index? n).isSome = true := by
    refine List.forall_mem_cons.2 ⟨hid, fun n hn => ?_⟩
    obtain ⟨c, hc, rfl⟩ := List.mem_map.1 hn
    rw [Table.index?, List.findIdx?_isSome]
    exact List.any_eq_true.2 ⟨c, hc, sameName_self _⟩
  simp only [shownRows, hscanned]
  rw [rows_single ht rfl (fun c hc => ⟨other, List.mem_singleton.1 hc, hother⟩) rfl hnames rfl
    (fun ref href => absurd href List.not_mem_nil),
    answer_columns ht]
  simp only [List.all_cons, List.all_nil, Bool.and_true]
  congr 1
  refine (List.map_congr_left fun row hrow => ?_).trans (List.map_id _)
  exact Table.cells_columns hdistinct (hlength row (List.mem_of_mem_filter hrow)) table

/-- No row is left out for good. -/
theorem exists_mem_dedup {rows : List Row} {row : Row} (h : row ∈ rows) :
    ∃ kept ∈ dedup rows, kept = row ∨ Cell.orderRows kept row = .eq := by
  have hstays : ∀ (rows seen : List Row), ∀ r ∈ seen, r ∈ rows.foldl (fun seen row =>
      if seen.any fun r => Cell.orderRows r row == .eq then seen else seen ++ [row]) seen := by
    intro rows
    induction rows with
    | nil => exact fun _ _ hr => hr
    | cons row rows ih =>
      intro seen r hr
      refine ih _ r ?_
      dsimp only
      split
      · exact hr
      · exact List.mem_append_left _ hr
  obtain ⟨before, after, rfl⟩ := List.append_of_mem h
  rw [dedup, List.foldl_append, List.foldl_cons]
  split
  · next hany =>
    obtain ⟨kept, hkept, hsame⟩ := List.any_eq_true.1 hany
    exact ⟨kept, hstays after _ kept hkept, .inr (beq_iff_eq.1 hsame)⟩
  · exact ⟨row, hstays after _ row (List.mem_append_right _ List.mem_cons_self), .inl rfl⟩

/-- Rows of single integers without repetitions. -/
theorem dedup_integers {rows : List Row} {ns : List Int} (hrows : ∀ row, row ∈ rows ↔ ∃ n ∈ ns, row = [.integer n]) :
    ∃ found : List Int, dedup rows = found.map (fun n => [.integer n]) ∧ ∀ n, n ∈ found ↔ n ∈ ns := by
  have hfound : dedup rows ∈ {l | ∀ r ∈ l, r ∈ Set.range fun n : Int => ([.integer n] : Row)} := fun r hr => by
    obtain ⟨n, -, rfl⟩ := (hrows r).1 (mem_dedup hr)
    exact ⟨n, rfl⟩
  rw [← Set.range_list_map] at hfound
  obtain ⟨found, hfound⟩ := hfound
  refine ⟨found, hfound.symm, fun n => ?_⟩
  have hmap : n ∈ found ↔ ([.integer n] : Row) ∈ dedup rows := by
    rw [← hfound, List.mem_map_of_injective]
    intro a b hab
    simpa using hab
  rw [hmap]
  constructor
  · intro h
    obtain ⟨m, hm, heq⟩ := (hrows _).1 (mem_dedup h)
    cases heq
    exact hm
  · intro h
    obtain ⟨kept, hkept, heq⟩ := exists_mem_dedup ((hrows _).2 ⟨n, h, rfl⟩)
    obtain rfl | heq := heq
    · exact hkept
    · obtain ⟨m, -, rfl⟩ := (hrows _).1 (mem_dedup hkept)
      have hsame : compare m n = .eq := by
        simpa [Cell.orderRows, Cell.order] using heq
      rwa [← compare_eq_iff_eq.1 hsame]

/-- The ids of a table in the order of some columns. -/
theorem mem_sorted_ids {ns : List Int} (hids : db.HasIds table (ns.map .integer)) (refs : List ColumnRef) (row : Row) :
    (row ∈ (sortGroups refs (groups [] (scopes db (ids table).sources))).map fun group =>
      [Term.value group (.column (.plain "id"))]) ↔ ∃ n ∈ ns, row = [.integer n] := by
  obtain ⟨t, c, ht, hcolumn⟩ := hids
  simp only [Table.column?, Option.bind_eq_bind, Option.bind_eq_some_iff, Option.pure_def, Option.some.injEq,
    Prod.mk.injEq] at hcolumn
  obtain ⟨i, hi, -, -, -, hcells⟩ := hcolumn
  have hscopes : groups [] (scopes db (ids table).sources) = t.rows.map fun row => [t.scope table row] := by
    rw [groups_nil, ids, columns, scopes_single ht]
    simp [Source.name]
  have hperm : (sortGroups refs (groups [] (scopes db (ids table).sources))).Perm
      (t.rows.map fun row => [t.scope table row]) := by
    rw [sortGroups, hscopes]
    split
    · exact .refl _
    · exact List.mergeSort_perm _ _
  have hvalue : ∀ row, Term.value [t.scope table row] (.column (.plain "id")) = row.getD i .null := fun row => by
    rw [Term.value, List.head?_cons, Option.map_some, Option.getD_some, Table.cell_scope, hi, Option.bind_some,
      List.getD_eq_getElem?_getD]
  have hset : ∀ cell, (∃ r ∈ t.rows, r.getD i .null = cell) ↔ ∃ n ∈ ns, Cell.integer n = cell := fun cell => by
    rw [← List.mem_map, ← List.mem_map, hcells]
  rw [(hperm.map _).mem_iff, List.map_map, List.mem_map]
  simp only [Function.comp_def, hvalue]
  constructor
  · rintro ⟨r, hr, rfl⟩
    obtain ⟨n, hn, heq⟩ := (hset _).1 ⟨r, hr, rfl⟩
    exact ⟨n, hn, by rw [heq]⟩
  · rintro ⟨n, hn, rfl⟩
    obtain ⟨r, hr, heq⟩ := (hset _).2 ⟨n, hn, rfl⟩
    exact ⟨r, hr, by rw [heq]⟩

/-- The ids of a table without repetitions, in the order of some columns. -/
theorem answer_ids {ns : List Int} (hids : db.HasIds table (ns.map .integer)) (refs : List ColumnRef) :
    ∃ found : List Int, Selection.answer db { ids table with distinct := true, orderBy := refs }
        = found.map (fun n => [.integer n]) ∧ ∀ n, n ∈ found ↔ n ∈ ns :=
  dedup_integers (mem_sorted_ids hids refs)

/-- Whether or not an index gives them in order. -/
theorem shownRows_ids {ns : List Int} (hids : db.HasIds table (ns.map .integer)) :
    ∃ found : List Int, Selection.shownRows db { ids table with distinct := true }
        = .ok (found.map fun n => [.integer n]) ∧ ∀ n, n ∈ found ↔ n ∈ ns := by
  obtain ⟨t, c, ht, hcolumn⟩ := id hids
  have hid : (t.index? "id").isSome = true := by
    cases hindex : t.index? "id" with
    | none => simp [Table.column?, hindex] at hcolumn
    | some i => rfl
  have hrows : ∀ refs : List ColumnRef, (∀ ref ∈ refs, ref = .plain "id") → ∃ found : List Int,
      Selection.rows db { ids table with distinct := true, orderBy := refs }
        = .ok (found.map fun n => [.integer n]) ∧ ∀ n, n ∈ found ↔ n ∈ ns := by
    intro refs hrefs
    obtain ⟨found, hanswer, hfound⟩ := answer_ids hids refs
    refine ⟨found, ?_, hfound⟩
    rw [rows_single (q := { ids table with distinct := true, orderBy := refs }) ht rfl
      (fun c hc => absurd hc List.not_mem_nil) (show _ = Output.terms (List.map _ ["id"]) from rfl) (by simp [hid])
      rfl (fun ref href => ⟨"id", List.mem_cons_self, hrefs ref href⟩), hanswer]
  unfold Selection.shownRows
  split
  · next ref hscanned =>
    refine hrows [ref] fun r hr => ?_
    rw [List.mem_singleton.1 hr]
    unfold scannedIndex? at hscanned
    split at hscanned
    · next houtput _ =>
      split at hscanned
      · cases houtput
        exact (Option.some.inj hscanned).symm
      · cases hscanned
    · cases hscanned
  · exact hrows [] fun _ href => absurd href List.not_mem_nil

end Selection

end Provenance.Store

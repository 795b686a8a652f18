import Mathlib.Data.List.ProdSigma
import Provenance.Proofs.GroupedRows
import Provenance.Proofs.SelectedElements
import Provenance.Proofs.WorkingStatements

/-!
# Tables of integers

What statements do to tables of which all rows are known, and are integers: clearing one, and adding the
rows of a selection to one. The rows of a selection of columns are known again. Those of a grouped
selection are known up to their order: one for each combination of integers that occurs.
-/

namespace Provenance.Store

namespace Database

variable {db db' : Database} {name : String} {columns : List Column} {rows more : List (List Int)}

/-- The table has these columns and exactly these rows of integers. -/
def HoldsIntegers (db : Database) (name : String) (columns : List Column) (rows : List (List Int)) : Prop :=
  ∃ t, db.table? name = some t ∧ t.columns = columns ∧ t.rows = rows.map integers

theorem holdsIntegers_iff : db.HoldsIntegers name columns rows ↔
    (db.table? name).map (fun t => (t.columns, t.rows)) = some (columns, rows.map integers) := by
  simp [HoldsIntegers, Prod.ext_iff]

instance : Decidable (db.HoldsIntegers name columns rows) := decidable_of_iff _ holdsIntegers_iff.symm

namespace HoldsIntegers

theorem congr (h : db.HoldsIntegers name columns rows) (hdb : db'.table? name = db.table? name) :
    db'.HoldsIntegers name columns rows := by rwa [HoldsIntegers, hdb]

theorem of_sameName (h : db.HoldsIntegers name columns rows) {other : String} (hsame : sameName name other = true) :
    db.HoldsIntegers other columns rows := by rwa [HoldsIntegers, ← table?_congr hsame]

theorem eq {rows' : List (List Int)} (h : db.HoldsIntegers name columns rows)
    (h' : db.HoldsIntegers name columns rows') : rows = rows' := by
  obtain ⟨t, ht, -, hrows⟩ := h
  obtain ⟨t', ht', -, hrows'⟩ := h'
  obtain rfl := Option.some.inj (ht.symm.trans ht')
  exact List.map_injective_iff.2 integers_injective (hrows.symm.trans hrows')

theorem isSome (h : db.HoldsIntegers name columns rows) : (db.table? name).isSome = true := by
  obtain ⟨t, ht, -⟩ := h
  rw [ht]; rfl

theorem columnsOf (h : db.HoldsIntegers name columns rows) :
    (db.table? name).map Table.columns = some columns := by
  obtain ⟨t, ht, rfl, -⟩ := h
  rw [ht]; rfl

theorem outline (h : db.HoldsIntegers name columns rows) (source : String) :
    db.outline name source = ⟨source, columns, []⟩ := by
  obtain ⟨t, ht, rfl, -⟩ := h
  rw [Database.outline, ht]

theorem visible (h : db.HoldsIntegers name columns rows) (source : String) :
    db.visible name source = rows.map fun row => ⟨source, columns, integers row⟩ := by
  obtain ⟨t, ht, rfl, hrows⟩ := h
  simp only [Database.visible, ht, hrows, List.map_map]
  rfl

/-- The first column holds the ids. -/
theorem hasIds {β : Type} {c : Column} {xs : List β} {encode : β → List Int} {f : β → Int}
    (h : db.HoldsIntegers name (c :: columns) (xs.map encode)) (hname : c.name = "id")
    (hid : ∀ x, (encode x).head? = some (f x)) : db.HasIds name ((xs.map f).map .integer) := by
  obtain ⟨t, ht, hcolumns, hrows⟩ := h
  have hindex : t.index? "id" = some 0 := by
    rw [Table.index?, hcolumns, List.findIdx?_cons, if_pos (by rw [hname]; exact sameName_self _)]
  refine ⟨t, c, ht, ?_⟩
  simp only [Table.column?, hindex, hcolumns, hrows, Option.bind_eq_bind, Option.bind_some,
    List.getElem?_cons_zero, Option.pure_def, List.map_map]
  refine congrArg some (Prod.ext rfl (List.map_congr_left fun x _ => ?_))
  have hx := hid x
  cases hencode : encode x with
  | nil => rw [hencode] at hx; cases hx
  | cons n rest =>
    rw [hencode] at hx
    cases hx
    simp [hencode]

end HoldsIntegers

theorem HasIds.of_sameName {cells : List Cell} (h : db.HasIds name cells) {other : String}
    (hsame : sameName name other = true) : db.HasIds other cells := by rwa [HasIds, ← table?_congr hsame]

theorem HasIds.isSome {cells : List Cell} (h : db.HasIds name cells) : (db.table? name).isSome = true := by
  obtain ⟨t, c, ht, -⟩ := h
  rw [ht]; rfl

/-! ## Changing one table -/

/-- The other tables are as before. -/
def Keeps (db db' : Database) (name : String) : Prop :=
  ∀ other, sameName name other = false → db'.table? other = db.table? other

theorem table?_replace_rows {t : Table} (ht : db.table? name = some t) (rows : List Row) :
    (db.replace { t with rows }).table? name = some { t with rows } ∧
      Keeps db (db.replace { t with rows }) name := by
  refine ⟨table?_replace_of_table? ht rfl, fun other hother => ?_⟩
  rw [table?_replace, if_neg]
  rw [sameName_congr (table?_name ht), hother]
  decide

theorem HoldsIntegers.clear (h : db.HoldsIntegers name columns rows) :
    ∃ db', db.apply (.clear name) = .ok (db', none) ∧ db'.HoldsIntegers name columns [] ∧
      Keeps db db' name := by
  obtain ⟨t, ht, hcolumns, -⟩ := h
  obtain ⟨htable, hkeeps⟩ := table?_replace_rows ht []
  exact ⟨_, apply_clear ht, ⟨_, htable, hcolumns, rfl⟩, hkeeps⟩

/-- Rows of integers are stored as they are. -/
theorem fit_integers {t : Table} (hinteger : AreIntegers t.columns) {row : List Int}
    (hlength : row.length = t.columns.length) : t.fit (integers row) = integers row := by
  rw [Table.fit]
  generalize t.columns = columns at hinteger hlength
  induction columns generalizing row with
  | nil => rw [List.eq_nil_of_length_eq_zero hlength]; rfl
  | cons c columns ih =>
    cases row with
    | nil => cases hlength
    | cons n row =>
      rw [show integers (n :: row) = .integer n :: integers row from rfl, List.zipWith_cons_cons,
        hinteger c List.mem_cons_self, ih (fun d hd => hinteger d (List.mem_cons_of_mem c hd)) (Nat.succ.inj hlength)]
      rfl

/-- Rows that are stored as they are go behind those of a table that accepts any row. -/
theorem insertFrom_fitting {t : Table} (ht : db.table? name = some t) (hopen : Table.IsOpen t.columns)
    {added : List Row} {q : Selection} (hq : q.rows db = .ok added)
    (hlength : ∀ row ∈ added, row.length = t.columns.length) (hfit : ∀ row ∈ added, t.fit row = row) :
    ∃ db', db.apply (.insertFrom name q) = .ok (db', none) ∧
      db'.table? name = some { t with rows := t.rows ++ added } ∧ Keeps db db' name := by
  have harrange : arrange t name [] added = .ok added := by
    have : (added.find? fun r => r.length != t.columns.length) = none :=
      List.find?_eq_none.2 fun r hr => by simp [hlength r hr]
    simp [arrange, this]
  have hsame : added.map t.fit = added := (List.map_congr_left hfit).trans (List.map_id added)
  obtain ⟨htable, hkeeps⟩ := table?_replace_rows ht (t.rows ++ added)
  refine ⟨_, ?_, htable, hkeeps⟩
  simp only [apply, Database.insertFrom, find_eq_ok.2 ht, hq, harrange, Table.addAll_of_isOpen hopen, hsame,
    bind, Except.bind, pure, Except.pure]

theorem HoldsIntegers.insertFrom (h : db.HoldsIntegers name columns rows) (hinteger : AreIntegers columns)
    (hopen : Table.IsOpen columns) {q : Selection} (hq : q.rows db = .ok (more.map integers))
    (hlength : ∀ row ∈ more, row.length = columns.length) :
    ∃ db', db.apply (.insertFrom name q) = .ok (db', none) ∧
      db'.HoldsIntegers name columns (rows ++ more) ∧ Keeps db db' name := by
  obtain ⟨t, ht, rfl, hrows⟩ := h
  have hlengths : ∀ row ∈ more.map integers, row.length = t.columns.length := fun row hrow => by
    obtain ⟨ns, hns, rfl⟩ := List.mem_map.1 hrow
    rw [List.length_map, hlength ns hns]
  have hfit : ∀ row ∈ more.map integers, t.fit row = row := fun row hrow => by
    obtain ⟨ns, hns, rfl⟩ := List.mem_map.1 hrow
    exact fit_integers hinteger (hlength ns hns)
  obtain ⟨db', happly, htable, hkeeps⟩ := insertFrom_fitting ht hopen hq hlengths hfit
  exact ⟨db', happly, ⟨_, htable, rfl, by rw [hrows, List.map_append]⟩, hkeeps⟩

end Database

/-! ## What a scope shows -/

namespace Scope

variable {scope : Scope} {source column : String}

/-- A column of a row. -/
theorem find?_cells {columns : List Column} {row : Row} {c : Column} {cell : Cell} {i : ℕ}
    (hlower : ∀ name ∈ columns.map Column.name, IsLower name) (hdistinct : (columns.map Column.name).Nodup)
    (hcolumn : columns[i]? = some c) (hcell : row[i]? = some cell) (source : String) :
    Scope.find? [⟨source, columns, row⟩] (.plain c.name) = some (c.affinity, cell) := by
  suffices ((columns.zip row).find? fun p => sameName p.1.name c.name).map (fun p => (p.1.affinity, p.2))
      = some (c.affinity, cell) by
    simpa [Scope.find?, ColumnRef.plain, Visible.cell?] using this
  induction columns generalizing row i with
  | nil => cases hcolumn
  | cons d columns ih =>
    cases row with
    | nil => cases hcell
    | cons x row =>
      rw [List.map_cons] at hlower hdistinct
      rw [List.nodup_cons] at hdistinct
      have hrest := fun name hname => hlower name (List.mem_cons_of_mem _ hname)
      rw [List.zip_cons_cons, List.find?_cons]
      cases i with
      | zero =>
        cases hcolumn
        cases hcell
        simp
      | succ i =>
        have hmem : c.name ∈ columns.map Column.name := List.mem_map_of_mem (List.mem_of_getElem? hcolumn)
        have hother : sameName d.name c.name = false :=
          sameName_eq_false_of_isLower (hlower _ List.mem_cons_self) (hrest _ hmem)
            fun heq => hdistinct.1 (heq ▸ hmem)
        simp only [hother]
        exact ih hrest hdistinct.2 hcolumn hcell

/-- A column of a row of integers. -/
theorem find?_integers {columns : List Column} {ns : List Int} {n : Int} {i : ℕ} (hinteger : AreIntegers columns)
    (hlower : ∀ name ∈ columns.map Column.name, IsLower name) (hdistinct : (columns.map Column.name).Nodup)
    (hcolumn : (columns.map Column.name)[i]? = some column) (hn : ns[i]? = some n) :
    Scope.find? [⟨source, columns, integers ns⟩] (.plain column) = some (.integer, .integer n) := by
  rw [List.getElem?_map, Option.map_eq_some_iff] at hcolumn
  obtain ⟨c, hc, rfl⟩ := hcolumn
  rw [find?_cells hlower hdistinct hc (by rw [List.getElem?_map, hn]; rfl) source,
    hinteger c (List.mem_of_getElem? hc)]

/-- A column of a row of integers in a table with these columns. -/
theorem find?_named {names : List String} (hlower : ∀ name ∈ names, IsLower name) (hdistinct : names.Nodup)
    {ns : List Int} {n : Int} (i : ℕ) (hcolumn : names[i]? = some column) (hn : ns[i]? = some n) (source : String) :
    Scope.find? [⟨source, names.map Column.integer, integers ns⟩] (.plain column) = some (.integer, .integer n) := by
  have hnames : (names.map Column.integer).map Column.name = names := by simp [Column.integer, Function.comp_def]
  exact find?_integers (areIntegers_map names) (hnames.symm ▸ hlower) (hnames.symm ▸ hdistinct)
    (hnames.symm ▸ hcolumn) hn

/-- A column of the named source is one of the first source of this name. -/
theorem find?_of_cons (v : Visible) (column : String) :
    Scope.find? (v :: scope) (.of source column)
      = if sameName v.source source then Scope.find? [v] (.plain column)
        else Scope.find? scope (.of source column) := by
  simp only [Scope.find?, ColumnRef.of, ColumnRef.plain, List.find?_cons, List.findSome?_cons,
    List.findSome?_nil]
  by_cases h : sameName v.source source = true
  · simp only [h, if_true, Option.bind_some]
    cases v.cell? column <;> rfl
  · simp [h]

theorem cell_of_find? {ref : ColumnRef} {affinity : Affinity} {cell : Cell}
    (h : scope.find? ref = some (affinity, cell)) : scope.cell ref = cell := by
  rw [Scope.cell, h]
  rfl

end Scope

/-! ## Conditions on integers -/

namespace Condition

variable {db : Database} {scope : Scope} {ref ref' : ColumnRef} {other : String} {ns : List Int} {n m : Int}

theorem holds_outside_integers (hfind : scope.find? ref = some (.integer, .integer n))
    (hids : db.HasIds other (ns.map .integer)) : (outside ref other).holds db scope = decide (n ∉ ns) := by
  rw [holds, holds?, member?_integers hfind hids, decide_not]
  cases decide (n ∈ ns) <;> rfl

theorem holds_atMost_integers (hfind : scope.find? ref = some (.integer, .integer n)) (added bound : Int) :
    (atMost ref added bound).holds db scope = decide (n + added ≤ bound) := by
  rw [holds, holds?]
  simp only [Scope.cell, hfind, Option.map_some, Option.getD_some]
  cases decide (n + added ≤ bound) <;> rfl

theorem agree?_integers (hfind : scope.find? ref = some (.integer, .integer n))
    (hfind' : scope.find? ref' = some (.integer, .integer m)) :
    scope.agree? ref ref' = some (decide (n = m)) := by
  simp only [Scope.agree?, Scope.affinity, Scope.cell, hfind, hfind', Option.map_some, Option.getD_some]
  exact Cell.equals?_integers n m

theorem holds_same_integers (hfind : scope.find? ref = some (.integer, .integer n))
    (hfind' : scope.find? ref' = some (.integer, .integer m)) :
    (same ref ref').holds db scope = decide (n = m) := by
  rw [holds, holds?, agree?_integers hfind hfind']
  cases decide (n = m) <;> rfl

end Condition

/-! ## Rows of a join -/

namespace Selection

variable {db : Database} {α : Type} {terms : List Term} {sources : List Source} {refs : List ColumnRef}
  {zs : List α} {scope : α → Scope}

/-- One row for each joined row. -/
theorem rows_join {f : α → Row} (hfinds : (join terms sources).Finds db) (hscopes : scopes db sources = zs.map scope)
    (hvalue : ∀ z ∈ zs, terms.map (Term.value [scope z]) = f z) : (join terms sources).rows db = .ok (zs.map f) := by
  rw [hfinds.rows]
  have hsources : scopes db (join terms sources).sources = zs.map scope := hscopes
  simp only [answer, hsources]
  simp only [join, groups_nil, sortGroups_nil, cutOff_none, List.map_map, Bool.false_eq_true, if_false]
  exact congrArg Except.ok (List.map_congr_left hvalue)

/-- The rows of some groups, if each is the row of some value, beside the keys of these groups. -/
theorem exists_rows_of_groups {γ β : Type} {c : β → List Int} {R : γ → β → Prop} {keys : List γ}
    {gs : List (List Scope)}
    (h : List.Forall₂ (fun k group => ∃ x, terms.map (Term.value group) = integers (c x) ∧ R k x) keys gs) :
    ∃ found : List (γ × β), found.map Prod.fst = keys ∧ (∀ x ∈ found, R x.1 x.2) ∧
      (gs.map fun group => terms.map (Term.value group)) = (found.map fun x => c x.2).map integers := by
  induction h with
  | nil => exact ⟨[], rfl, List.forall_mem_nil _, rfl⟩
  | @cons k group _ _ hrow _ ih =>
    obtain ⟨x, hrow, hR⟩ := hrow
    obtain ⟨found, rfl, hfound, heq⟩ := ih
    exact ⟨(k, x) :: found, rfl, List.forall_mem_cons.2 ⟨hR, hfound⟩, by simp only [List.map_cons, hrow, heq]⟩

section Grouped

variable {κ : Type} [DecidableEq κ] [Ord κ] [Std.TransOrd κ] [Std.LawfulEqOrd κ] {cell : κ → Cell} {f : α → List κ}
  (horder : ∀ x y, (cell x).order (cell y) = compare x y)

section Keys

variable (hkey : ∀ z ∈ zs, keyOf refs (scope z) = (f z).map cell)
include hkey horder

omit [DecidableEq κ] [Std.TransOrd κ] in
/-- The values in some columns, seen from the joined rows. -/
theorem exists_key : ∃ key : Scope → List κ, (∀ sc ∈ zs.map scope, keyOf refs sc = (key sc).map cell) ∧
    ∀ z ∈ zs, key (scope z) = f z := by
  have hscope : ∀ sc ∈ zs.map scope, ∃ k : List κ, keyOf refs sc = k.map cell := fun sc hsc => by
    obtain ⟨z, hz, rfl⟩ := List.mem_map.1 hsc
    exact ⟨f z, hkey z hz⟩
  choose! key hscope using hscope
  exact ⟨key, hscope, fun z hz => List.map_injective_iff.2 (injective_of_order horder)
    ((hscope _ (List.mem_map_of_mem hz)).symm.trans (hkey z hz))⟩

end Keys

include horder in
/-- One row for each combination of values in some columns of the joined rows. -/
theorem rows_join_grouped {β : Type} {c : β → List Int} {R : List κ → β → Prop}
    (hfinds : ((join terms sources).grouped refs).Finds db) (hscopes : scopes db sources = zs.map scope)
    (hrefs : refs ≠ []) (hkey : ∀ z ∈ zs, keyOf refs (scope z) = (f z).map cell)
    (hvalue : ∀ k group, group ≠ [] → (∀ sc, sc ∈ group ↔ ∃ z ∈ zs, f z = k ∧ scope z = sc) →
      ∃ x, terms.map (Term.value group) = integers (c x) ∧ R k x) :
    ∃ found : List (List κ × β), (found.map Prod.fst).Nodup ∧
      (∀ k, k ∈ found.map Prod.fst ↔ ∃ z ∈ zs, f z = k) ∧ (∀ x ∈ found, R x.1 x.2) ∧
      ((join terms sources).grouped refs).rows db = .ok ((found.map fun x => c x.2).map integers) := by
  have hsources : scopes db ((join terms sources).grouped refs).sources = zs.map scope := hscopes
  have hanswer : ((join terms sources).grouped refs).answer db
      = (groups refs (zs.map scope)).map fun group => terms.map (Term.value group) := by
    simp only [answer, hsources]
    simp only [grouped, join, sortGroups_nil, cutOff_none, Bool.false_eq_true, if_false]
  obtain ⟨key, hscope, hkeys⟩ := exists_key horder hkey
  obtain ⟨keys, hascend, hmem, hgroups⟩ := exists_keys_groups horder hrefs hscope
  obtain ⟨found, rfl, hfound, heq⟩ := exists_rows_of_groups (hgroups.imp fun k group hgroup => by
    refine hvalue k group hgroup.1 fun sc => ?_
    rw [hgroup.2, List.mem_map]
    constructor
    · rintro ⟨⟨z, hz, rfl⟩, rfl⟩
      exact ⟨z, hz, (hkeys z hz).symm, rfl⟩
    · rintro ⟨z, hz, rfl, rfl⟩
      exact ⟨⟨z, hz, rfl⟩, hkeys z hz⟩)
  refine ⟨found, nodup_of_ascends hascend, fun k => ?_, hfound, by rw [hfinds.rows, hanswer, heq]⟩
  rw [hmem]
  constructor
  · rintro ⟨sc, hsc, rfl⟩
    obtain ⟨z, hz, rfl⟩ := List.mem_map.1 hsc
    exact ⟨z, hz, (hkeys z hz).symm⟩
  · rintro ⟨z, hz, rfl⟩
    exact ⟨scope z, List.mem_map_of_mem hz, hkeys z hz⟩

omit [DecidableEq κ] [Ord κ] [Std.TransOrd κ] [Std.LawfulEqOrd κ] in
/-- The least integer of a column in a group. -/
theorem exists_least_of_group {ref : ColumnRef} {g : α → Int} {group : List Scope} {k : List κ}
    (hcell : ∀ z ∈ zs, (scope z).cell ref = .integer (g z)) (hne : group ≠ [])
    (hgroup : ∀ sc, sc ∈ group ↔ ∃ z ∈ zs, f z = k ∧ scope z = sc) :
    ∃ m, Term.value group (.least ref) = .integer m ∧ (∃ z ∈ zs, f z = k ∧ g z = m) ∧
      ∀ z ∈ zs, f z = k → m ≤ g z := by
  have hcells : group.map (·.cell ref) ∈ {l | ∀ c ∈ l, c ∈ Set.range Cell.integer} := fun c hc => by
    obtain ⟨sc, hsc, rfl⟩ := List.mem_map.1 hc
    obtain ⟨z, hz, -, rfl⟩ := (hgroup sc).1 hsc
    exact ⟨g z, (hcell z hz).symm⟩
  rw [← Set.range_list_map] at hcells
  obtain ⟨ns, hns⟩ := hcells
  have hmem : ∀ n, n ∈ ns ↔ ∃ z ∈ zs, f z = k ∧ g z = n := fun n => by
    rw [← List.mem_map_of_injective fun _ _ => Cell.integer.inj, hns, List.mem_map]
    constructor
    · rintro ⟨sc, hsc, heq⟩
      obtain ⟨z, hz, hk, rfl⟩ := (hgroup sc).1 hsc
      rw [hcell z hz] at heq
      exact ⟨z, hz, hk, Cell.integer.inj heq⟩
    · rintro ⟨z, hz, hk, rfl⟩
      exact ⟨scope z, (hgroup _).2 ⟨z, hz, hk, rfl⟩, hcell z hz⟩
  have hne : ns ≠ [] := fun hnil => hne (List.map_eq_nil_iff.1 (by rw [← hns, hnil]; rfl))
  obtain ⟨m, hm, hleast, hle⟩ := Cell.least_integers hne
  exact ⟨m, by rw [Term.value, ← hns, ← hleast], (hmem m).1 hm, fun z hz hk => hle _ ((hmem _).2 ⟨z, hz, hk, rfl⟩)⟩

include horder in
/-- The least integer of a column for each combination of values in some others. -/
theorem rows_join_least {ref : ColumnRef} {g : α → Int}
    (hfinds : ((join [.least ref] sources).grouped refs).Finds db) (hscopes : scopes db sources = zs.map scope)
    (hrefs : refs ≠ []) (hkey : ∀ z ∈ zs, keyOf refs (scope z) = (f z).map cell)
    (hcell : ∀ z ∈ zs, (scope z).cell ref = .integer (g z)) :
    ∃ found : List (List κ × Int), (found.map Prod.fst).Nodup ∧
      (∀ k m, (k, m) ∈ found ↔ (∃ z ∈ zs, f z = k ∧ g z = m) ∧ ∀ z ∈ zs, f z = k → m ≤ g z) ∧
      ((join [.least ref] sources).grouped refs).rows db = .ok ((found.map fun x => [x.2]).map integers) := by
  obtain ⟨found, hnodup, hmem, hfound, hrows⟩ := rows_join_grouped horder hfinds hscopes hrefs hkey (c := fun m => [m])
    (R := fun k m => (∃ z ∈ zs, f z = k ∧ g z = m) ∧ ∀ z ∈ zs, f z = k → m ≤ g z) fun k group hne hgroup => by
      obtain ⟨m, hvalue, hleast⟩ := exists_least_of_group hcell hne hgroup
      exact ⟨m, congrArg (fun c => [c]) hvalue, hleast⟩
  refine ⟨found, hnodup, fun k m => ⟨fun hx => hfound _ hx, ?_⟩, hrows⟩
  -- The least integer is the only one with the key.
  rintro ⟨⟨z, hz, rfl, rfl⟩, hle⟩
  obtain ⟨⟨k, m⟩, hx, heq⟩ := List.mem_map.1 ((hmem (f z)).2 ⟨z, hz, rfl⟩)
  obtain rfl : k = f z := heq
  obtain ⟨⟨z', hz', hk', rfl⟩, hle'⟩ := hfound _ hx
  have hleast : g z' = g z := le_antisymm (hle' z hz rfl) (hle z' hz' hk')
  exact hleast ▸ hx

end Grouped

end Selection

/-! ## Selections from one table -/

namespace Selection

variable {db : Database} {α : Type} {xs : List α} {encode f : α → List Int} {table : String}
  {columns : List Column} {names : List String} {conditions : List Condition} {p : α → Bool}
  {terms : List Term} {refs : List ColumnRef}

/-- What a selection from a table of integers sees: the conditions hold on the row of `x` if `p x`. -/
structure ReadsIntegers (db : Database) (table : String) (columns : List Column) (xs : List α)
    (encode : α → List Int) (conditions : List Condition) (p : α → Bool) : Prop where
  rows : db.HoldsIntegers table columns (xs.map encode)
  fits : ∀ c ∈ conditions, c.Fits db [⟨table, columns, []⟩]
  holds : ∀ x, conditions.all (·.holds db [⟨table, columns, integers (encode x)⟩]) = p x

namespace ReadsIntegers

variable (h : ReadsIntegers db table columns xs encode conditions p)
include h

theorem finds (refs : List ColumnRef)
    (hterms : ∀ ref ∈ terms.flatMap Term.mentions, Scope.knows [⟨table, columns, []⟩] ref = true)
    (hrefs : ∀ ref ∈ refs, Scope.knows [⟨table, columns, []⟩] ref = true) :
    ((join terms [⟨table, none, conditions⟩]).grouped refs).Finds db := by
  have houtlines : ((join terms [⟨table, none, conditions⟩]).grouped refs).outlines db
      = [⟨table, columns, []⟩] := by
    simp [outlines, grouped, join, Source.name, h.rows.outline]
  refine ⟨?_, ?_, ?_, ?_, terms, rfl, ?_⟩
  · simpa [grouped, join] using h.rows.isSome
  · rw [houtlines]
    simpa [grouped, join] using h.fits
  · rw [houtlines]
    exact hrefs
  · simp [grouped, join]
  · rw [houtlines]
    exact hterms

theorem scopes : Selection.scopes db [⟨table, none, conditions⟩]
    = (xs.filter p).map fun x => [⟨table, columns, integers (encode x)⟩] := by
  obtain ⟨t, ht, rfl, hrows⟩ := h.rows
  rw [scopes_single ht, hrows, List.map_map, List.map_map, List.filter_map]
  exact congrArg _ (List.filter_congr fun x _ => h.holds x)

/-- One row for each row that meets the conditions. -/
theorem rows_terms (hterms : ∀ ref ∈ terms.flatMap Term.mentions, Scope.knows [⟨table, columns, []⟩] ref = true)
    (hvalue : ∀ x, terms.map (Term.value [[⟨table, columns, integers (encode x)⟩]]) = integers (f x)) :
    (join terms [⟨table, none, conditions⟩]).rows db = .ok (((xs.filter p).map f).map integers) :=
  (rows_join (h.finds [] hterms nofun) h.scopes fun x _ => hvalue x).trans (by rw [List.map_map]; rfl)

section Columns

variable (hnames : names ⊆ columns.map Column.name)
  (hcells : ∀ x, names.map (fun n => Scope.cell [⟨table, columns, integers (encode x)⟩] (.plain n)) = integers (f x))
include hnames hcells

omit h hcells in
theorem knows_columns : ∀ n ∈ names, Scope.knows [⟨table, columns, []⟩] (.plain n) = true := fun _ hn =>
  Scope.knows_plain_of_mem table (hnames hn)

omit h hcells in
theorem knows_mentions : ∀ ref ∈ (names.map fun n => Term.column (.plain n)).flatMap Term.mentions,
    Scope.knows [⟨table, columns, []⟩] ref = true := fun ref href => by
  obtain ⟨term, hterm, href⟩ := List.mem_flatMap.1 href
  obtain ⟨n, hn, rfl⟩ := List.mem_map.1 hterm
  rw [List.mem_singleton.1 href]
  exact knows_columns hnames n hn

omit h hnames in
theorem value_columns (x : α) : (names.map fun n => Term.column (.plain n)).map
    (Term.value [[⟨table, columns, integers (encode x)⟩]]) = integers (f x) := by
  rw [← hcells x, List.map_map]
  rfl

variable (names) in
/-- Some columns of the rows that meet the conditions. -/
theorem rows_columns : (Selection.columns names table conditions).rows db
    = .ok (((xs.filter p).map f).map integers) :=
  h.rows_terms (knows_mentions hnames) (value_columns hcells)

variable (names) in
/-- Each combination of integers in some columns once. -/
theorem rows_grouped {γ : Type} {code : γ → List Int} {g : α → γ} (hcode : Function.Injective code)
    (hf : ∀ x, f x = code (g x)) (hne : names ≠ []) :
    ∃ found : List γ, found.Nodup ∧ (∀ k, k ∈ found ↔ ∃ x ∈ xs, p x ∧ g x = k) ∧
      ((Selection.columns names table conditions).groupedBy names).rows db = .ok ((found.map code).map integers) := by
  have hkey : ∀ x ∈ xs.filter p, keyOf (names.map .plain) [⟨table, columns, integers (encode x)⟩]
      = integers (f x) := fun x _ => by
    rw [← hcells x, keyOf, List.map_map]
    rfl
  have hrefs : ∀ ref ∈ names.map ColumnRef.plain, Scope.knows [⟨table, columns, []⟩] ref = true := fun ref href => by
    obtain ⟨n, hn, rfl⟩ := List.mem_map.1 href
    exact knows_columns hnames n hn
  obtain ⟨pairs, hnodup, hmem, heq, hrows⟩ := rows_join_grouped Cell.order_integer (c := code) (R := fun k y => k = code y)
    (h.finds _ (knows_mentions hnames) hrefs) h.scopes (by simpa using hne) hkey fun k group hne hgroup => by
      obtain ⟨sc, rest, rfl⟩ := List.exists_cons_of_ne_nil hne
      obtain ⟨x, hx, rfl, rfl⟩ := (hgroup sc).1 List.mem_cons_self
      refine ⟨g x, ?_, hf x⟩
      rw [← hf, ← hcells x, List.map_map]
      rfl
  have hkeys : pairs.map Prod.fst = (pairs.map Prod.snd).map code := by
    rw [List.map_map]
    exact List.map_congr_left heq
  rw [hkeys] at hnodup hmem
  refine ⟨pairs.map Prod.snd, hnodup.of_map code, fun k => ?_, ?_⟩
  · rw [← List.mem_map_of_injective hcode, hmem]
    simp only [List.mem_filter, and_assoc, hf, hcode.eq_iff]
  · rw [List.map_map (g := code)]
    exact hrows

end Columns

end ReadsIntegers

end Selection

/-! ## Selections from two tables -/

namespace Selection

variable {db : Database} {α β : Type} {xs : List α} {ys : List β} {encode : α → List Int}
  {encode' : β → List Int} {table table' left right : String} {columns columns' : List Column}
  {conditions : List Condition} {p : α × β → Bool} {terms : List Term} {refs : List ColumnRef}

/-- A row of one table of integers beside a row of another. -/
abbrev beside (left right : String) (columns columns' : List Column) (encode : α → List Int)
    (encode' : β → List Int) (z : α × β) : Scope :=
  [⟨left, columns, integers (encode z.1)⟩, ⟨right, columns', integers (encode' z.2)⟩]

theorem find?_beside_left (z : α × β) (column : String) :
    Scope.find? (beside left right columns columns' encode encode' z) (.of left column)
      = Scope.find? [⟨left, columns, integers (encode z.1)⟩] (.plain column) := by
  rw [beside, Scope.find?_of_cons, if_pos (sameName_self _)]

theorem find?_beside_right (hne : sameName left right = false) (z : α × β) (column : String) :
    Scope.find? (beside left right columns columns' encode encode' z) (.of right column)
      = Scope.find? [⟨right, columns', integers (encode' z.2)⟩] (.plain column) := by
  rw [beside, Scope.find?_of_cons, hne, if_neg (by decide), Scope.find?_of_cons, if_pos (sameName_self _)]

/-- What a selection from two tables of integers sees: the conditions hold on the rows of `z` if `p z`. -/
structure Pairs (db : Database) (table table' left right : String) (columns columns' : List Column)
    (xs : List α) (encode : α → List Int) (ys : List β) (encode' : β → List Int)
    (conditions : List Condition) (p : α × β → Bool) : Prop where
  first : db.HoldsIntegers table columns (xs.map encode)
  second : db.HoldsIntegers table' columns' (ys.map encode')
  fits : ∀ c ∈ conditions, c.Fits db [⟨left, columns, []⟩, ⟨right, columns', []⟩]
  holds : ∀ z ∈ xs ×ˢ ys, conditions.all (·.holds db (beside left right columns columns' encode encode' z)) = p z

namespace Pairs

variable (h : Pairs db table table' left right columns columns' xs encode ys encode' conditions p)
include h

theorem finds (terms : List Term) (refs : List ColumnRef) (hterms : ∀ ref ∈ terms.flatMap Term.mentions,
      Scope.knows [⟨left, columns, []⟩, ⟨right, columns', []⟩] ref = true)
    (hrefs : ∀ ref ∈ refs, Scope.knows [⟨left, columns, []⟩, ⟨right, columns', []⟩] ref = true) :
    ((join terms [⟨table, some left, []⟩, ⟨table', some right, conditions⟩]).grouped refs).Finds db := by
  have houtlines : ((join terms [⟨table, some left, []⟩, ⟨table', some right, conditions⟩]).grouped refs).outlines db
      = [⟨left, columns, []⟩, ⟨right, columns', []⟩] := by
    simp [outlines, grouped, join, Source.name, h.first.outline, h.second.outline]
  refine ⟨?_, ?_, ?_, ?_, terms, rfl, ?_⟩
  · simpa [grouped, join] using ⟨h.first.isSome, h.second.isSome⟩
  · rw [houtlines]
    simpa [grouped, join] using h.fits
  · rw [houtlines]
    exact hrefs
  · simp [grouped, join]
  · rw [houtlines]
    exact hterms

theorem scopes : Selection.scopes db [⟨table, some left, []⟩, ⟨table', some right, conditions⟩]
    = ((xs ×ˢ ys).filter p).map (beside left right columns columns' encode encode') := by
  have hall : Selection.scopes db [⟨table, some left, []⟩, ⟨table', some right, conditions⟩]
      = ((xs ×ˢ ys).map (beside left right columns columns' encode encode')).filter fun scope =>
        conditions.all (·.holds db scope) := by
    simp only [Selection.scopes, List.foldl_cons, List.foldl_nil, List.flatMap_cons, List.flatMap_nil,
      List.append_nil, extend, Source.name, Option.getD_some, h.first.visible, h.second.visible, List.map_map,
      List.all_nil, List.filter_true, List.nil_append, SProd.sprod, List.product, List.map_flatMap,
      List.filter_flatMap, List.flatMap_map, Function.comp_def, List.cons_append]
  rw [hall, List.filter_map]
  exact congrArg _ (List.filter_congr h.holds)

/-- One row for each pair of rows that meets the conditions. -/
theorem rows_terms {f : α × β → List Int} (hterms : ∀ ref ∈ terms.flatMap Term.mentions,
      Scope.knows [⟨left, columns, []⟩, ⟨right, columns', []⟩] ref = true)
    (hvalue : ∀ z, terms.map (Term.value [beside left right columns columns' encode encode' z]) = integers (f z)) :
    (join terms [⟨table, some left, []⟩, ⟨table', some right, conditions⟩]).rows db
      = .ok ((((xs ×ˢ ys).filter p).map f).map integers) :=
  (rows_join (h.finds terms [] hterms nofun) h.scopes fun z _ => hvalue z).trans (by rw [List.map_map]; rfl)

end Pairs

end Selection

end Provenance.Store

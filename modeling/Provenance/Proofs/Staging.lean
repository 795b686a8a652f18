import Provenance.Proofs.Database
import Provenance.Proofs.Renaming

/-!
# Statements over copied tables

A statement, and the same one under other names over copies of its tables: both succeed, with the
same answer, and leave copies behind, or both fail. What is written to must not be taken for another
table by either. Tables that are dropped first may differ before.
-/

namespace Provenance.Store

/-- The statement with its tables under other names. -/
def Statement.under (T : String → String) : Statement → Statement
  | create ifAbsent table columns => create ifAbsent (T table) columns
  | drop ifPresent table => drop ifPresent (T table)
  | insert table columns rows => insert (T table) columns rows
  | insertFrom table query => insertFrom (T table) (query.under T)
  | upsert table keyColumn valueColumn key value => upsert (T table) keyColumn valueColumn key value
  | delete table only => delete (T table) only
  | update table column value only => update (T table) column value only
  | select query => select (query.under T)

/-- Tables that are written to, under any of their names, are no other tables of a stage. -/
structure Separates (T : String → String) (W U : Set String) : Prop extends IsRenaming T where
  subset : W ⊆ U
  apart : ∀ name ∈ W, ∀ other ∈ U, sameName (T name) (T other) = sameName name other
  reserved : ∀ name ∈ W, Database.isReserved (T name) = Database.isReserved name

/-- The second database has copies of tables of a stage, of which the first one consists. -/
structure Staged (T : String → String) (U D : Set String) (db db' : Database) : Prop where
  copies : Copies T D db db'
  subset : D ⊆ U

variable {T : String → String} {W U D : Set String} {db db' : Database}

/-! ## Tables that are changed -/

/-- The table under another name. -/
def Table.called (t : Table) (name : String) : Table := { t with name }

theorem Table.eq_called {t t' : Table} (h : t'.columns = t.columns ∧ t'.indexed = t.indexed ∧
    t'.rows = t.rows) : t' = t.called t'.name := by
  obtain ⟨hcolumns, hindexed, hrows⟩ := h
  cases t'
  cases hcolumns
  cases hindexed
  cases hrows
  rfl

namespace Table

variable (t : Table) (name : String)

theorem findSome?_isSome_ite {α β : Type} (list : List α) (p : α → Bool) (f : α → β) :
    (list.findSome? fun a => if p a then some (f a) else none).isSome = list.any p := by
  induction list with
  | nil => rfl
  | cons a list ih =>
    rw [List.findSome?_cons, List.any_cons]
    by_cases h : p a = true
    · simp [h]
    · simp [h, ih]

/-- Whether a row breaks a constraint does not depend on the table's name. -/
theorem violation?_called (row : Row) :
    ((t.called name).violation? row).isSome = (t.violation? row).isSome := by
  simp only [violation?, Option.isSome_or, findSome?_isSome_ite]
  rfl

theorem add_called (row : Row) :
    ((t.called name).add row).toOption = (t.add row).toOption.map (·.called name) := by
  have hviolation := violation?_called t name (t.fit row)
  have hfit : (t.called name).fit row = t.fit row := rfl
  simp only [add, hfit]
  cases h : t.violation? (t.fit row) with
  | none =>
    rw [h, Option.isSome_none, Option.isSome_eq_false_iff, Option.isNone_iff_eq_none] at hviolation
    rw [hviolation]
    rfl
  | some cause =>
    rw [h, Option.isSome_some, Option.isSome_iff_exists] at hviolation
    obtain ⟨cause', hcause⟩ := hviolation
    rw [hcause]
    rfl

theorem addAll_called (rows : List Row) :
    ((t.called name).addAll rows).toOption = (t.addAll rows).toOption.map (·.called name) := by
  have hfold : ∀ t : Table, (rows.foldlM add (t.called name)).toOption
      = (rows.foldlM add t).toOption.map (·.called name) := by
    induction rows with
    | nil => intro t; rfl
    | cons row rows ih =>
      intro t
      have hadd := add_called t name row
      rw [List.foldlM_cons, List.foldlM_cons]
      cases h : t.add row with
      | error cause =>
        cases h' : (t.called name).add row with
        | error cause' => rfl
        | ok t' => rw [h, h'] at hadd; cases hadd
      | ok t₁ =>
        cases h' : (t.called name).add row with
        | error cause' => rw [h, h'] at hadd; cases hadd
        | ok t' =>
          rw [h, h'] at hadd
          obtain rfl : t' = t₁.called name := Option.some.inj hadd
          exact ih t₁
  unfold addAll
  have hconstrained : (t.called name).isConstrained = t.isConstrained := rfl
  rw [hconstrained]
  split
  · exact hfold t
  · rfl

end Table

namespace Staged

variable (hT : Separates T W U) (h : Staged T U D db db') {name : String} (hname : name ∈ W)

include hT h hname

/-- A table and its copy get the same new rows. -/
theorem replace {t t' : Table} (ht : db.table? name = some t) (ht' : db'.table? (T name) = some t')
    {u : Table} (hu : u.name = t.name) : Staged T U D (db.replace u) (db'.replace (u.called t'.name)) := by
  refine ⟨fun other hother => ?_, h.subset⟩
  have hcopy := h.copies other hother
  have hsame : sameName (u.called t'.name).name (T other) = sameName u.name other := by
    have h₁ := sameName_congr (Database.table?_name ht') (T other)
    have h₂ := sameName_congr (Database.table?_name ht) other
    rw [hu, h₂, ← hT.apart name hname other (h.subset hother)]
    exact h₁
  rw [Database.table?_replace, Database.table?_replace, hsame]
  split
  · obtain ⟨hnone, hnone'⟩ | ⟨v, v', hv, hv', -⟩ := h.copies.cases hother
    · rw [hnone, hnone']; rfl
    · rw [hv, hv']; rfl
  · exact hcopy

/-- A table and its copy are dropped. Then both are missing, whether or not they were copies. -/
theorem remove : Staged T U (insert name D) (db.remove name) (db'.remove (T name)) := by
  refine ⟨fun other hother => ?_, Set.insert_subset (hT.subset hname) h.subset⟩
  rw [Database.table?_remove, Database.table?_remove]
  rcases hother with rfl | hother
  · simp
  · rw [hT.apart name hname other (h.subset hother)]
    split
    · rfl
    · exact h.copies other hother

/-- The same table is added under both names. -/
theorem add (u : Table) :
    Staged T U D (db.add (u.called name)) (db'.add (u.called (T name))) := by
  refine ⟨fun other hother => ?_, h.subset⟩
  have hsame := hT.apart name hname other (h.subset hother)
  have hcopy := h.copies other hother
  rw [Database.table?_add, Database.table?_add]
  simp only [Table.called, hsame]
  obtain ⟨hnone, hnone'⟩ | ⟨v, v', hv, hv', -⟩ := h.copies.cases hother
  · rw [hnone, hnone']
    by_cases hs : sameName name other = true <;> simp [hs, Table.body]
  · rw [hv, hv'] at hcopy
    rw [hv, hv']
    exact hcopy

end Staged

/-! ## One statement -/

/-- Two computations fail both, or give the same. -/
theorem toOption_cases {ε ε' α : Type} {a : Except ε α} {b : Except ε' α}
    (h : a.toOption = b.toOption) :
    (∃ e e', a = .error e ∧ b = .error e') ∨ ∃ x, a = .ok x ∧ b = .ok x := by
  cases a with
  | error e =>
    cases b with
    | error e' => exact .inl ⟨e, e', rfl, rfl⟩
    | ok y => cases h
  | ok x =>
    cases b with
    | error e' => cases h
    | ok y => cases h; exact .inr ⟨x, rfl, rfl⟩

/-- Both computations fail, or both succeed with the same answer and leave a staged database. -/
def Agree (T : String → String) (U D : Set String)
    (a b : Except Cause (Database × Option (List Row))) : Prop :=
  (∃ e e', a = .error e ∧ b = .error e') ∨
    ∃ db db' answer, a = .ok (db, answer) ∧ b = .ok (db', answer) ∧ Staged T U D db db'

namespace Statement

/-- The statement writes to some of the tables and reads known ones. -/
def Stays (W D : Set String) : Statement → Prop
  | create false table (.known _) => table ∈ W ∧ table ∈ D
  | drop true table => table ∈ W
  | insert table _ _ => table ∈ W ∧ table ∈ D
  | insertFrom table query => table ∈ W ∧ table ∈ D ∧ query.IsShort ∧ query.Reads D
  | delete table none => table ∈ W ∧ table ∈ D
  | select query => query.IsShort ∧ query.Reads D
  | _ => False

/-- The tables that are known after the statement: a table that was dropped is. -/
def grown (D : Set String) : Statement → Set String
  | drop _ table => Insert.insert table D
  | _ => D

end Statement

/-- Without rows of the query there is nothing to be inserted. -/
theorem Database.apply_insertFrom_error (table : String) {q : Selection} {e : Cause} (h : q.rows db = .error e) :
    ∃ c, db.apply (.insertFrom table q) = .error c := by
  simp only [apply, insertFrom, h]
  cases db.find table <;> exact ⟨_, rfl⟩

/-- Rows of a query are inserted as given ones are. -/
theorem Database.apply_insertFrom_ok (table : String) {q : Selection} {rows : List Row} (h : q.rows db = .ok rows) :
    db.apply (.insertFrom table q) = db.apply (.insert table [] rows) := by
  simp only [apply, insertFrom, insert, h]
  rfl

section Apply

variable (hT : Separates T W U) (h : Staged T U D db db')

include hT h

theorem create_staged {table : String} {columns : List Column} (htable : table ∈ W) (hD : table ∈ D) :
    Agree T U D (db.apply (.create false table (.known columns)))
      (db'.apply (.create false (T table) (.known columns))) := by
  simp only [Database.apply, Database.create, Database.columnList, hT.reserved table htable]
  by_cases hreserved : Database.isReserved table = true
  · simp only [hreserved]
    exact .inl ⟨_, _, rfl, rfl⟩
  · simp only [hreserved]
    obtain ⟨hnone, hnone'⟩ | ⟨t, t', ht, ht', -⟩ := h.copies.cases hD
    · simp only [hnone, hnone']
      by_cases hkeys : 1 < ((columns.filter Column.primaryKey).map Column.name).length
      · simp only [bind, Except.bind, hkeys]
        exact .inl ⟨_, _, rfl, rfl⟩
      · simp only [bind, Except.bind, hkeys]
        exact .inr ⟨_, _, none, rfl, rfl, h.add hT htable ⟨"", columns, _, []⟩⟩
    · simp only [ht, ht']
      exact .inl ⟨_, _, rfl, rfl⟩

/-- Rows that both tables are given are added to both, or to none. -/
theorem added_staged {table : String} (htable : table ∈ W) {t t' : Table}
    (ht : db.table? table = some t) (ht' : db'.table? (T table) = some t') (hcalled : t' = t.called t'.name)
    {a b : Except Cause (List Row)} (hrows : b.toOption = a.toOption) :
    Agree T U D
      (do let rows ← a; let u ← t.addAll rows; return (db.replace u, none))
      (do let rows ← b; let u ← t'.addAll rows; return (db'.replace u, none)) := by
  obtain ⟨e', e, rfl, rfl⟩ | ⟨rows, rfl, rfl⟩ := toOption_cases hrows
  · exact .inl ⟨e, e', rfl, rfl⟩
  · have hadded := Table.addAll_called t t'.name rows
    rw [← hcalled] at hadded
    simp only [bind, Except.bind]
    cases hu : t.addAll rows with
    | error e =>
      cases hu' : t'.addAll rows with
      | error e' => exact .inl ⟨e, e', rfl, rfl⟩
      | ok u' => rw [hu, hu'] at hadded; cases hadded
    | ok u =>
      cases hu' : t'.addAll rows with
      | error e' => rw [hu, hu'] at hadded; cases hadded
      | ok u' =>
        rw [hu, hu'] at hadded
        obtain rfl : u' = u.called t'.name := Option.some.inj hadded
        have hname : u.name = t.name := by rw [Table.addAll_ok hu]
        exact .inr ⟨_, _, none, rfl, rfl, h.replace hT htable ht ht' hname⟩

omit hT h in
theorem arrange_called (t : Table) (name written written' : String) (names : List String)
    (rows : List Row) : (Database.arrange (t.called name) written' names rows).toOption
      = (Database.arrange t written names rows).toOption := by
  unfold Database.arrange
  by_cases hnames : names.isEmpty = true
  · simp only [hnames, Table.called]
    cases rows.find? fun r => r.length != t.columns.length <;> rfl
  · simp only [hnames, Table.called, Table.index?, Bool.false_eq_true, if_false]
    split <;> rfl

omit hT in
/-- A known table is missing under both names, or there under both. -/
theorem find_staged {table : String} (hD : table ∈ D) :
    (∃ e e', db.find table = .error e ∧ db'.find (T table) = .error e') ∨
      ∃ t t', db.table? table = some t ∧ db'.table? (T table) = some t' ∧ t' = t.called t'.name ∧
        db.find table = .ok t ∧ db'.find (T table) = .ok t' := by
  obtain ⟨hnone, hnone'⟩ | ⟨t, t', ht, ht', hbody⟩ := h.copies.cases hD
  · exact .inl ⟨.missingTable table, .missingTable (T table), by simp [Database.find, hnone],
      by simp [Database.find, hnone']⟩
  · exact .inr ⟨t, t', ht, ht', Table.eq_called hbody, Database.find_eq_ok.2 ht, Database.find_eq_ok.2 ht'⟩

theorem insert_staged {table : String} (htable : table ∈ W) (hD : table ∈ D) (names : List String) (rows : List Row) :
    Agree T U D (db.apply (.insert table names rows)) (db'.apply (.insert (T table) names rows)) := by
  simp only [Database.apply, Database.insert]
  obtain ⟨e, e', he, he'⟩ | ⟨t, t', ht, ht', hcalled, hok, hok'⟩ := find_staged h hD
  · rw [he, he']
    exact .inl ⟨e, e', rfl, rfl⟩
  · rw [hok, hok']
    have hrows := arrange_called t t'.name table (T table) names rows
    rw [← hcalled] at hrows
    simp only [bind_assoc, pure_bind]
    exact added_staged hT h htable ht ht' hcalled hrows

theorem clear_staged {table : String} (htable : table ∈ W) (hD : table ∈ D) :
    Agree T U D (db.apply (.delete table none)) (db'.apply (.delete (T table) none)) := by
  simp only [Database.apply, Database.delete]
  obtain ⟨e, e', he, he'⟩ | ⟨t, t', ht, ht', hcalled, hok, hok'⟩ := find_staged h hD
  · rw [he, he']
    exact .inl ⟨e, e', rfl, rfl⟩
  · rw [hok, hok']
    refine .inr ⟨_, _, none, rfl, rfl, ?_⟩
    have hrows : t'.rows = t.rows := by rw [hcalled]; rfl
    have hreplace := h.replace hT htable ht ht' (u := { t with rows :=
      ((t.rows.zip (t.rows.map fun _ => true)).filter fun p => !p.2).map (·.1) }) rfl
    rw [hcalled]
    exact hreplace

/-- A statement does the same under both names, or fails under both. -/
theorem apply_staged {s : Statement} (hs : s.Stays W D) :
    Agree T U (s.grown D) (db.apply s) (db'.apply (s.under T)) := by
  cases s with
  | create ifAbsent table columns =>
    cases ifAbsent with
    | true => exact hs.elim
    | false =>
      cases columns with
      | known columns => exact create_staged hT h hs.1 hs.2
      | written text => exact hs.elim
  | drop ifPresent table =>
    cases ifPresent with
    | false => exact hs.elim
    | true =>
      simp only [Statement.under, Database.apply, Database.drop_present]
      exact .inr ⟨_, _, none, rfl, rfl, h.remove hT hs⟩
  | insert table names rows => exact insert_staged hT h hs.1 hs.2 names rows
  | insertFrom table query =>
    obtain ⟨htable, hD, hshort, hreads⟩ := hs
    have hrows := Selection.rows_copy hT.toIsRenaming h.copies hshort hreads
    obtain ⟨e', e, he', he⟩ | ⟨rows, hr', hr⟩ := toOption_cases hrows
    · obtain ⟨c, hc⟩ := Database.apply_insertFrom_error table he
      obtain ⟨c', hc'⟩ := Database.apply_insertFrom_error (T table) he'
      exact .inl ⟨c, c', hc, hc'⟩
    · have hinsert := insert_staged hT h htable hD [] rows
      rwa [← Database.apply_insertFrom_ok table hr, ← Database.apply_insertFrom_ok (T table) hr'] at hinsert
  | upsert table keyColumn valueColumn key value => exact hs.elim
  | delete table only =>
    cases only with
    | some pair => exact hs.elim
    | none => exact clear_staged hT h hs.1 hs.2
  | update table column value only => exact hs.elim
  | select query =>
    simp only [Statement.under, Database.apply]
    have hrows := Selection.shownRows_copy hT.toIsRenaming h.copies hs.1 hs.2
    obtain ⟨e', e, he', he⟩ | ⟨rows, hr', hr⟩ := toOption_cases hrows
    · rw [he, he']
      exact .inl ⟨e, e', rfl, rfl⟩
    · rw [hr, hr']
      exact .inr ⟨_, _, some rows, rfl, rfl, h⟩

end Apply

end Provenance.Store

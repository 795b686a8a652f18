import Mathlib.Data.List.SplitBy
import Provenance.Proofs.Selections

/-!
# Tables whose integers are words

A table is *typed* if every row has a cell for each column, and those in integer columns are 64-bit
words. A selection over typed tables, of which all tables and columns are there, gives rows that can
be added to a typed table again.
-/

namespace Provenance.Store

/-- An integer that is a 64-bit word. -/
def Cell.IsWord (c : Cell) : Prop := ∃ n, c = .integer n ∧ Text.isWord n = true

/-- A row has a cell for each column, and those of integer columns are words. -/
def Suits (columns : List Column) (row : Row) : Prop :=
  List.Forall₂ (fun c cell => c.affinity = .integer → cell.IsWord) columns row

namespace Table

variable {t : Table} {row : Row} {rows : List Row}

def IsTyped (t : Table) : Prop := ∀ row ∈ t.rows, Suits t.columns row

/-- A row that suits the columns still does when it is stored. -/
theorem suits_fit (h : Suits t.columns row) : Suits t.columns (t.fit row) := by
  rw [fit]
  generalize t.columns = columns at h
  induction h with
  | nil => exact .nil
  | cons hcell _ ih =>
    refine .cons (fun hc => ?_) ih
    obtain ⟨n, rfl, hn⟩ := hcell hc
    simp only [hc]
    exact ⟨n, rfl, hn⟩

theorem IsTyped.append (h : t.IsTyped) (hrows : ∀ row ∈ rows, Suits t.columns row) :
    IsTyped { t with rows := t.rows ++ rows.map t.fit } := by
  intro row hrow
  obtain hrow | hrow := List.mem_append.1 hrow
  · exact h row hrow
  · obtain ⟨r, hr, rfl⟩ := List.mem_map.1 hrow
    exact suits_fit (hrows r hr)

/-- A typed table with one column of integers has rows of one word each. -/
theorem IsTyped.exists_integers {c : Column} (h : t.IsTyped) (hcolumns : t.columns = [c]) (hc : c.affinity = .integer) :
    ∃ ns : List Int, (∀ n ∈ ns, Text.isWord n = true) ∧ t.rows = ns.map fun n => [.integer n] := by
  have hcells : ∀ row ∈ t.rows, ∃ n : Int, row = [.integer n] ∧ Text.isWord n = true := fun row hrow => by
    have hsuits := h row hrow
    rw [hcolumns] at hsuits
    obtain _ | ⟨hcell, hrest⟩ := hsuits
    obtain ⟨n, rfl, hn⟩ := hcell hc
    cases hrest
    exact ⟨n, rfl, hn⟩
  generalize t.rows = rows at hcells
  induction rows with
  | nil => exact ⟨[], by simp, rfl⟩
  | cons row rows ih =>
    obtain ⟨⟨n, rfl, hn⟩, hrest⟩ := List.forall_mem_cons.1 hcells
    obtain ⟨ns, hwords, rfl⟩ := ih hrest
    exact ⟨n :: ns, List.forall_mem_cons.2 ⟨hn, hwords⟩, rfl⟩

/-- Columns that accept any row. -/
def IsOpen (columns : List Column) : Prop := ∀ c ∈ columns, c.notNull = false ∧ c.primaryKey = false

instance (columns : List Column) : Decidable (IsOpen columns) :=
  inferInstanceAs (Decidable (∀ c ∈ columns, c.notNull = false ∧ c.primaryKey = false))

theorem addAll_of_isOpen (h : IsOpen t.columns) (rows : List Row) :
    t.addAll rows = .ok { t with rows := t.rows ++ rows.map t.fit } := by
  have : t.isConstrained = false := by
    rw [isConstrained, List.any_eq_false]
    intro c hc
    simp [h c hc]
  rw [addAll, this]
  rfl

end Table

namespace Database

variable {db : Database} {name : String} {columns : List Column}

/-- A typed table of just this name is there and has these columns. -/
def Has (db : Database) (name : String) (columns : List Column) : Prop :=
  ∃ t, db.table? name = some t ∧ t.name = name ∧ t.columns = columns ∧ t.IsTyped

theorem Has.congr {db' : Database} (h : db.Has name columns) (hdb : db'.table? name = db.table? name) :
    db'.Has name columns := by rwa [Has, hdb]

theorem Has.isSome (h : db.Has name columns) : (db.table? name).isSome = true := by
  obtain ⟨t, ht, -⟩ := h
  rw [ht]; rfl

theorem Has.columnsOf (h : db.Has name columns) : (db.table? name).map Table.columns = some columns := by
  obtain ⟨t, ht, -, rfl, -⟩ := h
  rw [ht]; rfl

theorem Has.outline (h : db.Has name columns) (source : String) :
    db.outline name source = ⟨source, columns, []⟩ := by
  obtain ⟨t, ht, -, rfl, -⟩ := h
  rw [Database.outline, ht]

end Database

/-! ## Joined rows -/

/-- A row of a typed table, where the outline says which one. -/
structure Visible.Shows (v outline : Visible) : Prop where
  source : v.source = outline.source
  columns : v.columns = outline.columns
  suits : Suits v.columns v.cells

theorem Database.Has.shows {db : Database} {name : String} {columns : List Column}
    (h : db.Has name columns) {source : String} {v : Visible} (hv : v ∈ db.visible name source) :
    v.Shows (db.outline name source) := by
  obtain ⟨t, ht, -, -, htyped⟩ := h
  rw [Database.visible, ht] at hv
  obtain ⟨row, hrow, rfl⟩ := List.mem_map.1 hv
  rw [Database.outline, ht]
  exact ⟨rfl, rfl, htyped row hrow⟩

namespace Scope

/-- The column that a reference finds. -/
def column? (outlines : Scope) (ref : ColumnRef) : Option Column :=
  match ref.source with
  | some name => (List.find? (fun v => sameName v.source name) outlines).bind fun v =>
      v.columns.find? fun c => sameName c.name ref.column
  | none => outlines.findSome? fun v => v.columns.find? fun c => sameName c.name ref.column

/-- A reference to a column of integers. -/
def FindsInteger (outlines : Scope) (ref : ColumnRef) : Prop :=
  ∃ c, outlines.column? ref = some c ∧ c.affinity = .integer

/-- What is found beside a column in a row that suits the columns. -/
theorem find?_zip {columns : List Column} {row : Row} (h : Suits columns row) (p : Column → Bool) :
    match columns.find? p with
    | none => (columns.zip row).find? (fun (c, _) => p c) = none
    | some c => ∃ cell, (columns.zip row).find? (fun (c, _) => p c) = some (c, cell) ∧
        (c.affinity = .integer → cell.IsWord) := by
  induction h with
  | nil => simp
  | @cons c cell _ _ hcell _ ih =>
    simp only [List.zip_cons_cons, List.find?_cons]
    cases hp : p c with
    | false => simpa only [hp] using ih
    | true => simpa only [hp] using ⟨cell, rfl, hcell⟩

theorem cell?_shows {v outline : Visible} (h : v.Shows outline) (column : String) :
    match outline.columns.find? fun c => sameName c.name column with
    | none => v.cell? column = none
    | some c => ∃ cell, v.cell? column = some (c.affinity, cell) ∧
        (c.affinity = .integer → cell.IsWord) := by
  have hfind := find?_zip h.suits fun c => sameName c.name column
  rw [h.columns] at hfind
  rw [Visible.cell?, h.columns]
  split at hfind
  · rw [hfind]; rfl
  · obtain ⟨cell, hcell, hword⟩ := hfind
    exact ⟨cell, by rw [hcell]; rfl, hword⟩

/-- A reference to a column of integers finds a word. -/
theorem isWord_cell {scope outlines : Scope} (h : List.Forall₂ Visible.Shows scope outlines)
    {ref : ColumnRef} (href : outlines.FindsInteger ref) : (scope.cell ref).IsWord := by
  obtain ⟨c, hc, hinteger⟩ := href
  suffices ∃ cell, scope.find? ref = some (c.affinity, cell) ∧ cell.IsWord by
    obtain ⟨cell, hfind, hword⟩ := this
    rw [Scope.cell, hfind]
    exact hword
  rw [Scope.find?]
  rw [column?] at hc
  cases hsource : ref.source with
  | some name =>
    simp only [hsource] at hc ⊢
    induction h with
    | nil => cases hc
    | @cons v outline _ _ hv _ ih =>
      rw [List.find?_cons] at hc ⊢
      rw [hv.source]
      split at hc
      · have := cell?_shows hv ref.column
        rw [Option.bind_some] at hc ⊢
        rw [hc] at this
        obtain ⟨cell, hcell, hword⟩ := this
        exact ⟨cell, hcell, hword hinteger⟩
      · exact ih hc
  | none =>
    simp only [hsource] at hc ⊢
    induction h with
    | nil => cases hc
    | @cons v outline _ _ hv _ ih =>
      rw [List.findSome?_cons] at hc ⊢
      have := cell?_shows hv ref.column
      split at hc
      · next heq =>
        cases hc
        rw [heq] at this
        obtain ⟨cell, hcell, hword⟩ := this
        exact ⟨cell, by rw [hcell], hword hinteger⟩
      · next heq =>
        rw [heq] at this
        rw [this]
        exact ih hc

end Scope

namespace Selection

variable {db : Database}

/-- The sources of a selection without rows. -/
def outlines (db : Database) (q : Selection) : Scope :=
  q.sources.map fun s => db.outline s.table s.name

/-- All joined rows are rows of the sources. -/
theorem shows_of_mem_scopes {sources : List Source} (h : ∀ s ∈ sources, ∃ cs, db.Has s.table cs)
    {scope : Scope} (hscope : scope ∈ scopes db sources) :
    List.Forall₂ Visible.Shows scope (sources.map fun s => db.outline s.table s.name) := by
  suffices ∀ (found : List Scope) (before : Scope),
      (∀ sc ∈ found, List.Forall₂ Visible.Shows sc before) →
      ∀ sc ∈ sources.foldl (fun found s => found.flatMap fun sc => extend db sc s) found,
        List.Forall₂ Visible.Shows sc (before ++ sources.map fun s => db.outline s.table s.name) by
    exact this [[]] [] (by simp) scope hscope
  clear hscope scope
  induction sources with
  | nil => intro found before hfound sc hsc; simpa using hfound sc hsc
  | cons s sources ih =>
    intro found before hfound sc hsc
    rw [List.map_cons, List.append_cons]
    refine ih (fun s hs => h s (List.mem_cons_of_mem _ hs)) _ _ (fun sc hsc => ?_) sc hsc
    obtain ⟨first, hfirst, hsc⟩ := List.mem_flatMap.1 hsc
    obtain ⟨v, hv, rfl⟩ := List.mem_map.1 (List.mem_filter.1 hsc).1
    obtain ⟨cs, hcs⟩ := h s List.mem_cons_self
    exact List.rel_append (hfound first hfirst) (.cons (hcs.shows hv) .nil)

/-! ## Groups of joined rows -/

theorem mem_groups {refs : List ColumnRef} {list group : List Scope} (h : group ∈ groups refs list) :
    group ≠ [] ∧ ∀ scope ∈ group, scope ∈ list := by
  rw [groups] at h
  split at h
  · obtain ⟨scope, hscope, rfl⟩ := List.mem_map.1 h
    simpa using hscope
  · refine ⟨fun hnil => ?_, fun scope hscope => ?_⟩
    · subst hnil
      exact List.nil_notMem_splitBy _ _ h
    · have := List.mem_flatten.2 ⟨group, h, hscope⟩
      rw [List.flatten_splitBy] at this
      exact (List.mergeSort_perm _ _).mem_iff.1 this

theorem mem_cutOff {α : Type} {limit : Option Int} {list : List α} {a : α}
    (h : a ∈ cutOff limit list) : a ∈ list := by
  unfold cutOff at h
  split at h
  · exact List.mem_of_mem_take h
  · exact h

theorem mem_sortGroups {refs : List ColumnRef} {list : List (List Scope)} {group : List Scope}
    (h : group ∈ sortGroups refs list) : group ∈ list := by
  rw [sortGroups] at h
  split at h
  · exact h
  · exact (List.mergeSort_perm _ _).mem_iff.1 h

theorem mem_dedup {rows : List Row} {row : Row} (h : row ∈ dedup rows) : row ∈ rows := by
  suffices ∀ seen : List Row, row ∈ rows.foldl (fun seen row =>
      if seen.any fun r => Cell.orderRows r row == .eq then seen else seen ++ [row]) seen →
      row ∈ seen ∨ row ∈ rows by
    simpa using this [] h
  clear h
  induction rows with
  | nil => intro seen h; exact .inl h
  | cons r rows ih =>
    intro seen h
    obtain h | h := ih _ h
    · dsimp only at h
      split at h
      · exact .inl h
      · obtain h | h := List.mem_append.1 h
        · exact .inl h
        · exact .inr (by simp [List.mem_singleton.1 h])
    · exact .inr (List.mem_cons_of_mem _ h)

theorem isWord_least {cells : List Cell} (hne : cells ≠ []) (h : ∀ c ∈ cells, c.IsWord) :
    (Cell.least cells).IsWord := by
  suffices ∀ m : Cell, m = .null ∨ m.IsWord → cells ≠ [] ∨ m.IsWord →
      (cells.foldl (fun m c => if c.isNull then m else if m.isNull || c.order m == .lt then c else m)
        m).IsWord from this .null (.inl rfl) (.inl hne)
  clear hne
  induction cells with
  | nil => intro m _ hm; exact hm.resolve_left fun h => h rfl
  | cons c cells ih =>
    intro m hm _
    have hc : c.IsWord := h c List.mem_cons_self
    refine ih (fun d hd => h d (List.mem_cons_of_mem _ hd)) _ (.inr ?_) (.inr ?_) <;>
    · obtain ⟨n, rfl, hn⟩ := hc
      obtain rfl | ⟨m, rfl, hm⟩ := hm
      · exact ⟨n, rfl, hn⟩
      · simp only [Cell.isNull, Bool.false_eq_true, if_false, Bool.false_or]
        split
        · exact ⟨n, rfl, hn⟩
        · exact ⟨m, rfl, hm⟩

end Selection

/-- A term whose value is a word. -/
def Term.IsWordIn (outlines : Scope) : Term → Prop
  | .column ref => outlines.FindsInteger ref
  | .constant cell => cell.IsWord
  | .least ref => outlines.FindsInteger ref

theorem Term.isWord_value {outlines : Scope} {term : Term} (h : term.IsWordIn outlines)
    {group : List Scope} (hne : group ≠ [])
    (hgroup : ∀ scope ∈ group, List.Forall₂ Visible.Shows scope outlines) :
    (term.value group).IsWord := by
  cases term with
  | column ref =>
    obtain ⟨scope, rest, rfl⟩ := List.exists_cons_of_ne_nil hne
    exact Scope.isWord_cell (hgroup scope List.mem_cons_self) h
  | constant cell => exact h
  | least ref =>
    refine Selection.isWord_least (by simpa using hne) fun c hc => ?_
    obtain ⟨scope, hscope, rfl⟩ := List.mem_map.1 hc
    exact Scope.isWord_cell (hgroup scope hscope) h

/-- The scope in which the columns of a condition are looked up. -/
def Condition.outlines (db : Database) (outer : Scope) (c : Condition) : Scope :=
  match c.mentions.2 with
  | some (table, source) => db.outline table source :: outer
  | none => outer

/-- All that a condition mentions is there. -/
def Condition.Fits (db : Database) (outer : Scope) (c : Condition) : Prop :=
  (∀ ref ∈ c.mentions.1, (c.outlines db outer).knows ref = true) ∧
    ∀ t ∈ c.table?, (db.table? t).isSome = true

namespace Selection

variable {db : Database} {q : Selection} {columns : List Column}

/-- All that a selection mentions is there. -/
structure Finds (db : Database) (q : Selection) : Prop where
  sources : ∀ s ∈ q.sources, (db.table? s.table).isSome = true
  conditions : ∀ s ∈ q.sources, ∀ c ∈ s.conditions, c.Fits db (q.outlines db)
  groupBy : ∀ ref ∈ q.groupBy, (q.outlines db).knows ref = true
  orderBy : ∀ ref ∈ q.orderBy, (q.outlines db).knows ref = true
  terms : ∃ terms, q.output = .terms terms ∧
    ∀ ref ∈ terms.flatMap Term.mentions, (q.outlines db).knows ref = true

namespace Finds

/-- Every column is found. -/
theorem unknownColumn? (h : q.Finds db) : q.unknownColumn? db = none := by
  obtain ⟨terms, hterms, hknown⟩ := h.terms
  have hmissing : ∀ {scope : Scope} {refs : List ColumnRef}, (∀ ref ∈ refs, scope.knows ref = true) →
      (refs.find? fun r => !scope.knows r) = none := fun hrefs =>
    List.find?_eq_none.2 fun r hr => by simp [hrefs r hr]
  rw [Selection.unknownColumn?, hterms]
  simp only [Option.or_eq_none_iff, Option.map_eq_none_iff, List.findSome?_eq_none_iff]
  refine ⟨hmissing hknown, fun s hs c hc => ?_, hmissing h.groupBy, hmissing h.orderBy⟩
  exact hmissing (h.conditions s hs c hc).1

/-- The rows can be read. -/
theorem rows (h : q.Finds db) : q.rows db = .ok (q.answer db) := by
  refine IsReadable.rows ⟨fun t ht => ?_, h.unknownColumn?⟩
  obtain ht | ht := List.mem_append.1 ht
  · obtain ⟨s, hs, rfl⟩ := List.mem_map.1 ht
    exact h.sources s hs
  · obtain ⟨s, hs, ht⟩ := List.mem_flatMap.1 ht
    obtain ⟨c, hc, ht⟩ := List.mem_filterMap.1 ht
    exact (h.conditions s hs c hc).2 t ht

end Finds

/-- All that a selection mentions is there, its sources are typed, and its terms suit the columns. -/
structure Gives (db : Database) (q : Selection) (columns : List Column) : Prop where
  sources : ∀ s ∈ q.sources, ∃ cs, db.Has s.table cs
  conditions : ∀ s ∈ q.sources, ∀ c ∈ s.conditions, c.Fits db (q.outlines db)
  groupBy : ∀ ref ∈ q.groupBy, (q.outlines db).knows ref = true
  orderBy : ∀ ref ∈ q.orderBy, (q.outlines db).knows ref = true
  terms : ∃ terms, q.output = .terms terms ∧
    (∀ ref ∈ terms.flatMap Term.mentions, (q.outlines db).knows ref = true) ∧
    List.Forall₂ (fun c term => c.affinity = .integer → term.IsWordIn (q.outlines db)) columns terms

namespace Gives

theorem finds (h : q.Gives db columns) : q.Finds db where
  sources s hs := by
    obtain ⟨cs, hcs⟩ := h.sources s hs
    exact hcs.isSome
  conditions := h.conditions
  groupBy := h.groupBy
  orderBy := h.orderBy
  terms := by
    obtain ⟨terms, hterms, hknown, -⟩ := h.terms
    exact ⟨terms, hterms, hknown⟩

/-- The rows can be read, and suit the columns. -/
theorem rows (h : q.Gives db columns) :
    ∃ rows, q.rows db = .ok rows ∧ ∀ row ∈ rows, Suits columns row := by
  refine ⟨q.answer db, h.finds.rows, ?_⟩
  obtain ⟨terms, hterms, -, htyped⟩ := h.terms
  have hgroups : ∀ group ∈ cutOff q.limit (sortGroups q.orderBy (groups q.groupBy
      (scopes db q.sources))), Suits columns (terms.map (·.value group)) := fun group hgroup => by
    obtain ⟨hne, hmem⟩ := mem_groups (mem_sortGroups (mem_cutOff hgroup))
    have hshows := fun scope hscope => shows_of_mem_scopes h.sources (hmem scope hscope)
    rw [Suits, List.forall₂_map_right_iff]
    exact htyped.imp fun c term hterm hc => Term.isWord_value (hterm hc) hne hshows
  intro row hrow
  rw [answer, hterms] at hrow
  have hrow : row ∈ (cutOff q.limit (sortGroups q.orderBy (groups q.groupBy
      (scopes db q.sources)))).map fun group => terms.map (·.value group) := by
    split at hrow
    · exact mem_dedup hrow
    · exact hrow
  obtain ⟨group, hgroup, rfl⟩ := List.mem_map.1 hrow
  exact hgroups group hgroup

/-- The rows that are shown are no others. -/
theorem shownRows (h : q.Gives db columns) :
    ∃ rows, q.shownRows db = .ok rows ∧ ∀ row ∈ rows, Suits columns row := by
  rw [Selection.shownRows]
  split
  · next ref heq =>
    -- The index is that of a column which the selection reads.
    have href : (q.outlines db).knows ref = true := by
      obtain ⟨terms, hterms, hknown, -⟩ := h.terms
      rw [scannedIndex?, hterms] at heq
      split at heq
      · next r list _ _ hout _ =>
        split at heq
        · cases heq
          cases hout
          exact hknown ref (by simp [Term.mentions])
        · cases heq
      · cases heq
    exact Gives.rows (q := { q with orderBy := [ref] })
      ⟨h.sources, h.conditions, h.groupBy,
        fun r hr => by rw [List.mem_singleton.1 hr]; exact href, h.terms⟩
  · exact h.rows

end Gives

end Selection

end Provenance.Store

import Provenance.Proofs.TypedTables

/-!
# Selections that mention what is there

Which references find a column of integers, and when all that a condition mentions is there. So a
selection of columns of one table, or of several sources with known outlines, can be read.
-/

namespace Provenance

/-! ## References to columns -/

namespace Store

/-- Columns that hold integers. -/
def AreIntegers (columns : List Column) : Prop := ∀ c ∈ columns, c.affinity = .integer

theorem areIntegers_map (names : List String) : AreIntegers (names.map Column.integer) := by
  simp [AreIntegers, Column.integer]

theorem isOpen_map (names : List String) : Table.IsOpen (names.map Column.integer) := by
  simp [Table.IsOpen, Column.integer]

namespace Scope

variable {scope : Scope} {outline : Visible} {source column : String}

@[simp] theorem knows_plain (scope : Scope) (column : String) :
    scope.knows (.plain column) = scope.any (·.hasColumn column) := rfl

@[simp] theorem knows_of (scope : Scope) (source column : String) :
    scope.knows (.of source column)
      = scope.any fun v => sameName v.source source && v.hasColumn column := rfl

theorem hasColumn_of_mem (h : column ∈ outline.columns.map Column.name) :
    outline.hasColumn column = true := by
  obtain ⟨c, hc, rfl⟩ := List.mem_map.1 h
  exact List.any_eq_true.2 ⟨c, hc, sameName_self _⟩

theorem find?_columns {columns : List Column} (hinteger : AreIntegers columns)
    (h : column ∈ columns.map Column.name) :
    ∃ c, columns.find? (fun c => sameName c.name column) = some c ∧ c.affinity = .integer := by
  obtain ⟨c, hc, rfl⟩ := List.mem_map.1 h
  obtain ⟨d, hd⟩ := Option.isSome_iff_exists.1
    (List.find?_isSome (p := fun d => sameName d.name c.name) |>.2 ⟨c, hc, sameName_self c.name⟩)
  exact ⟨d, hd, hinteger d (List.mem_of_find?_eq_some hd)⟩

theorem knows_plain_of_mem {columns : List Column} (source : String)
    (h : column ∈ columns.map Column.name) :
    Scope.knows [⟨source, columns, []⟩] (.plain column) = true := by
  simp [show Visible.hasColumn ⟨source, columns, []⟩ column = true from hasColumn_of_mem h]

theorem knows_of_mem (outline : Visible) (h : outline ∈ scope) {column : String}
    (hcolumn : column ∈ outline.columns.map Column.name) :
    scope.knows (.of outline.source column) = true := by
  rw [knows_of]
  exact List.any_eq_true.2 ⟨outline, h, by simp [hasColumn_of_mem hcolumn]⟩

/-- A column of the first source, if that holds integers. -/
theorem findsInteger_plain (hinteger : AreIntegers outline.columns)
    (h : column ∈ outline.columns.map Column.name) :
    FindsInteger (outline :: scope) (.plain column) := by
  obtain ⟨c, hc, haffinity⟩ := find?_columns hinteger h
  exact ⟨c, by simp only [column?, ColumnRef.plain, List.findSome?_cons, hc], haffinity⟩

/-- The first column, if that holds integers. -/
theorem findsInteger_head {c : Column} (hc : c.affinity = .integer) (source : String)
    (columns : List Column) : FindsInteger [⟨source, c :: columns, []⟩] (.plain c.name) :=
  ⟨c, by simp [column?, ColumnRef.plain], hc⟩

/-- A column of the named source, if that is the first one. -/
theorem findsInteger_of (hsource : outline.source = source) (hinteger : AreIntegers outline.columns)
    (h : column ∈ outline.columns.map Column.name) :
    FindsInteger (outline :: scope) (.of source column) := by
  obtain ⟨c, hc, haffinity⟩ := find?_columns hinteger h
  subst hsource
  exact ⟨c, by simp [column?, ColumnRef.of, hc], haffinity⟩

theorem FindsInteger.skip (h : FindsInteger scope (.of source column))
    (hsource : sameName outline.source source = false) :
    FindsInteger (outline :: scope) (.of source column) := by
  obtain ⟨c, hc, haffinity⟩ := h
  exact ⟨c, by simpa [column?, ColumnRef.of, hsource] using hc, haffinity⟩

end Scope

/-! ## Conditions -/

namespace Condition

variable {db : Database} {outer : Scope} {ref ref' : ColumnRef} {table : String}

@[simp] theorem fits_within : (within ref table).Fits db outer ↔
    outer.knows ref = true ∧ (db.table? table).isSome = true := by
  simp [Fits, mentions, outlines, table?]

@[simp] theorem fits_outside : (outside ref table).Fits db outer ↔
    outer.knows ref = true ∧ (db.table? table).isSome = true := by
  simp [Fits, mentions, outlines, table?]

@[simp] theorem fits_same : (same ref ref').Fits db outer ↔
    outer.knows ref = true ∧ outer.knows ref' = true := by
  simp [Fits, mentions, outlines, table?]

@[simp] theorem fits_equals {value : String} : (equals ref value).Fits db outer ↔
    outer.knows ref = true := by
  simp [Fits, mentions, outlines, table?]

@[simp] theorem fits_atMost {added bound : Int} : (atMost ref added bound).Fits db outer ↔
    outer.knows ref = true := by
  simp [Fits, mentions, outlines, table?]

@[simp] theorem fits_unmatched {source : String} {agreeing : List (ColumnRef × ColumnRef)} :
    (unmatched table source agreeing).Fits db outer ↔
      (∀ r ∈ agreeing.flatMap fun (x, y) => [x, y],
        Scope.knows (db.outline table source :: outer) r = true) ∧
      (db.table? table).isSome = true := by
  simp only [Fits, mentions, outlines, table?, Option.mem_some_iff, forall_eq']

@[simp] theorem fits_leastOf {least : ColumnRef} {source : String}
    {agreeing : List (ColumnRef × ColumnRef)} :
    (leastOf ref least table source agreeing).Fits db outer ↔
      (∀ r ∈ ref :: least :: agreeing.flatMap fun (x, y) => [x, y],
        Scope.knows (db.outline table source :: outer) r = true) ∧
      (db.table? table).isSome = true := by
  simp only [Fits, mentions, outlines, table?, Option.mem_some_iff, forall_eq']

end Condition

/-! ## Selections of one table -/

namespace Selection

variable {db : Database} {table : String} {present columns : List Column}
  {conditions : List Condition}

/-- A selection whose sources have the given outlines. -/
theorem Gives.of_outlines {q : Selection} (outlines : Scope) (terms : List Term)
    (houtlines : q.outlines db = outlines) (hsources : ∀ s ∈ q.sources, ∃ cs, db.Has s.table cs)
    (hconditions : ∀ s ∈ q.sources, ∀ c ∈ s.conditions, c.Fits db outlines)
    (houtput : q.output = .terms terms) (hgroup : ∀ ref ∈ q.groupBy, outlines.knows ref = true)
    (horder : ∀ ref ∈ q.orderBy, outlines.knows ref = true)
    (hmentions : ∀ ref ∈ terms.flatMap Term.mentions, outlines.knows ref = true)
    (hterms : List.Forall₂ (fun c term => c.affinity = .integer → term.IsWordIn outlines) columns
      terms) : q.Gives db columns := by
  subst houtlines
  exact ⟨hsources, hconditions, hgroup, horder, terms, houtput, hmentions, hterms⟩

/-- Columns of one table, all of which are there. -/
theorem gives_columns (names groupNames : List String) (h : db.Has table present)
    (hnames : names ⊆ present.map Column.name)
    (hgroup : groupNames ⊆ present.map Column.name)
    (hconditions : ∀ c ∈ conditions, c.Fits db [⟨table, present, []⟩])
    (hterms : List.Forall₂ (fun c n => c.affinity = .integer →
      Scope.FindsInteger [⟨table, present, []⟩] (.plain n)) columns names) :
    ((Selection.columns names table conditions).groupedBy groupNames).Gives db columns := by
  have houtlines : ((Selection.columns names table conditions).groupedBy groupNames).outlines db
      = [⟨table, present, []⟩] := by
    simp [outlines, groupedBy, grouped, Selection.columns, Source.name, h.outline]
  have hknows : ∀ n ∈ present.map Column.name, Scope.knows [⟨table, present, []⟩] (.plain n) = true :=
    fun n hn => Scope.knows_plain_of_mem table hn
  refine .of_outlines _ (names.map fun n => .column (.plain n)) houtlines ?_ ?_ rfl ?_ ?_ ?_ ?_
  · simpa [groupedBy, grouped, Selection.columns] using ⟨_, h⟩
  · simpa [groupedBy, grouped, Selection.columns] using hconditions
  · intro ref href
    obtain ⟨n, hn, rfl⟩ := List.mem_map.1 href
    exact hknows n (hgroup hn)
  · simp [groupedBy, grouped, Selection.columns]
  · intro ref href
    obtain ⟨term, hterm, href⟩ := List.mem_flatMap.1 href
    obtain ⟨n, hn, rfl⟩ := List.mem_map.1 hterm
    rw [List.mem_singleton.1 href]
    exact hknows n (hnames hn)
  · rw [List.forall₂_map_right_iff]
    exact hterms

/-- Columns of a table of integers. -/
theorem gives_integers (names groupNames : List String) (h : db.Has table present)
    (hinteger : AreIntegers present)
    (hnames : names ⊆ present.map Column.name) (hlength : columns.length = names.length)
    (hgroup : groupNames ⊆ present.map Column.name)
    (hconditions : ∀ c ∈ conditions, c.Fits db [⟨table, present, []⟩]) :
    ((Selection.columns names table conditions).groupedBy groupNames).Gives db columns :=
  gives_columns _ _ h hnames hgroup hconditions <| List.forall₂_iff_get.2 ⟨hlength, fun _ _ _ _ =>
    Scope.findsInteger_plain hinteger (hnames (List.get_mem names _))⟩

end Selection

end Store

end Provenance

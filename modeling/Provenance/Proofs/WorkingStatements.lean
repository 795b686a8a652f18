import Provenance.Algebra.Program
import Provenance.Proofs.Completion
import Provenance.Proofs.TypedSelections
import Provenance.Storage

/-!
# Statements of instructions

Statements that fill tables of handles and scratch tables, from such tables and the base relations.
On a database with all these tables they succeed, and it has them afterwards. So it is enough to see,
selection by selection, that all that is mentioned is there.
-/

namespace Provenance

open Store Action

/-! ## Tables of handles -/

def graphColumns : List Column := ["id"].map Column.integer

def metadataColumns : List Column := [.integer "id", .text "name", .text "value"]

namespace Schema

/-- Both tables of the graph. -/
def HasGraph (S : Schema) (g : Graph) : Prop := ∀ side, S (g.table side) graphColumns

/-- Both tables of the metadata. -/
def HasMetadata (S : Schema) (m : Metadata) : Prop := ∀ side, S (m.table side) metadataColumns

/-- The base relations that instructions read, and nothing that is in the way of scratch tables. -/
structure IsGround (S : Schema) : Prop where
  apart : S.IsApart
  edge : S Algebra.edgeTable Storage.edgeTable.columns
  annotations : ∀ side : Side, S side.annotationTable (Storage.annotationTable side).columns

end Schema

variable {σ : Type} {b : Backend σ} {I : Schema → σ → Prop} {S : Schema}

/-- Rows of a table of integers may be added to another one. -/
theorem works_integers {table source : String} (columns names groupNames : List String)
    {present : List Column} {conditions : List Condition} (htable : S table (columns.map Column.integer))
    (hsource : S source present) (hinteger : AreIntegers present)
    (hnames : names ⊆ present.map Column.name) (hlength : columns.length = names.length)
    (hgroup : groupNames ⊆ present.map Column.name)
    (hconditions : ∀ db : Database, db.Meets S →
      ∀ c ∈ conditions, c.Fits db [⟨source, present, []⟩]) :
    Statement.Works S (.insertFrom table
      ((Selection.columns names source conditions).groupedBy groupNames)) :=
  .insertFrom htable (isOpen_map columns) fun db hdb =>
    Selection.gives_integers _ _ (hdb _ _ hsource) hinteger hnames (by simpa using hlength) hgroup
      (hconditions db hdb)

/-- A condition that asks for the ids of a table of the schema. -/
theorem fits_membership (source : String) {other column : String} {present columns : List Column}
    (hother : S other columns) (hcolumn : column ∈ present.map Column.name) {db : Database}
    (hdb : db.Meets S) :
    (Condition.within (.plain column) other).Fits db [⟨source, present, []⟩] ∧
      (Condition.outside (.plain column) other).Fits db [⟨source, present, []⟩] := by
  simp only [Condition.fits_within, Condition.fits_outside, Scope.knows_plain_of_mem source hcolumn,
    (hdb _ _ hother).isSome, and_self]

/-- The ids of a table may be added to a table of ids, each once or with repetitions. -/
theorem works_ids {table source : String} (columns groupNames : List String)
    (htable : S table graphColumns) (hsource : S source (columns.map Column.integer))
    (hid : "id" ∈ columns) (hgroup : groupNames ⊆ ["id"]) :
    Statement.Works S (.insertFrom table ((Selection.ids source).groupedBy groupNames)) :=
  have hnames : (columns.map Column.integer).map Column.name = columns := by
    simp [Column.integer, Function.comp_def]
  works_integers _ _ _ htable hsource (areIntegers_map _) (by rw [hnames]; simpa using hid) rfl
    (by rw [hnames]; exact List.Subset.trans hgroup (by simpa using hid)) fun _ _ => by simp

theorem areIntegers_edge : AreIntegers Storage.edgeTable.columns := by
  simp [AreIntegers, Storage.edgeTable, Column.required, Column.integer]

/-- Columns of edges may be added to a table of integers. -/
theorem works_edges {scratch : List (String × List String)} {table : String}
    (columns names groupNames : List String) {conditions : List Condition} (hS : S.IsGround)
    (htable : S.plus scratch table (columns.map Column.integer)) (hnames : names ⊆ ["id", "src", "dst"])
    (hlength : columns.length = names.length) (hgroup : groupNames ⊆ ["id", "src", "dst"])
    (hconditions : ∀ db : Database, db.Meets (S.plus scratch) →
      ∀ c ∈ conditions, c.Fits db [⟨Algebra.edgeTable, Storage.edgeTable.columns, []⟩]) :
    Statement.Works (S.plus scratch) (.insertFrom table
      ((Selection.columns names Algebra.edgeTable conditions).groupedBy groupNames)) :=
  works_integers _ _ _ htable (.inl hS.edge) areIntegers_edge hnames hlength hgroup hconditions

/-- The sources of a collapsed edge without rows: the edge, and its annotations for some fields. -/
def collapsedOutlines (fields : List String) : Scope :=
  ⟨"e", Storage.edgeTable.columns, []⟩ :: fields.zipIdx.map fun p =>
    ⟨Algebra.collapsedName p.2, (Storage.annotationTable .edge).columns, []⟩

theorem knows_collapsed_edge {fields : List String} {n : String} (hn : n ∈ ["id", "src", "dst"]) :
    (collapsedOutlines fields).knows (.of "e" n) = true :=
  Scope.knows_of_mem ⟨"e", Storage.edgeTable.columns, []⟩ List.mem_cons_self hn

theorem knows_collapsed_annotation {fields : List String} {field : String} {i : ℕ} (hi : (field, i) ∈ fields.zipIdx)
    {n : String} (hn : n ∈ ["id", "field", "value"]) :
    (collapsedOutlines fields).knows (.of (Algebra.collapsedName i) n) = true :=
  Scope.knows_of_mem ⟨_, (Storage.annotationTable .edge).columns, []⟩
    (List.mem_cons_of_mem _ (List.mem_map.2 ⟨(field, i), hi, rfl⟩)) hn

/-- All that collapsing edges mentions is there. -/
theorem finds_representatives {source : Graph} (fields : List String) {db : Database}
    (hedge : (db.table? Algebra.edgeTable).map Table.columns = some Storage.edgeTable.columns)
    (hnotes : (db.table? Side.edge.annotationTable).map Table.columns = some (Storage.annotationTable .edge).columns)
    (hsource : (db.table? source.edgeTable).isSome = true) :
    (Algebra.representatives source fields).outlines db = collapsedOutlines fields ∧
      (Algebra.representatives source fields).Finds db := by
  obtain ⟨t, ht, hcolumns⟩ := Option.map_eq_some_iff.1 hedge
  obtain ⟨u, hu, hcolumns'⟩ := Option.map_eq_some_iff.1 hnotes
  have houtlines : (Algebra.representatives source fields).outlines db = collapsedOutlines fields := by
    simp [Selection.outlines, Algebra.representatives, Selection.grouped, Selection.join,
      Algebra.fieldSources, Source.name, Database.outline, ht, hu, hcolumns, hcolumns', Function.comp_def,
      collapsedOutlines]
  refine ⟨houtlines, ?_, ?_, ?_, ?_, [.least (.of "e" "id")], rfl, ?_⟩
  · intro s hs
    obtain rfl | hs := List.mem_cons.1 hs
    · exact Option.isSome_of_eq_some ht
    · obtain ⟨⟨field, i⟩, -, rfl⟩ := List.mem_map.1 hs
      exact Option.isSome_of_eq_some hu
  · rw [houtlines]
    intro s hs
    obtain rfl | hs := List.mem_cons.1 hs
    · simp only [List.forall_mem_singleton, Condition.fits_within]
      exact ⟨knows_collapsed_edge (by decide), hsource⟩
    · obtain ⟨⟨field, i⟩, hi, rfl⟩ := List.mem_map.1 hs
      simp only [List.forall_mem_cons, Condition.fits_same, Condition.fits_equals]
      exact ⟨⟨knows_collapsed_edge (by decide), knows_collapsed_annotation hi (by decide)⟩,
        knows_collapsed_annotation hi (by decide), by simp⟩
  · rw [houtlines]
    intro ref href
    obtain href | href := List.mem_append.1 href
    · obtain rfl | rfl : ref = .of "e" "src" ∨ ref = .of "e" "dst" := by simpa using href
      · exact knows_collapsed_edge (by decide)
      · exact knows_collapsed_edge (by decide)
    · obtain ⟨⟨field, i⟩, hi, rfl⟩ := List.mem_map.1 href
      exact knows_collapsed_annotation hi (by decide)
  · simp [Algebra.representatives, Selection.grouped, Selection.join]
  · rw [houtlines]
    simpa [Term.mentions] using knows_collapsed_edge (by decide)

/-- The least of a collapsed edge, over the fields of its annotations. -/
theorem gives_representatives (hS : S.IsGround) {source : Graph} (hsource : S.HasGraph source)
    (fields : List String) {db : Database} (hdb : db.Meets S) :
    (Algebra.representatives source fields).Gives db graphColumns := by
  have hedge := hdb _ _ hS.edge
  have hnotes := hdb _ _ (hS.annotations .edge)
  obtain ⟨houtlines, hfinds⟩ := finds_representatives fields hedge.columnsOf hnotes.columnsOf
    (hdb _ _ (hsource .edge)).isSome
  refine ⟨fun s hs => ?_, hfinds.conditions, hfinds.groupBy, hfinds.orderBy, [.least (.of "e" "id")], rfl, ?_, ?_⟩
  · obtain rfl | hs := List.mem_cons.1 hs
    · exact ⟨_, hedge⟩
    · obtain ⟨⟨field, i⟩, -, rfl⟩ := List.mem_map.1 hs
      exact ⟨_, hnotes⟩
  · rw [houtlines]
    simpa [Term.mentions] using knows_collapsed_edge (by decide)
  · rw [houtlines]
    exact .cons (fun _ => Scope.findsInteger_of rfl areIntegers_edge (by decide)) .nil

/-- The edges of a subject between the vertices of a table. -/
theorem gives_between (hS : S.IsGround) {subject : Graph} (hsubject : S.HasGraph subject)
    {scratch : List (String × List String)} {answer : String}
    (hanswer : S.plus scratch answer graphColumns) {db : Database} (hdb : db.Meets (S.plus scratch)) :
    ((Selection.join [.column (.of "s" "id")]
        [⟨subject.edgeTable, some "s", []⟩,
         ⟨Algebra.edgeTable, some "e",
           [.same (.of "s" "id") (.of "e" "id"), .within (.of "e" "src") answer,
            .within (.of "e" "dst") answer]⟩]).grouped [.of "s" "id"]).Gives db graphColumns := by
  have hfirst : db.Has subject.edgeTable graphColumns := hdb _ _ (.inl (hsubject .edge))
  have hedge := hdb _ _ (.inl hS.edge)
  have hs : Scope.knows [⟨"s", graphColumns, []⟩, ⟨"e", Storage.edgeTable.columns, []⟩]
      (.of "s" "id") = true :=
    Scope.knows_of_mem ⟨"s", graphColumns, []⟩ List.mem_cons_self (by decide)
  have he : ∀ n ∈ ["id", "src", "dst"], Scope.knows
      [⟨"s", graphColumns, []⟩, ⟨"e", Storage.edgeTable.columns, []⟩] (.of "e" n) = true := fun n hn =>
    Scope.knows_of_mem ⟨"e", Storage.edgeTable.columns, []⟩ (by simp) hn
  refine .of_outlines [⟨"s", graphColumns, []⟩, ⟨"e", Storage.edgeTable.columns, []⟩]
    [.column (.of "s" "id")] ?_ ?_ ?_ rfl ?_ ?_ ?_ ?_
  · simp [Selection.outlines, Selection.grouped, Selection.join, Source.name, hfirst.outline,
      hedge.outline]
  · simpa [Selection.grouped, Selection.join] using ⟨⟨_, hfirst⟩, _, hedge⟩
  · simp [Selection.grouped, Selection.join, hs, he, (hdb _ _ hanswer).isSome]
  · simpa [Selection.grouped, Selection.join] using hs
  · simp [Selection.grouped, Selection.join]
  · simpa [Term.mentions] using hs
  · exact .cons (fun _ => Scope.findsInteger_of rfl (areIntegers_map _) (by decide)) .nil

section Values

variable {db : Database} {table left right : String}

theorem gives_namedIds (h : db.Has table graphColumns) (name value : String) :
    (Algebra.namedIds table name value).Gives db metadataColumns := by
  have hid : Scope.knows [⟨table, graphColumns, []⟩] (.plain "id") = true :=
    Scope.knows_plain_of_mem table (by decide)
  refine .of_outlines [⟨table, graphColumns, []⟩] [.column (.plain "id"),
    .constant (.text name), .constant (.text value)] ?_ ?_ ?_ rfl ?_ ?_ ?_ ?_
  · simp [Selection.outlines, Algebra.namedIds, Selection.groupedBy, Selection.grouped, Selection.join,
      Source.name, h.outline]
  · simpa [Algebra.namedIds, Selection.groupedBy, Selection.grouped, Selection.join] using ⟨_, h⟩
  · simp [Algebra.namedIds, Selection.groupedBy, Selection.grouped, Selection.join]
  · simpa [Algebra.namedIds, Selection.groupedBy, Selection.grouped, Selection.join] using hid
  · simp [Algebra.namedIds, Selection.groupedBy, Selection.grouped, Selection.join]
  · simpa [Term.mentions] using hid
  · exact .cons (fun _ => Scope.findsInteger_plain (areIntegers_map _)
      (by decide : "id" ∈ graphColumns.map Column.name)) (.cons (fun h => by cases h) (.cons (fun h => by cases h) .nil))

theorem gives_allValues (h : db.Has table metadataColumns) :
    (Algebra.allValues table).Gives db metadataColumns :=
  Selection.gives_columns _ [] h (by decide) (by decide) (by simp)
    (.cons (fun _ => Scope.findsInteger_head rfl _ _) (.cons (fun h => by cases h) (.cons (fun h => by cases h) .nil)))

/-- A value of one table and the values of another one may be compared by their ids and names. -/
theorem fits_unmatchedValues (houtline : db.outline right "r" = ⟨"r", metadataColumns, []⟩)
    (hright : (db.table? right).isSome = true) :
    (Condition.unmatched right "r" [(.of "l" "id", .of "r" "id"), (.of "l" "name", .of "r" "name")]).Fits db
      [⟨"l", metadataColumns, []⟩] := by
  have hl : ∀ outer : Scope, (⟨"l", metadataColumns, []⟩ : Visible) ∈ outer → ∀ n ∈ ["id", "name"],
      outer.knows (.of "l" n) = true := fun outer houter n hn =>
    Scope.knows_of_mem _ houter ((by decide : ["id", "name"] ⊆ metadataColumns.map Column.name) hn)
  have hr : ∀ outer : Scope, (⟨"r", metadataColumns, []⟩ : Visible) ∈ outer → ∀ n ∈ ["id", "name"],
      outer.knows (.of "r" n) = true := fun outer houter n hn =>
    Scope.knows_of_mem _ houter ((by decide : ["id", "name"] ⊆ metadataColumns.map Column.name) hn)
  rw [Condition.fits_unmatched, houtline]
  refine ⟨?_, hright⟩
  simp only [List.flatMap_cons, List.flatMap_nil, List.cons_append, List.nil_append,
    List.forall_mem_cons, List.not_mem_nil, false_implies, implies_true, and_true]
  exact ⟨hl _ (by simp) _ (by decide), hr _ (by simp) _ (by decide),
    hl _ (by simp) _ (by decide), hr _ (by simp) _ (by decide)⟩

theorem gives_unmatchedValues (hleft : db.Has left metadataColumns)
    (hright : db.Has right metadataColumns) :
    (Algebra.unmatchedValues left right).Gives db metadataColumns := by
  refine .of_outlines [⟨"l", metadataColumns, []⟩]
    (["id", "name", "value"].map fun n => .column (.plain n)) ?_ ?_ ?_ rfl ?_ ?_ ?_ ?_
  · simp [Selection.outlines, Algebra.unmatchedValues, Source.name, hleft.outline]
  · simpa [Algebra.unmatchedValues] using ⟨_, hleft⟩
  · simp only [Algebra.unmatchedValues, List.forall_mem_singleton]
    exact fits_unmatchedValues (hright.outline "r") hright.isSome
  · simp [Algebra.unmatchedValues, Algebra.allValues, Selection.columns]
  · simp [Algebra.unmatchedValues, Algebra.allValues, Selection.columns]
  · simp [Term.mentions, Visible.hasColumn, metadataColumns, Column.integer, Column.text]
  · exact .cons (fun _ => Scope.findsInteger_head rfl _ _) (.cons (fun h => by cases h) (.cons (fun h => by cases h) .nil))

end Values

/-! ## Rounds of traversals -/

section Rounds

open Traversal

variable {scratch : List (String × List String)} {t : Tables} {subject : Graph} {noted : String}

/-- The ids of a table of integers that are, or are not, among those of another one. -/
theorem works_idsWhere {table source other : String} (columns : List String) {c : Condition}
    (htable : S table graphColumns) (hsource : S source (columns.map Column.integer))
    (hid : "id" ∈ columns) {cs : List Column} (hother : S other cs)
    (hc : c = .within (.plain "id") other ∨ c = .outside (.plain "id") other) :
    Statement.Works S (.insertFrom table (.idsWhere source [c])) :=
  have hnames : (columns.map Column.integer).map Column.name = columns := by
    simp [Column.integer, Function.comp_def]
  works_integers _ _ [] htable hsource (areIntegers_map _)
    (by rw [hnames]; simpa using hid) rfl (by simp) fun _ hdb => by
      have hfits := fits_membership source hother (hnames.symm ▸ hid) hdb
      obtain rfl | rfl := hc
      · exact List.forall_mem_singleton.2 hfits.1
      · exact List.forall_mem_singleton.2 hfits.2

theorem works_advance (hfrontier : S t.frontier graphColumns) (hnext : S t.next graphColumns)
    (hreached : S t.reached graphColumns) : ∀ s ∈ t.advance, s.Works S := by
  simp only [Tables.advance, List.forall_mem_cons, List.not_mem_nil, false_implies, implies_true,
    and_true]
  exact ⟨.clear hfrontier,
    works_idsWhere ["id"] hfrontier hnext (by decide) hreached (.inr rfl),
    works_ids ["id"] [] hreached hfrontier (by decide) (by decide)⟩

theorem fits_onEdgesOf (hsubject : S.HasGraph subject) {db : Database}
    (hdb : db.Meets (S.plus scratch)) : ∀ c ∈ onEdgesOf subject,
      c.Fits db [⟨Algebra.edgeTable, Storage.edgeTable.columns, []⟩] := by
  rw [onEdgesOf]
  split
  · simp
  · have hknows : Scope.knows [⟨Algebra.edgeTable, Storage.edgeTable.columns, []⟩]
        (.of Algebra.edgeTable "id") = true :=
      Scope.knows_of_mem ⟨Algebra.edgeTable, Storage.edgeTable.columns, []⟩ (by simp)
        (by decide)
    have hedges : (db.table? subject.edgeTable).isSome = true := (hdb _ _ (.inl (hsubject .edge))).isSome
    simp [hknows, hedges]

/-- Conditions on an end of the subject's edges. -/
theorem fits_ends (hsubject : S.HasGraph subject) {ends other : String}
    (hends : ends ∈ ["id", "src", "dst"]) {cs : List Column} (hother : S.plus scratch other cs)
    {db : Database} (hdb : db.Meets (S.plus scratch)) :
    ∀ c ∈ Condition.within (.plain ends) other :: onEdgesOf subject,
      c.Fits db [⟨Algebra.edgeTable, Storage.edgeTable.columns, []⟩] :=
  List.forall_mem_cons.2 ⟨(fits_membership _ hother hends hdb).1, fits_onEdgesOf hsubject hdb⟩

theorem works_neighbours (hS : S.IsGround) (hsubject : S.HasGraph subject)
    (hfrontier : S.plus scratch t.frontier graphColumns)
    (hnext : S.plus scratch t.next graphColumns) {near far : String}
    (hnear : near ∈ ["id", "src", "dst"]) (hfar : far ∈ ["id", "src", "dst"]) :
    Statement.Works (S.plus scratch)
      (.insertFrom t.next (t.neighbours near far (onEdgesOf subject))) :=
  works_edges ["id"] [far] [far] hS hnext (by simpa using hfar)
    rfl (by simpa using hfar) fun _ hdb => fits_ends hsubject hnear hfrontier hdb

/-- A round that notes edges with its number. -/
theorem works_noteRound (hS : S.IsGround) (hsubject : S.HasGraph subject)
    (hfrontier : S.plus scratch t.frontier graphColumns)
    (hnoted : S.plus scratch noted (["src", "dst", "depth"].map Column.integer)) {hop : Int}
    (hhop : Text.isWord hop = true) :
    Statement.Works (S.plus scratch) (.insertFrom noted
      (.join [.column (.plain "src"), .column (.plain "dst"), .constant (.integer hop)]
        [⟨Algebra.edgeTable, none, .within (.plain "dst") t.frontier :: onEdgesOf subject⟩])) := by
  refine .insertFrom hnoted (isOpen_map _) fun db hdb => ?_
  have hedge := hdb _ _ (.inl hS.edge)
  have hknows : ∀ n ∈ ["src", "dst"], Scope.knows
      [⟨Algebra.edgeTable, Storage.edgeTable.columns, []⟩] (.plain n) = true := fun n hn =>
    Scope.knows_plain_of_mem _ ((by decide : ["src", "dst"] ⊆ Storage.edgeTable.columns.map Column.name) hn)
  refine .of_outlines [⟨Algebra.edgeTable, Storage.edgeTable.columns, []⟩]
    [.column (.plain "src"), .column (.plain "dst"), .constant (.integer hop)]
    ?_ ?_ ?_ rfl ?_ ?_ ?_ ?_
  · simp [Selection.outlines, Selection.join, Source.name, hedge.outline]
  · simpa [Selection.join] using ⟨_, hedge⟩
  · simpa only [Selection.join, List.forall_mem_singleton]
      using fits_ends hsubject (by decide) hfrontier hdb
  · simp [Selection.join]
  · simp [Selection.join]
  · simp only [Term.mentions, List.flatMap_cons, List.flatMap_nil, List.cons_append, List.nil_append,
      List.forall_mem_cons, List.not_mem_nil, false_implies, implies_true, and_true]
    exact ⟨hknows "src" (by decide), hknows "dst" (by decide)⟩
  · exact .cons (fun _ => Scope.findsInteger_plain areIntegers_edge (by decide))
      (.cons (fun _ => Scope.findsInteger_plain areIntegers_edge (by decide))
        (.cons (fun _ => ⟨hop, rfl, hhop⟩) .nil))

/-- A round that follows noted edges that still fit the bound. -/
theorem works_followRound (hfrontier : S t.frontier graphColumns) (hnext : S t.next graphColumns)
    (hreached : S t.reached graphColumns)
    (hnoted : S noted (["src", "dst", "depth"].map Column.integer)) (maxDepth hop : Int) :
    ∀ s ∈ followRound t noted maxDepth hop, s.Works S := by
  simp only [followRound, List.forall_mem_append, List.forall_mem_cons, List.not_mem_nil,
    false_implies, implies_true, and_true]
  refine ⟨⟨.clear hnext, works_integers ["id"] ["dst"] ["dst"]
    hnext hnoted (areIntegers_map _) (by decide) rfl (by decide) fun _ hdb => ?_⟩,
    works_advance hfrontier hnext hreached⟩
  refine List.forall_mem_cons.2 ⟨(fits_membership _ hfrontier (by decide) hdb).1,
    List.forall_mem_singleton.2 ?_⟩
  exact Condition.fits_atMost.2 (Scope.knows_plain_of_mem noted (by decide))

/-! ### Shortest paths -/

variable {connected : String}

/-- The columns of the frontier and of the connections into it. -/
def frontierOutlines : Scope :=
  [⟨"c", ["id", "reaching"].map Column.integer, []⟩, ⟨"k", ["src", "dst"].map Column.integer, []⟩]

theorem findsInteger_frontierOutlines :
    frontierOutlines.FindsInteger (.of "c" "reaching") ∧ frontierOutlines.FindsInteger (.of "k" "src") ∧
      frontierOutlines.FindsInteger (.of "k" "dst") :=
  have hskip : sameName "c" "k" = false :=
    sameName_eq_false_of_isLower (by decide) (by decide) (by decide)
  ⟨Scope.findsInteger_of rfl (areIntegers_map _) (by decide),
    (Scope.findsInteger_of rfl (areIntegers_map _) (by decide)).skip hskip,
    (Scope.findsInteger_of rfl (areIntegers_map _) (by decide)).skip hskip⟩

/-- A reference that finds a column is known. -/
theorem knows_frontierOutlines : ∀ r ∈ [ColumnRef.of "c" "id", .of "c" "reaching", .of "k" "src",
    .of "k" "dst"], frontierOutlines.knows r = true := by
  have hc : ∀ n ∈ ["id", "reaching"], frontierOutlines.knows (.of "c" n) = true := fun n hn =>
    Scope.knows_of_mem ⟨"c", ["id", "reaching"].map Column.integer, []⟩
      List.mem_cons_self hn
  have hk : ∀ n ∈ ["src", "dst"], frontierOutlines.knows (.of "k" n) = true := fun n hn =>
    Scope.knows_of_mem ⟨"k", ["src", "dst"].map Column.integer, []⟩
      (List.mem_cons_of_mem _ List.mem_cons_self) hn
  simp only [List.forall_mem_cons, List.not_mem_nil, false_implies, implies_true, and_true]
  exact ⟨hc _ (by decide), hc _ (by decide), hk _ (by decide), hk _ (by decide)⟩

/-- Connections into the frontier, with terms that are words. -/
theorem works_intoFrontier {table : String} {columns : List String} {terms : List Term}
    (htable : S table (columns.map Column.integer))
    (hfrontier : S t.frontier (["id", "reaching"].map Column.integer))
    (hconnected : S connected (["src", "dst"].map Column.integer))
    (hlength : columns.length = terms.length)
    (hterms : ∀ term ∈ terms, (∃ r ∈ [ColumnRef.of "c" "reaching", .of "k" "src", .of "k" "dst"],
      term = .column r) ∨ ∃ hop, Text.isWord hop = true ∧ term = .constant (.integer hop)) :
    Statement.Works S (.insertFrom table (intoFrontier t connected terms)) := by
  refine .insertFrom htable (isOpen_map _) fun db hdb => ?_
  have hc := hdb _ _ hfrontier
  have hk := hdb _ _ hconnected
  refine .of_outlines frontierOutlines terms ?_ ?_ ?_ rfl ?_ ?_ ?_ ?_
  · simp [Selection.outlines, intoFrontier, Selection.join, Source.name, hc.outline, hk.outline,
      frontierOutlines]
  · simpa [intoFrontier, Selection.join] using ⟨⟨_, hc⟩, _, hk⟩
  · simp [intoFrontier, Selection.join, -Scope.knows_of, knows_frontierOutlines]
  · simp [intoFrontier, Selection.join]
  · simp [intoFrontier, Selection.join]
  · intro r hr
    obtain ⟨term, hterm, hr⟩ := List.mem_flatMap.1 hr
    obtain ⟨ref, href, rfl⟩ | ⟨hop, -, rfl⟩ := hterms term hterm
    · rw [List.mem_singleton.1 hr]
      exact knows_frontierOutlines ref (List.mem_cons_of_mem _ href)
    · cases hr
  · refine List.forall₂_iff_get.2 ⟨by simpa using hlength, fun i _ hi _ => ?_⟩
    obtain ⟨ref, href, heq⟩ | ⟨hop, hhop, heq⟩ := hterms _ (List.get_mem terms ⟨i, hi⟩)
    · rw [heq]
      simp only [List.mem_cons, List.not_mem_nil, or_false] at href
      obtain rfl | rfl | rfl := href
      · exact findsInteger_frontierOutlines.1
      · exact findsInteger_frontierOutlines.2.1
      · exact findsInteger_frontierOutlines.2.2
    · rw [heq]
      exact ⟨hop, rfl, hhop⟩

/-- A round that notes connections with the destinations that they lead to. -/
theorem works_noteReachingRound (hfrontier : S t.frontier (["id", "reaching"].map Column.integer))
    (hnext : S t.next (["id", "reaching"].map Column.integer)) (hreached : S t.reached graphColumns)
    (hconnected : S connected (["src", "dst"].map Column.integer))
    (hnoted : S noted (["src", "dst", "reaching", "depth"].map Column.integer)) {hop : Int}
    (hhop : Text.isWord hop = true) : ∀ s ∈ noteReachingRound t connected noted hop, s.Works S := by
  simp only [noteReachingRound, List.forall_mem_cons, List.not_mem_nil, false_implies, implies_true,
    and_true]
  refine ⟨works_intoFrontier hnoted hfrontier hconnected rfl ?_, .clear hnext,
    works_intoFrontier hnext hfrontier hconnected rfl ?_, .clear hfrontier,
    works_integers ["id", "reaching"] ["id", "reaching"] ["id", "reaching"] hfrontier hnext
      (areIntegers_map _) (by decide) rfl (by decide)
      fun _ hdb => List.forall_mem_singleton.2 (fits_membership _ hreached (by decide) hdb).2,
    works_ids ["id", "reaching"] _ hreached hfrontier (by decide) (by decide)⟩
  · simp only [List.forall_mem_cons, List.not_mem_nil, false_implies, implies_true, and_true]
    exact ⟨.inl ⟨_, by decide, rfl⟩, .inl ⟨_, by decide, rfl⟩, .inl ⟨_, by decide, rfl⟩,
      .inr ⟨hop, hhop, rfl⟩⟩
  · simp only [List.forall_mem_cons, List.not_mem_nil, false_implies, implies_true, and_true]
    exact ⟨.inl ⟨_, by decide, rfl⟩, .inl ⟨_, by decide, rfl⟩⟩

/-- A round that leaves each vertex by a connection that was noted first. -/
theorem works_followNearestRound (hfrontier : S t.frontier graphColumns)
    (hnext : S t.next graphColumns) (hreached : S t.reached graphColumns)
    (hnoted : S noted (["src", "dst", "reaching", "depth"].map Column.integer))
    (maxDepth hop : Int) : ∀ s ∈ followNearestRound t noted maxDepth hop, s.Works S := by
  simp only [followNearestRound, List.forall_mem_append, List.forall_mem_cons, List.not_mem_nil,
    false_implies, implies_true, and_true]
  refine ⟨⟨.clear hnext, .insertFrom hnext (isOpen_map _) fun db hdb => ?_⟩,
    works_advance hfrontier hnext hreached⟩
  have hc := hdb _ _ hfrontier
  have hs := hdb _ _ hnoted
  let seen (source : String) : Visible :=
    ⟨source, ["src", "dst", "reaching", "depth"].map Column.integer, []⟩
  have hknows : ∀ (outer : Scope) (source : String), seen source ∈ outer →
      ∀ n ∈ ["src", "dst", "reaching", "depth"], outer.knows (.of source n) = true :=
    fun outer source hmem n hn => Scope.knows_of_mem (seen source) hmem
      ((by decide : _ ⊆ (["src", "dst", "reaching", "depth"].map Column.integer).map Column.name) hn)
  have hfirst : Scope.knows [⟨"c", graphColumns, []⟩, seen "s"] (.of "c" "id") = true :=
    Scope.knows_of_mem ⟨"c", graphColumns, []⟩ List.mem_cons_self (by decide)
  refine .of_outlines [⟨"c", graphColumns, []⟩, seen "s"] [.least (.of "s" "dst")] ?_ ?_ ?_ rfl ?_ ?_ ?_ ?_
  · simp [Selection.outlines, Selection.grouped, Selection.join, Source.name, hc.outline, hs.outline,
      seen]
  · simpa [Selection.grouped, Selection.join] using ⟨⟨_, hc⟩, _, hs⟩
  · simp only [Selection.grouped, Selection.join, List.forall_mem_cons, List.not_mem_nil,
      false_implies, implies_true, and_true, true_and, Condition.fits_same, Condition.fits_atMost,
      Condition.fits_leastOf, hs.outline, List.flatMap_cons, List.flatMap_nil, List.cons_append,
      List.nil_append]
    exact ⟨⟨hfirst, hknows _ "s" (by simp) _ (by decide)⟩, hknows _ "s" (by simp) _ (by decide),
      ⟨hknows _ "s" (by simp) _ (by decide), hknows _ "t" List.mem_cons_self _ (by decide),
        hknows _ "t" List.mem_cons_self _ (by decide), hknows _ "s" (by simp) _ (by decide),
        hknows _ "t" List.mem_cons_self _ (by decide), hknows _ "s" (by simp) _ (by decide)⟩, hs.isSome⟩
  · simp only [Selection.grouped, List.forall_mem_cons, List.not_mem_nil, false_implies, implies_true,
      and_true]
    exact ⟨hknows _ "s" (by simp) _ (by decide), hknows _ "s" (by simp) _ (by decide)⟩
  · simp [Selection.grouped, Selection.join]
  · simp only [Term.mentions, List.flatMap_cons, List.flatMap_nil, List.append_nil,
      List.forall_mem_singleton]
    exact hknows _ "s" (by simp) _ (by decide)
  · exact .cons (fun _ => (show Scope.FindsInteger [seen "s"] (.of "s" "dst") from
      Scope.findsInteger_of rfl (areIntegers_map _) (by decide)).skip
        (sameName_eq_false_of_isLower (by decide) (by decide) (by decide))) .nil

end Rounds

end Provenance

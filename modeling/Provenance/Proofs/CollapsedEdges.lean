import Provenance.Proofs.Subgraphs

/-!
# Collapsed edges

Edges are collapsed by a join: beside the row of an edge stands one row of its annotations for each field.
The joined rows are grouped by the ends of the edge and the values, and of each group the least edge is
written. If an edge has at most one value for a field, it stands in just one joined row, or in none, so
each group is a class of parallel edges, and an edge that is the least of one is that of no other.
-/

namespace Provenance.Algebra

open Store Database Traversal IntegerTable Action

/-! ## Annotations -/

/-- The value that an edge has for a field. -/
structure Annotation where
  id : Int
  field : String
  value : String
  deriving DecidableEq, Inhabited

namespace Annotation

def row (a : Annotation) : Row := Storage.annotationRow a.id a.field a.value

/-- The row of an annotation as the source of a number. -/
def visible (i : ℕ) (a : Annotation) : Visible :=
  ⟨collapsedName i, (Storage.annotationTable .edge).columns, a.row⟩

theorem isLower_columns : ∀ name ∈ (Storage.annotationTable .edge).columns.map Column.name, IsLower name := by decide

theorem nodup_columns : ((Storage.annotationTable .edge).columns.map Column.name).Nodup := by decide

variable (a : Annotation) (source : String)

theorem find?_id : Scope.find? [⟨source, (Storage.annotationTable .edge).columns, a.row⟩] (.plain "id")
    = some (.integer, .integer a.id) :=
  Scope.find?_cells (i := 0) isLower_columns nodup_columns rfl rfl source

theorem find?_field : Scope.find? [⟨source, (Storage.annotationTable .edge).columns, a.row⟩] (.plain "field")
    = some (.text, .text a.field) :=
  Scope.find?_cells (i := 1) isLower_columns nodup_columns rfl rfl source

theorem find?_value : Scope.find? [⟨source, (Storage.annotationTable .edge).columns, a.row⟩] (.plain "value")
    = some (.text, .text a.value) :=
  Scope.find?_cells (i := 2) isLower_columns nodup_columns rfl rfl source

end Annotation

/-- The edges have just these annotations. -/
def HoldsAnnotations (db : Database) (notes : List Annotation) : Prop :=
  (db.table? Side.edge.annotationTable).map (fun t => (t.columns, t.rows))
    = some ((Storage.annotationTable .edge).columns, notes.map Annotation.row)

instance (db : Database) (notes : List Annotation) : Decidable (HoldsAnnotations db notes) :=
  inferInstanceAs (Decidable (_ = _))

/-- No edge has two values for one field. -/
def AreSingle (notes : List Annotation) : Prop :=
  ∀ a ∈ notes, ∀ b ∈ notes, a.id = b.id → a.field = b.field → a.value = b.value

instance (notes : List Annotation) : Decidable (AreSingle notes) :=
  inferInstanceAs (Decidable (∀ a ∈ notes, ∀ b ∈ notes, a.id = b.id → a.field = b.field → a.value = b.value))

variable {db : Database} {notes : List Annotation} {e e' : Connection} {field : String} {fields : List String}
  {as as' : List Annotation}

namespace HoldsAnnotations

variable (h : HoldsAnnotations db notes)
include h

theorem congr {db' : Database} (hdb : db'.table? Side.edge.annotationTable = db.table? Side.edge.annotationTable) :
    HoldsAnnotations db' notes := by rwa [HoldsAnnotations, hdb]

theorem columns : (db.table? Side.edge.annotationTable).map Table.columns
    = some (Storage.annotationTable .edge).columns := by
  obtain ⟨t, ht, heq⟩ := Option.map_eq_some_iff.1 h
  rw [ht, Option.map_some, (Prod.mk.inj heq).1]

theorem visible (i : ℕ) : db.visible Side.edge.annotationTable (collapsedName i)
    = notes.map ( Annotation.visible i) := by
  obtain ⟨t, ht, heq⟩ := Option.map_eq_some_iff.1 h
  obtain ⟨hcolumns, hrows⟩ := Prod.mk.inj heq
  simp only [Database.visible, ht, hcolumns, hrows, List.map_map]
  rfl

end HoldsAnnotations

/-! ## Choices of annotations -/

/-- The annotations are those of an edge for some fields, one for each. -/
def AreFor (notes : List Annotation) (e : Connection) (fields : List String) (as : List Annotation) : Prop :=
  List.Forall₂ (fun field a => a ∈ notes ∧ a.id = e.id ∧ a.field = field) fields as

/-- All choices of an annotation of an edge for each of some fields. -/
def choices (notes : List Annotation) (e : Connection) : List String → List (List Annotation)
  | [] => [[]]
  | field :: fields =>
    (notes.filter fun a => a.id = e.id ∧ a.field = field).flatMap fun a => (choices notes e fields).map (a :: ·)

theorem mem_choices : as ∈ choices notes e fields ↔ AreFor notes e fields as := by
  induction fields generalizing as with
  | nil => simp [choices, AreFor]
  | cons field fields ih =>
    simp only [choices, List.mem_flatMap, List.mem_filter, List.mem_map, decide_eq_true_eq, ih, AreFor,
      List.forall₂_cons_left_iff, and_assoc]
    constructor
    · rintro ⟨a, ha, hid, hfield, bs, hbs, rfl⟩
      exact ⟨a, bs, ha, hid, hfield, hbs, rfl⟩
    · rintro ⟨a, bs, ha, hid, hfield, hbs, rfl⟩
      exact ⟨a, ha, hid, hfield, bs, hbs, rfl⟩

/-- An edge carries a value for a field. -/
def Carries (notes : List Annotation) (e : Connection) (field value : String) : Prop := ⟨e.id, field, value⟩ ∈ notes

/-- Two edges with the same ends and the same values for some fields. -/
@[mk_iff]
structure Parallel (notes : List Annotation) (fields : List String) (e e' : Connection) : Prop where
  src : e'.src = e.src
  dst : e'.dst = e.dst
  values : ∀ field ∈ fields, ∃ value, Carries notes e field value ∧ Carries notes e' field value

namespace AreFor

/-- Edges with the same values carry them both. -/
theorem carries (h : AreFor notes e fields as) (h' : AreFor notes e' fields as')
    (heq : as.map Annotation.value = as'.map Annotation.value) :
    ∀ field ∈ fields, ∃ value, Carries notes e field value ∧ Carries notes e' field value := by
  induction h generalizing as' with
  | nil => exact nofun
  | @cons field a fields as ha _ ih =>
    obtain ⟨b, bs, hb, hbs, rfl⟩ := List.forall₂_cons_left_iff.1 h'
    obtain ⟨hvalue, hrest⟩ := List.cons.inj heq
    refine List.forall_mem_cons.2 ⟨⟨a.value, ?_, ?_⟩, ih hbs hrest⟩
    · rw [Carries, ← ha.2.1, ← ha.2.2]
      exact ha.1
    · rw [Carries, ← hb.2.1, ← hb.2.2, hvalue]
      exact hb.1

/-- There is a choice if the edge carries all fields. -/
theorem exists_iff : (∃ as, AreFor notes e fields as) ↔ ∀ field ∈ fields, ∃ value, Carries notes e field value := by
  constructor
  · rintro ⟨as, h⟩ field hfield
    obtain ⟨value, hvalue, -⟩ := h.carries h rfl field hfield
    exact ⟨value, hvalue⟩
  · intro h
    choose! value hvalue using h
    refine ⟨fields.map fun field => ⟨e.id, field, value field⟩, ?_⟩
    rw [AreFor, List.forall₂_map_right_iff, List.forall₂_same]
    exact fun field hfield => ⟨hvalue field hfield, rfl, rfl⟩

/-- A parallel edge has a choice with the same values. -/
theorem exists_of_carries (hsingle : AreSingle notes) (h : AreFor notes e fields as)
    (hcarries : ∀ field ∈ fields, ∃ value, Carries notes e field value ∧ Carries notes e' field value) :
    ∃ as', AreFor notes e' fields as' ∧ as'.map Annotation.value = as.map Annotation.value := by
  refine ⟨as.map fun a => ⟨e'.id, a.field, a.value⟩, ?_, by rw [List.map_map]; rfl⟩
  rw [AreFor, List.forall₂_map_right_iff]
  induction h with
  | nil => exact .nil
  | @cons field a fields as ha _ ih =>
    rw [List.forall_mem_cons] at hcarries
    obtain ⟨⟨value, hvalue, hvalue'⟩, hrest⟩ := hcarries
    obtain rfl : a.value = value := hsingle a ha.1 _ hvalue ha.2.1 ha.2.2
    refine .cons ⟨?_, rfl, ha.2.2⟩ (ih hrest)
    rw [ha.2.2]
    exact hvalue'

/-- The values of an edge are determined by the fields. -/
theorem value_eq (hsingle : AreSingle notes) (h : AreFor notes e fields as) (h' : AreFor notes e fields as') :
    as.map Annotation.value = as'.map Annotation.value := by
  induction h generalizing as' with
  | nil => rw [List.forall₂_nil_left_iff.1 h']
  | @cons field a fields as ha _ ih =>
    obtain ⟨b, bs, hb, hbs, rfl⟩ := List.forall₂_cons_left_iff.1 h'
    rw [List.map_cons, List.map_cons, ih hbs,
      hsingle a ha.1 b hb.1 (ha.2.1.trans hb.2.1.symm) (ha.2.2.trans hb.2.2.symm)]

end AreFor

/-! ## Joined rows -/

theorem sameName_collapsedName (i j : ℕ) : sameName (collapsedName i) (collapsedName j) = decide (i = j) := by
  have hlower : ∀ i, IsLower (collapsedName i) := fun i => IsLower.append (by decide) (Text.isLower_natural i)
  rw [sameName_of_isLower (hlower i) (hlower j), decide_eq_decide, collapsedName, collapsedName,
    String.append_right_inj]
  exact ⟨Text.natural_injective, congrArg _⟩

theorem sameName_e_collapsedName (i : ℕ) : sameName "e" (collapsedName i) = false :=
  sameName_eq_false 1 (by
    rw [collapsedName, folded_append, List.getElem?_append_left (by decide)]
    decide)

/-- The rows of some annotations, from a number on. -/
def visibleFrom (k : ℕ) (as : List Annotation) : Scope := (as.zipIdx k).map fun p => p.1.visible p.2

/-- The row of an edge beside rows of annotations. -/
def joined (e : Connection) (as : List Annotation) : Scope :=
  ⟨"e", Storage.edgeTable.columns, integers e.row⟩ :: visibleFrom 0 as

theorem joined_concat (e : Connection) (as : List Annotation) (a : Annotation) :
    joined e as ++ [a.visible as.length] = joined e (as ++ [a]) := by
  simp [joined, visibleFrom, List.zipIdx_append]

theorem find?_joined_edge (e : Connection) (as : List Annotation) (column : String) :
    (joined e as).find? (.of "e" column)
      = Scope.find? [⟨"e", Storage.edgeTable.columns, integers e.row⟩] (.plain column) := by
  rw [joined, Scope.find?_of_cons, if_pos (sameName_self _)]

theorem find?_visibleFrom {k i : ℕ} {a : Annotation} (ha : as[i]? = some a) (column : String) :
    (visibleFrom k as).find? (.of (collapsedName (k + i)) column)
      = Scope.find? [a.visible (k + i)] (.plain column) := by
  induction as generalizing k i with
  | nil => cases ha
  | cons b as ih =>
    rw [visibleFrom, List.zipIdx_cons, List.map_cons, Scope.find?_of_cons, Annotation.visible, sameName_collapsedName]
    cases i with
    | zero =>
      cases ha
      rw [Nat.add_zero, decide_eq_true rfl, if_pos rfl]
      rfl
    | succ i =>
      rw [decide_eq_false (by omega), if_neg (by decide), show k + (i + 1) = k + 1 + i by omega]
      exact ih ha

theorem find?_joined {i : ℕ} {a : Annotation} (ha : as[i]? = some a) (column : String) :
    (joined e as).find? (.of (collapsedName i) column) = Scope.find? [a.visible i] (.plain column) := by
  rw [joined, Scope.find?_of_cons, sameName_e_collapsedName, if_neg (by decide)]
  have := find?_visibleFrom (k := 0) ha column
  rwa [Nat.zero_add] at this

theorem holds_equals_text {scope : Scope} {ref : ColumnRef} {s : String}
    (hfind : scope.find? ref = some (.text, .text s)) (value : String) :
    (Condition.equals ref value).holds db scope = decide (s = value) := by
  have horder : ((Cell.text s).order (.text value) == .eq) = decide (s = value) := by
    rw [Bool.eq_iff_iff, beq_iff_eq, decide_eq_true_iff]
    exact Std.compare_eq_iff_eq
  simp only [Condition.holds, Condition.holds?, Scope.affinity, Scope.cell, hfind, Option.map_some, Option.getD_some]
  show (some ((Cell.text s).order (.text value) == .eq) == some true) = _
  rw [horder]
  cases decide (s = value) <;> rfl

/-- The source of the annotations for a field. -/
def fieldSource (field : String) (i : ℕ) : Source :=
  ⟨Side.edge.annotationTable, some (collapsedName i),
    [.same (.of "e" "id") (.of (collapsedName i) "id"), .equals (.of (collapsedName i) "field") field]⟩

/-- One more source puts the annotations for one more field beside an edge. -/
theorem extend_joined (h : HoldsAnnotations db notes) (e : Connection) (as : List Annotation) (field : String) :
    Selection.extend db (joined e as) (fieldSource field as.length)
      = (notes.filter fun a => a.id = e.id ∧ a.field = field).map fun a => joined e (as ++ [a]) := by
  have hvisible : db.visible (fieldSource field as.length).table (fieldSource field as.length).name
      = notes.map ( Annotation.visible as.length) := h.visible as.length
  rw [Selection.extend, hvisible, List.map_map, List.filter_map]
  simp only [Function.comp_def, joined_concat]
  refine congrArg _ (List.filter_congr fun a _ => ?_)
  have ha : (as ++ [a])[as.length]? = some a := by simp
  rw [fieldSource, List.all_cons, List.all_cons, List.all_nil, Bool.and_true,
    Condition.holds_same_integers ((find?_joined_edge e _ "id").trans (find?_number e _))
      ((find?_joined ha "id").trans (a.find?_id _)),
    holds_equals_text ((find?_joined ha "field").trans (a.find?_field _)), Bool.decide_and]
  exact congrArg (· && _) (decide_eq_decide.2 eq_comm)

theorem foldl_extend (sources : List Source) (found : List Scope) :
    sources.foldl (fun found s => found.flatMap fun scope => Selection.extend db scope s) found
      = found.flatMap fun scope =>
          sources.foldl (fun found s => found.flatMap fun scope => Selection.extend db scope s) [scope] := by
  induction sources generalizing found with
  | nil => simp
  | cons s sources ih =>
    simp only [List.foldl_cons, List.flatMap_cons, List.flatMap_nil, List.append_nil]
    rw [ih, List.flatMap_assoc]
    exact congrArg (found.flatMap ·) (funext fun scope => (ih _).symm)

/-- The sources of some fields put all choices beside an edge. -/
theorem foldl_fieldSources (h : HoldsAnnotations db notes) (e : Connection) (as : List Annotation)
    (fields : List String) :
    ((fields.zipIdx as.length).map fun p => fieldSource p.1 p.2).foldl
        (fun found s => found.flatMap fun scope => Selection.extend db scope s) [joined e as]
      = (choices notes e fields).map fun bs => joined e (as ++ bs) := by
  induction fields generalizing as with
  | nil => simp [choices]
  | cons field fields ih =>
    have hlength : ∀ a : Annotation, as.length + 1 = (as ++ [a]).length := fun a => by simp
    rw [List.zipIdx_cons, List.map_cons, List.foldl_cons, List.flatMap_singleton, extend_joined h, foldl_extend,
      List.flatMap_map, choices, List.map_flatMap]
    refine congrArg (List.flatMap · _) (funext fun a => ?_)
    rw [hlength a, ih, List.map_map]
    simp only [Function.comp_def, List.append_assoc, List.singleton_append]

/-! ## Groups of parallel edges -/

/-- What edges are grouped by: integers and texts. -/
inductive Trait where
  | integer (n : Int)
  | text (s : String)
  deriving DecidableEq

namespace Trait

def cell : Trait → Cell
  | integer n => .integer n
  | text s => .text s

instance : Ord Trait := ⟨fun x y => x.cell.order y.cell⟩

theorem order_cell (x y : Trait) : x.cell.order y.cell = compare x y := rfl

instance : Std.TransOrd Trait where
  eq_swap {x y} := by
    cases x <;> cases y
    case integer.integer n m => exact Std.OrientedOrd.eq_swap (a := n) (b := m)
    case text.text s t => exact Std.OrientedOrd.eq_swap (a := s) (b := t)
    all_goals rfl
  isLE_trans {x y z} hxy hyz := by
    cases x <;> cases y <;> cases z
    case integer.integer.integer n m k => exact Std.TransOrd.isLE_trans (a := n) (b := m) (c := k) hxy hyz
    case text.text.text s t u => exact Std.TransOrd.isLE_trans (a := s) (b := t) (c := u) hxy hyz
    case text.integer.text => cases hxy
    case integer.text.integer => cases hyz
    all_goals first | rfl | cases hxy | cases hyz

instance : Std.LawfulEqOrd Trait where
  compare_self {x} := by
    cases x with
    | integer n => exact Std.ReflOrd.compare_self (a := n)
    | text s => exact Std.ReflOrd.compare_self (a := s)
  eq_of_compare {x y} h := by
    cases x <;> cases y
    case integer.integer n m => exact congrArg integer (Std.LawfulEqOrd.eq_of_compare (a := n) (b := m) h)
    case text.text s t => exact congrArg text (Std.LawfulEqOrd.eq_of_compare (a := s) (b := t) h)
    all_goals cases h

end Trait

/-- The ends of an edge, and its values. -/
def traits (e : Connection) (as : List Annotation) : List Trait :=
  [.integer e.src, .integer e.dst] ++ (as.map Annotation.value).map .text

theorem traits_eq_iff : traits e' as' = traits e as ↔
    e'.src = e.src ∧ e'.dst = e.dst ∧ as'.map Annotation.value = as.map Annotation.value := by
  have htext : Function.Injective (List.map Trait.text) := List.map_injective_iff.2 fun _ _ => Trait.text.inj
  simp only [traits, List.cons_append, List.nil_append, List.cons.injEq, Trait.integer.injEq, htext.eq_iff]

/-- The columns by which joined rows are grouped. -/
theorem keyOf_joined (h : AreFor notes e fields as) :
    Selection.keyOf ([.of "e" "src", .of "e" "dst"] ++ fields.zipIdx.map fun p => .of (collapsedName p.2) "value")
      (joined e as) = (traits e as).map Trait.cell := by
  have hends : Selection.keyOf [.of "e" "src", .of "e" "dst"] (joined e as) = [.integer e.src, .integer e.dst] := by
    rw [Selection.keyOf, List.map_cons, List.map_cons, List.map_nil,
      Scope.cell_of_find? ((find?_joined_edge e as "src").trans (find?_src e _)),
      Scope.cell_of_find? ((find?_joined_edge e as "dst").trans (find?_dst e _))]
  have hvalues : Selection.keyOf (fields.zipIdx.map fun p => .of (collapsedName p.2) "value") (joined e as)
      = ((as.map Annotation.value).map Trait.text).map Trait.cell := by
    rw [Selection.keyOf, List.map_map, List.map_map, List.map_map]
    refine List.ext_getElem? fun i => ?_
    rw [List.getElem?_map, List.getElem?_map, List.getElem?_zipIdx, Option.map_map]
    cases ha : as[i]? with
    | none =>
      have hnone : fields[i]? = none := by
        rw [List.getElem?_eq_none_iff] at ha ⊢
        rwa [h.length_eq]
      rw [hnone]
      rfl
    | some a =>
      have hi : i < fields.length := by
        rw [h.length_eq]
        exact (List.getElem?_eq_some_iff.1 ha).1
      rw [List.getElem?_eq_getElem hi, Option.map_some, Option.map_some, Function.comp_apply, Function.comp_apply,
        Nat.zero_add, Scope.cell_of_find? ((find?_joined ha "value").trans (a.find?_value _))]
      rfl
  rw [traits, List.map_append, ← hvalues, Selection.keyOf, List.map_append]
  exact congrArg (· ++ _) hends

/-! ## What is written -/

/-- One edge, the least, for each class of parallel edges of a source that carry all fields. -/
structure IsCollapse (edges : List Connection) (notes : List Annotation) (fields : List String)
    (E written : List Int) : Prop where
  once : written.Nodup
  mem : ∀ i, i ∈ written ↔ i ∈ E ∧ ∃ e ∈ edges, e.id = i ∧ (∀ field ∈ fields, ∃ value, Carries notes e field value) ∧
    ∀ e' ∈ edges, e'.id ∈ E → Parallel notes fields e e' → e.id ≤ e'.id

namespace IsCollapse

variable {edges : List Connection} {E written written' : List Int}

/-- Collapsed edges are the least of their classes among themselves, too. -/
theorem again (h : IsCollapse edges notes fields E written) (h' : IsCollapse edges notes fields written written') :
    written'.Perm written := by
  refine (List.perm_ext_iff_of_nodup h'.once h.once).2 fun i => ?_
  rw [h'.mem]
  refine ⟨And.left, fun hi => ⟨hi, ?_⟩⟩
  obtain ⟨-, e, he, hid, hcarries, hleast⟩ := (h.mem i).1 hi
  exact ⟨e, he, hid, hcarries, fun e' he' hwritten => hleast e' he' ((h.mem e'.id).1 hwritten).1⟩

end IsCollapse

/-! ## The join -/

/-- What the join reads: the recorded edges, their annotations, and the edges of a source. -/
structure Joins (db : Database) (source : Graph) (edges : List Connection) (notes : List Annotation)
    (E : List Int) : Prop where
  edges : db.HoldsIntegers edgeTable Storage.edgeTable.columns (edges.map Connection.row)
  annotations : HoldsAnnotations db notes
  kept : db.HoldsIntegers source.edgeTable graphColumns (E.map one)

/-- The edges of the source, each with all choices of its annotations. -/
def chosenEdges (edges : List Connection) (notes : List Annotation) (E : List Int) (fields : List String) :
    List (Connection × List Annotation) :=
  (edges.filter (·.id ∈ E)).flatMap fun e => (choices notes e fields).map (e, ·)

theorem mem_chosenEdges {edges : List Connection} {E : List Int} :
    (e, as) ∈ chosenEdges edges notes E fields ↔ (e ∈ edges ∧ e.id ∈ E) ∧ AreFor notes e fields as := by
  simp only [chosenEdges, List.mem_flatMap, List.mem_map, List.mem_filter, decide_eq_true_eq, Prod.mk.injEq,
    ← mem_choices]
  constructor
  · rintro ⟨e, he, as, has, rfl, rfl⟩
    exact ⟨he, has⟩
  · rintro ⟨he, has⟩
    exact ⟨e, he, as, has, rfl, rfl⟩

namespace Joins

variable {source : Graph} {edges : List Connection} {E : List Int} (h : Joins db source edges notes E)
include h

theorem scopes_joined (fields : List String) :
    Selection.scopes db (⟨edgeTable, some "e", [.within (.of "e" "id") source.edgeTable]⟩ :: fieldSources fields)
      = (chosenEdges edges notes E fields).map fun z => joined z.1 z.2 := by
  have hids := hasIds_one h.kept
  have hedges : Selection.extend db [] ⟨edgeTable, some "e", [.within (.of "e" "id") source.edgeTable]⟩
      = (edges.filter (·.id ∈ E)).map fun e => joined e [] := by
    have hvisible : db.visible edgeTable "e" = (edges.map Connection.row).map fun row =>
      ⟨"e", Storage.edgeTable.columns, integers row⟩ := h.edges.visible "e"
    rw [Selection.extend, Source.name, Option.getD_some, hvisible, List.map_map, List.map_map, List.filter_map]
    refine congrArg _ (List.filter_congr fun e _ => ?_)
    show [Condition.within (.of "e" "id") source.edgeTable].all (·.holds db (joined e [])) = _
    rw [List.all_cons, List.all_nil, Bool.and_true]
    exact Condition.holds_within_integers ((find?_joined_edge e [] "id").trans (find?_number e _)) hids
  rw [Selection.scopes, List.foldl_cons, List.flatMap_singleton, hedges, foldl_extend, List.flatMap_map, chosenEdges,
    List.map_flatMap]
  refine congrArg (List.flatMap · _) (funext fun e => ?_)
  rw [List.map_map]
  exact foldl_fieldSources h.annotations e [] fields

/-- The least of each class of parallel edges is selected. -/
theorem rows_representatives (hdistinct : (edges.map Connection.id).Nodup) (hsingle : AreSingle notes)
    (fields : List String) : ∃ written : List Int, IsCollapse edges notes fields E written ∧
      (representatives source fields).rows db = .ok ((written.map one).map integers) := by
  obtain ⟨-, hfinds⟩ := finds_representatives fields h.edges.columnsOf h.annotations.columns h.kept.isSome
  obtain ⟨found, hnodup, hmem, hrows⟩ := Selection.rows_join_least Trait.order_cell hfinds (h.scopes_joined fields)
    (List.cons_ne_nil _ _) (f := fun z => traits z.1 z.2) (g := fun z => z.1.id)
    (fun z hz => keyOf_joined (mem_chosenEdges.1 hz).2)
    fun z _ => Scope.cell_of_find? ((find?_joined_edge z.1 z.2 "id").trans (find?_number z.1 _))
  refine ⟨found.map Prod.snd, ⟨?_, fun i => ?_⟩, by rw [representatives, hrows, List.map_map (g := one)]; rfl⟩
  -- An edge stands in one joined row only, so it is not the least of two groups.
  · refine List.Nodup.map_on ?_ (hnodup.of_map _)
    rintro ⟨k, m⟩ hx ⟨k', m'⟩ hx' rfl
    obtain ⟨⟨⟨e, as⟩, hz, rfl, hid⟩, -⟩ := (hmem k m).1 hx
    obtain ⟨⟨⟨e', as'⟩, hz', rfl, hid'⟩, -⟩ := (hmem k' m).1 hx'
    obtain ⟨⟨he, -⟩, has⟩ := mem_chosenEdges.1 hz
    obtain ⟨⟨he', -⟩, has'⟩ := mem_chosenEdges.1 hz'
    obtain rfl := List.inj_on_of_nodup_map hdistinct he he' (hid.trans hid'.symm)
    rw [traits_eq_iff.2 ⟨rfl, rfl, has.value_eq hsingle has'⟩]
  · rw [List.mem_map]
    constructor
    · rintro ⟨⟨k, m⟩, hx, rfl⟩
      obtain ⟨⟨⟨e, as⟩, hz, rfl, rfl⟩, hleast⟩ := (hmem k m).1 hx
      obtain ⟨⟨he, hE⟩, has⟩ := mem_chosenEdges.1 hz
      refine ⟨hE, e, he, rfl, AreFor.exists_iff.1 ⟨as, has⟩, fun e' he' hE' hparallel => ?_⟩
      obtain ⟨as', has', hvalues⟩ := has.exists_of_carries hsingle hparallel.values
      exact hleast (e', as') (mem_chosenEdges.2 ⟨⟨he', hE'⟩, has'⟩)
        (traits_eq_iff.2 ⟨hparallel.src, hparallel.dst, hvalues⟩)
    · rintro ⟨hE, e, he, rfl, hcarries, hleast⟩
      obtain ⟨as, has⟩ := AreFor.exists_iff.2 hcarries
      refine ⟨(traits e as, e.id), (hmem _ _).2 ⟨⟨(e, as), mem_chosenEdges.2 ⟨⟨he, hE⟩, has⟩, rfl, rfl⟩, ?_⟩, rfl⟩
      rintro ⟨e', as'⟩ hz' heq
      obtain ⟨⟨he', hE'⟩, has'⟩ := mem_chosenEdges.1 hz'
      obtain ⟨hsrc, hdst, hvalues⟩ := traits_eq_iff.1 heq
      exact hleast e' he' hE' ⟨hsrc, hdst, has.carries has' hvalues.symm⟩

end Joins

/-! ## Collapsing -/

/-- What collapsing edges reads and writes: what the join reads, a source, and an empty target. -/
structure Collapses (db : Database) (target source : Graph) (edges : List Connection) (notes : List Annotation)
    (V E : List Int) : Prop where
  edges : db.HoldsIntegers edgeTable Storage.edgeTable.columns (edges.map Connection.row)
  annotations : HoldsAnnotations db notes
  source : HoldsGraph db source V E
  target : HoldsGraph db target [] []

theorem sameName_table_annotationTable (g : Graph) (side : Side) :
    sameName (g.table side) Side.edge.annotationTable = false :=
  Graph.sameName_table (by cases side <;> decide)

theorem sameName_sweepNames_annotationTable : ∀ n ∈ sweepNames, sameName n Side.edge.annotationTable = false :=
  fun n hn => sameName_eq_false_of_isLower (isLower_of_mem_sweepNames n hn) (by decide)
    ((show ∀ n ∈ sweepNames, n ≠ Side.edge.annotationTable by decide +kernel) n hn)

namespace Collapses

variable {target source : Graph} {edges : List Connection} {V E : List Int}
  (h : Collapses db target source edges notes V E) (hdistinct : (edges.map Connection.id).Nodup)
  (hsingle : AreSingle notes) (fields : List String)
include h hdistinct hsingle

/-- The vertices are copied, and the least of each class of parallel edges is written. -/
theorem collapse_writes : ∃ (written : List Int) (db' : Database),
    ((Instruction.collapse target source fields).execute Backend.memory).runFrom db = (.ok none, db') ∧
      IsCollapse edges notes fields E written ∧ Written db target V written db' := by
  have hleads : Leads (· = db) [.insertFrom target.vertexTable (.ids source.vertexTable),
      .insertFrom target.edgeTable (representatives source fields)] fun db' => ∃ written : List Int,
        IsCollapse edges notes fields E written ∧ Written db target V written db' := by
    refine .cons (J := fun db' => Joins db' source edges notes E ∧ Written db target V [] db') ?_ (.single ?_)
    · rintro _ rfl
      obtain ⟨db', happly, hvertices, hkeeps⟩ := h.target.vertices.insertFrom (areIntegers_map _) (isOpen_map _)
        (rows_ids h.source.vertices) fun row hrow => by
          obtain ⟨n, -, rfl⟩ := List.mem_map.1 hrow
          rfl
      refine ⟨db', happly, ⟨?_, ?_, ?_⟩, hvertices, ?_, fun name _ hside => hkeeps name (hside .vertex)⟩
      · exact h.edges.congr (hkeeps _ (sameName_table_edgeTable target .vertex))
      · exact h.annotations.congr (hkeeps _ (sameName_table_annotationTable target .vertex))
      · exact h.source.edges.congr (hkeeps _ (sameName_vertexTable_edgeTable target source))
      · exact h.target.edges.congr (hkeeps _ (sameName_vertexTable_edgeTable target target))
    · rintro db' ⟨hjoins, hwritten⟩
      obtain ⟨written, hcollapse, hrows⟩ := hjoins.rows_representatives hdistinct hsingle fields
      obtain ⟨db'', happly, hedges, hkeeps⟩ := hwritten.edges.insertFrom (areIntegers_map _) (isOpen_map _) hrows
        fun row hrow => by
          obtain ⟨n, -, rfl⟩ := List.mem_map.1 hrow
          rfl
      refine ⟨db'', happly, written, hcollapse, hwritten.vertices.congr (hkeeps _ ?_), hedges,
        fun name hname hside => ?_⟩
      · rw [sameName_comm]
        exact sameName_vertexTable_edgeTable target target
      · rw [hkeeps name (hside .edge), hwritten.others name hname hside]
  obtain ⟨db', hrun, written, hcollapse, hwritten⟩ := exists_performed hleads rfl
  refine ⟨written, db', ?_, hcollapse, hwritten⟩
  rw [Instruction.execute, Instruction.execute.silently, collapse, runFrom_bind_ok hrun]
  rfl

end Collapses

/-- Edges between the same vertices, two of them with the same value. -/
def labelled : Document where
  vertices := [⟨1, none, []⟩, ⟨2, none, []⟩]
  edges := [⟨10, 1, 2, [("it's", "a")]⟩, ⟨11, 1, 2, [("it's", "a")]⟩, ⟨12, 1, 2, [("it's", "b")]⟩, ⟨13, 1, 2, []⟩]

def labels : List Annotation := [⟨10, "it's", "a"⟩, ⟨11, "it's", "a"⟩, ⟨12, "it's", "b"⟩]

end Provenance.Algebra

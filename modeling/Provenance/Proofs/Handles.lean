import Mathlib.Data.List.Forall2
import Provenance.Proofs.Following

/-!
# Instructions on other handles

An instruction on some handles follows the same instruction on others, if their tables hold the same.
There is one lemma for each operation of the algebra and one for each traversal; what all of them
have in common is that their requests write to the target and to scratch tables, and read operands,
the base relations, and scratch tables that they made.
-/

namespace Provenance

open Store Action

variable {T : String → String} {W D E : Set String}

/-- The base relations: all known elements and their annotations. -/
def knownTables : List String := Side.all.map Side.baseTable ++ Side.all.map Side.annotationTable

/-- The base relations are known and keep their names. -/
def KeepsKnown (T : String → String) (D : Set String) : Prop :=
  ∀ table ∈ knownTables, HasCopy T D table table

namespace KeepsKnown

theorem mono (h : KeepsKnown T D) (hE : D ⊆ E) : KeepsKnown T E := fun table ht => (h table ht).mono hE

theorem edges (h : KeepsKnown T D) : HasCopy T D Algebra.edgeTable Algebra.edgeTable :=
  h _ (by decide)

theorem annotations (h : KeepsKnown T D) (side : Side) :
    HasCopy T D side.annotationTable side.annotationTable := h _ (by cases side <;> decide)

end KeepsKnown

/-- The tables of a handle have their copies under another handle. -/
def Stands (T : String → String) (D : Set String) (x x' : Graph) : Prop :=
  ∀ side, HasCopy T D (x.table side) (x'.table side)

/-- The tables of a handle may be written to. -/
def Fills (T : String → String) (W D : Set String) (t t' : Graph) : Prop :=
  ∀ side, IsWritten T W D (t.table side) (t'.table side)

variable {t t' x x' y y' z z' : Graph}

theorem Stands.mono (h : Stands T D x x') (hE : D ⊆ E) : Stands T E x x' := fun side => (h side).mono hE

theorem Fills.mono (h : Fills T W D t t') (hE : D ⊆ E) : Fills T W E t t' := fun side => (h side).mono hE

namespace Backend.Tracks

variable {σ τ : Type} {b : Backend σ} {b' : Backend τ} {R : Set String → σ → τ → Prop}
  (h : b.Tracks b' T W R)

/-! ## New tables -/

/-- The tables of a handle that may be written to. -/
structure Renews (T : String → String) (W : Set String) (t t' : Graph) : Prop where
  written : ∀ side, t.table side ∈ W
  same : ∀ side, T (t.table side) = t'.table side

include h

theorem renew (ht : Renews T W t t') (columns : List Column) :
    Follows (R D) (R (insert t.edgeTable (insert t.vertexTable D)))
      (b.performAll [.discard t.vertexTable, .discard t.edgeTable,
        .create false t.vertexTable (.known columns), .create false t.edgeTable (.known columns)])
      (b'.performAll [.discard t'.vertexTable, .discard t'.edgeTable,
        .create false t'.vertexTable (.known columns), .create false t'.edgeTable (.known columns)]) := by
  have hvertex : IsWritten T W (insert t.edgeTable (insert t.vertexTable D)) t.vertexTable
      t'.vertexTable := ⟨⟨.inr (.inl rfl), ht.same .vertex⟩, ht.written .vertex⟩
  have hedge : IsWritten T W (insert t.edgeTable (insert t.vertexTable D)) t.edgeTable t'.edgeTable :=
    ⟨⟨.inl rfl, ht.same .edge⟩, ht.written .edge⟩
  exact h.perform (.discard hvertex.written hvertex.same (.discard hedge.written hedge.same
    (.create hvertex (.create hedge .nil))))

/-! ## Lists of ids -/

theorem fillSides (ht : Fills T W D t t') {select select' : Side → Selection}
    (hselect : ∀ side, (select side).Matches T D (select' side)) :
    Follows (R D) (R D) (Algebra.fillSides b t select) (Algebra.fillSides b' t' select') :=
  h.perform (.insertFrom (ht .vertex) (hselect .vertex) (.insertFrom (ht .edge) (hselect .edge) .nil))

theorem insertIds (ht : Fills T W D t t') (side : Side) (ids : List Int) :
    Follows (R D) (R D) (Algebra.insertIds b t side ids) (Algebra.insertIds b' t' side ids) := by
  unfold Algebra.insertIds
  split
  · exact .pure _
  · exact h.perform (.insertIds (ht side) .nil)

theorem union (ht : Fills T W D t t') (hx : Stands T D x x') :
    Follows (R D) (R D) (Algebra.union b t x) (Algebra.union b' t' x') :=
  h.fillSides ht fun side => .ids (hx side)

theorem intersect (ht : Fills T W D t t') (hx : Stands T D x x') (hy : Stands T D y y') :
    Follows (R D) (R D) (Algebra.intersect b t x y) (Algebra.intersect b' t' x' y') :=
  h.fillSides ht fun side => .idsWhere (hx side) (.cons (.within (hy side) (isShort_plain _)) .nil)

theorem subtract (ht : Fills T W D t t') (hx : Stands T D x x') (hy : Stands T D y y') :
    Follows (R D) (R D) (Algebra.subtract b t x y) (Algebra.subtract b' t' x' y') :=
  h.fillSides ht fun side => .idsWhere (hx side) (.cons (.outside (hy side) (isShort_plain _)) .nil)

theorem distinct (ht : Fills T W D t t') (hx : Stands T D x x') :
    Follows (R D) (R D) (Algebra.distinct b t x) (Algebra.distinct b' t' x') :=
  h.fillSides ht fun side => (Selection.Matches.ids (hx side)).groupedBy _

theorem limit (ht : Fills T W D t t') (hx : Stands T D x x') (bound : Int) :
    Follows (R D) (R D) (Algebra.limit b t x bound) (Algebra.limit b' t' x' bound) := by
  refine .forM fun side _ => (h.count (hx side)).bind fun size => ?_
  split
  · have hids := (Selection.Matches.ids (hx side)).groupedBy ["id"]
    have hfirst : (Algebra.firstIds (x.table side) bound).Matches T D
        (Algebra.firstIds (x'.table side) bound) := by
      refine ⟨⟨hids.short.output, hids.short.sources, hids.short.groupBy, ?_⟩, hids.known, ?_⟩
      · simp [Algebra.firstIds]
      · rw [Algebra.firstIds, Algebra.firstIds, ← hids.same]; rfl
    exact h.perform (.insertFrom (ht side) hfirst .nil)
  · exact .pure _

/-! ## Edges -/

omit h in
/-- The name of a joined annotation is short. -/
theorem isShort_collapsedName (i : Nat) : IsShort (Algebra.collapsedName i) := by
  simp only [IsShort, Algebra.collapsedName, Text.natural, String.toList_append,
    String.toList_ofList, List.mem_append, not_or]
  refine ⟨by decide, fun h => ?_⟩
  have hdigit := Nat.isDigit_of_mem_toDigits (by decide) (by decide) h
  simp at hdigit

section Edges

variable (hknown : KeepsKnown T D)

include hknown

omit h in
theorem fieldSources_matches (fields : List String) :
    List.Forall₂ (Source.Matches T D) (Algebra.fieldSources fields) (Algebra.fieldSources fields) := by
  have he : IsShort "e" := by decide
  refine List.forall₂_same.2 fun s hs => ?_
  obtain ⟨⟨field, i⟩, -, rfl⟩ := List.mem_map.1 hs
  have hname := isShort_collapsedName i
  refine .renamed (hknown.annotations .edge) hname (.cons (.plain ?_ rfl) (.cons (.plain ?_ rfl) .nil))
  · simp [Condition.IsShort, Condition.mentions, he, hname]
  · simp [Condition.IsShort, Condition.mentions, hname]

omit h in
theorem representatives_matches (hx : Stands T D x x') (fields : List String) :
    (Algebra.representatives x fields).Matches T D (Algebra.representatives x' fields) := by
  have he : IsShort "e" := by decide
  refine .grouped (.join ?_ (.cons (.renamed hknown.edges he
    (.cons (.within (hx .edge) ((isShort_of _ _).2 he)) .nil)) (fieldSources_matches hknown fields))) ?_
  · simp [Term.mentions, he]
  · intro ref href
    obtain href | href := List.mem_append.1 href
    · simp only [List.mem_cons, List.not_mem_nil, or_false] at href
      obtain rfl | rfl := href <;> simp [he]
    · obtain ⟨⟨field, i⟩, -, rfl⟩ := List.mem_map.1 href
      simpa using isShort_collapsedName i

theorem collapse (ht : Fills T W D t t') (hx : Stands T D x x') (fields : List String) :
    Follows (R D) (R D) (Algebra.collapse b t x fields) (Algebra.collapse b' t' x' fields) :=
  h.perform (.insertFrom (ht .vertex) (.ids (hx .vertex))
    (.insertFrom (ht .edge) (representatives_matches hknown hx fields) .nil))

theorem endpoints (ht : Fills T W D t t') (hx : Stands T D x x') (which : Endpoint) :
    Follows (R D) (R D) (Algebra.endpoints b t x which) (Algebra.endpoints b' t' x' which) := by
  refine h.within (h.inScratch.createIntegers_bind (by decide) fun E hE hanswer =>
    .bind (.forM fun column _ => ?_) fun _ => ?_)
  · refine h.inScratch.perform (.insertFrom hanswer (.columns [column] (hknown.mono hE).edges
      (.cons (.within (hx.mono hE .edge) (isShort_plain _)) .nil)) .nil)
  · exact h.inScratch.perform (.insertFrom (ht.mono hE .vertex)
      ((Selection.Matches.ids hanswer.toHasCopy).groupedBy _) .nil)

omit h in
theorem touched_matches (hx : Stands T D x x') (hy : Stands T D y y') (column : String) :
    (Algebra.touched column x y).Matches T D (Algebra.touched column x' y') :=
  .columns [column] hknown.edges (.cons (.within (hy .edge) (isShort_plain _))
    (.cons (.within (hx .vertex) (isShort_plain _)) .nil))

theorem subgraph (ht : Fills T W D t t') (hx : Stands T D x x') (hy : Stands T D y y') :
    Follows (R D) (R D) (Algebra.subgraph b t x y) (Algebra.subgraph b' t' x' y') := by
  refine h.within (h.inScratch.createIntegers_bind (by decide) fun E hE hanswer => ?_)
  have hknown := hknown.mono hE
  have ht := ht.mono hE
  have hx := hx.mono hE
  have hy := hy.mono hE
  refine .bind (h.inScratch.perform (.insertFrom hanswer (.idsWhere (hy .vertex)
      (.cons (.within (hx .vertex) (isShort_plain _)) .nil))
    (.insertFrom hanswer (touched_matches hknown hx hy "src")
    (.insertFrom hanswer (touched_matches hknown hx hy "dst")
    (.insertFrom (ht .vertex) ((Selection.Matches.ids hanswer.toHasCopy).groupedBy _) .nil))))) fun _ => ?_
  have hs : IsShort "s" := by decide
  have he : IsShort "e" := by decide
  refine h.inScratch.perform (.insertFrom (ht .edge) (.grouped (.join ?_
    (.cons (.renamed (hx .edge) hs .nil) (.cons (.renamed hknown.edges he
      (.cons (.plain ?_ rfl) (.cons (.within hanswer.toHasCopy ((isShort_of _ _).2 he))
        (.cons (.within hanswer.toHasCopy ((isShort_of _ _).2 he)) .nil)))) .nil))) ?_) .nil)
  · simp [Term.mentions, hs]
  · simp [Condition.IsShort, Condition.mentions, hs, he]
  · simp [hs]

end Edges

/-! ## Metadata -/

theorem setMetadata {t t' : Metadata} (ht : Fills T W D ⟨t.name⟩ ⟨t'.name⟩) (hx : Stands T D x x')
    (coverage : Coverage) (name value : String) :
    Follows (R D) (R D) (Algebra.setMetadata b t coverage x name value)
      (Algebra.setMetadata b' t' coverage x' name value) := by
  refine .forM fun side _ => h.perform (.insertFrom (ht side) (.groupedBy (.join ?_
    (.cons (.plain (hx side) .nil) .nil)) _) .nil)
  simp [Term.mentions]

omit h in
theorem unmatchedValues_matches {left left' right right' : String} (hl : HasCopy T D left left')
    (hr : HasCopy T D right right') : (Algebra.unmatchedValues left right).Matches T D
      (Algebra.unmatchedValues left' right') := by
  have hlr : IsShort "l" ∧ IsShort "r" := by decide
  refine .join ?_ (.cons (.renamed hl hlr.1 (.cons (.unmatched hr ?_) .nil)) .nil)
  · simp [Term.mentions]
  · simp [Condition.IsShort, Condition.mentions, hlr]

theorem overwriteMetadata {t t' l l' r r' : Metadata} (ht : Fills T W D ⟨t.name⟩ ⟨t'.name⟩)
    (hl : Stands T D ⟨l.name⟩ ⟨l'.name⟩) (hr : Stands T D ⟨r.name⟩ ⟨r'.name⟩) :
    Follows (R D) (R D) (Algebra.overwriteMetadata b t l r) (Algebra.overwriteMetadata b' t' l' r') :=
  h.perform (.insertFrom (ht .vertex) (unmatchedValues_matches (hl .vertex) (hr .vertex))
    (.insertFrom (ht .vertex) (.columns _ (hr .vertex) .nil)
    (.insertFrom (ht .edge) (unmatchedValues_matches (hl .edge) (hr .edge))
    (.insertFrom (ht .edge) (.columns _ (hr .edge) .nil) .nil))))

/-! ## Reading -/

theorem stat (hx : Stands T D x x') : Follows (R D) (R D) (Algebra.stat b x) (Algebra.stat b' x') :=
  (h.count (hx .vertex)).bind fun _ => (h.count (hx .edge)).bind fun _ => .pure _

omit h in
theorem cellAt {R : σ → τ → Prop} (row : List String) (index : Nat) :
    Follows R R (Algebra.cellAt row index : Action σ BackendError String) (Algebra.cellAt row index) := by
  unfold Algebra.cellAt
  split
  · exact .pure _
  · exact .throw _

omit h in
theorem idAt {R : σ → τ → Prop} (row : List String) (index : Nat) :
    Follows R R (Algebra.idAt row index : Action σ BackendError Int) (Algebra.idAt row index) := by
  refine (cellAt row index).bind fun cell => ?_
  split
  · exact .pure _
  · exact .throw _

omit h in
theorem annotate {R : σ → τ → Prop} {α : Type} (put : String → String → α → α)
    (elements : OrderedMap Int α) (rows : List (List String)) :
    Follows R R (Algebra.annotate put elements rows : Action σ BackendError _)
      (Algebra.annotate put elements rows) := by
  induction rows generalizing elements with
  | nil => exact .pure _
  | cons row rows ih =>
    refine (idAt row 0).bind fun id => ?_
    split
    · exact ih _
    · exact (cellAt row 1).bind fun _ => (cellAt row 2).bind fun _ => ih _

omit h in
theorem annotationsOf_matches (hknown : KeepsKnown T D) {side : Side} {table copy : String}
    (ht : HasCopy T D table copy) :
    (Algebra.annotationsOf side table).Matches T D (Algebra.annotationsOf side copy) :=
  .columns _ (hknown.annotations side) (.cons (.within ht (isShort_plain _)) .nil)

theorem exportVertices (hknown : KeepsKnown T D) (hx : Stands T D x x') :
    Follows (R D) (R D) (Algebra.exportVertices b x) (Algebra.exportVertices b' x') := by
  have hids := Selection.Matches.ids (hx .vertex)
  have hlisted : Selection.Matches T D { Selection.ids x.vertexTable with distinct := true }
      { Selection.ids x'.vertexTable with distinct := true } :=
    ⟨⟨hids.short.output, hids.short.sources, hids.short.groupBy, hids.short.orderBy⟩, hids.known,
      congrArg (fun q => { q with distinct := true }) hids.same⟩
  exact (h.select hlisted).bind fun _ =>
    (Follows.foldlM (fun _ row => (idAt row 0).bind fun _ => .pure _) _).bind fun _ =>
      (h.select (annotationsOf_matches hknown (hx .vertex))).bind fun _ =>
        (annotate _ _ _).bind fun _ => .pure _

theorem exportEdges (hknown : KeepsKnown T D) (hx : Stands T D x x') :
    Follows (R D) (R D) (Algebra.exportEdges b x) (Algebra.exportEdges b' x') :=
  (h.select (.columns _ hknown.edges (.cons (.within (hx .edge) (isShort_plain _)) .nil))).bind fun _ =>
    (Follows.foldlM (fun _ row => (idAt row 0).bind fun _ => (idAt row 1).bind fun _ =>
      (idAt row 2).bind fun _ => .pure _) _).bind fun _ =>
        (h.select (annotationsOf_matches hknown (hx .edge))).bind fun _ =>
          (annotate _ _ _).bind fun _ => .pure _

/-- What follows once the size is known. -/
theorem exportSized (hknown : KeepsKnown T D) (hx : Stands T D x x') (format : ExportFormat)
    (file : Option String) (size : Int) :
    Follows (R D) (R D)
      (if Algebra.exportLimit < size then pure (Answer.text (Algebra.advice format size))
        else do
          let graph ← Algebra.exportedGraph b x
          match format with
          | .plain => pure (.graph graph)
          | .dot => pure (.exported format (file.getD "") graph))
      (if Algebra.exportLimit < size then pure (Answer.text (Algebra.advice format size))
        else do
          let graph ← Algebra.exportedGraph b' x'
          match format with
          | .plain => pure (.graph graph)
          | .dot => pure (.exported format (file.getD "") graph)) := by
  split
  · exact .pure _
  · refine .bind ((h.exportVertices hknown hx).bind fun _ => (h.exportEdges hknown hx).bind fun _ =>
      .pure _) fun graph => ?_
    cases format <;> exact .pure _

theorem exportGraph (hknown : KeepsKnown T D) (hx : Stands T D x x') (format : ExportFormat)
    (force : Bool) (file : Option String) :
    Follows (R D) (R D) (Algebra.exportGraph b x format force file)
      (Algebra.exportGraph b' x' format force file) := by
  unfold Algebra.exportGraph
  cases force with
  | true => exact .bind (.pure _) (h.exportSized hknown hx format file)
  | false => exact (h.count (hx .vertex)).bind (h.exportSized hknown hx format file)

end Backend.Tracks

end Provenance

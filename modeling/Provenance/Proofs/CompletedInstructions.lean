import Mathlib.Algebra.Group.Int.Defs
import Provenance.Proofs.WorkingStatements

/-!
# Instructions that succeed

On a database that has the tables of its operands, each instruction succeeds, unless it counts more
rows than a word can tell, and the tables are there afterwards.
-/

namespace Provenance

open Store Action

variable {σ : Type} {b : Backend σ} {I : Schema → σ → Prop} {S : Schema}

namespace Backend.Serves

open Guards (Tidy)

variable (h : b.Serves I)
include h

/-! ## Graphs as lists of ids -/

section Sets

variable {target x y : Graph} (ht : S.HasGraph target) (hx : S.HasGraph x) (hy : S.HasGraph y)

theorem fillSides {select : Side → Selection}
    (hselect : ∀ side, Statement.Works S (.insertFrom (target.table side) (select side))) :
    Ends TooMany (I S) (Algebra.fillSides b target select) fun _ => I S :=
  h.performAll <| by
    simp only [List.forall_mem_map]
    exact fun side _ => hselect side

include ht hx

theorem union : Ends TooMany (I S) (Algebra.union b target x) fun _ => I S :=
  h.fillSides fun side => works_ids ["id"] [] (ht side) (hx side)
    (by decide) (by decide)

theorem distinct : Ends TooMany (I S) (Algebra.distinct b target x) fun _ => I S :=
  h.fillSides fun side => works_ids ["id"] _ (ht side) (hx side) (by decide)
    (by decide)

include hy

theorem intersect : Ends TooMany (I S) (Algebra.intersect b target x y) fun _ => I S :=
  h.fillSides fun side => works_integers _ _ [] (ht side) (hx side)
    (areIntegers_map _) (by decide) rfl (by decide) fun _ hdb => by
      simpa using (fits_membership _ (hy side) (by decide) hdb).1

theorem subtract : Ends TooMany (I S) (Algebra.subtract b target x y) fun _ => I S :=
  h.fillSides fun side => works_integers _ _ [] (ht side) (hx side)
    (areIntegers_map _) (by decide) rfl (by decide) fun _ hdb => by
      simpa using (fits_membership _ (hy side) (by decide) hdb).2

omit hy

theorem limit (bound : Int) : Ends TooMany (I S) (Algebra.limit b target x bound) fun _ => I S := by
  refine .forM fun side _ => (h.count (hx side)).bind fun size => ?_
  split
  · refine h.performOne (.insertFrom (ht side) (by decide) fun db hdb => ?_)
    have hgives : ((Selection.columns ["id"] (x.table side) []).groupedBy ["id"]).Gives db graphColumns :=
      Selection.gives_integers _ _ (hdb _ _ (hx side)) (areIntegers_map _) (by decide) rfl (by decide)
        (by simp)
    exact ⟨hgives.sources, hgives.conditions, hgives.groupBy, hgives.groupBy, hgives.terms⟩
  · exact .pure fun _ hs => hs

omit hx

theorem insertIds (side : Side) {ids : List Int} (hids : ∀ n ∈ ids, Text.isWord n = true) :
    Ends TooMany (I S) (Algebra.insertIds b target side ids) fun _ => I S := by
  rw [Algebra.insertIds]
  split
  · exact .pure fun _ hs => hs
  · exact h.performOne (.insertIds (ht side) hids)

end Sets

/-! ## Edges -/

section Edges

variable {target subject other : Graph} (hS : S.IsGround) (ht : S.HasGraph target)
  (hsubject : S.HasGraph subject)
include hS ht hsubject

theorem collapse (fields : List String) :
    Ends TooMany (I S) (Algebra.collapse b target subject fields) fun _ => I S :=
  h.performAll <| by
    simp only [List.forall_mem_cons, List.not_mem_nil, false_implies, implies_true, and_true]
    exact ⟨works_ids ["id"] [] (ht .vertex) (hsubject .vertex) (by decide)
      (by decide), .insertFrom (ht .edge) (by decide) fun db hdb =>
        gives_representatives hS hsubject fields hdb⟩

theorem endpoints (which : Endpoint) :
    Ends TooMany (I S) (Algebra.endpoints b target subject which) fun _ => I S := by
  have hcolumns : Algebra.Endpoint.columns which ⊆ ["src", "dst"] := by cases which <;> decide
  refine h.within hS.apart [(scratchPrefix ++ "answer", ["id"])]
    (h.createIntegers_bind hS.apart (by decide) (by simp) (.bind (.forM fun column hcolumn => ?_)
      fun _ => h.scratch.performOne ?_))
  · exact h.scratch.performOne (works_edges ["id"] [column] [] hS (Schema.plus_of_mem (by simp))
      (by simpa using List.mem_cons_of_mem _ (hcolumns hcolumn)) rfl (by decide)
      fun _ hdb => List.forall_mem_singleton.2
        (fits_membership _ (.inl (hsubject .edge)) (by decide) hdb).1)
  · exact works_ids ["id"] _ (.inl (ht .vertex)) (Schema.plus_of_mem (by simp)) (by decide)
      (by decide)

variable (hother : S.HasGraph other)
include hother

theorem subgraph : Ends TooMany (I S) (Algebra.subgraph b target subject other) fun _ => I S := by
  refine h.within hS.apart [(scratchPrefix ++ "answer", ["id"])]
    (h.createIntegers_bind hS.apart (by decide) (by simp) (.bind (h.scratch.performAll ?_)
      fun _ => h.scratch.performOne ?_))
  · have hanswer : S.plus [(scratchPrefix ++ "answer", ["id"])] (scratchPrefix ++ "answer")
        graphColumns := Schema.plus_of_mem (by simp)
    have htouched : ∀ column ∈ ["src", "dst"], Statement.Works
        (S.plus [(scratchPrefix ++ "answer", ["id"])]) (.insertFrom (scratchPrefix ++ "answer")
          (Algebra.touched column subject other)) := fun column hcolumn =>
      works_edges ["id"] [column] [] hS hanswer
        (by simpa using List.mem_cons_of_mem _ hcolumn) rfl (by decide) fun _ hdb =>
          List.forall_mem_cons.2 ⟨(fits_membership _ (.inl (hother .edge)) (by decide) hdb).1,
            List.forall_mem_singleton.2 (fits_membership _ (.inl (hsubject .vertex))
              (List.mem_cons_of_mem _ hcolumn) hdb).1⟩
    simp only [List.forall_mem_cons, List.not_mem_nil, false_implies, implies_true, and_true]
    refine ⟨?_, htouched "src" (by decide), htouched "dst" (by decide), ?_⟩
    · exact works_integers ["id"] _ [] hanswer (.inl (hother .vertex))
        (areIntegers_map _) (by decide) rfl (by decide) fun _ hdb =>
          List.forall_mem_singleton.2 (fits_membership _ (.inl (hsubject .vertex)) (by decide) hdb).1
    · exact works_ids ["id"] _ (.inl (ht .vertex)) hanswer (by decide) (by decide)
  · exact .insertFrom (.inl (ht .edge)) (by decide) fun db hdb =>
      gives_between hS hsubject (Schema.plus_of_mem (by simp)) hdb

end Edges

/-! ## Metadata -/

section Metadata

variable {target x y : Metadata} (ht : S.HasMetadata target)
include ht

theorem setMetadata {source : Graph} (hsource : S.HasGraph source) (coverage : Coverage)
    (name value : String) :
    Ends TooMany (I S) (Algebra.setMetadata b target coverage source name value) fun _ => I S :=
  .forM fun side _ => h.performOne (.insertFrom (ht side) (by decide) fun _ hdb =>
    gives_namedIds (hdb _ _ (hsource side)) name value)

variable (hx : S.HasMetadata x) (hy : S.HasMetadata y)
include hx hy

theorem overwriteMetadata : Ends TooMany (I S) (Algebra.overwriteMetadata b target x y) fun _ => I S := by
  refine h.lines fun s hs => ?_
  obtain ⟨side, -, hs⟩ := List.mem_flatMap.1 hs
  obtain rfl | rfl : s = _ ∨ s = _ := by simpa using hs
  · exact .insertFrom (ht side) (by decide) fun _ hdb =>
      gives_unmatchedValues (hdb _ _ (hx side)) (hdb _ _ (hy side))
  · exact .insertFrom (ht side) (by decide) fun _ hdb => gives_allValues (hdb _ _ (hy side))

end Metadata

/-! ## Sweeps -/

/-- A sweep succeeds if each of its rounds, of which the numbers are words, does. -/
theorem sweep {round : Int → List Statement} {frontier : String} {columns : List Column}
    (hfrontier : S frontier columns)
    (hround : ∀ hop, Text.isWord hop = true → ∀ s ∈ round hop, s.Works S) (rounds : Nat) {hop : Int}
    (hhop : 0 ≤ hop) (hlast : hop + rounds ≤ 2 ^ 63) :
    Ends TooMany (I S) (Traversal.sweep b round frontier rounds hop) fun _ => I S := by
  induction rounds generalizing hop with
  | zero => exact .pure fun _ hs => hs
  | succ rounds ih =>
    have hword : Text.isWord hop = true := by
      rw [Text.isWord, Bool.and_eq_true, decide_eq_true_eq, decide_eq_true_eq]
      omega
    refine (h.performAll (hround hop hword)).bind fun _ => (h.count hfrontier).bind fun size => ?_
    split
    · exact .pure fun _ hs => hs
    · exact ih (by omega) (by push_cast at hlast ⊢; omega)

omit h in
/-- As many rounds as a word says have words for numbers. -/
theorem rounds_le {depth : Int} (h : Text.isWord depth = true) : 1 + (depth.toNat : Int) ≤ 2 ^ 63 := by
  rw [Text.isWord, Bool.and_eq_true, decide_eq_true_eq, decide_eq_true_eq] at h
  omega

section Traversals

variable {target subject start source destination : Graph} (hS : S.IsGround) (ht : S.HasGraph target)
  (hsubject : S.HasGraph subject)
include hS ht hsubject

theorem lineage (hstart : S.HasGraph start) {depth : Int} (hdepth : Text.isWord depth = true)
    (direction : Direction) :
    Ends TooMany (I S) (Traversal.lineage b target subject start depth direction) fun _ => I S := by
  refine h.within hS.apart [] (.forM fun one _ => ?_)
  have hends : (Traversal.walkingEnds one).1 ∈ ["id", "src", "dst"] ∧
      (Traversal.walkingEnds one).2 ∈ ["id", "src", "dst"] := by cases one <;> decide
  simp only [Traversal.expand, bind_assoc, pure_bind]
  refine h.createIntegers_bind hS.apart (by decide) (by simp) <|
    h.createIntegers_bind hS.apart (by decide) (by decide) <|
    h.createIntegers_bind hS.apart (by decide) (by decide) <|
    h.createIntegers_bind hS.apart (by decide) (by decide) ?_
  generalize hscratch : [(scratchPrefix ++ "answer_edge", ["id"]), (scratchPrefix ++ "answer", ["id"]),
    (scratchPrefix ++ "next", ["id"]), (scratchPrefix ++ "cur", ["id"])] = scratch
  have hcrossed : S.plus scratch (scratchPrefix ++ "answer_edge") graphColumns :=
    Schema.plus_of_mem (by simp [← hscratch])
  have hreached : S.plus scratch (scratchPrefix ++ "answer") graphColumns :=
    Schema.plus_of_mem (by simp [← hscratch])
  have hnext : S.plus scratch (scratchPrefix ++ "next") graphColumns :=
    Schema.plus_of_mem (by simp [← hscratch])
  have hfrontier : S.plus scratch (scratchPrefix ++ "cur") graphColumns :=
    Schema.plus_of_mem (by simp [← hscratch])
  refine (h.scratch.performAll ?_).bind fun _ => (h.scratch.sweep hfrontier (fun hop _ => ?_) _
    (by decide) ?_).bind fun _ => (h.scratch.performAll ?_).mono (fun _ hs => hs) fun _ _ hs =>
      ⟨hs.1, h.mono (Schema.plus_mono (List.nil_subset _)) _ hs.2⟩
  · simp only [List.forall_mem_cons, List.not_mem_nil, false_implies, implies_true, and_true]
    exact ⟨works_ids ["id"] [] hfrontier (.inl (hstart .vertex))
        (by decide) (by decide),
      works_ids ["id"] [] hreached hfrontier (by decide) (by decide)⟩
  · simp only [List.forall_mem_append, List.forall_mem_cons, List.not_mem_nil, false_implies,
      implies_true, and_true]
    exact ⟨⟨.clear hnext, works_neighbours (t := ⟨_, _, _⟩) hS hsubject hfrontier hnext hends.1 hends.2,
      works_edges ["id"] ["id"] [] hS hcrossed (by decide) rfl
        (by decide) fun _ hdb => fits_ends hsubject hends.1 hfrontier hdb⟩,
      works_advance (t := ⟨_, _, _⟩) hfrontier hnext hreached⟩
  · exact (by omega : (0 : Int) + _ ≤ 1 + _).trans (rounds_le hdepth)
  · simp only [List.forall_mem_cons, List.not_mem_nil, false_implies, implies_true, and_true]
    exact ⟨works_ids ["id"] [] (.inl (ht .vertex)) hreached (by decide)
        (by decide),
      works_ids ["id"] _ (.inl (ht .edge)) hcrossed (by decide) (by decide)⟩

omit hS ht hsubject in
theorem restart (hsource : S.HasGraph source) {scratch : List (String × List String)}
    {t : Traversal.Tables} (hfrontier : S.plus scratch t.frontier graphColumns)
    (hreached : S.plus scratch t.reached graphColumns) :
    Ends TooMany (Tidy (I (S.plus scratch))) (Traversal.restart (b.along Scratch.storeLens) t source)
      fun _ => Tidy (I (S.plus scratch)) :=
  h.scratch.performAll <| by
    simp only [List.forall_mem_cons, List.not_mem_nil, false_implies, implies_true, and_true]
    exact ⟨.clear hfrontier, works_idsWhere ["id"] hfrontier (.inl (hsource .vertex))
      (by decide) hreached (.inl rfl), .clear hreached,
      works_ids ["id"] [] hreached hfrontier (by decide) (by decide)⟩

theorem writeInduced {scratch : List (String × List String)} {reached : String}
    (hreached : S.plus scratch reached graphColumns) :
    Ends TooMany (Tidy (I (S.plus scratch)))
      (Traversal.writeInduced (b.along Scratch.storeLens) target subject reached)
      fun _ => Tidy (I (S.plus scratch)) :=
  h.scratch.performAll <| by
    simp only [List.forall_mem_cons, List.not_mem_nil, false_implies, implies_true, and_true]
    exact ⟨works_ids ["id"] [] (.inl (ht .vertex)) hreached (by decide)
      (by decide), works_edges ["id"] ["id"] [] hS
        (.inl (ht .edge)) (by decide) rfl (by decide) fun _ hdb => List.forall_mem_cons.2
          ⟨(fits_membership _ hreached (by decide) hdb).1,
            fits_ends hsubject (by decide) hreached hdb⟩⟩

variable (hsource : S.HasGraph source) (hdestination : S.HasGraph destination) {maxDepth : Int}
  (hdepth : Text.isWord maxDepth = true)
include hsource hdestination hdepth

theorem path : Ends TooMany (I S) (Traversal.path b target subject source destination maxDepth)
    fun _ => I S := by
  let scratch : List (String × List String) := [(scratchPrefix ++ "sgconn", ["src", "dst", "depth"]),
    (scratchPrefix ++ "answer", ["id"]), (scratchPrefix ++ "next", ["id"]),
    (scratchPrefix ++ "cur", ["id"])]
  refine h.within hS.apart scratch <|
    h.createIntegers_bind hS.apart (by decide) (by simp) <|
    h.createIntegers_bind hS.apart (by decide) (by decide) <|
    h.createIntegers_bind hS.apart (by decide) (by decide) <|
    h.createIntegers_bind hS.apart (by decide) (by decide) ?_
  have hnoted : S.plus scratch (scratchPrefix ++ "sgconn") (["src", "dst", "depth"].map Column.integer) :=
    Schema.plus_of_mem (by simp [scratch])
  have hreached : S.plus scratch (scratchPrefix ++ "answer") graphColumns :=
    Schema.plus_of_mem (by simp [scratch])
  have hnext : S.plus scratch (scratchPrefix ++ "next") graphColumns :=
    Schema.plus_of_mem (by simp [scratch])
  have hfrontier : S.plus scratch (scratchPrefix ++ "cur") graphColumns :=
    Schema.plus_of_mem (by simp [scratch])
  let t : Traversal.Tables :=
    ⟨scratchPrefix ++ "cur", scratchPrefix ++ "next", scratchPrefix ++ "answer"⟩
  refine (h.scratch.performAll ?_).bind fun _ =>
    (h.scratch.sweep hfrontier (fun hop hhop => ?_) _ (by decide) (rounds_le hdepth)).bind fun _ =>
    (h.restart hsource (t := t) hfrontier hreached).bind fun _ =>
    (h.scratch.sweep hfrontier (fun hop _ => works_followRound (t := t) hfrontier hnext hreached hnoted
      maxDepth hop) _ (by decide) ((by omega : (0 : Int) + _ ≤ 1 + _).trans (rounds_le hdepth))).bind
      fun _ => h.writeInduced hS ht hsubject hreached
  · simp only [List.forall_mem_cons, List.not_mem_nil, false_implies, implies_true, and_true]
    exact ⟨works_ids ["id"] [] hfrontier (.inl (hdestination .vertex))
        (by decide) (by decide),
      works_ids ["id"] [] hreached hfrontier (by decide) (by decide)⟩
  · simp only [Traversal.noteRound, List.forall_mem_append, List.forall_mem_cons, List.not_mem_nil,
      false_implies, implies_true, and_true]
    exact ⟨⟨works_noteRound (t := t) hS hsubject hfrontier hnoted hhop, .clear hnext,
      works_neighbours (t := t) hS hsubject hfrontier hnext (by decide) (by decide)⟩,
      works_advance (t := t) hfrontier hnext hreached⟩

omit hdestination in
/-- The second half of a search for shortest paths: from the sources along what was noted. -/
theorem followNearest {scratch : List (String × List String)}
    (hscratch : scratch = [(scratchPrefix ++ "answer", ["id"]),
      (scratchPrefix ++ "sgconn", ["src", "dst", "reaching", "depth"]),
      (scratchPrefix ++ "conn", ["src", "dst"])]) :
    Ends TooMany (Tidy (I (S.plus scratch)))
      (do
        let frontier ← Scratch.createIntegers (b.along Scratch.storeLens) "cur" ["id"]
        let next ← Scratch.createIntegers (b.along Scratch.storeLens) "next" ["id"]
        let t : Traversal.Tables := ⟨frontier, next, scratchPrefix ++ "answer"⟩
        Traversal.restart (b.along Scratch.storeLens) t source
        Traversal.sweep (b.along Scratch.storeLens)
          (Traversal.followNearestRound t (scratchPrefix ++ "sgconn") maxDepth) frontier maxDepth.toNat 0
        Traversal.writeInduced (b.along Scratch.storeLens) target subject (scratchPrefix ++ "answer"))
      fun _ => Tidy (I (S.plus ((scratchPrefix ++ "next", ["id"]) :: (scratchPrefix ++ "cur", ["id"])
        :: scratch))) := by
  subst hscratch
  refine h.createIntegers_bind hS.apart (by decide) (by decide) <|
    h.createIntegers_bind hS.apart (by decide) (by decide) ?_
  generalize hscratch : (scratchPrefix ++ "next", ["id"]) :: _ = scratch
  have hfrontier : S.plus scratch (scratchPrefix ++ "cur") graphColumns :=
    Schema.plus_of_mem (by simp [← hscratch])
  have hnext : S.plus scratch (scratchPrefix ++ "next") graphColumns :=
    Schema.plus_of_mem (by simp [← hscratch])
  have hreached : S.plus scratch (scratchPrefix ++ "answer") graphColumns :=
    Schema.plus_of_mem (by simp [← hscratch])
  have hnoted : S.plus scratch (scratchPrefix ++ "sgconn")
      (["src", "dst", "reaching", "depth"].map Column.integer) :=
    Schema.plus_of_mem (by simp [← hscratch])
  exact (h.restart hsource (t := ⟨_, _, _⟩) hfrontier hreached).bind fun _ =>
    (h.scratch.sweep hfrontier (fun hop _ => works_followNearestRound (t := ⟨_, _, _⟩) hfrontier hnext
      hreached hnoted maxDepth hop) _ (by decide)
      ((by omega : (0 : Int) + _ ≤ 1 + _).trans (rounds_le hdepth))).bind fun _ =>
    h.writeInduced hS ht hsubject hreached

theorem shortestPath :
    Ends TooMany (I S) (Traversal.shortestPath b target subject source destination maxDepth)
      fun _ => I S := by
  refine h.within hS.apart [(scratchPrefix ++ "next", ["id"]), (scratchPrefix ++ "cur", ["id"]),
      (scratchPrefix ++ "answer", ["id"]),
      (scratchPrefix ++ "sgconn", ["src", "dst", "reaching", "depth"]),
      (scratchPrefix ++ "conn", ["src", "dst"])] <|
    h.createIntegers_bind hS.apart (by decide) (by simp) <| .bind (h.scratch.performOne ?_) fun _ =>
    h.createIntegers_bind hS.apart (by decide) (by decide) <|
    h.createIntegers_bind hS.apart (by decide) (by decide) <|
    h.createIntegers_bind hS.apart (by decide) (by decide) <|
    h.createIntegers_bind hS.apart (by decide) (by decide) ?_
  · exact works_edges ["src", "dst"] ["src", "dst"] ["src", "dst"] hS (Schema.plus_of_mem (by simp))
      (by decide) rfl (by decide)
      fun _ hdb => by
        split
        · simp
        · exact List.forall_mem_singleton.2
            (fits_membership _ (.inl (hsubject .edge)) (by decide) hdb).1
  generalize hscratch : (scratchPrefix ++ "answer", ["id"]) :: _ = scratch
  have hfrontier : S.plus scratch (scratchPrefix ++ "cur") (["id", "reaching"].map Column.integer) :=
    Schema.plus_of_mem (by simp [← hscratch])
  have hnext : S.plus scratch (scratchPrefix ++ "next") (["id", "reaching"].map Column.integer) :=
    Schema.plus_of_mem (by simp [← hscratch])
  have hreached : S.plus scratch (scratchPrefix ++ "answer") graphColumns :=
    Schema.plus_of_mem (by simp [← hscratch])
  have hconnected : S.plus scratch (scratchPrefix ++ "conn") (["src", "dst"].map Column.integer) :=
    Schema.plus_of_mem (by simp [← hscratch])
  have hnoted : S.plus scratch (scratchPrefix ++ "sgconn")
      (["src", "dst", "reaching", "depth"].map Column.integer) :=
    Schema.plus_of_mem (by simp [← hscratch])
  refine (h.scratch.performAll ?_).bind fun _ =>
    (h.scratch.sweep hfrontier (fun hop hhop => works_noteReachingRound (t := ⟨_, _, _⟩) hfrontier hnext
      hreached hconnected hnoted hhop) _ (by decide) (rounds_le hdepth)).bind fun _ =>
    (h.followNearest hS ht hsubject hsource hdepth rfl).mono (fun s hs =>
      ⟨hs.1, h.mono (Schema.plus_mono (by simp [← hscratch])) _ hs.2⟩) fun _ _ hs => hs
  simp only [List.forall_mem_cons, List.not_mem_nil, false_implies, implies_true, and_true]
  exact ⟨works_integers ["id", "reaching"] ["id", "id"] []
      hfrontier (.inl (hdestination .vertex)) (areIntegers_map _) (by decide) rfl (by decide)
      fun _ _ => by simp,
    works_ids ["id", "reaching"] _ hreached hfrontier (by decide) (by decide)⟩

end Traversals

/-! ## Reading -/

theorem stat {target : Graph} (ht : S.HasGraph target) :
    Ends TooMany (I S) (Algebra.stat b target) fun _ => I S :=
  (h.count (ht .vertex)).bind fun _ => (h.count (ht .edge)).bind fun _ => .pure fun _ hs => hs

end Backend.Serves

/-- A row that is shown of a table with these columns. -/
def IsShown (columns : List Column) (row : List String) : Prop :=
  ∃ cells, Suits columns cells ∧ row = cells.map Cell.shown

section Rows

variable {columns : List Column} {row : List String} {c : Column} {i : Nat}

theorem IsShown.cell (h : IsShown columns row) (hc : columns[i]? = some c) :
    ∃ cell : Cell, row[i]? = some cell.shown ∧ (c.affinity = .integer → cell.IsWord) := by
  obtain ⟨cells, hsuits, rfl⟩ := h
  obtain ⟨hi, rfl⟩ := List.getElem?_eq_some_iff.1 hc
  have hi' : i < cells.length := hsuits.length_eq ▸ hi
  exact ⟨cells[i], by simp [hi'], hsuits.get hi hi'⟩

theorem cellAt_isShown (h : IsShown columns row) (hc : columns[i]? = some c) :
    ∃ text, (Algebra.cellAt row i : Action σ BackendError String) = pure text := by
  obtain ⟨cell, hcell, -⟩ := h.cell hc
  exact ⟨cell.shown, by rw [Algebra.cellAt, hcell]⟩

theorem idAt_isShown (h : IsShown columns row) (hc : columns[i]? = some c)
    (hinteger : c.affinity = .integer) :
    ∃ n, (Algebra.idAt row i : Action σ BackendError Int) = pure n := by
  obtain ⟨cell, hcell, hword⟩ := h.cell hc
  obtain ⟨n, rfl, hn⟩ := hword hinteger
  refine ⟨n, ?_⟩
  rw [Algebra.idAt, Algebra.cellAt, hcell, pure_bind]
  simp only [Cell.shown, Text.trimmedWord?_decimal hn]

theorem annotate_ends {E : BackendError → Prop} {J : σ → Prop} {α : Type} {side : Side}
    (put : String → String → α → α) (rows : List (List String))
    (hrows : ∀ row ∈ rows, IsShown (Storage.annotationTable side).columns row)
    (elements : OrderedMap Int α) :
    Ends E J (Algebra.annotate put elements rows) fun _ => J := by
  induction rows generalizing elements with
  | nil => exact .pure fun _ hs => hs
  | cons row rows ih =>
    have hrow := hrows row List.mem_cons_self
    obtain ⟨id, hid⟩ := idAt_isShown (σ := σ) (i := 0) hrow rfl rfl
    obtain ⟨key, hkey⟩ := cellAt_isShown (σ := σ) (i := 1) hrow rfl
    obtain ⟨value, hvalue⟩ := cellAt_isShown (σ := σ) (i := 2) hrow rfl
    have hrest := ih fun row hr => hrows row (List.mem_cons_of_mem _ hr)
    rw [Algebra.annotate, hid, pure_bind]
    split
    · exact hrest _
    · rw [hkey, hvalue, pure_bind, pure_bind]
      exact hrest _

end Rows

namespace Backend.Serves

variable (h : b.Serves I)
include h

section Exports

variable {target : Graph} (hS : S.IsGround) (ht : S.HasGraph target)
include hS ht

theorem annotationsOf (side : Side) :
    Ends TooMany (I S) (b.queryRows (.single (.select (Algebra.annotationsOf side (target.table side)))))
      fun rows s => I S s ∧ ∀ row ∈ rows, IsShown (Storage.annotationTable side).columns row :=
  h.queryRows fun _ hdb =>
    Selection.gives_columns _ [] (hdb _ _ (hS.annotations side)) (by cases side <;> decide)
      (by cases side <;> decide)
      (List.forall_mem_singleton.2 (fits_membership _ (ht side) (by cases side <;> decide) hdb).1)
      (.cons (fun _ => Scope.findsInteger_head rfl _ _) (.cons nofun (.cons nofun .nil)))

theorem exportVertices : Ends TooMany (I S) (Algebra.exportVertices b target) fun _ => I S := by
  have hids : Ends TooMany (I S) (b.queryRows (.single (.select
      { Selection.ids target.vertexTable with distinct := true })))
      fun rows s => I S s ∧ ∀ row ∈ rows, IsShown graphColumns row := h.queryRows fun db hdb => by
    have hgives : (Selection.columns ["id"] target.vertexTable []).Gives db graphColumns :=
      Selection.gives_integers _ [] (hdb _ _ (ht .vertex)) (areIntegers_map _) (by decide) rfl
        (by decide) (by simp)
    exact ⟨hgives.sources, hgives.conditions, hgives.groupBy, hgives.orderBy, hgives.terms⟩
  refine hids.bind fun rows => .of_fact fun hrows => (Ends.foldlM (fun m row hrow => ?_) _).bind
    fun found => (h.annotationsOf hS ht .vertex).bind fun rows => .of_fact fun hrows =>
      (annotate_ends _ rows hrows found).bind fun _ => .pure fun _ hs => hs
  obtain ⟨id, hid⟩ := idAt_isShown (σ := σ) (i := 0) (hrows row hrow) rfl rfl
  rw [hid, pure_bind]
  exact .pure fun _ hs => hs

theorem exportEdges : Ends TooMany (I S) (Algebra.exportEdges b target) fun _ => I S := by
  have hedges : Ends TooMany (I S) (b.queryRows (.single (.select
      (.columns ["id", "src", "dst"] Side.edge.baseTable [.within (.plain "id") target.edgeTable]))))
      fun rows s => I S s ∧ ∀ row ∈ rows, IsShown Storage.edgeTable.columns row :=
    h.queryRows fun db hdb => Selection.gives_integers _ [] (hdb _ _ hS.edge)
      areIntegers_edge (by decide) rfl (by decide)
      (List.forall_mem_singleton.2 (fits_membership _ (ht .edge) (by decide) hdb).1)
  refine hedges.bind fun rows => .of_fact fun hrows => (Ends.foldlM (fun m row hrow => ?_) _).bind
    fun found => (h.annotationsOf hS ht .edge).bind fun rows => .of_fact fun hrows =>
      (annotate_ends _ rows hrows found).bind fun _ => .pure fun _ hs => hs
  obtain ⟨id, hid⟩ := idAt_isShown (σ := σ) (i := 0) (hrows row hrow) rfl rfl
  obtain ⟨src, hsrc⟩ := idAt_isShown (σ := σ) (i := 1) (hrows row hrow) rfl rfl
  obtain ⟨dst, hdst⟩ := idAt_isShown (σ := σ) (i := 2) (hrows row hrow) rfl rfl
  rw [hid, hsrc, hdst, pure_bind, pure_bind, pure_bind]
  exact .pure fun _ hs => hs

theorem exportedGraph : Ends TooMany (I S) (Algebra.exportedGraph b target) fun _ => I S :=
  (h.exportVertices hS ht).bind fun _ => (h.exportEdges hS ht).bind fun _ => .pure fun _ hs => hs

/-- What follows once the size is known. -/
theorem exportSized (format : ExportFormat) (file : Option String) (size : Int) :
    Ends TooMany (I S) (if Algebra.exportLimit < size then pure (Answer.text (Algebra.advice format size))
      else do
        let graph ← Algebra.exportedGraph b target
        match format with
        | .plain => pure (.graph graph)
        | .dot => pure (.exported format (file.getD "") graph)) fun _ => I S := by
  split
  · exact .pure fun _ hs => hs
  · refine (h.exportedGraph hS ht).bind fun graph => ?_
    cases format <;> exact .pure fun _ hs => hs

theorem exportGraph (format : ExportFormat) (force : Bool) (file : Option String) :
    Ends TooMany (I S) (Algebra.exportGraph b target format force file) fun _ => I S := by
  unfold Algebra.exportGraph
  cases force with
  | true => exact .bind (.pure fun _ hs => hs) (h.exportSized hS ht format file)
  | false => exact (h.count (ht .vertex)).bind (h.exportSized hS ht format file)

end Exports

end Backend.Serves

end Provenance

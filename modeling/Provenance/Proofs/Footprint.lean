import Provenance.Algebra.Program
import Provenance.Proofs.Names

/-!
# What instructions touch

An instruction adds rows to the two tables of its target, which a creation drops and makes anew, and
uses scratch tables as it likes. It changes no other table. This is said of the requests that it
sends, for any store and any answers: what all these requests preserve is preserved by the
instruction, however it ends.
-/

namespace Provenance

open Store Action

/-- A name of a table that lives inside one instruction. -/
def IsScratch (table : String) : Prop :=
  SymbolTable.beginsWith scratchPrefix table = true ∧ IsLower table

instance (table : String) : Decidable (IsScratch table) :=
  inferInstanceAs (Decidable (_ ∧ _))

/-- The statement reads, uses scratch tables, or adds rows to some of the given tables. -/
def Store.Statement.Fills (targets : String → Prop) : Statement → Prop
  | .create _ table _ => IsScratch table
  | .drop _ table => IsScratch table
  | .insert table _ _ => targets table ∨ IsScratch table
  | .insertFrom table _ => targets table ∨ IsScratch table
  | .delete table _ => IsScratch table
  | .select _ => True
  | _ => False

variable {σ α : Type} {b : Backend σ} {I : σ → Prop} {T : String → Prop}

/-! ## Reading -/

/-- Selections preserve the property. -/
structure Backend.Selects (b : Backend σ) (I : σ → Prop) : Prop where
  execute : ∀ q, Preserves I (b.execute (.single (.select q)))
  queryRows : ∀ q, Preserves I (b.queryRows (.single (.select q)))

namespace Backend.Selects

theorem integer {r : Request} (hr : Preserves I (b.execute r)) :
    Preserves I (b.integer r) := by
  refine hr.bind fun output => ?_
  split
  · exact .pure _
  · exact .throw _

theorem cellAt (row : List String) (index : Nat) :
    Preserves I (Algebra.cellAt row index : Action σ BackendError String) := by
  unfold Algebra.cellAt
  split
  · exact .pure _
  · exact .throw _

theorem idAt (row : List String) (index : Nat) :
    Preserves I (Algebra.idAt row index : Action σ BackendError Int) := by
  refine (cellAt row index).bind fun cell => ?_
  split
  · exact .pure _
  · exact .throw _

theorem annotate {β : Type} (put : String → String → β → β) (elements : OrderedMap Int β)
    (rows : List (List String)) :
    Preserves I (Algebra.annotate put elements rows : Action σ BackendError _) := by
  induction rows generalizing elements with
  | nil => exact .pure _
  | cons row rows ih =>
    refine (idAt row 0).bind fun id => ?_
    split
    · exact ih _
    · exact (cellAt row 1).bind fun _ => (cellAt row 2).bind fun _ => ih _

variable (h : b.Selects I)
include h

theorem count (table : String) : Preserves I (b.count table) := integer (h.execute _)

theorem stat (target : Graph) : Preserves I (Algebra.stat b target) :=
  (h.count _).bind fun _ => (h.count _).bind fun _ => .pure _

theorem exportVertices (target : Graph) : Preserves I (Algebra.exportVertices b target) :=
  (h.queryRows _).bind fun _ =>
    (Preserves.foldlM (fun _ row _ => (idAt row 0).bind fun _ => .pure _) _).bind fun _ =>
      (h.queryRows _).bind fun _ => (annotate _ _ _).bind fun _ => .pure _

theorem exportEdges (target : Graph) : Preserves I (Algebra.exportEdges b target) :=
  (h.queryRows _).bind fun _ =>
    (Preserves.foldlM (fun _ row _ => (idAt row 0).bind fun _ => (idAt row 1).bind fun _ =>
      (idAt row 2).bind fun _ => .pure _) _).bind fun _ =>
        (h.queryRows _).bind fun _ => (annotate _ _ _).bind fun _ => .pure _

/-- What follows once the size is known. -/
theorem exportSized (target : Graph) (format : ExportFormat) (file : Option String) (size : Int) :
    Preserves I (if Algebra.exportLimit < size then pure (Answer.text (Algebra.advice format size))
      else do
        let graph ← Algebra.exportedGraph b target
        match format with
        | .plain => pure (.graph graph)
        | .dot => pure (.exported format (file.getD "") graph)) := by
  split
  · exact .pure _
  · refine .bind ((h.exportVertices target).bind fun _ => (h.exportEdges target).bind fun _ => .pure _)
      fun graph => ?_
    cases format <;> exact .pure _

theorem exportGraph (target : Graph) (format : ExportFormat) (force : Bool) (file : Option String) :
    Preserves I (Algebra.exportGraph b target format force file) := by
  unfold Algebra.exportGraph
  cases force with
  | true => exact .bind (.pure _) (h.exportSized target format file)
  | false => exact (h.count _).bind (h.exportSized target format file)

end Backend.Selects

/-- What the rounds of a sweep and looks at its frontier preserve is preserved by the sweep. -/
theorem Traversal.sweep_preserves {round : Int → List Statement} {frontier : String}
    (hround : ∀ hop, Preserves I (b.performAll (round hop))) (hcount : Preserves I (b.count frontier))
    (rounds : Nat) (hop : Int) : Preserves I (Traversal.sweep b round frontier rounds hop) := by
  induction rounds generalizing hop with
  | zero => exact .pure _
  | succ rounds ih =>
    refine (hround hop).bind fun _ => hcount.bind fun size => ?_
    split
    · exact .pure _
    · exact ih (hop + 1)

/-! ## Requests that fill tables -/

/-- Requests that only fill the given tables preserve the property. -/
structure Backend.Guards (b : Backend σ) (I : σ → Prop) (T : String → Prop) : Prop where
  execute : ∀ closed ss, (∀ s ∈ ss, s.Fills T) → Preserves I (b.execute (.batch closed ss))
  queryRows : ∀ closed ss, (∀ s ∈ ss, s.Fills T) → Preserves I (b.queryRows (.batch closed ss))

namespace Backend.Guards

theorem perform (h : b.Guards I T) {closed : Bool} {ss : List Statement} (hs : ∀ s ∈ ss, s.Fills T) :
    Preserves I (b.perform (.batch closed ss)) :=
  (h.execute closed ss hs).bind fun _ => .pure _

theorem performAll (h : b.Guards I T) {ss : List Statement} (hs : ∀ s ∈ ss, s.Fills T) :
    Preserves I (b.performAll ss) := h.perform hs

theorem performOne (h : b.Guards I T) {s : Statement} (hs : s.Fills T) :
    Preserves I (b.performAll [s]) := h.perform (by simpa using hs)

theorem selects (h : b.Guards I T) : b.Selects I where
  execute q := h.execute false [.select q] (by simp [Statement.Fills])
  queryRows q := h.queryRows false [.select q] (by simp [Statement.Fills])

theorem count (h : b.Guards I T) (table : String) : Preserves I (b.count table) := h.selects.count table

/-- The property of a state with scratch tables: their names are those of scratch tables. -/
def Tidy (I : σ → Prop) (s : Scratch σ) : Prop := (∀ table ∈ s.tables, IsScratch table) ∧ I s.store

theorem scratch (h : b.Guards I T) : (b.along Scratch.storeLens).Guards (Tidy I) T where
  execute closed ss hs := (h.execute closed ss hs).along (fun _ ht => ht.2) fun _ _ hs ht => ⟨ht.1, hs⟩
  queryRows closed ss hs :=
    (h.queryRows closed ss hs).along (fun _ ht => ht.2) fun _ _ hs ht => ⟨ht.1, hs⟩

theorem finish (h : b.Guards I T) : Preserves (Tidy I) (Scratch.finish b) := by
  rintro s ⟨htables, hs⟩
  simp only [Scratch.finish, runFrom_bind, runFrom_get, runFrom_set]
  split
  · exact ⟨fun _ ht => absurd ht List.not_mem_nil, hs⟩
  · refine ⟨fun _ ht => absurd ht List.not_mem_nil, ?_⟩
    refine h.perform (fun statement hst => ?_) s.store hs
    obtain ⟨table, ht, rfl⟩ := List.mem_map.1 hst
    exact htables table ht

/-- Scratch tables come and go without a trace. -/
theorem within (h : b.Guards I T) {body : Backend (Scratch σ) → Action (Scratch σ) BackendError α}
    (hbody : Preserves (Tidy I) (body (b.along Scratch.storeLens))) :
    Preserves I (Scratch.within b body) := by
  intro s hs
  have hafter := hbody (Scratch.start s) ⟨fun _ ht => absurd ht List.not_mem_nil, hs⟩
  simp only [Scratch.within, runFrom_of]
  split
  · next heq =>
    rw [heq] at hafter
    have hfinish := h.finish _ hafter
    split <;> next hf => rw [hf] at hfinish; exact hfinish.2
  · next heq =>
    rw [heq] at hafter
    exact (h.finish _ hafter).2

/-- What comes after a scratch table is created may use its name. -/
theorem create_bind {b : Backend (Scratch σ)} (h : b.Guards (Tidy I) T) {name : String}
    (hname : IsScratch (scratchPrefix ++ name)) {columns : Columns}
    {next : String → Action (Scratch σ) BackendError α}
    (hnext : Preserves (Tidy I) (next (scratchPrefix ++ name))) :
    Preserves (Tidy I) (Scratch.create b name columns >>= next) := by
  simp only [Scratch.create, bind_assoc, pure_bind]
  refine (h.performAll (by simp [Statement.Fills, Statement.discard, hname])).bind fun _ =>
    (Preserves.modify ?_).bind fun _ => hnext
  rintro s ⟨htables, hs⟩
  unfold Scratch.remember
  split
  · exact ⟨htables, hs⟩
  · refine ⟨fun table ht => ?_, hs⟩
    obtain ht | ht := List.mem_append.1 ht
    · exact htables table ht
    · rw [List.mem_singleton.1 ht]; exact hname

theorem createIntegers_bind {b : Backend (Scratch σ)} (h : b.Guards (Tidy I) T) {name : String}
    (hname : IsScratch (scratchPrefix ++ name)) {columns : List String}
    {next : String → Action (Scratch σ) BackendError α}
    (hnext : Preserves (Tidy I) (next (scratchPrefix ++ name))) :
    Preserves (Tidy I) (Scratch.createIntegers b name columns >>= next) :=
  h.create_bind hname hnext

/-! ## Operations -/

section Operations

variable {target : Graph} (h : b.Guards I T) (ht : ∀ side, T (target.table side))

include h ht

theorem fillSides (select : Side → Selection) : Preserves I (Algebra.fillSides b target select) :=
  h.performAll (by simp [Side.all, Statement.Fills, ht])

theorem limit (source : Graph) (bound : Int) : Preserves I (Algebra.limit b target source bound) := by
  refine .forM fun side _ => (h.count _).bind fun size => ?_
  split
  · exact h.performOne (.inl (ht side))
  · exact .pure _

theorem insertIds (side : Side) (ids : List Int) :
    Preserves I (Algebra.insertIds b target side ids) := by
  unfold Algebra.insertIds
  split
  · exact .pure _
  · exact h.performOne (.inl (ht side))

theorem collapse (source : Graph) (fields : List String) :
    Preserves I (Algebra.collapse b target source fields) :=
  h.performAll (by simp [Statement.Fills, Graph.vertexTable, Graph.edgeTable, ht])

theorem endpoints (subject : Graph) (which : Endpoint) :
    Preserves I (Algebra.endpoints b target subject which) := by
  refine h.within (h.scratch.createIntegers_bind (by decide) (.bind (.forM fun column _ => ?_) ?_))
  · exact h.scratch.performOne (.inr (by decide))
  · exact fun _ => h.scratch.performOne (.inl (ht .vertex))

theorem subgraph (subject skeleton : Graph) :
    Preserves I (Algebra.subgraph b target subject skeleton) := by
  have hanswer : IsScratch (scratchPrefix ++ "answer") := by decide
  refine h.within (h.scratch.createIntegers_bind hanswer (.bind ?_ fun _ => ?_))
  · exact h.scratch.performAll (by simp [Statement.Fills, hanswer, Graph.vertexTable, ht])
  · exact h.scratch.performOne (.inl (ht .edge))

omit ht in
theorem setMetadata {target : Metadata} (ht : ∀ side, T (target.table side)) (coverage : Coverage)
    (source : Graph) (name value : String) :
    Preserves I (Algebra.setMetadata b target coverage source name value) :=
  .forM fun side _ => h.performOne (.inl (ht side))

omit ht in
theorem overwriteMetadata {target : Metadata} (ht : ∀ side, T (target.table side))
    (lhs rhs : Metadata) : Preserves I (Algebra.overwriteMetadata b target lhs rhs) :=
  h.perform (by simp [Side.all, Statement.Fills, ht])

end Operations

/-! ## Sweeps -/

theorem sweep (h : b.Guards I T) {round : Int → List Statement}
    (hround : ∀ hop, ∀ s ∈ round hop, s.Fills T) (frontier : String) (rounds : Nat) (hop : Int) :
    Preserves I (Traversal.sweep b round frontier rounds hop) :=
  Traversal.sweep_preserves (fun hop => h.performAll (hround hop)) (h.count frontier) rounds hop

/-- The scratch tables of the traversals. -/
theorem isScratch_traversal : IsScratch (scratchPrefix ++ "cur") ∧ IsScratch (scratchPrefix ++ "next") ∧
    IsScratch (scratchPrefix ++ "answer") ∧ IsScratch (scratchPrefix ++ "answer_edge") ∧
    IsScratch (scratchPrefix ++ "sgconn") ∧ IsScratch (scratchPrefix ++ "conn") := by decide

section Traversals

variable {target : Graph} (h : b.Guards I T) (ht : ∀ side, T (target.table side))

include h ht

theorem lineage (subject start : Graph) (depth : Int) (direction : Direction) :
    Preserves I (Traversal.lineage b target subject start depth direction) := by
  obtain ⟨hcur, hnext, hanswer, hedge, -⟩ := isScratch_traversal
  refine h.within (.forM fun one _ => ?_)
  simp only [Traversal.expand, bind_assoc, pure_bind]
  refine h.scratch.createIntegers_bind hcur (h.scratch.createIntegers_bind hnext
    (h.scratch.createIntegers_bind hanswer (h.scratch.createIntegers_bind hedge
      (.bind ?_ fun _ => .bind (h.scratch.sweep (fun hop => ?_) _ _ _) fun _ => ?_))))
  · exact h.scratch.performAll (by simp [Statement.Fills, hcur, hanswer])
  · simp [Traversal.Tables.advance, Statement.clear, Statement.Fills, hcur, hnext, hanswer, hedge]
  · exact h.scratch.performAll (by simp [Statement.Fills, Graph.vertexTable, Graph.edgeTable, ht])

omit ht in
theorem restart {t : Traversal.Tables} (hf : IsScratch t.frontier) (hr : IsScratch t.reached)
    (source : Graph) : Preserves I (Traversal.restart b t source) :=
  h.performAll (by simp [Statement.clear, Statement.Fills, hf, hr])

theorem writeInduced (subject : Graph) (reached : String) :
    Preserves I (Traversal.writeInduced b target subject reached) :=
  h.performAll (by simp [Statement.Fills, Graph.vertexTable, Graph.edgeTable, ht])

theorem path (subject source destination : Graph) (maxDepth : Int) :
    Preserves I (Traversal.path b target subject source destination maxDepth) := by
  obtain ⟨hcur, hnext, hanswer, -, hnoted, -⟩ := isScratch_traversal
  refine h.within (h.scratch.createIntegers_bind hcur (h.scratch.createIntegers_bind hnext
    (h.scratch.createIntegers_bind hanswer (h.scratch.createIntegers_bind hnoted (.bind ?_ fun _ =>
      .bind (h.scratch.sweep (fun hop => ?_) _ _ _) fun _ =>
        .bind (h.scratch.restart hcur hanswer source) fun _ =>
          .bind (h.scratch.sweep (fun hop => ?_) _ _ _) fun _ =>
            h.scratch.writeInduced ht subject _)))))
  · exact h.scratch.performAll (by simp [Statement.Fills, hcur, hanswer])
  · simp [Traversal.noteRound, Traversal.Tables.advance, Statement.clear, Statement.Fills, hcur, hnext,
      hanswer, hnoted]
  · simp [Traversal.followRound, Traversal.Tables.advance, Statement.clear, Statement.Fills, hcur,
      hnext, hanswer]

theorem shortestPath (subject source destination : Graph) (maxDepth : Int) :
    Preserves I (Traversal.shortestPath b target subject source destination maxDepth) := by
  obtain ⟨hcur, hnext, hanswer, -, hnoted, hconn⟩ := isScratch_traversal
  refine h.within (h.scratch.createIntegers_bind hconn (.bind ?_ fun _ =>
    h.scratch.createIntegers_bind hnoted (h.scratch.createIntegers_bind hcur
      (h.scratch.createIntegers_bind hnext (h.scratch.createIntegers_bind hanswer (.bind ?_ fun _ =>
        .bind (h.scratch.sweep (fun hop => ?_) _ _ _) fun _ =>
          h.scratch.createIntegers_bind hcur (h.scratch.createIntegers_bind hnext
            (.bind (h.scratch.restart hcur hanswer source) fun _ =>
              .bind (h.scratch.sweep (fun hop => ?_) _ _ _) fun _ =>
                h.scratch.writeInduced ht subject _))))))))
  · exact h.scratch.performOne (.inr hconn)
  · exact h.scratch.performAll (by simp [Statement.Fills, hcur, hanswer])
  · simp [Traversal.noteReachingRound, Statement.clear, Statement.Fills, hcur, hnext, hanswer, hnoted]
  · simp [Traversal.followNearestRound, Traversal.Tables.advance, Statement.clear, Statement.Fills,
      hcur, hnext, hanswer]

end Traversals

end Backend.Guards

/-! ## Instructions -/

namespace Instruction

/-- The name under which an instruction writes. -/
def target? : Instruction → Option String
  | createGraph target => some target.name
  | createMetadata target => some target.name
  | union target _ => some target.name
  | intersect target _ _ => some target.name
  | subtract target _ _ => some target.name
  | distinct target _ => some target.name
  | limit target _ _ => some target.name
  | insertVertices target _ => some target.name
  | insertEdges target _ => some target.name
  | collapse target _ _ => some target.name
  | endpoints target _ _ => some target.name
  | subgraph target _ _ => some target.name
  | lineage target _ _ _ _ => some target.name
  | path target _ _ _ _ => some target.name
  | shortestPath target _ _ _ _ => some target.name
  | setMetadata target _ _ _ _ => some target.name
  | overwriteMetadata target _ _ => some target.name
  | stat _ => none
  | exportGraph _ _ _ _ => none
  | native _ => none

/-- The tables that an instruction fills. -/
def Targets (i : Instruction) (table : String) : Prop :=
  ∃ name side, i.target? = some name ∧ table = (⟨name⟩ : Graph).table side

def isNative : Instruction → Bool
  | native _ => true
  | _ => false

/-- The name of the handle that an instruction creates. -/
def creates? : Instruction → Option String
  | createGraph target => some target.name
  | createMetadata target => some target.name
  | _ => none

/-- The requests that make new tables. -/
def creation? : Instruction → Option Request
  | createGraph target => some (.sequence [.discard target.vertexTable, .discard target.edgeTable,
      .createIds target.vertexTable, .createIds target.edgeTable])
  | createMetadata target => some (.sequence [.discard target.vertexTable, .discard target.edgeTable,
      Algebra.createValues target.vertexTable, Algebra.createValues target.edgeTable])
  | _ => none

theorem silently_preserves {a : Action σ BackendError Unit} (h : Preserves I a) :
    Preserves I (execute.silently a) := h.bind fun _ => .pure _

/-- What creations and requests that fill the target preserve is preserved by an instruction. -/
theorem execute_preserves {i : Instruction} (hnative : i.isNative = false)
    (hguards : b.Guards I i.Targets)
    (hcreate : ∀ r, i.creation? = some r → Preserves I (b.execute r)) :
    Preserves I (i.execute b) := by
  have hgraph : ∀ {g : Graph}, i.target? = some g.name → ∀ side, i.Targets (g.table side) :=
    fun h side => ⟨_, side, h, rfl⟩
  have hmetadata : ∀ {m : Metadata}, i.target? = some m.name → ∀ side, i.Targets (m.table side) :=
    fun h side => ⟨_, side, h, rfl⟩
  cases i with
  | createGraph target => exact silently_preserves ((hcreate _ rfl).bind fun _ => .pure _)
  | createMetadata target => exact silently_preserves ((hcreate _ rfl).bind fun _ => .pure _)
  | union target source => exact silently_preserves (hguards.fillSides (hgraph rfl) _)
  | intersect target lhs rhs => exact silently_preserves (hguards.fillSides (hgraph rfl) _)
  | subtract target lhs rhs => exact silently_preserves (hguards.fillSides (hgraph rfl) _)
  | distinct target source => exact silently_preserves (hguards.fillSides (hgraph rfl) _)
  | limit target source bound => exact silently_preserves (hguards.limit (hgraph rfl) _ _)
  | insertVertices target ids => exact silently_preserves (hguards.insertIds (hgraph rfl) _ _)
  | insertEdges target ids => exact silently_preserves (hguards.insertIds (hgraph rfl) _ _)
  | collapse target source fields => exact silently_preserves (hguards.collapse (hgraph rfl) _ _)
  | endpoints target subject which =>
    exact silently_preserves (hguards.endpoints (hgraph rfl) _ _)
  | subgraph target subject skeleton =>
    exact silently_preserves (hguards.subgraph (hgraph rfl) _ _)
  | lineage target subject start depth direction =>
    exact silently_preserves (hguards.lineage (hgraph rfl) _ _ _ _)
  | path target subject source destination maxDepth =>
    exact silently_preserves (hguards.path (hgraph rfl) _ _ _ _)
  | shortestPath target subject source destination maxDepth =>
    exact silently_preserves (hguards.shortestPath (hgraph rfl) _ _ _ _)
  | setMetadata target coverage source name value =>
    exact silently_preserves (hguards.setMetadata (hmetadata rfl) _ _ _ _)
  | overwriteMetadata target lhs rhs =>
    exact silently_preserves (hguards.overwriteMetadata (hmetadata rfl) _ _)
  | stat target => exact (hguards.selects.stat target).map some
  | exportGraph target format force file =>
    exact (hguards.selects.exportGraph target format force file).map some
  | native query => cases hnative

end Instruction

/-! ## Programs -/

/-- What all instructions of a program preserve is preserved by the program. -/
theorem Program.execute_preserves {program : Program}
    (h : ∀ i ∈ program, Preserves I (i.execute b)) :
    Preserves (fun x => I x.store) (program.execute b) := by
  induction program with
  | nil => exact .pure _
  | cons i program ih =>
    refine .bind ?_ fun _ => .bind (.modify fun _ hx => hx) fun _ =>
      ih fun j hj => h j (List.mem_cons_of_mem i hj)
    exact (h i List.mem_cons_self).along (fun _ hx => hx) fun _ _ hs _ => hs

end Provenance

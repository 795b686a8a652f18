import Provenance.Proofs.CompletedInstructions
import Provenance.Proofs.KeptValues

/-!
# Programs whose operands are there

A program is *ready* for some values if each of its instructions only uses these values and handles
that were made before it. A ready program succeeds on a store that has the tables of the values,
unless rows are too many to be counted, and the handles that it makes have their tables afterwards.
-/

namespace Provenance

open Store Action

/-! ## Values and their tables -/

namespace Value

/-- A handle that was made under a number. -/
def IsMade : Value → Prop
  | .graph g => ∃ n, g.name = graphPrefix ++ Text.decimal n
  | .metadata m => ∃ n, m.name = metadataPrefix ++ Text.decimal n
  | _ => False

/-- The base graph, a handle that was made under a number, a word, or any text. -/
def IsProper : Value → Prop
  | .integer n => Text.isWord n = true
  | .text _ => True
  | v => v = .graph .base ∨ v.IsMade

/-- The columns of the tables of a handle. -/
def tableColumns? : Value → Option (List Column)
  | .graph _ => some graphColumns
  | .metadata _ => some metadataColumns
  | _ => none

theorem IsMade.isGenerated {v : Value} (h : v.IsMade) : IsGenerated v.shown := by
  cases v with
  | graph g => obtain ⟨n, hn⟩ := h; exact ⟨n, .inl hn⟩
  | metadata m => obtain ⟨n, hn⟩ := h; exact ⟨n, .inr hn⟩
  | integer n => exact h.elim
  | text s => exact h.elim

theorem IsMade.isProper {v : Value} (h : v.IsMade) : v.IsProper := by
  cases v with
  | graph g => exact .inr h
  | metadata m => exact .inr h
  | integer n => exact h.elim
  | text s => exact h.elim

theorem IsProper.isOwn {v : Value} (h : v.IsProper) (hv : v.IsHandle) : IsOwn v.shown := by
  have : v = .graph .base ∨ v.IsMade := by
    cases v with
    | graph g => exact h
    | metadata m => exact h
    | integer n => simp [IsHandle, kind] at hv
    | text s => simp [IsHandle, kind] at hv
  obtain rfl | hmade := this
  · exact .inl rfl
  · exact .inr hmade.isGenerated

theorem isHandle_of_tableColumns? {v : Value} {columns : List Column} (h : v.tableColumns? = some columns) :
    v.IsHandle := by
  cases v <;> simp_all [tableColumns?, IsHandle, kind]

/-- Different handles with names of their kinds have different names. -/
theorem IsProper.eq_of_shown {v w : Value} (hv : v.IsProper) (hw : w.IsProper) (hvh : v.IsHandle)
    (hwh : w.IsHandle) (h : v.shown = w.shown) : v = w := by
  have hgraph : ∀ {g : Graph}, (Value.graph g).IsProper → g.name.toList.head? = some 't' := by
    rintro g (hg | ⟨n, hn⟩)
    · cases hg; rfl
    · rw [hn]; simp [graphPrefix]
  have hmetadata : ∀ {m : Metadata}, (Value.metadata m).IsProper → m.name.toList.head? = some 'm' := by
    rintro m (hm | ⟨n, hn⟩)
    · cases hm
    · rw [hn]; simp [metadataPrefix]
  cases v with
  | graph g =>
    cases w with
    | graph g' => cases g; cases g'; cases h; rfl
    | metadata m =>
      have := hgraph hv
      rw [show g.name = m.name from h, hmetadata hw] at this
      cases this
    | integer n => exact absurd hwh (by simp [IsHandle, kind])
    | text s => exact absurd hwh (by simp [IsHandle, kind])
  | metadata m =>
    cases w with
    | graph g =>
      have := hmetadata hv
      rw [show m.name = g.name from h, hgraph hw] at this
      cases this
    | metadata m' => cases m; cases m'; cases h; rfl
    | integer n => exact absurd hwh (by simp [IsHandle, kind])
    | text s => exact absurd hwh (by simp [IsHandle, kind])
  | integer n => exact absurd hvh (by simp [IsHandle, kind])
  | text s => exact absurd hvh (by simp [IsHandle, kind])

end Value

/-- The base relations that instructions read, and the tables of some handles. -/
inductive Schema.Of (known : Value → Prop) : Schema
  | edge : Of known Algebra.edgeTable Storage.edgeTable.columns
  | annotations (side : Side) :
    Of known side.annotationTable (Storage.annotationTable side).columns
  | handle {v : Value} {columns : List Column} (h : known v) (hcolumns : v.tableColumns? = some columns)
    (side : Side) : Of known ((⟨v.shown⟩ : Graph).table side) columns

namespace Schema.Of

variable {known known' : Value → Prop}

theorem mono (h : ∀ v, known v → known' v) (name : String) (columns : List Column)
    (hname : Schema.Of known name columns) : Schema.Of known' name columns := by
  cases hname with
  | edge => exact .edge
  | annotations side => exact .annotations side
  | handle hv hcolumns side => exact .handle (h _ hv) hcolumns side

theorem hasGraph {g : Graph} (h : known (.graph g)) : Schema.HasGraph (Schema.Of known) g :=
  fun side => .handle h rfl side

theorem hasMetadata {m : Metadata} (h : known (.metadata m)) :
    Schema.HasMetadata (Schema.Of known) m := fun side => .handle h rfl side

theorem isGround (h : ∀ v, known v → v.IsProper) : Schema.IsGround (Schema.Of known) where
  edge := .edge
  annotations := .annotations
  apart := by
    intro name columns hname table htable
    cases hname with
    | edge =>
      rw [sameName_of_isLower htable.2 (by decide), decide_eq_false_iff_not]
      rintro rfl
      exact absurd htable.1 (by decide)
    | annotations side =>
      rw [sameName_of_isLower htable.2 (by cases side <;> decide), decide_eq_false_iff_not]
      rintro rfl
      exact absurd htable.1 (by cases side <;> decide)
    | handle hv hcolumns side =>
      exact ((h _ hv).isOwn (Value.isHandle_of_tableColumns? hcolumns)).isApart.sameName_scratch
        htable side

end Schema.Of

/-! ## Instructions -/

namespace Instruction

/-- The values that an instruction uses. What it makes is not among them. -/
def uses : Instruction → List Value
  | createGraph _ => []
  | createMetadata _ => []
  | union target source => [.graph target, .graph source]
  | intersect target lhs rhs => [.graph target, .graph lhs, .graph rhs]
  | subtract target minuend subtrahend => [.graph target, .graph minuend, .graph subtrahend]
  | distinct target source => [.graph target, .graph source]
  | limit target source bound => [.graph target, .graph source, .integer bound]
  | insertVertices target ids => .graph target :: ids.map .integer
  | insertEdges target ids => .graph target :: ids.map .integer
  | collapse target source _ => [.graph target, .graph source]
  | endpoints target subject _ => [.graph target, .graph subject]
  | subgraph target subject skeleton => [.graph target, .graph subject, .graph skeleton]
  | lineage target subject start depth _ =>
    [.graph target, .graph subject, .graph start, .integer depth]
  | path target subject source destination maxDepth =>
    [.graph target, .graph subject, .graph source, .graph destination, .integer maxDepth]
  | shortestPath target subject source destination maxDepth =>
    [.graph target, .graph subject, .graph source, .graph destination, .integer maxDepth]
  | setMetadata target _ source _ _ => [.metadata target, .graph source]
  | overwriteMetadata target lhs rhs => [.metadata target, .metadata lhs, .metadata rhs]
  | stat target => [.graph target]
  | exportGraph target _ _ _ => [.graph target]
  | native _ => []

/-- The handle that an instruction makes. -/
def made? : Instruction → Option Value
  | createGraph target => some (.graph target)
  | createMetadata target => some (.metadata target)
  | _ => none

/-- An instruction that sends no text of the user, uses only known values, and makes a handle under
a number if it makes one. -/
structure IsReady (known : Value → Prop) (i : Instruction) : Prop where
  isNative : i.isNative = false
  uses : ∀ v ∈ i.uses, known v
  made : ∀ v ∈ i.made?, v.IsMade

end Instruction

variable {σ : Type} {b : Backend σ} {I : Schema → σ → Prop} {known : Value → Prop}

/-- Tables of a new handle take nothing away from other ones. -/
theorem meets_renewed {v : Value} (hv : v.IsMade) {columns : List Column}
    (hcolumns : v.tableColumns? = some columns) (hknown : ∀ w, known w → w.IsProper) {db : Database}
    (hdb : db.Meets (Schema.Of known)) :
    (renewed db ((⟨v.shown⟩ : Graph).table .vertex) ((⟨v.shown⟩ : Graph).table .edge) columns).Meets
      (Schema.Of fun w => known w ∨ w = v) := by
  have hlower := Graph.isLower_table (g := ⟨v.shown⟩) hv.isGenerated.isLower
  have hother : ∀ {name cs}, db.Has name cs →
      (∀ side, sameName ((⟨v.shown⟩ : Graph).table side) name = false) →
      (renewed db ((⟨v.shown⟩ : Graph).table .vertex) ((⟨v.shown⟩ : Graph).table .edge) columns).Has
        name cs := fun h hne => h.congr (by rw [table?_renewed, hne, hne]; rfl)
  have hbase : ∀ {name : String}, (folded name).head? ≠ some 't' → (folded name).head? ≠ some 'm' →
      ∀ side, sameName ((⟨v.shown⟩ : Graph).table side) name = false := fun ht hm side => by
    refine sameName_eq_false 0 ?_
    rw [← List.head?_eq_getElem?, ← List.head?_eq_getElem?, Graph.table, String.append_assoc]
    obtain hhead | hhead := head?_of_isGenerated hv.isGenerated ("_" ++ side.label) <;> rw [hhead]
    · exact ht.symm
    · exact hm.symm
  intro name cs hname
  cases hname with
  | edge => exact hother (hdb _ _ .edge) (hbase (by decide) (by decide))
  | annotations side =>
    exact hother (hdb _ _ (.annotations side)) (hbase (by cases side <;> decide) (by cases side <;> decide))
  | @handle w cs hw hcs side =>
    by_cases hwv : w = v
    · subst hwv
      obtain rfl : cs = columns := by simpa [hcs] using hcolumns
      refine ⟨newTable ((⟨w.shown⟩ : Graph).table side) cs, ?_, rfl, rfl, by
        simp [newTable, Table.IsTyped]⟩
      rw [table?_renewed]
      cases side with
      | vertex => rw [if_pos (sameName_self _)]
      | edge =>
        rw [if_neg, if_pos (sameName_self _)]
        rw [sameName_of_isLower (hlower .vertex) (hlower .edge), decide_eq_true_eq]
        exact fun heq => absurd (Graph.table_injective heq).2 (by decide)
    · have hw := hw.resolve_right hwv
      have hwh := Value.isHandle_of_tableColumns? hcs
      refine hother (hdb _ _ (.handle hw hcs side)) fun side' => ?_
      rw [sameName_of_isLower (hlower side')
        (Graph.isLower_table (g := ⟨w.shown⟩) ((hknown w hw).isOwn hwh).isLower side),
        decide_eq_false_iff_not]
      intro heq
      exact hwv ((hknown w hw).eq_of_shown hv.isProper hwh
        (Value.isHandle_of_tableColumns? hcolumns)
        (Graph.mk.inj (Graph.table_injective heq).1).symm)

namespace Instruction

/-- A ready instruction succeeds, and what it makes has its tables then. -/
theorem execute_ends (h : b.Serves I) (hknown : ∀ v, known v → v.IsProper) {i : Instruction}
    (hi : i.IsReady known) :
    Ends TooMany (I (Schema.Of known)) (i.execute b) fun _ =>
      I (Schema.Of fun v => known v ∨ i.made? = some v) := by
  have hS := Schema.Of.isGround hknown
  have hgraph : ∀ {g}, .graph g ∈ i.uses → Schema.HasGraph (Schema.Of known) g := fun hg =>
    Schema.Of.hasGraph (hi.uses _ hg)
  have hmetadata : ∀ {m}, .metadata m ∈ i.uses → Schema.HasMetadata (Schema.Of known) m := fun hm =>
    Schema.Of.hasMetadata (hi.uses _ hm)
  have hword : ∀ {n}, .integer n ∈ i.uses → Text.isWord n = true := fun hn =>
    hknown _ (hi.uses _ hn)
  have hcreates : ∀ {v : Value} {columns : List Column}, v.tableColumns? = some columns →
      columns.filter Column.primaryKey = [] → i.made? = some v →
      Ends TooMany (I (Schema.Of known)) (b.perform (renewal ((⟨v.shown⟩ : Graph).table .vertex)
        ((⟨v.shown⟩ : Graph).table .edge) columns)) fun _ =>
        I (Schema.Of fun v => known v ∨ i.made? = some v) := by
    intro v columns hcolumns hkeys hmade
    have hv := hi.made v hmade
    refine h.perform fun db hdb => ⟨_, _, Sustains.run_creation hv.isGenerated hkeys db, ?_⟩
    simpa only [hmade, Option.some.injEq, eq_comm] using meets_renewed hv hcolumns hknown hdb
  have silently : ∀ {a : Action σ BackendError Unit}, i.made? = none →
      Ends TooMany (I (Schema.Of known)) a (fun _ => I (Schema.Of known)) →
      Ends TooMany (I (Schema.Of known)) (execute.silently a) fun _ =>
        I (Schema.Of fun v => known v ∨ i.made? = some v) := fun hmade ha =>
    ha.bind fun _ => .pure (h.mono (Schema.Of.mono fun v hv => hv.resolve_right (by simp [hmade])))
  cases i with
  | createGraph target => exact (hcreates rfl rfl rfl).bind fun _ => .pure fun _ hs => hs
  | createMetadata target => exact (hcreates rfl rfl rfl).bind fun _ => .pure fun _ hs => hs
  | union target source =>
    exact silently rfl (h.union (hgraph (by simp [uses])) (hgraph (by simp [uses])))
  | intersect target lhs rhs =>
    exact silently rfl (h.intersect (hgraph (by simp [uses])) (hgraph (by simp [uses]))
      (hgraph (by simp [uses])))
  | subtract target minuend subtrahend =>
    exact silently rfl (h.subtract (hgraph (by simp [uses])) (hgraph (by simp [uses]))
      (hgraph (by simp [uses])))
  | distinct target source =>
    exact silently rfl (h.distinct (hgraph (by simp [uses])) (hgraph (by simp [uses])))
  | limit target source bound =>
    exact silently rfl (h.limit (hgraph (by simp [uses])) (hgraph (by simp [uses])) bound)
  | insertVertices target ids =>
    exact silently rfl (h.insertIds (hgraph (by simp [uses])) .vertex fun n hn =>
      hword (by simp [uses, hn]))
  | insertEdges target ids =>
    exact silently rfl (h.insertIds (hgraph (by simp [uses])) .edge fun n hn =>
      hword (by simp [uses, hn]))
  | collapse target source fields =>
    exact silently rfl (h.collapse hS (hgraph (by simp [uses])) (hgraph (by simp [uses])) fields)
  | endpoints target subject which =>
    exact silently rfl (h.endpoints hS (hgraph (by simp [uses])) (hgraph (by simp [uses])) which)
  | subgraph target subject skeleton =>
    exact silently rfl (h.subgraph hS (hgraph (by simp [uses])) (hgraph (by simp [uses]))
      (hgraph (by simp [uses])))
  | lineage target subject start depth direction =>
    exact silently rfl (h.lineage hS (hgraph (by simp [uses])) (hgraph (by simp [uses]))
      (hgraph (by simp [uses])) (hword (by simp [uses])) direction)
  | path target subject source destination maxDepth =>
    exact silently rfl (h.path hS (hgraph (by simp [uses])) (hgraph (by simp [uses]))
      (hgraph (by simp [uses])) (hgraph (by simp [uses])) (hword (by simp [uses])))
  | shortestPath target subject source destination maxDepth =>
    exact silently rfl (h.shortestPath hS (hgraph (by simp [uses])) (hgraph (by simp [uses]))
      (hgraph (by simp [uses])) (hgraph (by simp [uses])) (hword (by simp [uses])))
  | setMetadata target coverage source name value =>
    exact silently rfl (h.setMetadata (hmetadata (by simp [uses])) (hgraph (by simp [uses]))
      coverage name value)
  | overwriteMetadata target lhs rhs =>
    exact silently rfl (h.overwriteMetadata (hmetadata (by simp [uses])) (hmetadata (by simp [uses]))
      (hmetadata (by simp [uses])))
  | stat target =>
    exact (h.stat (hgraph (by simp [uses]))).map fun _ =>
      h.mono (Schema.Of.mono fun v hv => hv.resolve_right nofun)
  | exportGraph target format force file =>
    exact (h.exportGraph hS (hgraph (by simp [uses])) format force file).map fun _ =>
      h.mono (Schema.Of.mono fun v hv => hv.resolve_right nofun)
  | native query => exact nomatch hi.isNative

end Instruction

/-! ## Programs -/

namespace Program

/-- The program has an instruction that makes the handle. -/
def Makes (program : Program) (v : Value) : Prop := ∃ i ∈ program, i.made? = some v

/-- Each instruction is ready for what was known before the program or is made before it there. -/
def IsReady (known : Value → Prop) : Program → Prop
  | [] => True
  | i :: rest => i.IsReady known ∧ IsReady (fun v => known v ∨ i.made? = some v) rest

variable {p q : Program}

@[simp] theorem makes_nil (v : Value) : ¬ Makes [] v := by simp [Makes]

@[simp] theorem makes_cons {i : Instruction} {v : Value} :
    Makes (i :: p) v ↔ i.made? = some v ∨ Makes p v := by simp [Makes]

@[simp] theorem makes_append {v : Value} : Makes (p ++ q) v ↔ Makes p v ∨ Makes q v := by
  simp [Makes, or_and_right, exists_or]

theorem isReady_append :
    IsReady known (p ++ q) ↔ IsReady known p ∧ IsReady (fun v => known v ∨ Makes p v) q := by
  induction p generalizing known with
  | nil => simp [IsReady]
  | cons i p ih => simp only [List.cons_append, IsReady, ih, makes_cons, or_assoc, and_assoc]

/-- A ready program succeeds, and what it makes has its tables then. -/
theorem execute_ends (h : b.Serves I) (hknown : ∀ v, known v → v.IsProper) (hp : p.IsReady known) :
    Ends TooMany (fun x => I (Schema.Of known) x.store) (p.execute b) fun _ x =>
      I (Schema.Of fun v => known v ∨ Makes p v) x.store := by
  induction p generalizing known with
  | nil => exact .pure fun x hx => h.mono (Schema.Of.mono fun v hv => hv.resolve_right (by simp)) _ hx
  | cons i rest ih =>
    intro x hx
    rw [runFrom_cons]
    obtain ⟨answer, s, hrun, hs⟩ | ⟨e, s, hrun, he⟩ := i.execute_ends h hknown hp.1 x.store hx
    · rw [hrun]
      simp only [makes_cons, ← or_assoc]
      exact ih (fun v hv => hv.elim (hknown v) fun hv => (hp.1.made v hv).isProper) hp.2 _ hs
    · rw [hrun]
      exact .inr ⟨e, _, rfl, he⟩

end Program

end Provenance

import Provenance.Proofs.Collections
import Provenance.Proofs.Footprint
import Provenance.Proofs.Listings

/-!
# The relations of handles

What the program of a query leaves behind, over a store whose calls may fail. Its instructions write
under new names only. So the relation of the bindings stays as it is, names stay in lower case and
apart, and the tables of a handle stay there: they are dropped only to be made anew, in one request.
-/

namespace Provenance

open Store Database

/-- The name of a handle of the engine: that of the base graph or one made from a number. -/
def IsOwn (name : String) : Prop := name = Graph.base.name ∨ IsGenerated name

theorem IsOwn.isLower {name : String} (h : IsOwn name) : IsLower name :=
  h.elim (by rintro rfl; decide) IsGenerated.isLower

/-- No scratch table can be taken for a table of the name. -/
structure IsApart (name : String) : Prop where
  lower : IsLower name
  not_scratch : ∀ side, SymbolTable.beginsWith scratchPrefix ((⟨name⟩ : Graph).table side) = false

theorem IsOwn.isApart {name : String} (h : IsOwn name) : IsApart name := by
  refine ⟨h.isLower, fun side => ?_⟩
  obtain rfl | h := h
  · cases side <;> decide
  · rw [Graph.table, String.append_assoc]
    exact h.not_scratch _

theorem IsApart.sameName_scratch {name table : String} (h : IsApart name) (ht : IsScratch table)
    (side : Side) : sameName table ((⟨name⟩ : Graph).table side) = false := by
  rw [sameName_of_isLower ht.2 (Graph.isLower_table h.lower side), decide_eq_false_iff_not]
  rintro rfl
  exact absurd ht.1 (by simp [h.not_scratch side])

theorem sameName_scratch_relation {table : String} (ht : IsScratch table) :
    sameName table SymbolTable.relation = false := by
  rw [sameName_of_isLower ht.2 (by decide), decide_eq_false_iff_not]
  rintro rfl
  exact absurd ht.1 (by decide)

/-- Both tables of a handle are there. -/
def HasRelations (db : Database) (name : String) : Prop :=
  ∀ side, (db.table? ((⟨name⟩ : Graph).table side)).isSome = true

instance (db : Database) (name : String) : Decidable (HasRelations db name) :=
  decidable_of_iff (∀ side ∈ Side.all, (db.table? ((⟨name⟩ : Graph).table side)).isSome = true)
    ⟨fun h side => h side (by cases side <;> decide), fun h side _ => h side⟩

/-! ## New tables -/

/-- A table as it is created. -/
def newTable (name : String) (columns : List Column) : Table := ⟨name, columns, [], []⟩

/-- The request that makes two tables anew. -/
def renewal (first second : String) (columns : List Column) : Request :=
  .sequence [.discard first, .discard second, .create false first (.known columns),
    .create false second (.known columns)]

/-- The database with two new tables in the place of any of their names. -/
def renewed (db : Database) (first second : String) (columns : List Column) : Database :=
  (((db.remove first).remove second).add (newTable first columns)).add (newTable second columns)

theorem apply_discard (db : Database) (table : String) :
    db.apply (.discard table) = .ok (db.remove table, none) := by
  simp only [Statement.discard, apply, drop_present]; rfl

theorem apply_create {db : Database} {table : String} {columns : List Column}
    (hreserved : isReserved table = false) (hkeys : columns.filter Column.primaryKey = [])
    (hnone : db.table? table = none) :
    db.apply (.create false table (.known columns)) = .ok (db.add (newTable table columns), none) := by
  simp [apply, create, columnList, hreserved, hnone, hkeys, newTable, bind, Except.bind, pure,
    Except.pure]

theorem run_renewal {db : Database} {first second : String} {columns : List Column}
    (hfirst : isReserved first = false) (hsecond : isReserved second = false)
    (hne : sameName first second = false) (hkeys : columns.filter Column.primaryKey = []) :
    db.run (renewal first second columns) = (.ok none, renewed db first second columns) := by
  have hgone₁ : ((db.remove first).remove second).table? first = none := by
    simp [table?_remove]
  have hgone₂ : (((db.remove first).remove second).add (newTable first columns)).table? second
      = none := by
    simp [table?_add, table?_remove, newTable, hne]
  rw [renewal, Request.sequence, Database.run, runAll_cons_ok (apply_discard db first),
    runAll_cons_ok (apply_discard _ second), runAll_cons_ok (apply_create hfirst hkeys hgone₁),
    runAll_cons_ok (apply_create hsecond hkeys hgone₂)]
  rfl

theorem table?_renewed (db : Database) (first second : String) (columns : List Column)
    (name : String) :
    (renewed db first second columns).table? name =
      if sameName first name then some (newTable first columns)
      else if sameName second name then some (newTable second columns) else db.table? name := by
  simp only [renewed, table?_add, table?_remove, newTable]
  by_cases h₁ : sameName first name = true
  · simp [h₁]
  · by_cases h₂ : sameName second name = true
    · simp [h₁, h₂]
    · simp [h₁, h₂]

/-! ## What collections keep -/

section Collections

open Workspace

variable {db : Database} {t : SymbolTable} {name : String}

theorem table?_collected (h : db.IsLowerCased) (hname : IsLower name) :
    ((collected t db).foldl remove db).table? name
      = if name ∈ collected t db then none else db.table? name := by
  have hany : (collected t db).any (sameName · name) = decide (name ∈ collected t db) := by
    rw [Bool.eq_iff_iff, List.any_eq_true, decide_eq_true_iff]
    constructor
    · rintro ⟨other, hother, hsame⟩
      obtain ⟨⟨u, hu, rfl⟩, -⟩ := mem_tableNames.1 (List.mem_filter.1 hother).1
      rwa [← eq_of_sameName (h u hu) hname hsame]
    · exact fun hmem => ⟨name, hmem, sameName_self name⟩
  rw [table?_foldl_remove, hany]
  simp only [decide_eq_true_eq]

/-- The relation of the bindings is never collected. -/
theorem relation_not_mem_collected : SymbolTable.relation ∉ collected t db := by
  intro hmem
  have hcollected := (List.mem_filter.1 hmem).2
  simp [SymbolTable.isCollected, SymbolTable.beginsWith, SymbolTable.relation, scratchPrefix,
    graphPrefix, metadataPrefix, List.isPrefixOf] at hcollected

/-- The relations of a name are there after a collection if the name is reached. -/
theorem hasRelations_collected (h : db.IsLowerCased) (hname : IsOwn name)
    (hdb : HasRelations db name) :
    HasRelations ((collected t db).foldl remove db) name ↔
      name = Graph.base.name ∨ name ∈ t.bindings.map Prod.snd := by
  have hlower := Graph.isLower_table (g := ⟨name⟩) hname.isLower
  have hside : ∀ side, ((((collected t db).foldl remove db).table?
      ((⟨name⟩ : Graph).table side)).isSome = true ↔
        (⟨name⟩ : Graph).table side ∉ collected t db) := fun side => by
    rw [table?_collected h (hlower side)]
    split
    · next hmem => simp [hmem]
    · next hmem => simp [hmem, hdb side]
  simp only [HasRelations, hside]
  obtain rfl | hgen := hname
  · simp only [true_or, iff_true]
    intro side hmem
    exact absurd (List.mem_filter.1 hmem).2 (by simp [show (⟨Graph.base.name⟩ : Graph) = Graph.base
      from rfl, SymbolTable.isCollected_base])
  · have hmem : ∀ side, (⟨name⟩ : Graph).table side ∈ collected t db ↔
        ¬ (name = Graph.base.name ∨ name ∈ t.bindings.map Prod.snd) := fun side => by
      rw [collected, List.mem_filter, SymbolTable.isCollected_table hgen, mem_tableNames,
        ← h.isSome_iff (hlower side)]
      have hhidden : isHidden ((⟨name⟩ : Graph).table side) = false := by
        rw [Graph.table, String.append_assoc]; exact hgen.not_hidden _
      simp [hdb side, hhidden]
    simp only [hmem, not_not, forall_const]

end Collections

/-! ## What programs sustain -/

theorem Store.Statement.Fills.target {T : String → Prop} {s : Statement} (h : s.Fills T) :
    ∀ t ∈ s.target?, T t ∨ IsScratch t := by
  intro t ht
  cases s <;> cases ht <;> first | exact h | exact .inr h | exact h.elim

/-- The second database has the relation of the bindings of the first one, and lists all tables of
handles that the first one lists. Its names are in lower case, and apart, if those of the first are. -/
structure Sustains (db db' : Database) : Prop where
  relation : db'.table? SymbolTable.relation = db.table? SymbolTable.relation
  lower : db.IsLowerCased → db'.IsLowerCased
  distinct : db.Distinct → db'.Distinct
  listed : ∀ name side, IsApart name → db.Listed ((⟨name⟩ : Graph).table side) →
    db'.Listed ((⟨name⟩ : Graph).table side)

namespace Sustains

variable {db db' : Database}

theorem refl (db : Database) : Sustains db db := ⟨rfl, id, id, fun _ _ _ => id⟩

theorem hasRelations (h : Sustains db db') (hdb : db.IsLowerCased) {name : String}
    (hname : IsOwn name) (hrelations : HasRelations db name) : HasRelations db' name :=
  fun side => (h.listed name side hname.isApart
    (hdb.listed (Graph.isLower_table hname.isLower side) (hrelations side))).isSome

/-- A table of a handle that is made from a number. -/
def IsTarget (table : String) : Prop :=
  ∃ name side, IsGenerated name ∧ table = (⟨name⟩ : Graph).table side

theorem run_fills (h : Sustains db db') {closed : Bool} {ss : List Statement}
    (hss : ∀ s ∈ ss, s.Fills IsTarget) : Sustains db (db'.run (.batch closed ss)).2 := by
  refine run_batch_preserves (fun s hs db₁ db₂ answer h₁ happly => ?_) h
  have hfills := hss s hs
  refine ⟨?_, fun hdb => ?_, fun hdb => apply_distinct happly (h₁.distinct hdb),
    fun name side hname hlisted => ?_⟩
  · rw [apply_other happly fun t ht => ?_, h₁.relation]
    obtain ⟨name, side, -, rfl⟩ | hscratch := hfills.target t ht
    · exact Graph.sameName_table_relation _ side
    · exact sameName_scratch_relation hscratch
  · refine apply_names happly (fun ifAbsent name columns hc => ?_) (h₁.lower hdb)
    rw [hc] at hfills
    exact hfills.2
  · refine apply_listed happly (fun ifPresent dropped hd => ?_) (h₁.listed name side hname hlisted)
    rw [hd] at hfills
    exact hname.sameName_scratch hfills side

/-- The tables of a new name can be made. -/
theorem run_creation {name : String} (hname : IsGenerated name) {columns : List Column}
    (hkeys : columns.filter Column.primaryKey = []) (db : Database) :
    db.run (renewal ((⟨name⟩ : Graph).table .vertex) ((⟨name⟩ : Graph).table .edge) columns)
      = (.ok none, renewed db ((⟨name⟩ : Graph).table .vertex) ((⟨name⟩ : Graph).table .edge)
          columns) := by
  have hlower := Graph.isLower_table (g := ⟨name⟩) hname.isLower
  have hreserved : ∀ side, isReserved ((⟨name⟩ : Graph).table side) = false := fun side => by
    refine isReserved_eq_false ?_
    rw [hlower side, Graph.table, String.append_assoc]
    obtain ⟨n, rfl | rfl⟩ := hname <;> simp [graphPrefix, metadataPrefix]
  refine run_renewal (hreserved .vertex) (hreserved .edge) ?_ hkeys
  rw [sameName_of_isLower (hlower .vertex) (hlower .edge), decide_eq_false_iff_not]
  exact fun heq => absurd (Graph.table_injective heq).2 (by decide)

theorem run_renewal (h : Sustains db db') {name : String} (hname : IsGenerated name)
    {columns : List Column} (hkeys : columns.filter Column.primaryKey = []) :
    Sustains db (db'.run (renewal ((⟨name⟩ : Graph).table .vertex) ((⟨name⟩ : Graph).table .edge)
      columns)).2 := by
  have hlower := Graph.isLower_table (g := ⟨name⟩) hname.isLower
  have hrun := run_creation hname hkeys db'
  refine ⟨?_, fun hdb t ht => ?_, fun hdb => ?_, fun other side hother hlisted => ?_⟩
  · rw [hrun, table?_renewed, Graph.sameName_table_relation, Graph.sameName_table_relation,
      ← h.relation]
    rfl
  · simp only [hrun, renewed, Database.add, Database.remove, List.mem_append, List.mem_filter,
      List.mem_singleton] at ht
    obtain (⟨⟨ht, -⟩, -⟩ | rfl) | rfl := ht
    · exact h.lower hdb t ht
    · exact hlower .vertex
    · exact hlower .edge
  · exact Database.run_preserves (fun s db db' answer hdb happly => apply_distinct happly hdb) _
      (h.distinct hdb)
  · have hother' := Graph.isLower_table (g := ⟨other⟩) hother.lower side
    rw [hrun, Listed, table?_renewed]
    split
    · next hsame => exact ⟨_, rfl, eq_of_sameName (hlower .vertex) hother' hsame⟩
    · split
      · next hsame => exact ⟨_, rfl, eq_of_sameName (hlower .edge) hother' hsame⟩
      · exact h.listed other side hother hlisted

end Sustains

section Programs

open Action

variable {σ : Type} {b : Backend σ} {view : σ → Database} {fails : Prop} {db : Database}

/-- The instruction writes to a new name and sends no text of the user. -/
def Instruction.IsOrderly (i : Instruction) : Prop :=
  i.isNative = false ∧ ∀ name ∈ i.target?, IsGenerated name

theorem Backend.IsDatabase.guards_sustains (hb : b.IsDatabase view fails) {T : String → Prop}
    (hT : ∀ table, T table → Sustains.IsTarget table) :
    b.Guards (fun s => Sustains db (view s)) T where
  execute closed ss hss := hb.execute_preserves fun _ h => h.run_fills fun s hs => by
    have := hss s hs
    cases s <;> first | exact this | exact this.imp_left (hT _)
  queryRows closed ss hss := hb.queryRows_preserves fun _ h => h.run_fills fun s hs => by
    have := hss s hs
    cases s <;> first | exact this | exact this.imp_left (hT _)

theorem Instruction.execute_sustains (hb : b.IsDatabase view fails) {i : Instruction}
    (hi : i.IsOrderly) : Preserves (fun s => Sustains db (view s)) (i.execute b) := by
  refine i.execute_preserves hi.1 (hb.guards_sustains ?_) fun r hr => hb.execute_preserves fun _ h => ?_
  · rintro table ⟨name, side, hname, rfl⟩
    exact ⟨name, side, hi.2 name hname, rfl⟩
  · cases i with
    | createGraph target => cases hr; exact h.run_renewal (hi.2 _ rfl) rfl
    | createMetadata target => cases hr; exact h.run_renewal (hi.2 _ rfl) rfl
    | _ => cases hr

theorem Program.execute_sustains (hb : b.IsDatabase view fails) {program : Program}
    (hp : ∀ i ∈ program, i.IsOrderly) :
    Preserves (fun x => Sustains db (view x.store)) (program.execute b) :=
  program.execute_preserves fun i hi => i.execute_sustains hb (hp i hi)

end Programs

end Provenance

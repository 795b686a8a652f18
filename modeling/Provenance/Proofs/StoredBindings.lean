import Provenance.Proofs.OrderedMap
import Provenance.Proofs.Selections
import Provenance.Proofs.Unreliable
import Provenance.SymbolTable

/-!
# The stored bindings

The relation of the bindings, as it is created, is a finite map: each row has a text for the
variable and one for the name, and no variable has two rows. Storing a binding changes the map at
one variable, and creating the relation anew empties it. No other table is touched.
-/

namespace Provenance

open Store

namespace SymbolTable

open Database

/-- The row of a binding. -/
def entryRow (entry : String × String) : Row := [.text entry.1, .text entry.2]

/-- The relation of the bindings is as it is created, and has these rows. -/
structure Keeps (db : Database) (entries : List (String × String)) : Prop where
  nodup : (entries.map Prod.fst).Nodup
  table : ∃ t, db.table? relation = some t ∧ t.columns = columns ∧ t.rows = entries.map entryRow

theorem Keeps.congr {db db' : Database} {entries : List (String × String)} (h : Keeps db entries)
    (hdb : db'.table? relation = db.table? relation) : Keeps db' entries :=
  ⟨h.nodup, by rw [hdb]; exact h.table⟩

/-- The relation of the bindings is missing, or is as it is created. -/
def Intact (db : Database) : Prop := db.table? relation = none ∨ ∃ entries, Keeps db entries

variable {db : Database} {entries : List (String × String)}

section Columns

variable {t : Table} (h : t.columns = columns)

include h

theorem index?_name : t.index? "name" = some 0 := by
  simp [Table.index?, h, columns, Column.key, Column.text, List.findIdx?_cons]

theorem index?_value : t.index? "value" = some 1 := by
  have : sameName "name" "value" = false := by
    rw [sameName_of_isLower (by decide) (by decide)]; decide
  simp [Table.index?, h, columns, Column.key, Column.required, Column.text, List.findIdx?_cons, this]

theorem fit_entryRow (entry : String × String) : t.fit (entryRow entry) = entryRow entry := by
  simp [Table.fit, h, columns, entryRow, Column.key, Column.required, Column.text, Affinity.store]

theorem column?_name :
    t.column? "name" = some ((Column.text "name").key, t.rows.map fun row => row.getD 0 .null) := by
  simp [Table.column?, index?_name h, h, columns]

/-- A row for a variable that has none yet can be added. -/
theorem violation?_entryRow {entry : String × String} (hrows : t.rows = entries.map entryRow)
    (hnew : entry.1 ∉ entries.map Prod.fst) : t.violation? (entryRow entry) = none := by
  have htaken : (entries.map fun e => Cell.text e.1).any
      (fun d => d.order (.text entry.1) == .eq) = false := by
    simp only [List.any_map, List.any_eq_false, Function.comp_apply, beq_iff_eq, Cell.order,
      Std.compare_eq_iff_eq]
    exact fun e he heq => hnew (heq ▸ List.mem_map_of_mem he)
  have hcells : (t.rows.map fun row => row.getD 0 .null) = entries.map fun e => Cell.text e.1 := by
    simp [hrows, entryRow]
  have hname : (Column.text "name").key.name = "name" := rfl
  simp only [Table.violation?, h, columns, entryRow, List.zip_cons_cons, List.zip_nil_right,
    List.findSome?_cons, List.findSome?_nil]
  rw [hname, column?_name h, hcells]
  simp only [Option.elim_some, htaken]
  simp [Column.key, Column.required, Column.text, Cell.isNull]

end Columns

/-! ## Storing and emptying -/

/-- Storing a binding succeeds and changes the map at its variable. -/
theorem apply_storeBinding (h : Keeps db entries) (var name : String) :
    ∃ db', db.apply (storeBinding var name) = .ok (db', none) ∧
      Keeps db' (OrderedMap.put var name entries) := by
  obtain ⟨hnodup, t, ht, hcols, hrows⟩ := h
  have hkey : t.columns[0]?.any Column.primaryKey = true := by rw [hcols]; rfl
  have hcell : ∀ e : String × String,
      ((entryRow e)[0]? == some (Cell.text var)) = decide (e.1 = var) := fun e => by
    by_cases he : e.1 = var <;> simp [entryRow, he]
  have hany : (t.rows.any fun row => row[0]? == some (Cell.text var))
      = decide (var ∈ entries.map Prod.fst) := by
    rw [Bool.eq_iff_iff, hrows, List.any_map, List.any_eq_true, decide_eq_true_iff, List.mem_map]
    simp only [Function.comp_apply, hcell, decide_eq_true_eq]
  suffices hs : ∃ rows, db.upsert relation "name" "value" var name
      = .ok (db.replace { t with rows }) ∧ rows = (OrderedMap.put var name entries).map entryRow by
    obtain ⟨rows, hup, hr⟩ := hs
    exact ⟨db.replace { t with rows }, by simp only [storeBinding, apply, hup]; rfl,
      OrderedMap.nodup_put hnodup, { t with rows }, table?_replace_of_table? ht rfl, hcols, hr⟩
  simp only [upsert, find_eq_ok.2 ht, bind, Except.bind, index?_name hcols, index?_value hcols, hkey,
    hany, if_true, decide_eq_true_eq]
  split
  · next hmem =>
    refine ⟨_, rfl, ?_⟩
    simp only [hrows, OrderedMap.put, if_pos hmem, OrderedMap.adjust, List.map_map]
    refine List.map_congr_left fun e _ => ?_
    simp only [Function.comp_apply, hcell, decide_eq_true_eq]
    by_cases he : e.1 = var <;> simp [he, entryRow]
  · next hmem =>
    have harr : arrange t relation ["name", "value"] [[.text var, .text name]]
        = .ok [entryRow (var, name)] := by
      have hspread : spread t ["name", "value"] [.text var, .text name] = entryRow (var, name) := by
        have : sameName "value" "name" = false := by
          rw [sameName_of_isLower (by decide) (by decide)]; decide
        have : sameName "name" "value" = false := by rwa [sameName_comm]
        simp [spread, columns, entryRow, Column.key, Column.required, Column.text, *]
      simp [arrange, index?_name hcols, index?_value hcols, hspread]
    refine ⟨t.rows ++ [entryRow (var, name)], ?_, ?_⟩
    · have hcon : t.isConstrained = true := by rw [Table.isConstrained, hcols]; rfl
      have hadd : t.addAll [entryRow (var, name)]
          = .ok { t with rows := t.rows ++ [entryRow (var, name)] } := by
        simp only [Table.addAll, hcon, if_true, List.foldlM_cons, List.foldlM_nil, Table.add,
          fit_entryRow hcols, @violation?_entryRow entries t hcols (var, name) hrows hmem]
        rfl
      simp only [Database.insert, find_eq_ok.2 ht, bind, Except.bind, harr, hadd]
      rfl
    · simp [hrows, OrderedMap.put, if_neg hmem]

/-- The relation of the bindings as it is created. -/
def emptyRelation : Table := ⟨relation, columns, ["name"], []⟩

theorem isReserved_relation : isReserved relation = false := by
  rw [isReserved, toList_toLower]; decide

/-- The relation is created if it is not there. -/
theorem apply_createRelation_absent (h : db.table? relation = none) :
    db.apply createRelation = .ok (db.add emptyRelation, none) := by
  simp only [createRelation, apply, create, columnList, bind, Except.bind, h,
    isReserved_relation]
  rfl

theorem keeps_add_emptyRelation (h : db.table? relation = none) : Keeps (db.add emptyRelation) [] :=
  ⟨List.nodup_nil, emptyRelation, by rw [table?_add, h, emptyRelation, sameName_self]; rfl, rfl, rfl⟩

theorem apply_createRelation_present {t : Table} (h : db.table? relation = some t) :
    db.apply createRelation = .ok (db, none) := by
  simp only [createRelation, apply, create, columnList, bind, Except.bind, h,
    isReserved_relation]
  rfl

/-! ## Reading -/

/-- The name that a variable is stored with. The row of the counter binds no variable. -/
def storedName? (db : Database) (var : String) : Option String :=
  if var = counterKey then none
  else
    match db.table? relation with
    | none => none
    | some t => t.rows.findSome? fun
      | [.text v, .text name] => if v = var then some name else none
      | _ => none

theorem storedName?_congr {db db' : Database} (h : db'.table? relation = db.table? relation)
    (var : String) : storedName? db' var = storedName? db var := by
  rw [storedName?, storedName?, h]

theorem Keeps.storedName? (h : Keeps db entries) (var : String) :
    storedName? db var = if var = counterKey then none else OrderedMap.find? entries var := by
  obtain ⟨-, t, ht, -, hrows⟩ := h
  simp only [SymbolTable.storedName?, ht, hrows]
  split
  · rfl
  · clear ht hrows
    induction entries with
    | nil => rfl
    | cons e entries ih =>
      rw [List.map_cons, List.findSome?_cons, OrderedMap.find?_cons]
      by_cases he : e.1 = var
      · simp [entryRow, he]
      · simpa [entryRow, he] using ih

/-- The request that reads the relation. -/
def readRequest : Request := .single (.select (.columns ["name", "value"] relation []))

theorem queryRows_keeps (h : Keeps db entries) :
    (Backend.memory.queryRows readRequest).runFrom db = (.ok (entries.map fun e => [e.1, e.2]), db) := by
  obtain ⟨-, t, ht, hcols, hrows⟩ := h
  have hvalue : sameName "name" "value" = false := by
    rw [sameName_of_isLower (by decide) (by decide)]; decide
  have hshown : (Selection.columns ["name", "value"] relation []).shownRows db
      = .ok (entries.map entryRow) := by
    have hscan : Selection.scannedIndex? db (.columns ["name", "value"] relation []) = none := by
      simp [Selection.scannedIndex?, Selection.columns, ColumnRef.plain]
    rw [Selection.shownRows, hscan, Selection.rows_columns ht, Selection.answer_columns ht]
    · simp [hrows, entryRow, Table.scope, Scope.cell, Scope.find?, ColumnRef.plain, Visible.cell?,
        hcols, columns, Column.key, Column.required, Column.text, hvalue, Function.comp_def]
    · simp [index?_name hcols, index?_value hcols]
  simp only [Backend.memory, Backend.runShown, Action.runFrom_of, readRequest, Request.single,
    Database.run, Database.runAll, Database.apply, hshown, bind, Except.bind]
  simp [pure, Except.pure, entryRow, Cell.shown, Function.comp_def]

theorem foldlM_readRow {stored result : Stored} (hnodup : (entries.map Prod.fst).Nodup)
    (h : (entries.map fun e => [e.1, e.2]).foldlM readRow stored = .ok result) (var : String) :
    result.1.find? var =
      if var = counterKey then stored.1.find? var
      else (OrderedMap.find? entries var).or (stored.1.find? var) := by
  induction entries generalizing stored with
  | nil => cases h; simp [OrderedMap.find?]
  | cons e entries ih =>
    obtain ⟨hnew, hnodup⟩ := List.nodup_cons.1 hnodup
    rw [List.map_cons, List.foldlM_cons] at h
    by_cases he : e.1 = counterKey
    · cases hword : Text.trimmedWord? e.2 with
      | none => simp only [readRow, he, if_true, hword] at h; cases h
      | some n =>
        simp only [readRow, he, if_true, hword] at h
        rw [ih hnodup h, OrderedMap.find?_cons]
        by_cases hv : var = counterKey <;> simp [hv, he, eq_comm]
    · simp only [readRow, he, if_false] at h
      rw [ih hnodup h, OrderedMap.find?_cons, OrderedMap.find?_insert]
      by_cases hv : e.1 = var
      · subst hv
        rw [OrderedMap.find?_eq_none_iff.2 hnew]
        simp [he]
      · simp [hv, Ne.symm hv]

/-- The row of the counter, if there is one, has a number. -/
def Readable (entries : List (String × String)) : Prop :=
  ∀ text, OrderedMap.find? entries counterKey = some text → (Text.trimmedWord? text).isSome = true

/-- The rows can be read just if the counter can. -/
theorem foldlM_readRow_isOk (hnodup : (entries.map Prod.fst).Nodup) (stored : Stored) :
    (∃ result, (entries.map fun e => [e.1, e.2]).foldlM readRow stored = .ok result) ↔
      Readable entries := by
  induction entries generalizing stored with
  | nil => exact ⟨fun _ _ htext => (by cases htext), fun _ => ⟨stored, rfl⟩⟩
  | cons e entries ih =>
    obtain ⟨hnew, hnodup⟩ := List.nodup_cons.1 hnodup
    rw [List.map_cons, List.foldlM_cons, Readable, OrderedMap.find?_cons]
    by_cases he : e.1 = counterKey
    · have hnone : Readable entries := fun text htext => by
        rw [OrderedMap.find?_eq_none_iff.2 (he ▸ hnew)] at htext; cases htext
      cases hword : Text.trimmedWord? e.2 with
      | none =>
        simp only [readRow, he, if_true, hword]
        exact ⟨fun hresult => (by obtain ⟨_, hresult⟩ := hresult; cases hresult), fun h => absurd (h e.2 rfl) (by simp [hword])⟩
      | some n =>
        simp only [readRow, he, if_true, hword]
        exact ⟨fun _ text htext => by cases htext; simp [hword], fun _ => (ih hnodup _).2 hnone⟩
    · simp only [readRow, he, if_false]
      exact ih hnodup _

variable {σ : Type} {b : Backend σ} {view : σ → Database} {fails : Prop}

theorem runFrom_readStored (b : Backend σ) (s : σ) :
    (readStored b).runFrom s =
      match (b.queryRows readRequest).runFrom s with
      | (.ok rows, s) => (rows.foldlM readRow ([], 0), s)
      | (.error e, s) => (.error e, s) := by
  rw [readStored, Action.runFrom_bind, readRequest]
  cases (b.queryRows _).runFrom s with
  | mk result t => cases result <;> rfl

/-- Reading changes nothing, and what is read are the stored bindings. It fails only if a call does or
the counter cannot be read. -/
theorem readStored_spec (hb : b.IsDatabase view fails) {s : σ} (h : Keeps (view s) entries) :
    view ((readStored b).runFrom s).2 = view s ∧
      (∀ stored, ((readStored b).runFrom s).1 = .ok stored →
        Readable entries ∧ ∀ var, stored.1.find? var = storedName? (view s) var) ∧
      (¬ fails → Readable entries → ∃ stored, ((readStored b).runFrom s).1 = .ok stored) := by
  rw [runFrom_readStored]
  obtain ⟨hf, e, he, hv⟩ | ⟨hr, hv⟩ := hb.queryRows readRequest s
  · split
    · next heq => rw [heq] at he; cases he
    · next heq => rw [heq] at hv; exact ⟨hv, fun _ hstored => (by cases hstored), fun hn => (hn hf).elim⟩
  · rw [queryRows_keeps h] at hr hv
    split
    · next rows t heq =>
      rw [heq] at hr hv
      cases hr
      refine ⟨hv, fun stored hstored => ⟨(foldlM_readRow_isOk h.nodup _).1 ⟨stored, hstored⟩,
        fun var => ?_⟩, fun _ hread => (foldlM_readRow_isOk h.nodup _).2 hread⟩
      rw [foldlM_readRow h.nodup hstored, h.storedName?]
      simp [OrderedMap.find?]
    · next heq => rw [heq] at hr; cases hr

/-! ## Loading -/

theorem run_createRelation (h : Intact db) :
    ∃ db' entries, db.run (.single createRelation) = (.ok none, db') ∧ Keeps db' entries ∧
      ∀ var, storedName? db' var = storedName? db var := by
  obtain hnone | ⟨entries, hk⟩ := h
  · have hk := keeps_add_emptyRelation hnone
    refine ⟨_, [], run_single_ok (apply_createRelation_absent hnone), hk, fun var => ?_⟩
    rw [hk.storedName?, storedName?, hnone]
    rfl
  · obtain ⟨t, ht, -⟩ := hk.table
    exact ⟨db, entries, run_single_ok (apply_createRelation_present ht), hk, fun _ => rfl⟩

/-- A symbol table that is loaded has the stored bindings and nothing pending. -/
theorem load_spec (hb : b.IsDatabase view fails) {s : σ} (h : Intact (view s)) :
    (∃ e s', (load b).runFrom s = (.error e, s') ∧ Intact (view s') ∧
        ∀ var, storedName? (view s') var = storedName? (view s) var) ∨
      ∃ t s' entries, (load b).runFrom s = (.ok t, s') ∧ Keeps (view s') entries ∧
        Readable entries ∧ t.pending = [] ∧ t.cleared = false ∧
        (∀ var, t.bindings.find? var = storedName? (view s') var) ∧
        ∀ var, storedName? (view s') var = storedName? (view s) var := by
  obtain ⟨db, entries, hrun, hk, hsame⟩ := run_createRelation h
  rw [load]
  obtain ⟨-, e, s', hs, hv⟩ | ⟨s', hs, rfl⟩ := hb.perform_ok hrun
  · exact .inl ⟨e, s', Action.runFrom_bind_error hs _, by rw [hv]; exact h, fun _ => by rw [hv]⟩
  · obtain ⟨hv, hread, -⟩ := readStored_spec hb hk
    rw [Action.runFrom_bind_ok hs]
    generalize hrun' : (readStored b).runFrom s' = x at hv hread
    obtain ⟨result, s''⟩ := x
    have hk' : Keeps (view s'') entries := by rw [hv]; exact hk
    cases result with
    | error e =>
      exact .inl ⟨e, s'', Action.runFrom_bind_error hrun' _, .inr ⟨entries, hk'⟩,
        fun var => by rw [hv, hsame]⟩
    | ok stored =>
      obtain ⟨hreadable, hbound⟩ := hread stored rfl
      refine .inr ⟨_, s'', entries, by rw [Action.runFrom_bind_ok hrun']; rfl, hk', hreadable, rfl,
        rfl, ?_, fun var => by rw [hv, hsame]⟩
      rw [hv]
      exact hbound

/-! ## All else -/

/-- Requests that change the relation of the bindings at most preserve the property. -/
def Undisturbed (I : Database → Prop) : Prop :=
  ∀ closed ss, (∀ s : Statement, s ∈ ss → ∀ t ∈ s.target?, t = relation) →
    ∀ db, I db → I (db.run (.batch closed ss)).2

/-- The second database has the other tables of the first one. Its names are in lower case if those
of the first are. -/
structure Spares (db db' : Database) : Prop where
  others : ∀ name, sameName relation name = false → db'.table? name = db.table? name
  lower : db.IsLowerCased → db'.IsLowerCased

theorem Spares.refl (db : Database) : Spares db db := ⟨fun _ _ => rfl, id⟩

theorem undisturbed_spares (db : Database) : Undisturbed (Spares db) := by
  intro closed ss hss db' h
  refine run_batch_preserves (fun s hs db₁ db₂ answer h₁ happly => ⟨fun name hname => ?_, fun hdb => ?_⟩)
    h
  · rw [apply_other happly fun t ht => by rw [hss s hs t ht, hname], h₁.others name hname]
  · refine apply_names happly (fun ifAbsent name columns hc => ?_) (h₁.lower hdb)
    have ht := hss s hs name (by rw [hc]; rfl)
    rw [ht]
    decide

section Undisturbed

open Action

variable {I : Database → Prop}

theorem readStored_preserves (hb : b.IsDatabase view fails) (hI : Undisturbed I) :
    Preserves (fun s => I (view s)) (readStored b) :=
  (hb.queryRows_preserves fun _ => hI false _ (by simp [Statement.target?]) _).bind fun _ =>
    .ofExcept _

theorem load_preserves (hb : b.IsDatabase view fails) (hI : Undisturbed I) :
    Preserves (fun s => I (view s)) (load b) :=
  ((hb.execute_preserves fun _ => hI false _ (by simp [createRelation, Statement.target?]) _).bind
    fun _ => .pure _).bind fun _ => (readStored_preserves hb hI).bind fun _ => .pure _

end Undisturbed

end SymbolTable

end Provenance

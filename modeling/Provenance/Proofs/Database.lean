import Provenance.Proofs.Names
import Provenance.Store.Database

/-!
# What statements do to a database

A database is seen through `Database.table?`, the table of a name. Each statement changes the table
it is aimed at and no other one. A request is a fold of its statements, so that what every statement
preserves is preserved by a request, also by one that fails half-way.
-/

namespace Provenance.Store

namespace Database

variable {db db' : Database}

/-! ## Looking up tables -/

theorem table?_congr {a b : String} (h : sameName a b = true) : db.table? a = db.table? b := by
  have hn : ∀ t : Table, sameName t.name a = sameName t.name b := fun t => by
    rw [sameName_comm, sameName_congr h, sameName_comm]
  simp only [table?, hn]

theorem table?_name {t : Table} {name : String} (h : db.table? name = some t) :
    sameName t.name name = true := by
  simpa using List.find?_some h

theorem table?_mem {t : Table} {name : String} (h : db.table? name = some t) : t ∈ db.tables :=
  List.mem_of_find?_eq_some h

theorem table?_isSome_of_mem {t : Table} (h : t ∈ db.tables) : (db.table? t.name).isSome = true := by
  rw [table?, List.find?_isSome]
  exact ⟨t, h, sameName_self _⟩

@[simp] theorem table?_empty (name : String) : empty.table? name = none := rfl

theorem table?_add (t : Table) (name : String) :
    (db.add t).table? name = (db.table? name).or (if sameName t.name name then some t else none) := by
  simp only [table?, add, List.find?_append, List.find?_singleton]

theorem table?_remove (removed name : String) :
    (db.remove removed).table? name = if sameName removed name then none else db.table? name := by
  simp only [table?, remove, List.find?_filter]
  split
  · next h =>
    refine List.find?_eq_none.2 fun t _ => ?_
    simp only [sameName_comm t.name, sameName_congr h]
    simp
  · next h =>
    congr 1
    funext t
    by_cases ht : sameName t.name name = true
    · have : sameName t.name removed = false := by
        rw [sameName_congr ht, sameName_comm]; simpa using h
      simp [ht, this]
    · simp [ht]

theorem table?_replace (t : Table) (name : String) :
    (db.replace t).table? name =
      if sameName t.name name then (db.table? name).map fun _ => t else db.table? name := by
  simp only [table?, replace, List.find?_map]
  split
  · next h =>
    have hn : ∀ u : Table, sameName u.name name = sameName u.name t.name := fun u => by
      rw [sameName_comm, ← sameName_congr h, sameName_comm]
    have hp : ((fun u : Table => sameName u.name name) ∘ fun u => if sameName u.name t.name then t else u)
        = fun u => sameName u.name name := by
      funext u
      by_cases hu : sameName u.name t.name = true <;> simp [hn, hu]
    rw [hp]
    cases hf : db.tables.find? (fun u => sameName u.name name) with
    | none => rfl
    | some u =>
      have : sameName u.name t.name = true := by rw [← hn]; simpa using List.find?_some hf
      simp [this]
  · next h =>
    have hp : ((fun u : Table => sameName u.name name) ∘ fun u => if sameName u.name t.name then t else u)
        = fun u => sameName u.name name := by
      funext u
      by_cases hu : sameName u.name t.name = true
      · simp [hu, h, sameName_congr hu]
      · simp [hu]
    rw [hp]
    cases hf : db.tables.find? (fun u => sameName u.name name) with
    | none => rfl
    | some u =>
      have hu : sameName u.name name = true := by simpa using List.find?_some hf
      have : ¬ sameName u.name t.name = true := fun ht => h (by rwa [← sameName_congr ht])
      simp [this]

theorem table?_replace_of_table? {t u : Table} {name : String} (h : db.table? name = some u)
    (hn : t.name = u.name) : (db.replace t).table? name = some t := by
  rw [table?_replace, hn, table?_name h, h]; rfl

theorem find_eq_ok {name : String} {t : Table} : db.find name = .ok t ↔ db.table? name = some t := by
  unfold find
  split <;> simp_all

end Database

/-! ## Adding rows -/

namespace Table

variable {t t' : Table}

theorem add_ok {row : Row} (h : t.add row = .ok t') :
    t' = { t with rows := t.rows ++ [t.fit row] } := by
  simp only [add] at h
  split at h
  · cases h
  · exact (Except.ok.inj h).symm

/-- Rows that can be added are stored in their order, each brought to the columns. -/
theorem addAll_ok {rows : List Row} (h : t.addAll rows = .ok t') :
    t' = { t with rows := t.rows ++ rows.map t.fit } := by
  simp only [addAll] at h
  split at h
  · induction rows generalizing t with
    | nil => cases h; simp
    | cons row rows ih =>
      rw [List.foldlM_cons] at h
      cases hrow : t.add row with
      | error e => rw [hrow] at h; cases h
      | ok t₁ =>
        rw [hrow] at h
        obtain rfl := add_ok hrow
        rw [ih ‹_› h]
        simp [fit]
  · exact (Except.ok.inj h).symm

end Table

/-! ## Statements -/

/-- The table that a statement changes, if it is no selection. -/
def Statement.target? : Statement → Option String
  | .create _ table _ => some table
  | .drop _ table => some table
  | .insert table _ _ => some table
  | .insertFrom table _ => some table
  | .upsert table _ _ _ _ => some table
  | .delete table _ => some table
  | .update table _ _ _ => some table
  | .select _ => none

namespace Database

variable {db db' : Database}

/-- A new table is added, or is there already. -/
theorem create_ok {ifAbsent : Bool} {table : String} {columns : Columns}
    (h : db.create ifAbsent table columns = .ok db') :
    (db.table? table).isSome = true ∧ db' = db ∨
      db.table? table = none ∧ ∃ list keys, columnList columns = .ok list ∧
        db' = db.add ⟨table, list, keys, []⟩ := by
  simp only [create] at h
  cases hc : columnList columns with
  | error e => rw [hc] at h; cases h
  | ok list =>
    simp only [hc, bind, Except.bind] at h
    split at h
    · cases h
    · split at h
      · next u hu =>
        split at h
        · exact .inl ⟨by rw [hu]; rfl, (Except.ok.inj h).symm⟩
        · cases h
      · next hu =>
        split at h
        · cases h
        · exact .inr ⟨hu, list, _, rfl, (Except.ok.inj h).symm⟩

theorem remove_of_table?_none {name : String} (h : db.table? name = none) :
    db.remove name = db := by
  have hn := List.find?_eq_none.1 h
  simp only [remove]
  congr
  exact List.filter_eq_self.2 fun t ht => by simpa using hn t ht

theorem drop_ok {ifPresent : Bool} {table : String} (h : db.drop ifPresent table = .ok db') :
    db' = db.remove table := by
  simp only [drop] at h
  split at h
  · exact (Except.ok.inj h).symm
  · next hn =>
    split at h
    · rw [remove_of_table?_none hn]; exact (Except.ok.inj h).symm
    · cases h

theorem drop_present (table : String) : db.drop true table = .ok (db.remove table) := by
  simp only [drop]
  split
  · rfl
  · next hn => rw [remove_of_table?_none hn]; rfl

/-- A table gets other rows and keeps all else. -/
def Rewrites (db : Database) (table : String) (db' : Database) : Prop :=
  ∃ (t : Table) (rows : List Row), db.table? table = some t ∧ db' = db.replace { t with rows }

theorem insert_ok {table : String} {names : List String} {rows : List Row}
    (h : db.insert table names rows = .ok db') :
    ∃ t arranged, db.table? table = some t ∧ arrange t table names rows = .ok arranged ∧
      db' = db.replace { t with rows := t.rows ++ arranged.map t.fit } := by
  simp only [insert, bind, Except.bind] at h
  split at h
  · cases h
  · next t ht =>
    split at h
    · cases h
    · next arranged harr =>
      split at h
      · cases h
      · next t' hadd =>
        obtain rfl := Table.addAll_ok hadd
        exact ⟨t, arranged, find_eq_ok.1 ht, harr, (Except.ok.inj h).symm⟩

theorem insertFrom_ok {table : String} {query : Selection}
    (h : db.insertFrom table query = .ok db') :
    ∃ t rows, db.table? table = some t ∧ query.rows db = .ok rows ∧
      db' = db.replace { t with rows := t.rows ++ rows.map t.fit } := by
  simp only [insertFrom, bind, Except.bind] at h
  split at h
  · cases h
  · next t ht =>
    split at h
    · cases h
    · next rows hrows =>
      split at h
      · cases h
      · next arranged harr =>
        have harr' : arranged = rows := by
          simp only [arrange, List.isEmpty_nil, if_true] at harr
          split at harr
          · cases harr
          · exact (Except.ok.inj harr).symm
        split at h
        · cases h
        · next t' hadd =>
          obtain rfl := Table.addAll_ok hadd
          exact ⟨t, rows, find_eq_ok.1 ht, hrows, by rw [← harr']; exact (Except.ok.inj h).symm⟩

theorem upsert_rewrites {table keyColumn valueColumn key value : String}
    (h : db.upsert table keyColumn valueColumn key value = .ok db') : db.Rewrites table db' := by
  simp only [upsert, bind, Except.bind] at h
  split at h
  · cases h
  · next t ht =>
    split at h
    · cases h
    · cases h
    · split at h
      · split at h
        · exact ⟨t, _, find_eq_ok.1 ht, (Except.ok.inj h).symm⟩
        · obtain ⟨u, arranged, hu, -, rfl⟩ := insert_ok h
          exact ⟨u, _, hu, rfl⟩
      · cases h

theorem delete_rewrites {table : String} {only : Option (String × Cell)}
    (h : db.delete table only = .ok db') : db.Rewrites table db' := by
  simp only [delete, bind, Except.bind] at h
  split at h
  · cases h
  · next t ht =>
    split at h
    · cases h
    · exact ⟨t, _, find_eq_ok.1 ht, (Except.ok.inj h).symm⟩

theorem update_rewrites {table column : String} {value : Cell} {only : Option (String × Cell)}
    (h : db.update table column value only = .ok db') : db.Rewrites table db' := by
  simp only [update, bind, Except.bind] at h
  split at h
  · cases h
  · next t ht =>
    split at h
    · cases h
    · split at h
      · cases h
      · split at h
        · cases h
        · next t' hadd =>
          obtain rfl := Table.addAll_ok hadd
          exact ⟨t, _, find_eq_ok.1 ht, (Except.ok.inj h).symm⟩

/-- What a statement without an answer does is done by the operation behind it. -/
theorem operation_ok {operation : Except Cause Database} {answer : Option (List Row)}
    (h : (do return (← operation, none) : Except Cause (Database × Option (List Row)))
      = .ok (db', answer)) : operation = .ok db' := by
  cases operation with
  | error e => cases h
  | ok changed => cases h; rfl

/-- What a statement that succeeds does: nothing, or one thing to the table it is aimed at. -/
theorem apply_cases {s : Statement} {answer : Option (List Row)}
    (h : db.apply s = .ok (db', answer)) :
    db' = db ∨
      (∃ ifAbsent name columns list keys, s = .create ifAbsent name columns ∧
        db.table? name = none ∧ db' = db.add ⟨name, list, keys, []⟩) ∨
      (∃ ifPresent name, s = .drop ifPresent name ∧ db' = db.remove name) ∨
      ∃ name, s.target? = some name ∧ db.Rewrites name db' := by
  cases s with
  | create ifAbsent name columns =>
    obtain ⟨-, rfl⟩ | ⟨hn, list, keys, -, rfl⟩ := create_ok (operation_ok h)
    · exact .inl rfl
    · exact .inr (.inl ⟨ifAbsent, name, columns, list, keys, rfl, hn, rfl⟩)
  | drop ifPresent name =>
    exact .inr (.inr (.inl ⟨ifPresent, name, rfl, drop_ok (operation_ok h)⟩))
  | insert name names rows =>
    obtain ⟨t, arranged, ht, -, rfl⟩ := insert_ok (operation_ok h)
    exact .inr (.inr (.inr ⟨name, rfl, t, _, ht, rfl⟩))
  | insertFrom name query =>
    obtain ⟨t, rows, ht, -, rfl⟩ := insertFrom_ok (operation_ok h)
    exact .inr (.inr (.inr ⟨name, rfl, t, _, ht, rfl⟩))
  | upsert name keyColumn valueColumn key value =>
    exact .inr (.inr (.inr ⟨name, rfl, upsert_rewrites (operation_ok h)⟩))
  | delete name only => exact .inr (.inr (.inr ⟨name, rfl, delete_rewrites (operation_ok h)⟩))
  | update name column value only =>
    exact .inr (.inr (.inr ⟨name, rfl, update_rewrites (operation_ok h)⟩))
  | select query =>
    simp only [apply, bind, Except.bind] at h
    split at h
    · cases h
    · cases h; exact .inl rfl

theorem Rewrites.table?_other {table name : String} (h : db.Rewrites table db')
    (hn : sameName table name = false) : db'.table? name = db.table? name := by
  obtain ⟨t, rows, ht, rfl⟩ := h
  rw [table?_replace, if_neg]
  rw [sameName_congr (table?_name ht), hn]
  simp

theorem Rewrites.table?_isSome {table : String} (h : db.Rewrites table db') (name : String) :
    (db'.table? name).isSome = (db.table? name).isSome := by
  obtain ⟨t, rows, ht, rfl⟩ := h
  rw [table?_replace]
  split <;> simp

/-- A statement changes no table but the one it is aimed at. -/
theorem apply_other {s : Statement} {answer : Option (List Row)} {name : String}
    (h : db.apply s = .ok (db', answer)) (hn : ∀ target ∈ s.target?, sameName target name = false) :
    db'.table? name = db.table? name := by
  obtain rfl | ⟨ia, n, cs, list, keys, rfl, -, rfl⟩ | ⟨ip, n, rfl, rfl⟩ | ⟨n, hs, hr⟩ :=
    apply_cases h
  · rfl
  · rw [table?_add, if_neg (by simp [hn n rfl]), Option.or_none]
  · rw [table?_remove, if_neg (by simp [hn n rfl])]
  · exact hr.table?_other (hn n hs)

/-- Only a drop takes a table away. -/
theorem apply_isSome {s : Statement} {answer : Option (List Row)} {name : String}
    (h : db.apply s = .ok (db', answer))
    (hd : ∀ ifPresent dropped, s = .drop ifPresent dropped → sameName dropped name = false)
    (hsome : (db.table? name).isSome = true) : (db'.table? name).isSome = true := by
  obtain rfl | ⟨ia, n, cs, list, keys, rfl, -, rfl⟩ | ⟨ip, n, rfl, rfl⟩ | ⟨n, hs, hr⟩ :=
    apply_cases h
  · exact hsome
  · rw [table?_add, Option.isSome_or, hsome, Bool.true_or]
  · rw [table?_remove, if_neg (by simp [hd ip n rfl])]; exact hsome
  · rw [hr.table?_isSome]; exact hsome

/-- New names are those of created tables. -/
theorem apply_names {s : Statement} {answer : Option (List Row)} {P : String → Prop}
    (h : db.apply s = .ok (db', answer))
    (hc : ∀ ifAbsent name columns, s = .create ifAbsent name columns → P name)
    (hdb : ∀ t ∈ db.tables, P t.name) : ∀ t ∈ db'.tables, P t.name := by
  obtain rfl | ⟨ia, n, cs, list, keys, rfl, -, rfl⟩ | ⟨ip, n, rfl, rfl⟩ | ⟨n, hs, u, rows, hu, rfl⟩ :=
    apply_cases h
  · exact hdb
  · intro t ht
    obtain ht | rfl := List.mem_append.1 ht |>.imp_right List.mem_singleton.1
    · exact hdb t ht
    · exact hc ia n cs rfl
  · exact fun t ht => hdb t (List.mem_filter.1 ht).1
  · intro t ht
    obtain ⟨v, hv, rfl⟩ := List.mem_map.1 ht
    split
    · exact hdb u (table?_mem hu)
    · exact hdb v hv

/-- A table that is cleared has no rows. -/
theorem apply_clear {t : Table} {name : String} (h : db.table? name = some t) :
    db.apply (.clear name) = .ok (db.replace { t with rows := [] }, none) := by
  have hnone : ((t.rows.zip (t.rows.map fun _ => true)).filter fun p => !p.2).map (·.1) = [] := by
    rw [List.map_eq_nil_iff, List.filter_eq_nil_iff]
    rintro ⟨row, mark⟩ hp
    obtain ⟨_, -, rfl⟩ := List.mem_map.1 (List.of_mem_zip hp).2
    simp
  simp only [Statement.clear, apply, delete, find_eq_ok.2 h, chosen, bind, Except.bind, pure, Except.pure, hnone]

/-! ## Requests -/

/-- What each statement preserves is preserved by a request, however it ends. -/
theorem runAll_preserves {I : Database → Prop} {statements : List Statement}
    (h : ∀ s ∈ statements, ∀ db db' answer, I db → db.apply s = .ok (db', answer) → I db')
    (closed : Bool) (last : Option (List Row)) (hdb : I db) :
    I (runAll closed db last statements).2 := by
  induction statements generalizing db last with
  | nil => exact hdb
  | cons s ss ih =>
    rw [runAll]
    split
    · next changed answer hs =>
      exact ih (fun t ht => h t (List.mem_cons_of_mem s ht)) _
        (h s List.mem_cons_self db changed answer hdb hs)
    · exact hdb

theorem run_batch_preserves {I : Database → Prop} {closed : Bool} {statements : List Statement}
    (h : ∀ s ∈ statements, ∀ db db' answer, I db → db.apply s = .ok (db', answer) → I db')
    (hdb : I db) : I (db.run (.batch closed statements)).2 :=
  runAll_preserves h closed none hdb

theorem runAll_cons_ok {closed : Bool} {s : Statement} {ss : List Statement}
    {last answer : Option (List Row)} (h : db.apply s = .ok (db', answer)) :
    runAll closed db last (s :: ss) = runAll closed db' (answer.or last) ss := by
  rw [runAll, h]

theorem run_single_ok {s : Statement} {answer : Option (List Row)}
    (h : db.apply s = .ok (db', answer)) : db.run (.single s) = (.ok answer, db') := by
  rw [Request.single, run, runAll_cons_ok h, runAll, Option.or_none]

/-- A selection changes nothing. -/
theorem run_select (db : Database) (q : Selection) : (db.run (.single (.select q))).2 = db :=
  run_batch_preserves (I := (· = db)) (fun s hs db₁ db₂ answer h₁ happly => by
    rw [List.mem_singleton.1 hs] at happly
    obtain rfl | ⟨_, _, _, _, _, h, -⟩ | ⟨_, _, h, -⟩ | ⟨_, h, -⟩ := apply_cases happly
    · exact h₁
    all_goals cases h) rfl

/-! ## Listed tables -/

variable {name : String}

theorem mem_tableNames :
    name ∈ db.tableNames ↔ (∃ t ∈ db.tables, t.name = name) ∧ isHidden name = false := by
  simp [tableNames]

/-- All tables have names in lower case. -/
def IsLowerCased (db : Database) : Prop := ∀ t ∈ db.tables, IsLower t.name

/-- In lower case, a table is found under a name only if it is listed under it. -/
theorem IsLowerCased.isSome_iff (h : db.IsLowerCased) (hname : IsLower name) :
    (db.table? name).isSome = true ↔ ∃ t ∈ db.tables, t.name = name := by
  constructor
  · intro hsome
    obtain ⟨t, ht⟩ := Option.isSome_iff_exists.1 hsome
    exact ⟨t, table?_mem ht, eq_of_sameName (h t (table?_mem ht)) hname (table?_name ht)⟩
  · rintro ⟨t, ht, rfl⟩
    exact table?_isSome_of_mem ht

/-- The request that drops some tables. -/
theorem run_discards (names : List String) (db : Database) :
    db.run (.lines (names.map Statement.discard)) = (.ok none, names.foldl remove db) := by
  have hall : ∀ db, runAll true db none (names.map Statement.discard)
      = (.ok none, names.foldl remove db) := by
    induction names with
    | nil => exact fun _ => rfl
    | cons name names ih =>
      intro db
      have hdrop : db.apply (.discard name) = .ok (db.remove name, none) := by
        simp only [Statement.discard, apply, drop_present]; rfl
      rw [List.map_cons, runAll_cons_ok hdrop]
      exact ih (db.remove name)
  exact hall db

theorem table?_foldl_remove (names : List String) (db : Database) (name : String) :
    (names.foldl remove db).table? name
      = if names.any (sameName · name) then none else db.table? name := by
  induction names generalizing db with
  | nil => rfl
  | cons n names ih =>
    rw [List.foldl_cons, ih, table?_remove, List.any_cons]
    by_cases h : sameName n name = true <;> simp [h]

theorem foldl_remove (names : List String) (db : Database) :
    names.foldl remove db = ⟨db.tables.filter fun t => names.all fun n => !sameName t.name n⟩ := by
  induction names generalizing db with
  | nil => simp
  | cons n names ih => rw [List.foldl_cons, ih, remove, List.filter_filter]; simp [Bool.and_comm]

/-- The tables that stay are those that have none of the names. -/
theorem foldl_remove_eq_filter {names : List String} {keeps : Table → Bool}
    (h : ∀ t ∈ db.tables, keeps t = true ↔ ∀ n ∈ names, sameName t.name n = false) :
    names.foldl remove db = ⟨db.tables.filter keeps⟩ := by
  rw [foldl_remove]
  congr 1
  refine List.filter_congr fun t ht => ?_
  rw [Bool.eq_iff_iff, h t ht]
  simp

theorem mem_tables_foldl_remove {names : List String} {t : Table} :
    t ∈ (names.foldl remove db).tables ↔ t ∈ db.tables ∧ ∀ n ∈ names, sameName t.name n = false := by
  rw [foldl_remove]
  simp

end Database

end Provenance.Store

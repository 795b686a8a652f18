import Provenance.Proofs.Concurrence
import Provenance.Proofs.Refills
import Provenance.Proofs.Renaming

/-!
# Databases that differ in one table

Two databases that are alike but for the rows of one table. A selection that does not read it gives the same in
both, and statements that neither read nor refill it leave them alike. Once the table is cleared in both, there
is no difference left.
-/

namespace Provenance.Store

/-! ## Rows that depend on some tables only -/

section Congr

variable {db db' : Database}

theorem Database.visible_congr {table : String} (h : db'.table? table = db.table? table) (source : String) :
    db'.visible table source = db.visible table source := by rw [visible, visible, h]

theorem Database.outline_congr {table : String} (h : db'.table? table = db.table? table) (source : String) :
    db'.outline table source = db.outline table source := by rw [outline, outline, h]

theorem Database.ids_congr {table : String} (h : db'.table? table = db.table? table) :
    db'.ids table = db.ids table := by
  rw [ids, ids, h]

namespace Condition

theorem holds_congr {c : Condition} (h : ∀ name ∈ c.table?, db'.table? name = db.table? name) (scope : Scope) :
    c.holds db' scope = c.holds db scope := by
  cases c with
  | within ref table => simp only [holds, holds?, member?, Database.ids_congr (h table rfl)]
  | outside ref table => simp only [holds, holds?, member?, Database.ids_congr (h table rfl)]
  | leastOf ref least table source agreeing => simp only [holds, holds?, Database.visible_congr (h table rfl)]
  | unmatched table source agreeing => simp only [holds, holds?, Database.visible_congr (h table rfl)]
  | _ => rfl

theorem surroundings_congr {c : Condition} (h : ∀ name ∈ c.table?, db'.table? name = db.table? name) (scope : Scope) :
    c.surroundings db' scope = c.surroundings db scope := by
  cases c with
  | leastOf ref least table source agreeing => simp only [surroundings, mentions, Database.outline_congr (h table rfl)]
  | unmatched table source agreeing => simp only [surroundings, mentions, Database.outline_congr (h table rfl)]
  | _ => rfl

end Condition

namespace Selection

variable {q : Selection} (h : ∀ name ∈ q.tables, db'.table? name = db.table? name)
include h

theorem source_congr {s : Source} (hs : s ∈ q.sources) : db'.table? s.table = db.table? s.table :=
  h _ (List.mem_append_left _ (List.mem_map_of_mem hs))

theorem condition_congr {s : Source} (hs : s ∈ q.sources) {c : Condition} (hc : c ∈ s.conditions) :
    ∀ name ∈ c.table?, db'.table? name = db.table? name := fun _ hname =>
  h _ (List.mem_append_right _ (List.mem_flatMap.2 ⟨s, hs, List.mem_filterMap.2 ⟨c, hc, hname⟩⟩))

theorem scopes_congr : scopes db' q.sources = scopes db q.sources := by
  unfold scopes
  refine List.foldl_ext _ _ _ fun found s hs => ?_
  refine List.flatMap_congr fun scope _ => ?_
  rw [extend, extend, Database.visible_congr (source_congr h hs)]
  refine List.filter_congr fun joined _ => ?_
  rw [Bool.eq_iff_iff, List.all_eq_true, List.all_eq_true]
  exact forall₂_congr fun c hc => by rw [Condition.holds_congr (condition_congr h hs hc)]

theorem unknownColumn?_congr : unknownColumn? db' q = unknownColumn? db q := by
  have hscope : (q.sources.map fun s => db'.outline s.table s.name)
      = q.sources.map fun s => db.outline s.table s.name :=
    List.map_congr_left fun s hs => Database.outline_congr (source_congr h hs) _
  have hconditions : ∀ scope : Scope, (q.sources.findSome? fun s =>
        s.conditions.findSome? fun c => missing (c.surroundings db' scope) c.mentions.1)
      = q.sources.findSome? fun s =>
        s.conditions.findSome? fun c => missing (c.surroundings db scope) c.mentions.1 :=
    fun scope => findSome?_congr fun s hs => findSome?_congr fun c hc => by
      rw [Condition.surroundings_congr (condition_congr h hs hc)]
  rw [unknownColumn?_eq, unknownColumn?_eq]
  dsimp only
  rw [hscope, hconditions]

/-- What a selection gives depends on the tables that it reads. -/
theorem rows_congr : q.rows db' = q.rows db := by
  have htables : (q.tables.find? fun t => (db'.table? t).isNone) = q.tables.find? fun t => (db.table? t).isNone :=
    List.find?_congr fun name hname => by rw [h name hname]
  rw [rows, rows, htables, unknownColumn?_congr h, answer, answer, scopes_congr h]

end Selection

end Congr

/-! ## Databases that differ in one table -/

namespace Database

variable {db db' db'' : Database} {table name : String}

/-- Two databases are alike but for the rows of one table. -/
structure AlikeBut (table : String) (db db' : Database) : Prop where
  others : Keeps db db' table
  cleared : (db'.table? table).map (fun t => { t with rows := [] })
    = (db.table? table).map fun t => { t with rows := [] }

namespace AlikeBut

theorem of_eq (h : ∀ name, db'.table? name = db.table? name) : AlikeBut table db db' :=
  ⟨fun name _ => h name, congrArg _ (h table)⟩

theorem symm (h : AlikeBut table db db') : AlikeBut table db' db :=
  ⟨fun name hname => (h.others name hname).symm, h.cleared.symm⟩

theorem trans (h : AlikeBut table db db') (h' : AlikeBut table db' db'') : AlikeBut table db db'' :=
  ⟨fun name hname => (h'.others name hname).trans (h.others name hname), h'.cleared.trans h.cleared⟩

theorem sameColumns (h : AlikeBut table db db') : SameColumns db db' := by
  intro name
  cases hname : sameName table name with
  | false => rw [h.others name hname]
  | true =>
    have hcolumns := congrArg (Option.map Table.columns) h.cleared
    rw [← table?_congr hname, ← table?_congr hname]
    simpa only [Option.map_map, Function.comp_def] using hcolumns

/-- A table that is refilled is no other table. -/
theorem of_rows {t : Table} (ht : db.table? table = some t) (rows : List Row) :
    AlikeBut table db (db.replace { t with rows }) := by
  obtain ⟨htable, hkeeps⟩ := table?_replace_rows ht rows
  exact ⟨hkeeps, by rw [htable, ht]; rfl⟩

end AlikeBut

end Database

/-! ## Statements in two databases -/

/-- The tables that a statement which refills one reads and writes. -/
def Statement.touched : Statement → List String
  | .insertFrom table q => table :: q.tables
  | .delete table _ => [table]
  | _ => []

/-- The statement neither reads nor refills the table. -/
def Statement.Avoids (table : String) (s : Statement) : Prop := ∀ name ∈ s.touched, sameName table name = false

namespace Database

variable {db db' : Database} {table : String} {s : Statement} {ss : List Statement}

/-- The statement fails alike in two databases, or puts the same table in the place of the one of that name. -/
def RefillsAlike (s : Statement) (table : String) (db db' : Database) : Prop :=
  (∃ c, db.apply s = .error c ∧ db'.apply s = .error c) ∨
    ∃ t, sameName t.name table = true ∧ db.apply s = .ok (db.replace t, none) ∧
      db'.apply s = .ok (db'.replace t, none)

theorem refillsAlike_clear (h : db'.table? table = db.table? table) : RefillsAlike (.clear table) table db db' := by
  cases ht : db.table? table with
  | none =>
    rw [ht] at h
    refine .inl ⟨.missingTable table, ?_, ?_⟩ <;> simp only [Statement.clear, apply, delete, find, ht, h] <;> rfl
  | some t =>
    rw [ht] at h
    have hname : sameName t.name table = true := table?_name ht
    exact .inr ⟨{ t with rows := [] }, hname, apply_clear ht, apply_clear h⟩

theorem refillsAlike_insertFrom {q : Selection} (h : db'.table? table = db.table? table)
    (hrows : q.rows db' = q.rows db) : RefillsAlike (.insertFrom table q) table db db' := by
  cases ht : db.table? table with
  | none =>
    rw [ht] at h
    refine .inl ⟨.missingTable table, ?_, ?_⟩ <;> simp only [apply, insertFrom, find, ht, h] <;> rfl
  | some t =>
    rw [ht] at h
    simp only [RefillsAlike, apply, insertFrom, find_eq_ok.2 ht, find_eq_ok.2 h, hrows, bind, Except.bind]
    cases q.rows db with
    | error c => exact .inl ⟨c, rfl, rfl⟩
    | ok rows =>
      dsimp only
      cases arrange t table [] rows with
      | error c => exact .inl ⟨c, rfl, rfl⟩
      | ok rows =>
        dsimp only
        cases hadd : t.addAll rows with
        | error c => exact .inl ⟨c, rfl, rfl⟩
        | ok u =>
          have hname : sameName t.name table = true := table?_name ht
          obtain rfl := Table.addAll_ok hadd
          exact .inr ⟨{ t with rows := t.rows ++ rows.map t.fit }, hname, rfl, rfl⟩

/-- A statement refills a table alike in two databases that have the same of the tables it touches. -/
theorem refillsAlike (hs : s.IsRefill) (h : ∀ name ∈ s.touched, db'.table? name = db.table? name) :
    ∃ table ∈ s.touched, RefillsAlike s table db db' := by
  cases hs with
  | clear table => exact ⟨table, List.mem_cons_self, refillsAlike_clear (h table List.mem_cons_self)⟩
  | insertFrom table q =>
    exact ⟨table, List.mem_cons_self, refillsAlike_insertFrom (h table List.mem_cons_self)
      (Selection.rows_congr fun name hname => h name (List.mem_cons_of_mem _ hname))⟩

/-! ## Requests in two databases -/

/-- The same tables. -/
def SameTables (db db' : Database) : Prop := ∀ name, db'.table? name = db.table? name

/-- The statement fails alike in two databases, or succeeds in both and leaves related ones. -/
def AppliesAlike (s : Statement) (I : Database → Database → Prop) (db db' : Database) : Prop :=
  (∃ c, db.apply s = .error c ∧ db'.apply s = .error c) ∨
    ∃ d d', db.apply s = .ok (d, none) ∧ db'.apply s = .ok (d', none) ∧ I d d'

variable {I E : Database → Database → Prop} {J : Option (List Row) → Database → Database → Prop} {closed : Bool}
  {last : Option (List Row)}

theorem AppliesAlike.cons (hs : AppliesAlike s I db db') (hE : E db db')
    (hss : ∀ d d', I d d' → Concur J E (runAll closed d last ss) (runAll closed d' last ss)) :
    Concur J E (runAll closed db last (s :: ss)) (runAll closed db' last (s :: ss)) := by
  rcases hs with ⟨c, hc, hc'⟩ | ⟨d, d', hd, hd', hdd⟩
  · rw [runAll, runAll, hc, hc']
    exact .inr ⟨_, db, db', rfl, rfl, hE⟩
  · rw [runAll_cons_ok hd, runAll_cons_ok hd', Option.none_or]
    exact hss d d' hdd

namespace SameTables

theorem appliesAlike (h : SameTables db db') (hs : s.IsRefill) : AppliesAlike s SameTables db db' := by
  obtain ⟨_, -, hfails | ⟨t, -, hd, hd'⟩⟩ := refillsAlike hs fun name _ => h name
  · exact .inl hfails
  · refine .inr ⟨_, _, hd, hd', fun name => ?_⟩
    rw [table?_replace, table?_replace, h name]

/-- In databases with the same tables the same happens. -/
theorem concur (h : SameTables db db') (hss : ∀ s ∈ ss, s.IsRefill) :
    Concur (fun _ => SameTables) SameTables (runAll closed db last ss) (runAll closed db' last ss) := by
  induction ss generalizing db db' with
  | nil => exact .inl ⟨last, db, db', rfl, rfl, h⟩
  | cons s ss ih =>
    exact (h.appliesAlike (hss s List.mem_cons_self)).cons h fun _ _ hdd =>
      ih hdd fun s hs => hss s (List.mem_cons_of_mem _ hs)

end SameTables

namespace AlikeBut

theorem appliesAlike (h : AlikeBut table db db') (hs : s.IsRefill) (havoids : s.Avoids table) :
    AppliesAlike s (AlikeBut table) db db' := by
  obtain ⟨name, hname, hfails | ⟨t, hsame, hd, hd'⟩⟩ := refillsAlike hs fun name hname =>
    h.others name (havoids name hname)
  · exact .inl hfails
  · have hother : sameName t.name table = false := by
      rw [sameName_congr hsame, sameName_comm]
      exact havoids name hname
    refine .inr ⟨_, _, hd, hd', fun other hname => ?_, ?_⟩
    · rw [table?_replace, table?_replace, h.others other hname]
    · rw [table?_replace, table?_replace, hother]
      exact h.cleared

/-- When the table is cleared, nothing is left in which the databases differ. -/
theorem appliesAlike_clear (h : AlikeBut table db db') : AppliesAlike (.clear table) SameTables db db' := by
  have hcleared := h.cleared
  cases ht : db.table? table with
  | none =>
    rw [ht, Option.map_none, Option.map_eq_none_iff] at hcleared
    refine .inl ⟨.missingTable table, ?_, ?_⟩ <;> simp only [Statement.clear, apply, delete, find, ht, hcleared] <;> rfl
  | some t =>
    rw [ht, Option.map_some, Option.map_eq_some_iff] at hcleared
    obtain ⟨t', ht', hcleared⟩ := hcleared
    refine .inr ⟨_, _, apply_clear ht, apply_clear ht', fun name => ?_⟩
    obtain ⟨htable, hkeeps⟩ := table?_replace_rows ht []
    obtain ⟨htable', hkeeps'⟩ := table?_replace_rows ht' []
    cases hname : sameName table name with
    | false => rw [hkeeps' name hname, h.others name hname, hkeeps name hname]
    | true => rw [← table?_congr hname, ← table?_congr hname, htable, htable', hcleared]

/-- Statements that keep off the table leave the rest alike. -/
theorem concur (h : AlikeBut table db db') (hss : ∀ s ∈ ss, s.IsRefill) (havoids : ∀ s ∈ ss, s.Avoids table) :
    Concur (fun _ => AlikeBut table) (AlikeBut table) (runAll closed db last ss) (runAll closed db' last ss) := by
  induction ss generalizing db db' with
  | nil => exact .inl ⟨last, db, db', rfl, rfl, h⟩
  | cons s ss ih =>
    exact (h.appliesAlike (hss s List.mem_cons_self) (havoids s List.mem_cons_self)).cons h fun _ _ hdd =>
      ih hdd (fun s hs => hss s (List.mem_cons_of_mem _ hs)) fun s hs => havoids s (List.mem_cons_of_mem _ hs)

/-- Statements that clear the table before they touch it. -/
theorem concur_cleared {before after : List Statement} (h : AlikeBut table db db')
    (hbefore : ∀ s ∈ before, s.IsRefill) (havoids : ∀ s ∈ before, s.Avoids table) (hafter : ∀ s ∈ after, s.IsRefill) :
    Concur (fun _ => SameTables) (AlikeBut table) (runAll closed db last (before ++ .clear table :: after))
      (runAll closed db' last (before ++ .clear table :: after)) := by
  induction before generalizing db db' with
  | nil =>
    exact h.appliesAlike_clear.cons h fun _ _ hsame =>
      (hsame.concur hafter).mono (fun _ _ _ h => h) fun _ _ h => .of_eq h
  | cons s before ih =>
    exact (h.appliesAlike (hbefore s List.mem_cons_self) (havoids s List.mem_cons_self)).cons h fun _ _ hdd =>
      ih hdd (fun s hs => hbefore s (List.mem_cons_of_mem _ hs)) fun s hs => havoids s (List.mem_cons_of_mem _ hs)

end AlikeBut

end Database

end Provenance.Store

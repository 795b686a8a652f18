import Provenance.Proofs.Relations
import Provenance.Proofs.TypedTables

/-!
# Requests that succeed

A *schema* says which tables are to be there, and with which columns. On a database that meets it,
statements that only mention what the schema has cannot fail, and leave a database that meets it.
This is followed from statements to requests and to scratch tables. One thing can still go wrong: a
table may have more rows than a 64-bit word can count.
-/

namespace Provenance

open Store

/-! ## Actions that end without an error -/

namespace Action

variable {σ τ ε α β : Type} {E : ε → Prop} {I : σ → Prop} {J : α → σ → Prop}

/-- From states with a property the action succeeds, and what holds then is said by another one, or
it ends with one of the given errors. -/
def Ends (E : ε → Prop) (I : σ → Prop) (a : Action σ ε α) (J : α → σ → Prop) : Prop :=
  ∀ s, I s → (∃ x t, a.runFrom s = (.ok x, t) ∧ J x t) ∨ ∃ e t, a.runFrom s = (.error e, t) ∧ E e

namespace Ends

theorem pure {x : α} (h : ∀ s, I s → J x s) : Ends E I (pure x) J := fun s hs =>
  .inl ⟨x, s, rfl, h s hs⟩

theorem bind {a : Action σ ε α} {f : α → Action σ ε β} {K : β → σ → Prop} (ha : Ends E I a J)
    (hf : ∀ x, Ends E (J x) (f x) K) : Ends E I (a >>= f) K := by
  intro s hs
  obtain ⟨x, t, hx, ht⟩ | ⟨e, t, he, hE⟩ := ha s hs
  · rw [runFrom_bind_ok hx]
    exact hf x t ht
  · exact .inr ⟨e, t, runFrom_bind_error he f, hE⟩

theorem map {a : Action σ ε α} {g : α → β} {K : β → σ → Prop} (ha : Ends E I a J)
    (hg : ∀ x s, J x s → K (g x) s) : Ends E I (g <$> a) K := by
  intro s hs
  rw [runFrom_map]
  obtain ⟨x, t, hx, ht⟩ | ⟨e, t, he, hE⟩ := ha s hs
  · rw [hx]; exact .inl ⟨g x, t, rfl, hg x t ht⟩
  · rw [he]; exact .inr ⟨e, t, rfl, hE⟩

theorem mono {a : Action σ ε α} {I' : σ → Prop} {J' : α → σ → Prop} (ha : Ends E I a J)
    (hI : ∀ s, I' s → I s) (hJ : ∀ x s, J x s → J' x s) : Ends E I' a J' := fun s hs =>
  (ha s (hI s hs)).imp_left fun ⟨x, t, hx, ht⟩ => ⟨x, t, hx, hJ x t ht⟩

/-- A fact that does not speak of the state may be used throughout. -/
theorem of_fact {a : Action σ ε α} {P : Prop} (h : P → Ends E I a J) :
    Ends E (fun s => I s ∧ P) a J := fun s hs => h hs.2 s hs.1

theorem forM {f : β → Action σ ε PUnit} {xs : List β}
    (h : ∀ x ∈ xs, Ends E I (f x) fun _ => I) : Ends E I (xs.forM f) fun _ => I := by
  induction xs with
  | nil => exact .pure fun _ h => h
  | cons x xs ih =>
    exact .bind (h x List.mem_cons_self) fun _ => ih fun y hy => h y (List.mem_cons_of_mem x hy)

theorem foldlM {f : β → α → Action σ ε β} {xs : List α}
    (h : ∀ y, ∀ x ∈ xs, Ends E I (f y x) fun _ => I) (y : β) :
    Ends E I (xs.foldlM f y) fun _ => I := by
  induction xs generalizing y with
  | nil => exact .pure fun _ h => h
  | cons x xs ih =>
    rw [List.foldlM_cons]
    exact .bind (h y x List.mem_cons_self) (ih fun y z hz => h y z (List.mem_cons_of_mem x hz))

end Ends

end Action

open Action

/-! ## Schemas -/

/-- Which tables are to be there, with their columns. -/
abbrev Schema := String → List Column → Prop

/-- All tables of the schema are there, and typed. -/
def Store.Database.Meets (db : Database) (S : Schema) : Prop :=
  ∀ name columns, S name columns → db.Has name columns

/-- No scratch table can be taken for a table of the schema. -/
def Schema.IsApart (S : Schema) : Prop :=
  ∀ name columns, S name columns → ∀ table, IsScratch table → sameName table name = false

/-- The schema with scratch tables of integers. -/
def Schema.plus (S : Schema) (scratch : List (String × List String)) : Schema :=
  fun name columns => S name columns ∨ ∃ names, (name, names) ∈ scratch ∧
    columns = names.map Column.integer

theorem Schema.plus_of_mem {S : Schema} {scratch : List (String × List String)} {name : String}
    {names : List String} (h : (name, names) ∈ scratch) :
    S.plus scratch name (names.map Column.integer) := .inr ⟨names, h, rfl⟩

theorem Schema.plus_mono {S : Schema} {scratch scratch' : List (String × List String)}
    (h : scratch ⊆ scratch') (name : String) (columns : List Column)
    (hname : S.plus scratch name columns) : S.plus scratch' name columns :=
  hname.imp_right fun ⟨names, hmem, heq⟩ => ⟨names, h hmem, heq⟩

/-- On databases that meet the schema the statement succeeds, and they still meet it. -/
def Store.Statement.Works (S : Schema) (s : Statement) : Prop :=
  ∀ db : Database, db.Meets S → ∃ db' answer, db.apply s = .ok (db', answer) ∧ db'.Meets S

namespace Store.Statement.Works

open Database

variable {S : Schema} {table : String} {columns : List Column}

/-- A table of the schema may get other rows. -/
theorem meets_replace {db : Database} (hdb : db.Meets S) {t : Table} (ht : db.table? table = some t)
    {rows : List Row} (hrows : Table.IsTyped { t with rows }) : (db.replace { t with rows }).Meets S := by
  intro name cs hname
  obtain ⟨u, hu, hun, rfl, htyped⟩ := hdb name cs hname
  by_cases hsame : sameName t.name name = true
  · have hut : u = t := by
      have : db.table? table = db.table? name :=
        table?_congr (Store.sameName_trans ((sameName_comm _ _).trans (table?_name ht)) hsame)
      rw [ht, hu] at this
      exact (Option.some.inj this).symm
    subst hut
    exact ⟨{ u with rows }, by rw [table?_replace, if_pos hsame, hu]; rfl, hun, rfl, hrows⟩
  · exact ⟨u, by rw [table?_replace, if_neg hsame, hu], hun, rfl, htyped⟩

theorem insertFrom (htable : S table columns) (hopen : Table.IsOpen columns) {q : Selection}
    (hq : ∀ db : Database, db.Meets S → q.Gives db columns) : Works S (.insertFrom table q) := by
  intro db hdb
  obtain ⟨t, ht, -, rfl, htyped⟩ := hdb _ _ htable
  obtain ⟨rows, hrows, hsuits⟩ := (hq db hdb).rows
  have harrange : arrange t table [] rows = .ok rows := by
    have : (rows.find? fun r => r.length != t.columns.length) = none :=
      List.find?_eq_none.2 fun r hr => by simp [(hsuits r hr).length_eq]
    simp [arrange, this]
  refine ⟨_, none, ?_, meets_replace hdb ht (htyped.append hsuits)⟩
  simp only [apply, Database.insertFrom, find_eq_ok.2 ht, hrows, harrange,
    Table.addAll_of_isOpen hopen rows, bind, Except.bind, pure, Except.pure]

theorem clear (htable : S table columns) : Works S (.clear table) := by
  intro db hdb
  obtain ⟨t, ht, -, rfl, htyped⟩ := hdb _ _ htable
  exact ⟨_, none, apply_clear ht, meets_replace hdb ht nofun⟩

/-- Words can be added to a table of ids. -/
theorem insertIds (htable : S table [.integer "id"]) {ids : List Int}
    (hids : ∀ n ∈ ids, Text.isWord n = true) : Works S (.insertIds table ids) := by
  intro db hdb
  obtain ⟨t, ht, -, hcolumns, htyped⟩ := hdb _ _ htable
  have hopen : Table.IsOpen t.columns := by rw [hcolumns]; decide
  have hindex : t.index? "id" = some 0 := by rw [Table.index?, hcolumns]; rfl
  have harrange : arrange t table ["id"] (idRows ids) = .ok ((idRows ids).map (spread t ["id"])) := by
    have : ((idRows ids).find? fun r => r.length != 1) = none :=
      List.find?_eq_none.2 fun r hr => by
        obtain ⟨n, -, rfl⟩ := List.mem_map.1 hr
        simp
    simp [arrange, hindex, this]
  have hsuits : ∀ row ∈ (idRows ids).map (spread t ["id"]), Suits t.columns row := fun row hrow => by
    obtain ⟨r, hr, rfl⟩ := List.mem_map.1 hrow
    obtain ⟨n, hn, rfl⟩ := List.mem_map.1 hr
    rw [spread, hcolumns]
    exact .cons (fun _ => ⟨n, by simp [Column.integer], hids n hn⟩) .nil
  refine ⟨_, none, ?_, meets_replace hdb ht (htyped.append hsuits)⟩
  simp only [Statement.insertIds, apply, Database.insert, find_eq_ok.2 ht, harrange,
    Table.addAll_of_isOpen hopen, bind, Except.bind, pure, Except.pure]

end Store.Statement.Works

/-! ## Requests -/

/-- More rows were counted than a word can tell. -/
def TooMany (e : BackendError) : Prop :=
  ∃ n, Text.isWord n = false ∧ e = .unexpected (Text.decimal n)

namespace Backend

variable {σ α : Type} {b : Backend σ} {I : Schema → σ → Prop} {S T : Schema}

/-- Requests that succeed on all databases with a schema succeed; `I S` says that the database of a
state meets the schema. -/
structure Serves (b : Backend σ) (I : Schema → σ → Prop) : Prop where
  mono : ∀ {S T : Schema}, (∀ name columns, T name columns → S name columns) → ∀ s, I S s → I T s
  perform : ∀ {S T : Schema} {r : Request},
    (∀ db : Database, db.Meets S → ∃ answer db', db.run r = (.ok answer, db') ∧ db'.Meets T) →
    Ends TooMany (I S) (b.perform r) fun _ => I T
  queryRows : ∀ {S : Schema} {q : Selection} {columns : List Column},
    (∀ db : Database, db.Meets S → q.Gives db columns) →
    Ends TooMany (I S) (b.queryRows (.single (.select q))) fun rows s =>
      I S s ∧ ∀ row ∈ rows, ∃ cells, Suits columns cells ∧ row = cells.map Cell.shown
  count : ∀ {S : Schema} {table : String} {columns : List Column}, S table columns →
    Ends TooMany (I S) (b.count table) fun _ => I S

/-! ## The store in memory -/

theorem run_works {ss : List Statement} (hss : ∀ s ∈ ss, s.Works S) (closed : Bool) {db : Database}
    (hdb : db.Meets S) :
    ∃ answer db', db.run (.batch closed ss) = (.ok answer, db') ∧ db'.Meets S := by
  suffices ∀ (last : Option (List Row)) (db : Database), db.Meets S →
      ∃ answer db', Database.runAll closed db last ss = (.ok answer, db') ∧ db'.Meets S from
    this none db hdb
  clear hdb db
  induction ss with
  | nil => intro last db hdb; exact ⟨last, db, rfl, hdb⟩
  | cons s ss ih =>
    intro last db hdb
    obtain ⟨db', answer, hs, hdb'⟩ := hss s List.mem_cons_self db hdb
    rw [Database.runAll_cons_ok hs]
    exact ih (fun s hs => hss s (List.mem_cons_of_mem _ hs)) _ db' hdb'

theorem run_select_ok {db : Database} {q : Selection} {rows : List Row}
    (h : q.shownRows db = .ok rows) : db.run (.single (.select q)) = (.ok (some rows), db) :=
  Database.run_single_ok (by
    simp only [Database.apply, h, bind, Except.bind, pure, Except.pure])

/-- The rows of a table are counted in one number. -/
theorem execute_countOf {db : Database} {table : String} {t : Table} (ht : db.table? table = some t) :
    (memory.execute (.single (.select (.countOf table)))).runFrom db = (.ok (Text.decimal t.rows.length), db) := by
  have hscopes : (Selection.scopes db (Selection.countOf table).sources).length = t.rows.length := by
    rw [Selection.countOf, Selection.ids, Selection.columns, Selection.scopes_single ht]
    simp
  have hrows : (Selection.countOf table).shownRows db = .ok [[.integer t.rows.length]] := by
    have htables : ((Selection.countOf table).tables.find? fun t => (db.table? t).isNone) = none := by
      simp [Selection.tables, Selection.countOf, Selection.ids, Selection.columns, ht]
    have hunknown : (Selection.countOf table).unknownColumn? db = none := rfl
    have hscanned : (Selection.countOf table).scannedIndex? db = none := rfl
    rw [Selection.shownRows, hscanned]
    simp only [Selection.rows, htables, hunknown]
    rw [← hscopes]
    rfl
  have hshown : (runShown (.single (.select (.countOf table)))).runFrom db
      = (.ok [[Text.decimal t.rows.length]], db) := by
    simp only [runShown, runFrom_of, run_select_ok hrows]
    rfl
  simp only [memory]
  rw [runFrom_bind_ok hshown]
  rfl

/-- A store in memory serves requests on its database. -/
theorem IsDatabase.serves {view : σ → Database} (hb : b.IsDatabase view False) :
    b.Serves fun S s => (view s).Meets S where
  mono h s hs name columns hname := hs name columns (h name columns hname)
  perform h s hs := by
    obtain ⟨answer, db', hrun, hmeets⟩ := h _ hs
    obtain ⟨hfails, -⟩ | ⟨t, ht, hview⟩ := hb.perform_ok hrun
    · exact hfails.elim
    · exact .inl ⟨(), t, ht, show (view t).Meets _ by rw [hview]; exact hmeets⟩
  queryRows {S q columns} hq s hs := by
    obtain ⟨rows, hrows, hsuits⟩ := (hq _ hs).shownRows
    obtain ⟨hfails, -⟩ | ⟨hresult, hview⟩ := hb.queryRows (.single (.select q)) s
    · exact hfails.elim
    simp only [memory, runShown, runFrom_of, run_select_ok hrows, Option.getD_some] at hresult hview
    refine .inl ⟨_, ((b.queryRows (.single (.select q))).runFrom s).2, Prod.ext hresult rfl,
      hview ▸ hs, fun row hrow => ?_⟩
    obtain ⟨cells, hcells, rfl⟩ := List.mem_map.1 hrow
    exact ⟨cells, hsuits cells hcells, rfl⟩
  count {S table columns} htable s hs := by
    obtain ⟨t, ht, -⟩ := hs _ _ htable
    obtain ⟨hfails, -⟩ | ⟨hresult, hview⟩ := hb.execute (.single (.select (.countOf table))) s
    · exact hfails.elim
    rw [execute_countOf ht] at hresult hview
    have hexecute : (b.execute (.single (.select (.countOf table)))).runFrom s
        = (.ok (Text.decimal t.rows.length), ((b.execute (.single (.select (.countOf table)))).runFrom s).2) :=
      Prod.ext hresult rfl
    rw [count, integer, runFrom_bind_ok hexecute, Text.trimmedWord?_decimal_eq]
    by_cases hn : Text.isWord t.rows.length = true
    · rw [Option.filter_some_pos hn]
      exact .inl ⟨_, _, rfl, show (view _).Meets S by rw [hview]; exact hs⟩
    · rw [Option.filter_some_neg (by simpa using hn), Text.trimBlanks_decimal]
      exact .inr ⟨_, _, rfl, _, by simpa using hn, rfl⟩

namespace Serves

variable (h : b.Serves I)
include h

theorem lines {ss : List Statement} (hss : ∀ s ∈ ss, s.Works S) :
    Ends TooMany (I S) (b.perform (.lines ss)) fun _ => I S :=
  h.perform fun _ hdb => run_works hss true hdb

theorem performAll {ss : List Statement} (hss : ∀ s ∈ ss, s.Works S) :
    Ends TooMany (I S) (b.performAll ss) fun _ => I S :=
  h.perform fun _ hdb => run_works hss false hdb

theorem performOne {s : Statement} (hs : s.Works S) :
    Ends TooMany (I S) (b.performAll [s]) fun _ => I S := h.performAll (by simpa using hs)

end Serves

/-! ## Scratch tables -/

section Along

variable {τ : Type} (l : Lens τ σ) (b) (t : τ)

theorem runFrom_perform_along (r : Request) :
    ((b.along l).perform r).runFrom t = ((b.perform r).along l).runFrom t := by
  simp only [Backend.perform, along, runFrom_bind, runFrom_along]
  generalize (b.execute r).runFrom (l.get t) = x
  obtain ⟨_ | _, s⟩ := x <;> rfl

theorem runFrom_count_along (table : String) :
    ((b.along l).count table).runFrom t = ((b.count table).along l).runFrom t := by
  simp only [Backend.count, integer, along, runFrom_bind, runFrom_along]
  generalize (b.execute _).runFrom (l.get t) = x
  obtain ⟨_ | output, s⟩ := x
  · rfl
  · simp only
    split <;> rfl

end Along

open Guards (Tidy)

theorem ends_scratch {E : BackendError → Prop} {J : σ → Prop} {K : α → σ → Prop}
    {a : Action σ BackendError α} (ha : Ends E J a K) :
    Ends E (Tidy J) (a.along Scratch.storeLens) fun x => Tidy (K x) := by
  rintro s ⟨htables, hs⟩
  rw [runFrom_along]
  obtain ⟨x, t, hx, ht⟩ | ⟨e, t, he, hE⟩ := ha s.store hs
  · exact .inl ⟨x, ⟨s.tables, t⟩, by simp only [Scratch.storeLens, hx], htables, ht⟩
  · exact .inr ⟨e, ⟨s.tables, t⟩, by simp only [Scratch.storeLens, he], hE⟩

namespace Serves

variable (h : b.Serves I)
include h

theorem scratch : (b.along Scratch.storeLens).Serves fun S => Tidy (I S) where
  mono hST s hs := ⟨hs.1, h.mono hST _ hs.2⟩
  perform hr s hs := by
    rw [runFrom_perform_along]
    exact ends_scratch (h.perform hr) s hs
  queryRows hq := (ends_scratch (h.queryRows hq)).mono (fun _ hs => hs)
    fun _ _ hs => ⟨⟨hs.1, hs.2.1⟩, hs.2.2⟩
  count htable s hs := by
    rw [runFrom_count_along]
    exact ends_scratch (h.count htable) s hs

/-- Scratch tables can be dropped. -/
theorem finish (hS : S.IsApart) :
    Ends TooMany (Tidy (I S)) (Scratch.finish b) fun _ => Tidy (I S) := by
  rintro s ⟨htables, hs⟩
  have hdrop : Ends TooMany (I S) (b.perform (.lines (s.tables.map Statement.discard))) fun _ => I S := by
    refine h.perform fun db hdb => ⟨none, _, Database.run_discards s.tables db, fun name cs hname => ?_⟩
    refine (hdb name cs hname).congr ?_
    rw [Database.table?_foldl_remove, if_neg]
    rw [Bool.not_eq_true, List.any_eq_false]
    exact fun table ht => by rw [hS name cs hname table (htables table ht)]; decide
  simp only [Scratch.finish, runFrom_bind, runFrom_get, runFrom_set]
  split
  · exact .inl ⟨(), _, rfl, by simp, hs⟩
  · exact ends_scratch hdrop _ ⟨by simp, hs⟩

/-- A body that uses scratch tables succeeds as part of the whole. -/
theorem within (hS : S.IsApart) (scratch : List (String × List String))
    {body : Backend (Scratch σ) → Action (Scratch σ) BackendError α}
    (hbody : Ends TooMany (Tidy (I (S.plus []))) (body (b.along Scratch.storeLens))
      fun _ => Tidy (I (S.plus scratch))) :
    Ends TooMany (I S) (Scratch.within b body) fun _ => I S := by
  intro s hs
  have hstart : I (S.plus []) s := h.mono (by simp [Schema.plus]) s hs
  simp only [Scratch.within, runFrom_of]
  obtain ⟨x, t, hx, ht⟩ | ⟨e, t, he, hE⟩ := hbody (Scratch.start s)
    ⟨by simp [Scratch.start], hstart⟩
  · simp only [hx]
    obtain ⟨_, u, hu, hfinish⟩ | ⟨e, u, he, hE⟩ :=
      h.finish hS t ⟨ht.1, h.mono (fun _ _ => .inl) _ ht.2⟩
    · exact .inl ⟨x, u.store, by rw [hu], hfinish.2⟩
    · exact .inr ⟨e, u.store, by rw [he], hE⟩
  · simp only [he]
    exact .inr ⟨e, _, rfl, hE⟩

omit h in
/-- A scratch table can be created anew. The tables that were there still are. -/
theorem runs_creation (hS : S.IsApart) {scratch : List (String × List String)} {name : String}
    (names : List String) (hname : IsScratch (scratchPrefix ++ name))
    (hnew : ∀ table ∈ scratch.map Prod.fst, IsLower table ∧ scratchPrefix ++ name ≠ table) {db : Database}
    (hdb : db.Meets (S.plus scratch)) : ∃ db', db.run (.sequence [.discard (scratchPrefix ++ name),
        .create false (scratchPrefix ++ name) (.known (names.map Column.integer))]) = (.ok none, db') ∧
      db'.Meets (S.plus ((scratchPrefix ++ name, names) :: scratch)) := by
  have hkeys : (names.map Column.integer).filter Column.primaryKey = [] := by
    simp [Column.integer]
  have hreserved : Database.isReserved (scratchPrefix ++ name) = false :=
    isReserved_eq_false (by
      rw [folded_append, show folded scratchPrefix = ['m', '_'] by decide]; simp)
  have hnone : (db.remove (scratchPrefix ++ name)).table? (scratchPrefix ++ name) = none := by
    rw [Database.table?_remove, if_pos (sameName_self _)]
  refine ⟨_, by
    rw [Request.sequence, Database.run, Database.runAll_cons_ok (apply_discard db _),
      Database.runAll_cons_ok (apply_create hreserved hkeys hnone)]
    rfl, fun table columns htable => ?_⟩
  have hother : sameName (scratchPrefix ++ name) table = false → db.Has table columns →
      ((db.remove (scratchPrefix ++ name)).add
        (newTable (scratchPrefix ++ name) (names.map Column.integer))).Has table columns := by
    intro hne hhas
    refine hhas.congr ?_
    rw [Database.table?_add, Database.table?_remove, hne]
    simp [newTable, hne]
  obtain htable | ⟨ns, hmem, rfl⟩ := htable
  · exact hother (hS table columns htable _ hname) (hdb _ _ (.inl htable))
  obtain heq | hmem := List.mem_cons.1 hmem
  · cases heq
    refine ⟨newTable (scratchPrefix ++ name) (names.map Column.integer), ?_, rfl, rfl, by
      simp [newTable, Table.IsTyped]⟩
    rw [Database.table?_add, hnone]
    simp [newTable]
  · obtain ⟨hlower, hne⟩ := hnew table (List.mem_map_of_mem hmem)
    refine hother ?_ (hdb _ _ (.inr ⟨ns, hmem, rfl⟩))
    rw [sameName_of_isLower hname.2 hlower, decide_eq_false hne]

/-- What comes after a scratch table is created may use it. -/
theorem createIntegers_bind (hS : S.IsApart) {scratch : List (String × List String)} {name : String}
    {names : List String} (hname : IsScratch (scratchPrefix ++ name))
    (hnew : ∀ table ∈ scratch.map Prod.fst, IsLower table ∧ scratchPrefix ++ name ≠ table)
    {next : String → Action (Scratch σ) BackendError α} {J : α → Scratch σ → Prop}
    (hnext : Ends TooMany (Tidy (I (S.plus ((scratchPrefix ++ name, names) :: scratch))))
      (next (scratchPrefix ++ name)) J) :
    Ends TooMany (Tidy (I (S.plus scratch)))
      (Scratch.createIntegers (b.along Scratch.storeLens) name names >>= next) J := by
  simp only [Scratch.createIntegers, Scratch.create, bind_assoc, pure_bind]
  refine (h.scratch.perform (T := S.plus ((scratchPrefix ++ name, names) :: scratch)) fun db hdb =>
    ⟨none, runs_creation hS names hname hnew hdb⟩).bind fun _ => ?_
  -- the table is remembered, to be dropped in the end
  refine Ends.bind (J := fun _ => Tidy (I (S.plus ((scratchPrefix ++ name, names) :: scratch)))) ?_ fun _ => hnext
  rintro s ⟨htables, hs⟩
  refine .inl ⟨⟨⟩, _, rfl, ?_⟩
  unfold Scratch.remember
  split
  · exact ⟨htables, hs⟩
  · refine ⟨fun table ht => ?_, hs⟩
    obtain ht | ht := List.mem_append.1 ht
    · exact htables table ht
    · rw [List.mem_singleton.1 ht]; exact hname

end Serves

end Backend

end Provenance

import Provenance.Proofs.TidyStores

/-!
# Traversals of the base graph

A traversal keeps to the edges of its subject by a condition, which it leaves out if the subject is the
base graph. That is right because the base graph has just the recorded edges, after whatever was recorded,
reset, collected or queried. So a traversal of any graph with the same edges does the same, request by
request: the condition holds for every recorded edge.
-/

namespace Provenance

open Store Database SymbolTable Action

/-! ## Actions that do the same -/

namespace Action

variable {σ ε α β : Type} {I : σ → Prop}

/-- From states with the property, both actions end alike, and they preserve the property. -/
def Same (I : σ → Prop) (a a' : Action σ ε α) : Prop :=
  ∀ s, I s → a.runFrom s = a'.runFrom s ∧ I (a'.runFrom s).2

theorem Preserves.same {a : Action σ ε α} (h : Preserves I a) : Same I a a := fun s hs => ⟨rfl, h s hs⟩

theorem Same.preserves {a a' : Action σ ε α} (h : Same I a a') : Preserves I a' := fun s hs => (h s hs).2

theorem Same.bind {a a' : Action σ ε α} {f f' : α → Action σ ε β} (ha : Same I a a')
    (hf : ∀ x, Same I (f x) (f' x)) : Same I (a >>= f) (a' >>= f') := by
  intro s hs
  obtain ⟨heq, hI⟩ := ha s hs
  rw [runFrom_bind, runFrom_bind, heq]
  generalize a'.runFrom s = x at hI
  obtain ⟨_ | x, t⟩ := x
  · exact ⟨rfl, hI⟩
  · exact hf x t hI

theorem Same.forM {f f' : β → Action σ ε PUnit} {xs : List β} (h : ∀ x ∈ xs, Same I (f x) (f' x)) :
    Same I (xs.forM f) (xs.forM f') := by
  induction xs with
  | nil => exact (Preserves.pure _).same
  | cons x xs ih =>
    rw [forM_cons, forM_cons]
    exact (h x List.mem_cons_self).bind fun _ => ih fun y hy => h y (List.mem_cons_of_mem x hy)

end Action

/-! ## Failures without a place -/

namespace Store

/-- If this fails, the failure shows no place in a text. -/
def Unsited {α : Type} (result : Except Cause α) : Prop := ∀ c, result = .error c → c.isSited = false

namespace Unsited

variable {α β : Type}

theorem ok (x : α) : Unsited (.ok x) := nofun

theorem error {c : Cause} (h : c.isSited = false) : Unsited (.error c : Except Cause α) := by
  rintro _ ⟨⟩
  exact h

theorem bind {result : Except Cause α} {f : α → Except Cause β} (h : Unsited result) (hf : ∀ x, Unsited (f x)) :
    Unsited (result >>= f) := by
  cases result with
  | ok x => exact hf x
  | error c => exact .error (h c rfl)

theorem foldlM {f : β → α → Except Cause β} (h : ∀ y x, Unsited (f y x)) (xs : List α) (y : β) :
    Unsited (xs.foldlM f y) := by
  induction xs generalizing y with
  | nil => exact .ok y
  | cons x xs ih => exact (h y x).bind ih

theorem find (db : Database) (table : String) : Unsited (db.find table) := by
  unfold Database.find
  split
  · exact .ok _
  · exact .error rfl

theorem rows (db : Database) (q : Selection) : Unsited (q.rows db) := by
  unfold Selection.rows
  split
  · exact .error rfl
  · split
    · exact .error rfl
    · exact .ok _

theorem arrange (t : Table) (written : String) (names : List String) (rows : List Row) :
    Unsited (Database.arrange t written names rows) := by
  unfold Database.arrange
  split
  · split
    · exact .error rfl
    · exact .ok _
  · dsimp only
    split
    · exact .error rfl
    · exact .error rfl
    · exact .ok _

theorem add (t : Table) (row : Row) : Unsited (t.add row) := by
  unfold Table.add
  dsimp only
  split
  · next cause h =>
    refine .error ?_
    rw [Table.violation?, Option.or_eq_some_iff] at h
    obtain h | ⟨-, h⟩ := h
    · obtain ⟨p, -, hp⟩ := List.exists_of_findSome?_eq_some h
      rw [← (Option.some.inj (Option.ite_none_right_eq_some.1 hp).2)]
      rfl
    · obtain ⟨p, -, hp⟩ := List.exists_of_findSome?_eq_some h
      rw [← (Option.some.inj (Option.ite_none_right_eq_some.1 hp).2)]
      rfl
  · exact .ok _

theorem addAll (t : Table) (rows : List Row) : Unsited (t.addAll rows) := by
  unfold Table.addAll
  split
  · exact foldlM add rows t
  · exact .ok _

theorem insertFrom (db : Database) (table : String) (q : Selection) : Unsited (db.insertFrom table q) :=
  (find db table).bind fun t => (rows db q).bind fun found => (arrange t table [] found).bind fun found =>
    (addAll t found).bind fun _ => .ok _

theorem clear (db : Database) (table : String) : Unsited (db.delete table none) :=
  (find db table).bind fun _ => .ok _

end Unsited

/-! ## Statements that do the same -/

/-- Statements that empty the same table, or add to it the rows of selections that give the same. -/
inductive Statement.Refills (I : Database → Prop) : Statement → Statement → Prop
  | clear (table : String) : Refills I (.clear table) (.clear table)
  | insertFrom (table : String) {q q' : Selection} (h : ∀ db, I db → q.rows db = q'.rows db) :
    Refills I (.insertFrom table q) (.insertFrom table q')

namespace Statement.Refills

variable {I : Database → Prop} {s s' : Statement}

theorem refl_insertFrom (table : String) (q : Selection) : Refills I (.insertFrom table q) (.insertFrom table q) :=
  .insertFrom table fun _ _ => rfl

theorem apply_eq (h : Refills I s s') {db : Database} (hdb : I db) : db.apply s = db.apply s' := by
  cases h with
  | clear table => rfl
  | insertFrom table h => simp only [apply, Database.insertFrom, h db hdb]

theorem unsited (h : Refills I s s') (db : Database) : Unsited (db.apply s') := by
  cases h with
  | clear table => exact (Unsited.clear db table).bind fun _ => .ok _
  | @insertFrom table q q' _ => exact (Unsited.insertFrom db table q').bind fun _ => .ok _

end Statement.Refills

/-- Batches of such statements do the same, one statement after the other. -/
theorem Database.runAll_congr {I : Database → Prop} {ss ss' : List Statement}
    (hss : List.Forall₂ (Statement.Refills I) ss ss')
    (hI : ∀ s ∈ ss', ∀ db db' answer, I db → db.apply s = .ok (db', answer) → I db') (closed : Bool)
    {db : Database} (hdb : I db) (last : Option (List Row)) :
    Database.runAll closed db last ss = Database.runAll closed db last ss' := by
  induction hss generalizing db last with
  | nil => rfl
  | @cons s s' ss ss' hs _ ih =>
    rw [Database.runAll, Database.runAll, hs.apply_eq hdb]
    cases happly : db.apply s' with
    | ok changed =>
      exact ih (fun t ht => hI t (List.mem_cons_of_mem s' ht)) (hI s' List.mem_cons_self db _ _ hdb happly) _
    | error c => simp only [Cause.toFault, hs.unsited db c happly, Bool.false_eq_true, if_false]

/-! ## Conditions that always hold -/

/-- A condition that holds for every row of a table. -/
structure Condition.Redundant (db : Database) (table : String) (c : Condition) : Prop where
  present : ∀ other ∈ c.table?, (db.table? other).isSome = true
  outer : c.mentions.2 = none
  known : ∀ ref ∈ c.mentions.1, Scope.knows [db.outline table table] ref = true
  holds : ∀ v ∈ db.visible table table, c.holds db [v] = true

/-- Such conditions may be left out. -/
theorem Selection.rows_redundant {db : Database} {q : Selection} {table : String} {conditions extra : List Condition}
    (hq : q.sources = [⟨table, none, conditions⟩]) (hextra : ∀ c ∈ extra, c.Redundant db table) :
    Selection.rows db { q with sources := [⟨table, none, conditions ++ extra⟩] } = Selection.rows db q := by
  have hname : ∀ cs, Source.name ⟨table, none, cs⟩ = table := fun _ => rfl
  have htables : ((Selection.tables { q with sources := [⟨table, none, conditions ++ extra⟩] }).find? fun t =>
      (db.table? t).isNone) = q.tables.find? fun t => (db.table? t).isNone := by
    have hpresent : ((extra.filterMap Condition.table?).find? fun t => (db.table? t).isNone) = none := by
      refine List.find?_eq_none.2 fun t ht => ?_
      obtain ⟨c, hc, htable⟩ := List.mem_filterMap.1 ht
      have := (hextra c hc).present t htable
      rw [Option.isNone_iff_eq_none]
      exact Option.isSome_iff_ne_none.1 this
    simp only [tables, hq, List.map_cons, List.map_nil, List.flatMap_cons, List.flatMap_nil, List.append_nil,
      List.filterMap_append, List.find?_append, hpresent, Option.or_none]
  have hcolumns : unknownColumn? db { q with sources := [⟨table, none, conditions ++ extra⟩] }
      = unknownColumn? db q := by
    have hnone : ∀ f : Condition → Option String, (∀ c ∈ extra, f c = none) → extra.findSome? f = none :=
      fun f hf => List.findSome?_eq_none_iff.2 hf
    simp only [unknownColumn?, hq, List.map_cons, List.map_nil, hname, List.findSome?_cons, List.findSome?_nil,
      List.findSome?_append]
    rw [hnone, Option.or_none]
    intro c hc
    rw [(hextra c hc).outer, Option.map_eq_none_iff, List.find?_eq_none]
    intro ref href
    rw [(hextra c hc).known ref href]
    decide
  have hscopes : scopes db [⟨table, none, conditions ++ extra⟩] = scopes db [⟨table, none, conditions⟩] := by
    simp only [scopes, List.foldl_cons, List.foldl_nil, List.flatMap_cons, List.flatMap_nil, List.append_nil,
      extend, List.nil_append, hname]
    refine List.filter_congr fun scope hscope => ?_
    obtain ⟨v, hv, rfl⟩ := List.mem_map.1 hscope
    rw [List.all_append, List.all_eq_true.2 fun c hc => (hextra c hc).holds v hv, Bool.and_true]
  simp only [rows, htables, hcolumns, answer, hq, hscopes]

/-! ## Ids of a table -/

theorem Cell.among?_of_mem {n : Int} {list : List Cell} (h : .integer n ∈ list) :
    (Cell.integer n).among? list = some true := by
  have hany : (list.any fun b => (Cell.integer n).equals? b == some true) = true :=
    List.any_eq_true.2 ⟨.integer n, h, by simp [equals?, isNull, order]⟩
  rw [among?, if_neg (by cases list <;> simp_all), if_pos hany]

namespace Database

/-- The table has these ids, in their order. -/
def HasIds (db : Database) (name : String) (cells : List Cell) : Prop :=
  ∃ t c, db.table? name = some t ∧ t.column? "id" = some (c, cells)

variable {db db' : Database} {name : String} {cells : List Cell}

theorem hasIds_iff :
    db.HasIds name cells ↔ ((db.table? name).bind (·.column? "id")).map Prod.snd = some cells := by
  simp [HasIds, Option.bind_eq_some_iff]

instance : Decidable (db.HasIds name cells) := decidable_of_iff _ hasIds_iff.symm

theorem HasIds.congr (h : db.HasIds name cells) (hdb : db'.table? name = db.table? name) :
    db'.HasIds name cells := by
  obtain ⟨t, c, ht, hc⟩ := h
  exact ⟨t, c, hdb.trans ht, hc⟩

theorem HasIds.eq {cells' : List Cell} (h : db.HasIds name cells) (h' : db.HasIds name cells') :
    cells = cells' := by
  obtain ⟨t, c, ht, hc⟩ := h
  obtain ⟨t', c', ht', hc'⟩ := h'
  obtain rfl := Option.some.inj (ht.symm.trans ht')
  exact congrArg Prod.snd (Option.some.inj (hc.symm.trans hc'))

/-- Rows that are added to some table take no id away. -/
theorem HasIds.replace (h : db.HasIds name cells) {table : String} {t : Table} (ht : db.table? table = some t)
    (more : List Row) :
    ∃ added, (db.replace { t with rows := t.rows ++ more }).HasIds name (cells ++ added) := by
  obtain ⟨u, c, hu, hc⟩ := h
  by_cases hsame : sameName t.name name = true
  · obtain rfl : t = u := by
      rw [← table?_congr (sameName_trans (sameName_comm _ _ ▸ table?_name ht) hsame), ht] at hu
      exact Option.some.inj hu
    simp only [Table.column?, Option.bind_eq_bind, Option.bind_eq_some_iff, Option.pure_def,
      Option.some.injEq, Prod.mk.injEq] at hc
    obtain ⟨i, hi, d, hd, rfl, rfl⟩ := hc
    refine ⟨more.map fun row => row.getD i .null, { t with rows := t.rows ++ more }, d, ?_, ?_⟩
    · rw [table?_replace, if_pos hsame, hu, Option.map_some]
    · have hindex : Table.index? { t with rows := t.rows ++ more } "id" = some i := hi
      simp [Table.column?, hindex, hd]
  · refine ⟨[], ?_⟩
    rw [List.append_nil]
    exact HasIds.congr ⟨u, c, hu, hc⟩ (by rw [table?_replace, if_neg hsame])

end Database

end Store

/-! ## Graphs with all recorded edges -/

/-- Each edge that is recorded is one of the graph's. -/
def Covers (subject : Graph) (db : Database) : Prop :=
  ∃ e cells, db.table? Algebra.edgeTable = some e ∧ e.columns = Storage.edgeTable.columns ∧
    db.HasIds subject.edgeTable cells ∧ ∀ row ∈ e.rows, ∃ n rest, row = .integer n :: rest ∧ .integer n ∈ cells

namespace Covers

variable {subject : Graph} {db db' : Database}

/-- That an edge is one of the graph's holds of every recorded edge. -/
theorem redundant (h : Covers subject db) {ref : ColumnRef}
    (href : ref = .of Algebra.edgeTable "id" ∨ ref = .plain "id") :
    (Condition.within ref subject.edgeTable).Redundant db Algebra.edgeTable := by
  obtain ⟨e, cells, he, hcolumns, ⟨t, c, ht, hc⟩, hrows⟩ := h
  refine ⟨?_, rfl, ?_, ?_⟩
  · rintro _ ⟨⟩
    rw [ht]
    rfl
  · intro r hr
    obtain rfl := List.mem_singleton.1 hr
    rw [Database.outline, he]
    simp only [Scope.knows, hcolumns]
    obtain rfl | rfl := href <;> rfl
  · intro v hv
    rw [Database.visible, he] at hv
    obtain ⟨row, hrow, rfl⟩ := List.mem_map.1 hv
    obtain ⟨n, rest, rfl, hn⟩ := hrows row hrow
    have hfind : Scope.find? [⟨Algebra.edgeTable, e.columns, .integer n :: rest⟩] ref
        = some (.integer, .integer n) := by
      rw [hcolumns]
      obtain rfl | rfl := href <;> rfl
    have hids : db.ids subject.edgeTable = (c.affinity, cells) := by
      rw [Database.ids, ht, Option.bind_some, hc]
    have hmember : Condition.member? db [⟨Algebra.edgeTable, e.columns, .integer n :: rest⟩] ref
        subject.edgeTable = some true := by
      simp only [Condition.member?, Scope.affinity, Scope.cell, hfind, hids, Option.map_some, Option.getD_some]
      cases c.affinity
      case integer => exact Cell.among?_of_mem hn
      all_goals exact Cell.among?_of_mem (List.mem_map_of_mem hn)
    rw [Condition.holds, Condition.holds?, hmember]
    rfl

theorem congr (h : Covers subject db) (hedge : db'.table? Algebra.edgeTable = db.table? Algebra.edgeTable)
    (hsubject : db'.table? subject.edgeTable = db.table? subject.edgeTable) : Covers subject db' := by
  obtain ⟨e, cells, he, hcolumns, hids, hrows⟩ := h
  exact ⟨e, cells, hedge.trans he, hcolumns, hids.congr hsubject, hrows⟩

/-- Nor do more rows in another table. -/
theorem replace (h : Covers subject db) {table : String} {t : Table} (ht : db.table? table = some t)
    (htable : sameName table Algebra.edgeTable = false) (more : List Row) :
    Covers subject (db.replace { t with rows := t.rows ++ more }) := by
  obtain ⟨e, cells, he, hcolumns, hids, hrows⟩ := h
  obtain ⟨added, hids'⟩ := hids.replace ht more
  refine ⟨e, cells ++ added, ?_, hcolumns, hids', fun row hrow => ?_⟩
  · rw [table?_replace, if_neg, he]
    rw [sameName_congr (table?_name ht), htable]
    decide
  · obtain ⟨n, rest, hn, hmem⟩ := hrows row hrow
    exact ⟨n, rest, hn, List.mem_append_left added hmem⟩

/-- The edges of the graph stay, and those that are recorded, while scratch tables are used and other tables
are added to. -/
theorem guards {T : String → Prop} (hT : ∀ table, T table → sameName table Algebra.edgeTable = false)
    (hsubject : ∀ table, IsScratch table → sameName table subject.edgeTable = false) :
    Backend.memory.Guards (Covers subject) T := by
  have hedge : ∀ {table}, IsScratch table → sameName table Algebra.edgeTable = false := fun {table} h => by
    refine sameName_eq_false_of_isLower h.2 (by decide) ?_
    rintro rfl
    exact absurd h.1 (by decide)
  have hstep : ∀ s : Statement, s.Fills T → ∀ db db' answer, Covers subject db →
      db.apply s = .ok (db', answer) → Covers subject db' := by
    intro s hs db db' answer h happly
    have hother : (∀ t ∈ s.target?, IsScratch t) → Covers subject db' := fun htarget =>
      h.congr (apply_other happly fun t ht => hedge (htarget t ht))
        (apply_other happly fun t ht => hsubject t (htarget t ht))
    cases s with
    | create ifAbsent table columns => exact hother fun _ ht => by cases ht; exact hs
    | drop ifPresent table => exact hother fun _ ht => by cases ht; exact hs
    | delete table only => exact hother fun _ ht => by cases ht; exact hs
    | select q => exact hother nofun
    | insert table names rows =>
      obtain ⟨t, arranged, ht, -, rfl⟩ := insert_ok (operation_ok happly)
      exact h.replace ht (hs.elim (hT table) hedge) _
    | insertFrom table q =>
      obtain ⟨t, rows, ht, -, rfl⟩ := insertFrom_ok (operation_ok happly)
      exact h.replace ht (hs.elim (hT table) hedge) _
    | upsert => exact hs.elim
    | update => exact hs.elim
  have hb := Backend.isDatabase_memory
  exact ⟨fun closed ss hss => hb.execute_preserves fun db hdb => run_batch_preserves (fun s hs => hstep s (hss s hs)) hdb,
    fun closed ss hss => hb.queryRows_preserves fun db hdb => run_batch_preserves (fun s hs => hstep s (hss s hs)) hdb⟩

end Covers

/-- A selection of edges that a condition keeps to the graph gives what it gives for the base graph. -/
theorem Covers.rows_eq {subject : Graph} {db : Database} (h : Covers subject db)
    (q : List Condition → Selection) (conditions : List Condition)
    (hq : ∀ extra, q extra = { q [] with sources := [⟨Algebra.edgeTable, none, conditions ++ extra⟩] }) :
    (q (Traversal.onEdgesOf subject)).rows db = (q (Traversal.onEdgesOf .base)).rows db := by
  have hsources : (q []).sources = [⟨Algebra.edgeTable, none, conditions⟩] := by
    rw [hq [], List.append_nil]
  rw [hq (Traversal.onEdgesOf subject), show Traversal.onEdgesOf .base = [] from rfl]
  refine Selection.rows_redundant hsources fun c hc => ?_
  rw [Traversal.onEdgesOf] at hc
  split at hc
  · exact absurd hc List.not_mem_nil
  · rw [List.mem_singleton.1 hc]
    exact h.redundant (.inl rfl)

theorem Covers.connections_eq {subject : Graph} {db : Database} (h : Covers subject db) :
    (Traversal.connections subject).rows db = (Traversal.connections .base).rows db := by
  by_cases hbase : subject.isBase = true
  · rw [beq_iff_eq.1 hbase]
  · have hextra : (Traversal.connections subject).rows db = Selection.rows db
        { Traversal.connections .base with
          sources := [⟨Algebra.edgeTable, none, [] ++ [.within (.plain "id") subject.edgeTable]⟩] } := by
      rw [Traversal.connections, if_neg hbase]
      rfl
    rw [hextra]
    refine Selection.rows_redundant rfl fun c hc => ?_
    rw [List.mem_singleton.1 hc]
    exact h.redundant (.inr rfl)

/-! ## Requests that do the same -/

namespace Backend.Guards

variable {α : Type} {I : Database → Prop} {T : String → Prop} (h : memory.Guards I T)

include h

theorem apply {s : Statement} (hs : s.Fills T) {db db' : Database} {answer : Option (List Row)} (hdb : I db)
    (happly : db.apply s = .ok (db', answer)) : I db' := by
  have hafter := h.execute false [s] (by simpa using hs) db hdb
  rwa [memory_execute_store, show db.run (.batch false [s]) = _ from run_single_ok happly] at hafter

theorem performAll_same {ss ss' : List Statement} (hss : List.Forall₂ (Statement.Refills I) ss ss')
    (hfills : ∀ s ∈ ss', s.Fills T) : Same (Tidy I) ((memory.along Scratch.storeLens).performAll ss)
      ((memory.along Scratch.storeLens).performAll ss') := by
  intro s hs
  refine ⟨?_, h.scratch.performAll hfills s hs⟩
  have hrun : s.store.run (.sequence ss) = s.store.run (.sequence ss') :=
    runAll_congr hss (fun t ht _ _ _ hdb happly => h.apply (hfills t ht) hdb happly) false hs.2 none
  have hexecute : (memory.execute (.sequence ss)).runFrom s.store
      = (memory.execute (.sequence ss')).runFrom s.store := by
    simp only [memory, runFrom_bind, runShown, runFrom_of, hrun]
  simp only [Backend.performAll, Backend.perform, along, runFrom_bind, runFrom_along, Scratch.storeLens, hexecute]

theorem within_same {body body' : Backend (Scratch Database) → Action (Scratch Database) BackendError α}
    (hbody : Same (Tidy I) (body (memory.along Scratch.storeLens)) (body' (memory.along Scratch.storeLens))) :
    Same I (Scratch.within memory body) (Scratch.within memory body') := by
  intro s hs
  refine ⟨?_, h.within hbody.preserves s hs⟩
  have heq := (hbody (Scratch.start s) ⟨fun _ ht => absurd ht List.not_mem_nil, hs⟩).1
  simp only [Scratch.within, runFrom_of, heq]

theorem createIntegers_same {name : String} (hname : IsScratch (scratchPrefix ++ name)) {columns : List String}
    {next next' : String → Action (Scratch Database) BackendError α}
    (hnext : Same (Tidy I) (next (scratchPrefix ++ name)) (next' (scratchPrefix ++ name))) :
    Same (Tidy I) (Scratch.createIntegers (memory.along Scratch.storeLens) name columns >>= next)
      (Scratch.createIntegers (memory.along Scratch.storeLens) name columns >>= next') := by
  have hmade : Preserves (Tidy I) (Scratch.createIntegers (memory.along Scratch.storeLens) name columns
      >>= fun _ => pure ()) := h.scratch.createIntegers_bind hname (.pure _)
  have hmade := hmade.same.bind fun _ => hnext
  simpa only [Scratch.createIntegers, Scratch.create, bind_assoc, pure_bind] using hmade

theorem sweep_same {round round' : Int → List Statement}
    (hround : ∀ hop, List.Forall₂ (Statement.Refills I) (round hop) (round' hop))
    (hfills : ∀ hop, ∀ s ∈ round' hop, s.Fills T) (frontier : String) (rounds : Nat) (hop : Int) :
    Same (Tidy I) (Traversal.sweep (memory.along Scratch.storeLens) round frontier rounds hop)
      (Traversal.sweep (memory.along Scratch.storeLens) round' frontier rounds hop) := by
  induction rounds generalizing hop with
  | zero => exact (Preserves.pure _).same
  | succ rounds ih =>
    refine (h.performAll_same (hround hop) (hfills hop)).bind fun _ => (h.scratch.count frontier).same.bind fun size => ?_
    split
    · exact (Preserves.pure _).same
    · exact ih (hop + 1)

end Backend.Guards

/-! ## Traversals -/

namespace Traversal

open Backend.Guards

variable {T : String → Prop} {target subject : Graph} (h : Backend.memory.Guards (Covers subject) T)
  (ht : ∀ side, T (target.table side))

theorem refills_neighbours (t : Tables) (near far : String) :
    (Statement.insertFrom t.next (t.neighbours near far (onEdgesOf subject))).Refills (Covers subject)
      (.insertFrom t.next (t.neighbours near far (onEdgesOf .base))) :=
  .insertFrom t.next fun _ hdb => hdb.rows_eq (t.neighbours near far) [_] fun _ => rfl

theorem refills_advance (t : Tables) :
    List.Forall₂ (Statement.Refills (Covers subject)) t.advance t.advance :=
  .cons (.clear _) (.cons (.refl_insertFrom _ _) (.cons (.refl_insertFrom _ _) .nil))

include h

section Target

include ht

theorem lineage_same (start : Graph) (depth : Int) (direction : Direction) :
    Same (Covers subject) (lineage Backend.memory target subject start depth direction)
      (lineage Backend.memory target .base start depth direction) := by
  obtain ⟨hcur, hnext, hanswer, hedge, -⟩ := isScratch_traversal
  refine h.within_same (.forM fun one _ => ?_)
  simp only [expand, bind_assoc, pure_bind]
  refine h.createIntegers_same hcur (h.createIntegers_same hnext (h.createIntegers_same hanswer
    (h.createIntegers_same hedge (.bind (Preserves.same ?_) fun _ =>
      .bind (h.sweep_same (fun hop => ?_) (fun hop => ?_) _ _ _) fun _ => Preserves.same ?_))))
  · exact h.scratch.performAll (by simp [Statement.Fills, hcur, hanswer])
  · exact .cons (.clear _) (.cons (refills_neighbours ⟨_, _, _⟩ _ _) (.cons
      (.insertFrom _ fun _ hdb => hdb.rows_eq (fun cs => .idsWhere _ (_ :: cs)) [_] fun _ => rfl)
      (refills_advance _)))
  · simp [Tables.advance, Statement.clear, Statement.Fills, hcur, hnext, hanswer, hedge]
  · exact h.scratch.performAll (by simp [Statement.Fills, Graph.vertexTable, Graph.edgeTable, ht])

theorem writeInduced_same (reached : String) :
    Same (Backend.Guards.Tidy (Covers subject))
      (writeInduced (Backend.memory.along Scratch.storeLens) target subject reached)
      (writeInduced (Backend.memory.along Scratch.storeLens) target .base reached) :=
  h.performAll_same (.cons (.refl_insertFrom _ _) (.cons
      (.insertFrom _ fun _ hdb => hdb.rows_eq (fun cs => .idsWhere _ (_ ++ cs)) _ fun _ => rfl) .nil))
    (by simp [Statement.Fills, Graph.vertexTable, Graph.edgeTable, ht])

theorem path_same (source destination : Graph) (maxDepth : Int) :
    Same (Covers subject) (path Backend.memory target subject source destination maxDepth)
      (path Backend.memory target .base source destination maxDepth) := by
  obtain ⟨hcur, hnext, hanswer, -, hnoted, -⟩ := isScratch_traversal
  refine h.within_same (h.createIntegers_same hcur (h.createIntegers_same hnext
    (h.createIntegers_same hanswer (h.createIntegers_same hnoted (.bind (Preserves.same ?_) fun _ =>
      .bind (h.sweep_same (fun hop => ?_) (fun hop => ?_) _ _ _) fun _ =>
        .bind (h.scratch.restart hcur hanswer source).same fun _ =>
          .bind (Preserves.same (h.scratch.sweep (fun hop => ?_) _ _ _)) fun _ =>
            writeInduced_same h ht _)))))
  · exact h.scratch.performAll (by simp [Statement.Fills, hcur, hanswer])
  · exact .cons (.insertFrom _ fun _ hdb =>
        hdb.rows_eq (fun cs => .join _ [⟨_, none, _ :: cs⟩]) [_] fun _ => rfl)
      (.cons (.clear _) (.cons (refills_neighbours ⟨_, _, _⟩ _ _) (refills_advance _)))
  · simp [noteRound, Tables.advance, Statement.clear, Statement.Fills, hcur, hnext, hanswer, hnoted]
  · simp [followRound, Tables.advance, Statement.clear, Statement.Fills, hcur, hnext, hanswer]

theorem shortestPath_same (source destination : Graph) (maxDepth : Int) :
    Same (Covers subject) (shortestPath Backend.memory target subject source destination maxDepth)
      (shortestPath Backend.memory target .base source destination maxDepth) := by
  obtain ⟨hcur, hnext, hanswer, -, hnoted, hconn⟩ := isScratch_traversal
  refine h.within_same (h.createIntegers_same hconn (.bind (h.performAll_same ?_ ?_) fun _ =>
    h.createIntegers_same hnoted (h.createIntegers_same hcur (h.createIntegers_same hnext
      (h.createIntegers_same hanswer (.bind (Preserves.same ?_) fun _ =>
        .bind (Preserves.same (h.scratch.sweep (fun hop => ?_) _ _ _)) fun _ =>
          h.createIntegers_same hcur (h.createIntegers_same hnext
            (.bind (h.scratch.restart hcur hanswer source).same fun _ =>
              .bind (Preserves.same (h.scratch.sweep (fun hop => ?_) _ _ _)) fun _ =>
                writeInduced_same h ht _))))))))
  · exact .cons (.insertFrom _ fun _ hdb => hdb.connections_eq) .nil
  · simp [Statement.Fills, hconn]
  · exact h.scratch.performAll (by simp [Statement.Fills, hcur, hanswer])
  · simp [noteReachingRound, Statement.clear, Statement.Fills, hcur, hnext, hanswer, hnoted]
  · simp [followNearestRound, Tables.advance, Statement.clear, Statement.Fills, hcur, hnext, hanswer]

end Target

end Traversal

/-! ## The base graph -/

namespace Storage

variable {log : Log} {db : Database} {side : Side}

theorem column?_id {t : Table} (ht : t ∈ baseTables) (rows : List Row) :
    ∃ c, Table.column? { t with rows } "id" = some (c, rows.map fun row => row.getD 0 .null) := by
  simp only [baseTables, List.mem_cons, List.not_mem_nil, or_false] at ht
  obtain rfl | rfl | rfl | rfl | rfl | rfl := ht <;> exact ⟨_, rfl⟩

theorem Records.hasIds (h : Records log db) {t : Table} (ht : t ∈ baseTables) :
    db.HasIds t.name ((log.rows t.name).map fun row => row.getD 0 .null) := by
  obtain ⟨c, hc⟩ := column?_id ht (log.rows t.name)
  exact ⟨_, c, h.holds t ht, hc⟩

/-- The base graph has just the recorded elements. -/
theorem Records.hasIds_mirrored (h : Records log db) (hlog : log.Mirrors side) :
    ∃ ids : List Int, (log.rows side.baseTable).map List.head? = ids.map (fun id => some (.integer id)) ∧
      db.HasIds (Graph.base.table side) (ids.map .integer) ∧ db.HasIds side.baseTable (ids.map .integer) := by
  obtain ⟨ids, hgraph, hrecorded⟩ := hlog
  refine ⟨ids, hrecorded, ?_, ?_⟩
  · have hids := h.hasIds (t := baseGraphTable side) (by cases side <;> decide)
    rwa [show (baseGraphTable side).name = Graph.base.table side from rfl, hgraph, List.map_map] at hids
  · have hcells : (log.rows side.baseTable).map (fun row => row.getD 0 .null) = ids.map .integer := by
      have := congrArg (List.map fun cell : Option Cell => cell.getD .null) hrecorded
      simpa [List.map_map, Function.comp_def, List.head?_eq_getElem?, List.getD_eq_getElem?_getD] using this
    rw [← hcells]
    cases side
    · exact h.hasIds (t := vertexTable) (by decide)
    · exact h.hasIds (t := edgeTable) (by decide)

/-- Another graph with all edges of the base graph has all recorded edges. -/
theorem Records.covers (h : Records log db) (hlog : log.Mirrors .edge) {subject : Graph} {edges base : List Cell}
    (hedges : db.HasIds subject.edgeTable edges) (hbase : db.HasIds Graph.base.edgeTable base)
    (hall : ∀ id ∈ base, id ∈ edges) : Covers subject db := by
  obtain ⟨ids, hheads, hids, -⟩ := h.hasIds_mirrored hlog
  obtain rfl := hids.eq hbase
  refine ⟨_, edges, h.holds edgeTable (by decide), rfl, hedges, fun row hrow => ?_⟩
  have hhead : row.head? ∈ ids.map fun id => some (Cell.integer id) := hheads ▸ List.mem_map_of_mem hrow
  obtain ⟨id, hid, hid'⟩ := List.mem_map.1 hhead
  cases row with
  | nil => cases hid'
  | cons cell rest =>
    obtain rfl := Option.some.inj hid'
    exact ⟨id, rest, rfl, hall _ (List.mem_map_of_mem hid)⟩

end Storage

theorem sameName_table_edgeTable (target : Graph) (side : Side) :
    sameName (target.table side) Algebra.edgeTable = false := by
  rw [← Bool.not_eq_true, sameName_iff]
  rintro ⟨hsize, -⟩
  have hlabel : 4 ≤ side.label.utf8ByteSize := by cases side <;> decide
  have hedge : Algebra.edgeTable.utf8ByteSize = 4 := by decide
  have hline : "_".utf8ByteSize = 1 := by decide
  rw [Graph.table, String.utf8ByteSize_append, String.utf8ByteSize_append] at hsize
  omega

namespace Session

variable {log : Storage.Log} {db : Database}

/-- Whatever happened to a store, its base graph has each recorded vertex and each recorded edge as often as it
was recorded. So lineages and paths of the base graph, which look at no condition, are those of any other graph
with the same edges, with all that they leave in the store. -/
theorem Chronicle.traversals_of_base (h : Chronicle log db) :
    (∀ side, ∃ ids, db.HasIds (Graph.base.table side) ids ∧ db.HasIds side.baseTable ids) ∧
      ∀ (subject : Graph) (edges base : List Cell),
        db.HasIds subject.edgeTable edges → db.HasIds Graph.base.edgeTable base →
        (∀ id, id ∈ edges ↔ id ∈ base) → ∀ target : Graph,
          (∀ start depth direction,
            ((Instruction.lineage target subject start depth direction).execute Backend.memory).runFrom db
              = ((Instruction.lineage target .base start depth direction).execute Backend.memory).runFrom db) ∧
          (∀ source destination maxDepth,
            ((Instruction.path target subject source destination maxDepth).execute Backend.memory).runFrom db
              = ((Instruction.path target .base source destination maxDepth).execute Backend.memory).runFrom db) ∧
          ∀ source destination maxDepth,
            ((Instruction.shortestPath target subject source destination maxDepth).execute
                Backend.memory).runFrom db
              = ((Instruction.shortestPath target .base source destination maxDepth).execute
                Backend.memory).runFrom db := by
  refine ⟨fun side => ?_, fun subject edges base hedges hbase hsame target => ?_⟩
  · obtain ⟨ids, -, hgraph, hrecorded⟩ := h.records.hasIds_mirrored (h.mirrors side)
    exact ⟨_, hgraph, hrecorded⟩
  · have hcovers : Covers subject db :=
      h.records.covers (h.mirrors .edge) hedges hbase fun id hid => (hsame id).2 hid
    -- the subject's table is there, so it is no scratch table
    have hsubject : ∀ table, IsScratch table → sameName table subject.edgeTable = false := fun table ht => by
      obtain ⟨t, -, hfound, -⟩ := hedges
      exact h.hasNoScratch.sameName_scratch h.records.lower (by rw [hfound]; rfl) ht
    have hguards : Backend.memory.Guards (Covers subject) fun table => ∃ side, table = target.table side := by
      refine Covers.guards ?_ hsubject
      rintro _ ⟨side, rfl⟩
      exact sameName_table_edgeTable target side
    have ht : ∀ side, ∃ side', target.table side = target.table side' := fun side => ⟨side, rfl⟩
    have hsilently : ∀ {a a' : Action Database BackendError Unit}, Same (Covers subject) a a' →
        (Instruction.execute.silently a).runFrom db = (Instruction.execute.silently a').runFrom db :=
      fun ha => (ha.bind fun _ => (Preserves.pure _).same) db hcovers |>.1
    exact ⟨fun start depth direction => hsilently (Traversal.lineage_same hguards ht start depth direction),
      fun source destination maxDepth => hsilently (Traversal.path_same hguards ht source destination maxDepth),
      fun source destination maxDepth =>
        hsilently (Traversal.shortestPath_same hguards ht source destination maxDepth)⟩

/-- Two vertices and an edge between them. -/
def oneEdge : Document where
  vertices := [⟨1, none, []⟩, ⟨2, none, []⟩]
  edges := [⟨7, 1, 2, []⟩]

/-- While a query is under way that made a graph with the edge twice. -/
theorem traversals_of_base_twice : ∃ db, Chronicle (Storage.documentLog oneEdge) db ∧
    db.HasIds (Graph.mk "trace_1").edgeTable [.integer 7, .integer 7] ∧
      db.HasIds Graph.base.edgeTable [.integer 7] ∧
      ((Instruction.lineage ⟨"trace_2"⟩ ⟨"trace_1"⟩ .base 3 .descendant).execute Backend.memory).runFrom db
        = ((Instruction.lineage ⟨"trace_2"⟩ .base .base 3 .descendant).execute Backend.memory).runFrom db := by
  have hids : (program? Backend.memory "$a = $base + $base"
      ((Storage.load oneEdge).runFrom Storage.fresh).2).any (fun x =>
        let db := ((Program.execute Backend.memory x.1).runFrom ⟨x.2, none⟩).2.store
        db.HasIds (Graph.mk "trace_1").edgeTable [.integer 7, .integer 7] ∧
          db.HasIds Graph.base.edgeTable [.integer 7]) = true := by decide +kernel
  obtain ⟨⟨program, s⟩, hprogram, hids⟩ := (Option.any_eq_true _ _).1 hids
  obtain ⟨hsubject, hbase⟩ := of_decide_eq_true hids
  rw [← List.append_nil program] at hprogram
  have hdb : Chronicle (Storage.documentLog oneEdge) _ :=
    (Chronicle.fresh.load oneEdge).underway (by decide +kernel) hprogram
  refine ⟨_, hdb, hsubject, hbase, ?_⟩
  exact ((hdb.traversals_of_base.2 ⟨"trace_1"⟩ _ _ hsubject hbase fun _ => by simp) ⟨"trace_2"⟩).1
    .base 3 .descendant

end Session

end Provenance

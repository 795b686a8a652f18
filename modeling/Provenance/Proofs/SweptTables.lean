import Provenance.Proofs.IntegerTables
import Provenance.Traversal.Path

/-!
# Tables of a traversal

The scratch tables of a traversal as lists of integers. Statements that run through lead from databases
with a property to databases with another one. From what one round leads to follows what a sweep leads
to: the property is numbered, and a round goes from one number to the next. A sweep that ends early does
so because a further round would change nothing.
-/

namespace Provenance

open Store Action

/-! ## Statements that run through -/

namespace Store.Database

variable {I J K : Database → Prop} {s : Statement} {ss ss' : List Statement}

theorem runAll_append {closed : Bool} {db db' : Database} {last answer : Option (List Row)}
    (h : runAll closed db last ss = (.ok answer, db')) :
    runAll closed db last (ss ++ ss') = runAll closed db' answer ss' := by
  induction ss generalizing db last with
  | nil => cases h; rfl
  | cons s ss ih =>
    rw [runAll] at h
    rw [List.cons_append, runAll]
    cases happly : db.apply s with
    | error c => rw [happly] at h; cases h
    | ok x =>
      rw [happly] at h
      exact ih h

/-- From databases with a property the statements run through, without an answer, and what holds then is
said by another one. -/
def Leads (I : Database → Prop) (ss : List Statement) (J : Database → Prop) : Prop :=
  ∀ closed db, I db → ∃ db', runAll closed db none ss = (.ok none, db') ∧ J db'

namespace Leads

theorem nil (h : ∀ db, I db → J db) : Leads I [] J := fun _ db hdb => ⟨db, rfl, h db hdb⟩

theorem append (h : Leads I ss J) (h' : Leads J ss' K) : Leads I (ss ++ ss') K := by
  intro closed db hdb
  obtain ⟨db', hrun, hdb'⟩ := h closed db hdb
  rw [runAll_append hrun]
  exact h' closed db' hdb'

theorem cons (hs : ∀ db, I db → ∃ db', db.apply s = .ok (db', none) ∧ J db') (h : Leads J ss K) :
    Leads I (s :: ss) K := by
  intro closed db hdb
  obtain ⟨db', happly, hdb'⟩ := hs db hdb
  rw [runAll_cons_ok happly]
  exact h closed db' hdb'

theorem single (hs : ∀ db, I db → ∃ db', db.apply s = .ok (db', none) ∧ J db') : Leads I [s] J :=
  cons hs (nil fun _ h => h)

/-- What holds for some value may be followed for each. -/
theorem exists_imp {α : Type} {P : α → Prop} {I J : α → Database → Prop} (h : ∀ x, P x → Leads (I x) ss (J x)) :
    Leads (fun db => ∃ x, P x ∧ I x db) ss fun db => ∃ x, P x ∧ J x db := by
  rintro closed db ⟨x, hx, hdb⟩
  obtain ⟨db', hrun, hdb'⟩ := h x hx closed db hdb
  exact ⟨db', hrun, x, hx, hdb'⟩

end Leads

end Store.Database

/-! ## Scratch tables of integers -/

/-- A table of integers. -/
structure IntegerTable where
  name : String
  columns : List String
  rows : List (List Int)

/-- The names of the scratch tables of traversals between vertices. -/
def sweepNames : List String := ["conn", "sgconn", "cur", "next", "answer"].map (scratchPrefix ++ ·)

namespace IntegerTable

/-- The database has these scratch tables of traversals, and all else as another one has it. -/
structure Over (base : Database) (tables : List IntegerTable) (db : Database) : Prop where
  holds : ∀ t ∈ tables, db.HoldsIntegers t.name (t.columns.map Column.integer) t.rows
  named : ∀ t ∈ tables, t.name ∈ sweepNames
  distinct : (tables.map IntegerTable.name).Nodup
  others : ∀ name, (∀ n ∈ sweepNames, sameName n name = false) → db.table? name = base.table? name

theorem isLower_of_mem_sweepNames : ∀ n ∈ sweepNames, IsLower n := by decide +kernel

theorem sameName_sweepNames {n m : String} (hn : n ∈ sweepNames) (hm : m ∈ sweepNames) :
    sameName n m = decide (n = m) :=
  sameName_of_isLower (isLower_of_mem_sweepNames n hn) (isLower_of_mem_sweepNames m hm)

/-- No table of a graph is taken for a scratch table of a traversal. -/
theorem sameName_sweepNames_table (g : Graph) (side : Side) : ∀ n ∈ sweepNames, sameName n (g.table side) = false := by
  intro n hn
  rw [sameName_comm]
  revert n
  cases side with
  | vertex =>
    exact fun n hn => Graph.sameName_table ((show ∀ n ∈ sweepNames,
      (folded Side.vertex.label).getLast? ≠ (folded n).getLast? by decide +kernel) n hn)
  | edge =>
    exact fun n hn => Graph.sameName_table ((show ∀ n ∈ sweepNames,
      (folded Side.edge.label).getLast? ≠ (folded n).getLast? by decide +kernel) n hn)

theorem sameName_sweepNames_edge : ∀ n ∈ sweepNames, sameName n Algebra.edgeTable = false := fun n hn =>
  sameName_eq_false_of_isLower (isLower_of_mem_sweepNames n hn) (by decide)
    ((show ∀ n ∈ sweepNames, n ≠ Algebra.edgeTable by decide +kernel) n hn)

namespace Over

variable {base db db' : Database} {tables after : List IntegerTable} {t : IntegerTable}
  {rows : List (List Int)}

theorem nil (base : Database) : Over base [] base :=
  ⟨nofun, nofun, List.nodup_nil, fun _ _ => rfl⟩

/-- The order of the tables does not matter. -/
theorem perm {tables' : List IntegerTable} (h : Over base tables db) (hperm : tables'.Perm tables) :
    Over base tables' db where
  holds t ht := h.holds t (hperm.mem_iff.1 ht)
  named t ht := h.named t (hperm.mem_iff.1 ht)
  distinct := (hperm.map _).nodup_iff.2 h.distinct
  others := h.others

theorem reverse (h : Over base tables db) : Over base tables.reverse db := h.perm (List.reverse_perm _)

/-- One of the tables gets other rows. -/
theorem change (before : List IntegerTable) (h : Over base (before ++ t :: after) db)
    (hrows : db'.HoldsIntegers t.name (t.columns.map Column.integer) rows) (hkeeps : db.Keeps db' t.name) :
    Over base (before ++ { t with rows } :: after) db' := by
  have hname : t.name ∈ sweepNames := h.named t (by simp)
  have hnames : (before ++ { t with rows } :: after).map IntegerTable.name
      = (before ++ t :: after).map IntegerTable.name := by simp
  have hother : ∀ u ∈ before ++ after, u.name ≠ t.name := by
    have hdistinct := h.distinct
    rw [List.map_append, List.map_cons, List.nodup_middle, List.nodup_cons, ← List.map_append] at hdistinct
    exact fun u hu heq => hdistinct.1 (heq ▸ List.mem_map_of_mem hu)
  refine ⟨fun u hu => ?_, fun u hu => ?_, hnames ▸ h.distinct, fun name hname' => ?_⟩
  · have hkept : ∀ u ∈ before ++ after, db'.HoldsIntegers u.name (u.columns.map Column.integer) u.rows := by
      intro u hu
      have hmem : u ∈ before ++ t :: after := by
        rw [List.mem_append, List.mem_cons]
        exact (List.mem_append.1 hu).imp_right .inr
      refine (h.holds u hmem).congr (hkeeps u.name ?_)
      rw [sameName_sweepNames hname (h.named u hmem), decide_eq_false (hother u hu).symm]
    obtain hu | hu := List.mem_append.1 hu
    · exact hkept u (List.mem_append_left _ hu)
    · obtain rfl | hu := List.mem_cons.1 hu
      · exact hrows
      · exact hkept u (List.mem_append_right _ hu)
  · have hmem := List.mem_map_of_mem (f := IntegerTable.name) hu
    rw [hnames] at hmem
    obtain ⟨v, hv, heq⟩ := List.mem_map.1 hmem
    exact heq ▸ h.named v hv
  · rw [hkeeps name (hname' t.name hname), h.others name hname']

theorem clear (before : List IntegerTable) (h : Over base (before ++ t :: after) db) :
    ∃ db', db.apply (.clear t.name) = .ok (db', none) ∧ Over base (before ++ { t with rows := [] } :: after) db' := by
  obtain ⟨db', happly, hrows, hkeeps⟩ := (h.holds t (by simp)).clear
  exact ⟨db', happly, h.change before hrows hkeeps⟩

theorem insertFrom {α : Type} {l l' : List α} {code : α → List Int} {name : String} {columns : List String}
    (before : List IntegerTable) (h : Over base (before ++ ⟨name, columns, l.map code⟩ :: after) db)
    (hlength : ∀ x, (code x).length = columns.length) {q : Selection}
    (hq : q.rows db = .ok ((l'.map code).map integers)) :
    ∃ db', db.apply (.insertFrom name q) = .ok (db', none) ∧
      Over base (before ++ ⟨name, columns, (l ++ l').map code⟩ :: after) db' := by
  obtain ⟨db', happly, hrows, hkeeps⟩ := (h.holds ⟨name, columns, l.map code⟩ (by simp)).insertFrom
    (areIntegers_map columns) (isOpen_map columns) hq (by simpa using fun y _ => hlength y)
  rw [← List.map_append] at hrows
  exact ⟨db', happly, h.change before hrows hkeeps⟩

/-- Tables of another name can be read as they were. -/
theorem reads (h : Over base tables db) {name : String} (hname : ∀ n ∈ sweepNames, sameName n name = false)
    {columns : List Column} (hbase : base.HoldsIntegers name columns rows) : db.HoldsIntegers name columns rows :=
  hbase.congr (h.others name hname)

end Over

end IntegerTable

/-! ## Actions on scratch tables -/

/-- No error. -/
abbrev Never (_ : BackendError) : Prop := False

/-- The store has the property, and no scratch tables but those of some names are to be dropped. -/
def KeptAmong (names : List String) (I : Database → Prop) (s : Scratch Database) : Prop :=
  s.tables ⊆ names ∧ I s.store

/-- The scratch tables to be dropped are those of traversals between vertices. -/
abbrev Kept : (Database → Prop) → Scratch Database → Prop := KeptAmong sweepNames

/-- The store in memory under scratch tables. -/
abbrev scratchMemory : Backend (Scratch Database) := Backend.memory.along Scratch.storeLens

section Actions

variable {I J : Database → Prop} {names : List String}

/-- Statements that run through are performed in memory. -/
theorem exists_performed_batch {ss : List Statement} (h : Database.Leads I ss J) (closed : Bool) {db : Database}
    (hdb : I db) : ∃ db', (Backend.memory.perform (.batch closed ss)).runFrom db = (.ok (), db') ∧ J db' := by
  obtain ⟨db', hrun, hdb'⟩ := h closed db hdb
  obtain ⟨output, hexecute⟩ := Backend.memory_execute_ok
    (show db.run (.batch closed ss) = (.ok none, db') from hrun)
  refine ⟨db', ?_, hdb'⟩
  rw [Backend.perform, runFrom_bind_ok hexecute]
  rfl

theorem exists_performed {ss : List Statement} (h : Database.Leads I ss J) {db : Database} (hdb : I db) :
    ∃ db', (Backend.memory.performAll ss).runFrom db = (.ok (), db') ∧ J db' := exists_performed_batch h false hdb

theorem ends_performAll {ss : List Statement} (h : Database.Leads I ss J) :
    Ends Never (KeptAmong names I) (scratchMemory.performAll ss) fun _ => KeptAmong names J := by
  rintro s ⟨htables, hs⟩
  obtain ⟨db, hmemory, hdb⟩ := exists_performed h hs
  refine .inl ⟨(), ⟨s.tables, db⟩, ?_, htables, hdb⟩
  rw [Backend.performAll] at hmemory ⊢
  rw [Backend.runFrom_perform_along, runFrom_along, show Scratch.storeLens.get s = s.store from rfl, hmemory]
  rfl

/-- What holds for some value may be followed for each. -/
theorem ends_of_exists {α β : Type} {P : α → Prop} {I : α → Database → Prop}
    {a : Action (Scratch Database) BackendError β} {K : β → Scratch Database → Prop}
    (h : ∀ x, P x → Ends Never (KeptAmong names (I x)) a K) :
    Ends Never (KeptAmong names fun db => ∃ x, P x ∧ I x db) a K := by
  rintro s ⟨htables, x, hx, hs⟩
  exact h x hx s ⟨htables, hs⟩

theorem isWord_natCast {n : ℕ} (h : n < 2 ^ 63) : Text.isWord n = true := by
  simp only [Text.isWord, Bool.and_eq_true, decide_eq_true_eq]
  omega

theorem runFrom_count {db : Database} {table : String} {columns : List Column} {rows : List (List Int)}
    (h : db.HoldsIntegers table columns rows) (hlength : rows.length < 2 ^ 63) :
    (Backend.memory.count table).runFrom db = (.ok (rows.length : Int), db) := by
  obtain ⟨t, ht, -, hrows⟩ := h
  have hsize : t.rows.length = rows.length := by rw [hrows, List.length_map]
  rw [← hsize] at hlength ⊢
  rw [Backend.count, Backend.integer, runFrom_bind_ok (Backend.execute_countOf ht),
    Text.trimmedWord?_decimal (isWord_natCast hlength)]
  rfl

/-- A round that leaves less rows in the frontier than a word can count, from one number of the property
to the next, and does so again and again, unless the frontier is empty: then it would change nothing. -/
theorem ends_sweep {I : ℕ → Database → Prop} {round : Int → List Statement} {frontier : String}
    {rounds : ℕ} {hop : Int} (hround : ∀ k < rounds, Database.Leads (I k) (round (hop + k)) (I (k + 1)))
    (hcount : ∀ k db, I (k + 1) db → ∃ columns rows, db.HoldsIntegers frontier columns rows ∧ rows.length < 2 ^ 63 ∧
      (rows = [] → ∀ j, I (k + 1 + j) db)) :
    Ends Never (KeptAmong names (I 0)) (Traversal.sweep scratchMemory round frontier rounds hop) fun _ =>
      KeptAmong names (I rounds) := by
  induction rounds generalizing I hop with
  | zero => exact .pure fun _ h => h
  | succ rounds ih =>
    rw [Traversal.sweep]
    have hfirst := hround 0 (Nat.succ_pos _)
    rw [Int.natCast_zero, Int.add_zero] at hfirst
    refine (ends_performAll hfirst).bind fun _ => ?_
    intro s hs
    obtain ⟨columns, rows, hrows, hlength, hempty⟩ := hcount 0 s.store hs.2
    have hcounted : (scratchMemory.count frontier).runFrom s = (.ok (rows.length : Int), s) := by
      rw [Backend.runFrom_count_along, runFrom_along, show Scratch.storeLens.get s = s.store from rfl,
        runFrom_count hrows hlength]
      rfl
    rw [runFrom_bind_ok hcounted]
    by_cases hsize : (rows.length : Int) = 0
    · rw [if_pos hsize]
      have hsettled := hempty (List.eq_nil_of_length_eq_zero (by exact_mod_cast hsize)) rounds
      rw [show 0 + 1 + rounds = rounds + 1 by omega] at hsettled
      exact .inl ⟨(), s, rfl, hs.1, hsettled⟩
    · rw [if_neg hsize]
      refine ih (I := fun k => I (k + 1)) (fun k hk => ?_) (fun k db hdb => ?_) s hs
      · have := hround (k + 1) (Nat.succ_lt_succ hk)
        rwa [show hop + ((k + 1 : ℕ) : Int) = hop + 1 + k by omega] at this
      · obtain ⟨columns, rows, hrows, hlength, hempty⟩ := hcount (k + 1) db hdb
        refine ⟨columns, rows, hrows, hlength, fun hnil j => ?_⟩
        have := hempty hnil j
        rwa [show k + 1 + 1 + j = k + 1 + j + 1 by omega] at this

/-- A table is created anew, whatever there was of its name. -/
theorem runAll_create {name : String} (hreserved : Database.isReserved name = false) (columns : List String)
    (closed : Bool) (db : Database) :
    Database.runAll closed db none [.discard name, .create false name (.known (columns.map Column.integer))]
      = (.ok none, (db.remove name).add (newTable name (columns.map Column.integer))) := by
  have hkeys : (columns.map Column.integer).filter Column.primaryKey = [] := by simp [Column.integer]
  have hnone : (db.remove name).table? name = none := by rw [Database.table?_remove, if_pos (sameName_self _)]
  rw [Database.runAll_cons_ok (apply_discard db _), Database.runAll_cons_ok (apply_create hreserved hkeys hnone)]
  rfl

theorem table?_created (db : Database) (name : String) (columns : List Column) (other : String) :
    ((db.remove name).add (newTable name columns)).table? other
      = if sameName name other then some (newTable name columns) else db.table? other := by
  rw [Database.table?_add, Database.table?_remove, newTable]
  by_cases h : sameName name other = true <;> simp [h]

/-- A created table has no rows; tables of other names stay. -/
theorem exists_created {name : String} (hreserved : Database.isReserved name = false) (columns : List String)
    (closed : Bool) (db : Database) :
    ∃ db', Database.runAll closed db none [.discard name, .create false name (.known (columns.map Column.integer))]
        = (.ok none, db') ∧
      db'.HoldsIntegers name (columns.map Column.integer) [] ∧ db.Keeps db' name := by
  refine ⟨_, runAll_create hreserved columns closed db, ⟨newTable name (columns.map Column.integer), ?_, rfl, rfl⟩,
    fun other h => ?_⟩
  · rw [table?_created, if_pos (sameName_self _)]
  · rw [table?_created, h, if_neg Bool.false_ne_true]

/-- A scratch table is created anew, without rows, beside those of other names. -/
theorem leads_create {base : Database} {tables : List IntegerTable} (others : List IntegerTable)
    (hothers : others.Sublist tables) {name : String} (columns : List String) (hname : name ∈ sweepNames)
    (hnew : ∀ t ∈ others, t.name ≠ name) :
    Database.Leads (IntegerTable.Over base tables)
      [.discard name, .create false name (.known (columns.map Column.integer))]
      (IntegerTable.Over base (⟨name, columns, []⟩ :: others)) := by
  intro closed db hdb
  have hreserved : Database.isReserved name = false :=
    (show ∀ n ∈ sweepNames, Database.isReserved n = false by decide +kernel) _ hname
  obtain ⟨db', hrun, hrows, hkeeps⟩ := exists_created hreserved columns closed db
  refine ⟨db', hrun, List.forall_mem_cons.2 ⟨hrows, fun t ht => ?_⟩, ?_, ?_, fun other h => ?_⟩
  · refine (hdb.holds t (hothers.subset ht)).congr (hkeeps t.name ?_)
    rw [IntegerTable.sameName_sweepNames hname (hdb.named t (hothers.subset ht))]
    exact decide_eq_false (hnew t ht).symm
  · exact List.forall_mem_cons.2 ⟨hname, fun t ht => hdb.named t (hothers.subset ht)⟩
  · refine List.nodup_cons.2 ⟨fun hmem => ?_, hdb.distinct.sublist (hothers.map _)⟩
    obtain ⟨t, ht, heq⟩ := List.mem_map.1 hmem
    exact hnew t ht heq
  · rw [hkeeps other (h _ hname), hdb.others other h]

/-- What comes after a scratch table is created finds what its creation leads to. -/
theorem ends_create {α : Type} {name : String} {columns : List String} (hname : scratchPrefix ++ name ∈ names)
    (h : Database.Leads I [.discard (scratchPrefix ++ name),
      .create false (scratchPrefix ++ name) (.known (columns.map Column.integer))] J)
    {next : String → Action (Scratch Database) BackendError α} {K : α → Scratch Database → Prop}
    (hnext : Ends Never (KeptAmong names J) (next (scratchPrefix ++ name)) K) :
    Ends Never (KeptAmong names I) (Scratch.createIntegers scratchMemory name columns >>= next) K := by
  simp only [Scratch.createIntegers, Scratch.create, bind_assoc, pure_bind]
  refine (ends_performAll h).bind fun _ => Ends.bind (J := fun _ => KeptAmong names J) ?_ fun _ => hnext
  rintro s ⟨htables, hs⟩
  refine .inl ⟨⟨⟩, _, rfl, ?_⟩
  unfold Scratch.remember
  split
  · exact ⟨htables, hs⟩
  · exact ⟨List.append_subset.2 ⟨htables, by simpa using hname⟩, hs⟩

/-- What comes after a scratch table of traversals is created has it, without rows, beside those of other
names. -/
theorem ends_createIntegers {α : Type} {base : Database} {tables : List IntegerTable} (others : List IntegerTable)
    (hothers : others.Sublist tables) {name : String} {columns : List String}
    (hname : scratchPrefix ++ name ∈ sweepNames) (hnew : ∀ t ∈ others, t.name ≠ scratchPrefix ++ name)
    {next : String → Action (Scratch Database) BackendError α} {K : α → Scratch Database → Prop}
    (hnext : Ends Never (Kept (IntegerTable.Over base (⟨scratchPrefix ++ name, columns, []⟩ :: others)))
      (next (scratchPrefix ++ name)) K) :
    Ends Never (Kept (IntegerTable.Over base tables)) (Scratch.createIntegers scratchMemory name columns >>= next)
      K :=
  ends_create hname (leads_create others hothers columns hname hnew) hnext

/-- In memory all scratch tables are dropped. -/
theorem runFrom_finish (s : Scratch Database) :
    (Scratch.finish Backend.memory).runFrom s = (.ok (), ⟨[], s.tables.foldl Database.remove s.store⟩) := by
  simp only [Scratch.finish, runFrom_bind, runFrom_get, runFrom_set]
  split
  · next hempty =>
    rw [List.isEmpty_iff.1 hempty]
    rfl
  · obtain ⟨output, hexecute⟩ := Backend.memory_execute_ok (Database.run_discards s.tables s.store)
    rw [runFrom_along, show Scratch.storeLens.get (⟨[], s.store⟩ : Scratch Database) = s.store from rfl,
      Backend.perform, runFrom_bind_ok hexecute]
    rfl

/-- A body that uses scratch tables of some names runs through. Then these are gone, and all else is as it
has left it. -/
theorem runFrom_within {α : Type} {base : Database} (hbase : I base)
    {body : Backend (Scratch Database) → Action (Scratch Database) BackendError α} {K : α → Database → Prop}
    (hbody : Ends Never (KeptAmong names I) (body scratchMemory) fun x => KeptAmong names (K x)) :
    ∃ x db db', (Scratch.within Backend.memory body).runFrom base = (.ok x, db') ∧ K x db ∧
      ∀ name, (∀ n ∈ names, sameName n name = false) → db'.table? name = db.table? name := by
  obtain ⟨x, s, hx, htables, hs⟩ | ⟨e, t, -, hnever⟩ := hbody (Scratch.start base)
    ⟨List.nil_subset _, hbase⟩
  · refine ⟨x, s.store, s.tables.foldl Database.remove s.store, ?_, hs, fun name hname => ?_⟩
    · simp only [Scratch.within, runFrom_of, hx, runFrom_finish]
    · rw [Database.table?_foldl_remove, if_neg]
      rw [Bool.not_eq_true, List.any_eq_false]
      exact fun n hn => by rw [hname n (htables hn)]; decide
  · exact hnever.elim

end Actions

end Provenance

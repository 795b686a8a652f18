import Provenance.Proofs.Recording
import Provenance.Proofs.Relations
import Provenance.Proofs.Unreliable
import Provenance.Storage

/-!
# The lifetime of scratch tables

Between its creation and the call that drops it a scratch table may be used; before and after that it is not even
mentioned. Whatever the store replies, each scratch table that was created is dropped once, by the last call of the
instruction, and if that call succeeds then none of them is left.

What is known at a point of an instruction is a list of scratch tables that have been created for certain. A property
of states that is indexed by such a list *accompanies* the store if statements that mention none but these scratch
tables preserve it, and a creation that succeeds adds to the list. The record of the calls has such a property, and so
has the list of tables in the store.
-/

namespace Provenance

open Store Action Exchange Database

variable {σ α : Type}

/-! ## What is mentioned -/

/-- The tables that a statement reads or changes. -/
def Store.Statement.names : Statement → List String
  | .insertFrom table q => table :: q.tables
  | .select q => q.tables
  | s => s.target?.toList

def Store.Request.statements : Request → List Statement
  | .batch _ ss => ss
  | .raw _ => []

namespace Exchange

def request? : Exchange → Option Request
  | executed r _ => some r
  | queried r _ => some r
  | _ => none

/-- The statements that are sent. -/
def statements (x : Exchange) : List Statement := (x.request?.map Request.statements).getD []

/-- The tables that the statements read or change. -/
def names (x : Exchange) : List String := x.statements.flatMap Statement.names

/-- The scratch table that is to be created, or replaced. -/
def creating? (x : Exchange) : Option String := x.request?.bind Request.scratch?

/-- How scratch tables are dealt with, among the given ones, told by the calls that are made. -/
structure CleansUp (scratch : List String) (said : List Exchange) : Prop where
  /-- Statements are executed, and nothing else is asked for. -/
  executed : ∀ x ∈ said, ∃ closed ss reply, x = .executed (.batch closed ss) reply
  /-- Scratch tables are created, -/
  created : scratchTables said ⊆ scratch
  nodup : (scratchTables said).Nodup
  /-- and none is mentioned before it is created. -/
  timely : ∀ earlier x later, said = earlier ++ x :: later → ∀ name ∈ x.names, ∀ table ∈ scratch,
    sameName table name = true → x.creating? = some table ∨ table ∈ scratchTables earlier
  /-- Only the last call drops tables for good: all that were created, if there are any. -/
  dropped : ∃ working, (∀ x ∈ working, ∀ ifPresent table, .drop ifPresent table ∈ x.statements →
      x.creating? = some table) ∧
    (scratchTables said = [] ∧ said = working ∨ scratchTables said ≠ [] ∧ ∃ reply, said
      = working ++ [.executed (.lines ((scratchTables said).map Statement.discard)) reply])

/-- Whether the last call succeeds. -/
def endsWell (said : List Exchange) : Bool :=
  match said.getLast? with
  | some (.executed _ (.ok _)) => true
  | _ => false

end Exchange

/-! ## Accompanying properties -/

/-- Of the scratch tables, the statement mentions some only, and it creates and drops no table. -/
structure Store.Statement.Uses (scratch known : List String) (s : Statement) : Prop where
  keepsTables : s.keepsTables = true
  known : ∀ name ∈ s.names, ∀ table ∈ scratch, sameName table name = true → table ∈ known

/-- The property follows the scratch tables that are known to be created. -/
structure Backend.Accompanies (b : Backend (Scratch σ)) (scratch : List String)
    (K : List String → Scratch σ → Prop) : Prop where
  mono : ∀ {known known'}, known ⊆ known' → ∀ s, K known' s → K known s
  execute : ∀ {known ss}, (∀ s ∈ ss, s.Uses scratch known) → Preserves (K known) (b.execute (.sequence ss))
  create : ∀ {known name}, scratchPrefix ++ name ∈ scratch → ∀ columns s, K known s →
    (∃ t, (Scratch.create b name columns).runFrom s = (.ok (scratchPrefix ++ name), t) ∧
      K ((scratchPrefix ++ name) :: known) t) ∨
    ∃ e t, (Scratch.create b name columns).runFrom s = (.error e, t) ∧ K known t

namespace Backend.Accompanies

variable {b : Backend (Scratch σ)} {scratch known : List String} {K : List String → Scratch σ → Prop}
  (h : b.Accompanies scratch K)
include h

/-- What comes after a scratch table is created may use it. -/
theorem createIntegers_bind {name : String} (hname : scratchPrefix ++ name ∈ scratch) {columns : List String}
    {next : String → Action (Scratch σ) BackendError α}
    (hnext : Preserves (K ((scratchPrefix ++ name) :: known)) (next (scratchPrefix ++ name))) :
    Preserves (K known) (Scratch.createIntegers b name columns >>= next) := by
  intro s hs
  obtain ⟨t, hrun, ht⟩ | ⟨e, t, hrun, ht⟩ := h.create hname (.known (columns.map Column.integer)) s hs
  · rw [Scratch.createIntegers, runFrom_bind_ok hrun]
    exact h.mono (List.subset_cons_self _ _) _ (hnext t ht)
  · rw [Scratch.createIntegers, runFrom_bind_error hrun]
    exact ht

theorem perform {ss : List Statement} (hss : ∀ s ∈ ss, s.Uses scratch known) :
    Preserves (K known) (b.performAll ss) := (h.execute hss).bind fun _ => .pure _

section All

/-! Once all scratch tables are created, any of them may be used. -/

variable (hknown : scratch ⊆ known)
include hknown

omit h in
theorem uses_all {ss : List Statement} (hss : ss.all Statement.keepsTables = true) :
    ∀ s ∈ ss, s.Uses scratch known :=
  fun s hs => ⟨List.all_eq_true.1 hss s hs, fun _ _ _ ht _ => hknown ht⟩

theorem performAll {ss : List Statement} (hss : ss.all Statement.keepsTables = true) :
    Preserves (K known) (b.performAll ss) := h.perform (uses_all hknown hss)

theorem count (table : String) : Preserves (K known) (b.count table) :=
  Backend.Selects.integer <| h.execute
    (show ∀ s ∈ [Statement.select (.countOf table)], s.Uses scratch known from uses_all hknown rfl)

theorem sweep {round : Int → List Statement} (hround : ∀ hop, (round hop).all Statement.keepsTables = true)
    (frontier : String) (rounds : Nat) (hop : Int) :
    Preserves (K known) (Traversal.sweep b round frontier rounds hop) :=
  Traversal.sweep_preserves (fun hop => h.performAll hknown (hround hop)) (h.count hknown frontier) rounds hop

end All

end Backend.Accompanies

/-! ## Creations -/

/-- The request that creates a scratch table. -/
def Scratch.creation (name : String) (columns : Columns) : Request :=
  .sequence [.discard (scratchPrefix ++ name), .create false (scratchPrefix ++ name) columns]

theorem Scratch.scratch?_creation (name : String) (columns : Columns) :
    (creation name columns).scratch? = some (scratchPrefix ++ name) := if_pos rfl

theorem Scratch.runFrom_create (b : Backend σ) (name : String) (columns : Columns) (s : Scratch σ) :
    (Scratch.create (b.along Scratch.storeLens) name columns).runFrom s =
      match (b.execute (creation name columns)).runFrom s.store with
      | (.ok _, t) => (.ok (scratchPrefix ++ name), Scratch.remember (scratchPrefix ++ name) ⟨s.tables, t⟩)
      | (.error e, t) => (.error e, ⟨s.tables, t⟩) := by
  have halong : ((b.along Scratch.storeLens).execute (creation name columns)).runFrom s
      = (((b.execute (creation name columns)).runFrom s.store).1,
        ⟨s.tables, ((b.execute (creation name columns)).runFrom s.store).2⟩) := rfl
  simp only [Scratch.create, Backend.performAll, Backend.perform, bind_assoc, runFrom_bind]
  rw [show Request.sequence _ = creation name columns from rfl, halong]
  generalize (b.execute (creation name columns)).runFrom s.store = x
  obtain ⟨_ | _, t⟩ := x <;> rfl

theorem Scratch.mem_remember {table table' : String} {s : Scratch σ} :
    table' ∈ (Scratch.remember table s).tables ↔ table' ∈ s.tables ∨ table' = table := by
  unfold Scratch.remember
  split
  · next h =>
    refine ⟨.inl, ?_⟩
    rintro (h' | rfl)
    · exact h'
    · simpa using h
  · simp

theorem Scratch.store_remember (table : String) (s : Scratch σ) : (Scratch.remember table s).store = s.store := by
  unfold Scratch.remember
  split <;> rfl

/-! ## The record of the calls -/

namespace Exchange

/-- What is said while the scratch tables are in use: creations, and statements that mention only those that are
created by then. -/
inductive Working (scratch : List String) : List Exchange → Prop
  | nil : Working scratch []
  | create {said : List Exchange} {name : String} {columns : Columns} {reply : Except BackendError String}
    (h : Working scratch said) (hname : scratchPrefix ++ name ∈ scratch) :
    Working scratch (said ++ [executed (Scratch.creation name columns) reply])
  | use {said : List Exchange} {ss : List Statement} {reply : Except BackendError String} (h : Working scratch said)
    (hss : ∀ s ∈ ss, s.Uses scratch (scratchTables said)) :
    Working scratch (said ++ [executed (.sequence ss) reply])

/-- Statements that keep the tables create no scratch table. -/
theorem created?_sequence {ss : List Statement} (h : ∀ s ∈ ss, s.keepsTables = true)
    (reply : Except BackendError String) : (executed (.sequence ss) reply).created? = none :=
  created?_executed (Request.scratch?_of_keepsTables h) reply

theorem nodup_scratchTables (said : List Exchange) : (scratchTables said).Nodup := by
  induction said using List.reverseRecOn with
  | nil => exact .nil
  | append_singleton said x ih =>
    rw [scratchTables_append, remember]
    split
    · exact ih
    · split
      · exact ih
      · next h =>
        rw [List.contains_iff_mem] at h
        exact List.nodup_append.2 ⟨ih, List.pairwise_singleton _ _, fun a ha b hb => by
          rintro rfl
          exact h (List.mem_singleton.1 hb ▸ ha)⟩

theorem mem_scratchTables_creation {said : List Exchange} {name table : String} {columns : Columns}
    {reply : Except BackendError String}
    (h : table ∈ scratchTables (said ++ [executed (Scratch.creation name columns) reply])) :
    table ∈ scratchTables said ∨ table = scratchPrefix ++ name := by
  rw [scratchTables_append, remember] at h
  split at h
  · exact .inl h
  · next created hcreated =>
    have hname : created = scratchPrefix ++ name := by
      cases reply with
      | error e => cases hcreated
      | ok out =>
        rw [created?, Scratch.scratch?_creation] at hcreated
        exact (Option.some.inj hcreated).symm
    split at h
    · exact .inl h
    · rw [hname] at h
      exact (List.mem_append.1 h).imp_right List.mem_singleton.1

/-- A call in the middle of what is said, or the last one. -/
theorem split_snoc {said earlier later : List Exchange} {x y : Exchange} (h : said ++ [x] = earlier ++ y :: later) :
    (∃ later', said = earlier ++ y :: later') ∨ earlier = said ∧ y = x := by
  obtain rfl | ⟨later', z, rfl⟩ := later.eq_nil_or_concat
  · obtain ⟨rfl, hx⟩ := List.append_inj' h rfl
    exact .inr ⟨rfl, (List.singleton_inj.1 hx).symm⟩
  · rw [List.concat_eq_append, ← List.cons_append, ← List.append_assoc] at h
    exact .inl ⟨later', (List.append_inj' h rfl).1⟩

namespace Working

variable {scratch : List String} {said : List Exchange}

theorem executed (h : Working scratch said) : ∀ x ∈ said, ∃ ss reply, x = .executed (.sequence ss) reply := by
  induction h with
  | nil => exact nofun
  | create h hname ih =>
    exact List.forall_mem_append.2 ⟨ih, List.forall_mem_singleton.2 ⟨_, _, rfl⟩⟩
  | use h hss ih => exact List.forall_mem_append.2 ⟨ih, List.forall_mem_singleton.2 ⟨_, _, rfl⟩⟩

theorem created (h : Working scratch said) : scratchTables said ⊆ scratch := by
  induction h with
  | nil => exact List.nil_subset _
  | create h hname ih =>
    intro table htable
    obtain htable | rfl := mem_scratchTables_creation htable
    · exact ih htable
    · exact hname
  | use h hss ih =>
    rw [scratchTables_append_of_none (created?_sequence (fun s hs => (hss s hs).keepsTables) _)]
    exact ih

theorem drops (h : Working scratch said) :
    ∀ x ∈ said, ∀ ifPresent table, .drop ifPresent table ∈ x.statements → x.creating? = some table := by
  induction h with
  | nil => exact nofun
  | create h hname ih =>
    refine List.forall_mem_append.2 ⟨ih, List.forall_mem_singleton.2 fun ifPresent table hdrop => ?_⟩
    simp only [statements, request?, Scratch.creation, Request.sequence, Request.statements, Statement.discard,
      Option.map_some, Option.getD_some, List.mem_cons, Statement.drop.injEq, reduceCtorEq, List.not_mem_nil,
      or_false] at hdrop
    rw [hdrop.2]
    exact Scratch.scratch?_creation _ ‹_›
  | use h hss ih =>
    refine List.forall_mem_append.2 ⟨ih, List.forall_mem_singleton.2 fun ifPresent table hdrop => ?_⟩
    cases (hss _ hdrop).keepsTables

theorem timely (hscratch : ∀ table ∈ scratch, IsLower table) (h : Working scratch said) :
    ∀ earlier x later, said = earlier ++ x :: later → ∀ name ∈ x.names, ∀ table ∈ scratch, sameName table name = true → x.creating? = some table ∨ table ∈ scratchTables earlier := by
  induction h with
  | nil => intro earlier x later h; simp at h
  | create h hname ih =>
    intro earlier x later hsplit mention hmention table htable hsame
    obtain ⟨later', hsplit⟩ | ⟨rfl, rfl⟩ := split_snoc hsplit
    · exact ih earlier x later' hsplit mention hmention table htable hsame
    · obtain rfl : mention = scratchPrefix ++ _ := by
        simpa [names, statements, request?, Scratch.creation, Request.sequence, Request.statements, Statement.names,
          Statement.discard, Statement.target?] using hmention
      rw [eq_of_sameName (hscratch _ htable) (hscratch _ hname) hsame]
      exact .inl (Scratch.scratch?_creation _ ‹_›)
  | use h hss ih =>
    intro earlier x later hsplit mention hmention table htable hsame
    obtain ⟨later', hsplit⟩ | ⟨rfl, rfl⟩ := split_snoc hsplit
    · exact ih earlier x later' hsplit mention hmention table htable hsame
    · obtain ⟨s, hs, hmention⟩ := List.mem_flatMap.1 hmention
      exact .inr ((hss s hs).known mention hmention table htable hsame)

/-- Where no scratch table was created, there is nothing to be dropped. -/
theorem cleansUp_nil (hscratch : ∀ table ∈ scratch, IsLower table) (h : Working scratch said)
    (hnone : scratchTables said = []) : CleansUp scratch said where
  executed x hx := by
    obtain ⟨ss, reply, rfl⟩ := h.executed x hx
    exact ⟨_, ss, reply, rfl⟩
  created := h.created
  nodup := nodup_scratchTables said
  timely := h.timely hscratch
  dropped := ⟨said, h.drops, .inl ⟨hnone, rfl⟩⟩

/-- Otherwise the last call drops them. -/
theorem cleansUp_drop (hscratch : ∀ table ∈ scratch, IsLower table) (h : Working scratch said)
    (hsome : scratchTables said ≠ []) (reply : Except BackendError String) :
    CleansUp scratch (said ++ [.executed (.lines ((scratchTables said).map Statement.discard)) reply]) where
  executed := by
    refine List.forall_mem_append.2 ⟨fun x hx => ?_, List.forall_mem_singleton.2 ⟨true, _, reply, rfl⟩⟩
    obtain ⟨ss, reply, rfl⟩ := h.executed x hx
    exact ⟨_, ss, reply, rfl⟩
  created := by
    rw [scratchTables_drop]
    exact h.created
  nodup := nodup_scratchTables _
  timely earlier x later hsplit mention hmention table htable hsame := by
    obtain ⟨later', hsplit⟩ | ⟨rfl, rfl⟩ := split_snoc hsplit
    · exact h.timely hscratch earlier x later' hsplit mention hmention table htable hsame
    · have hcreated : mention ∈ scratchTables earlier := by
        simpa [names, statements, request?, Request.lines, Request.statements, List.mem_flatMap, Statement.names,
          Statement.discard, Statement.target?] using hmention
      rw [eq_of_sameName (hscratch _ htable) (hscratch _ (h.created hcreated)) hsame]
      exact .inr hcreated
  dropped := by
    rw [scratchTables_drop]
    exact ⟨said, h.drops, .inr ⟨hsome, reply, rfl⟩⟩

end Working

end Exchange

/-- What was said since the record was `old`, when some scratch tables are known to be created. -/
def Recounts (record : σ → List Exchange) (scratch : List String) (old : List Exchange) (known : List String)
    (s : Scratch σ) : Prop :=
  Since (fun s => record s.store) old
    (fun s said => Working scratch said ∧ s.tables = scratchTables said ∧ known ⊆ s.tables) s

theorem Backend.Records.accompanies {b : Backend σ} {record : σ → List Exchange} (hb : b.Records record)
    (scratch : List String) (old : List Exchange) :
    (b.along Scratch.storeLens).Accompanies scratch (Recounts record scratch old) where
  mono hknown := fun s ⟨said, hs, hworking, htables, hall⟩ =>
    ⟨said, hs, hworking, htables, List.Subset.trans hknown hall⟩
  execute {known ss} hss := by
    rintro s ⟨said, hs, hworking, htables, hknown⟩
    have hsaid : ∀ s ∈ ss, s.Uses scratch (scratchTables said) := fun s hs =>
      ⟨(hss s hs).keepsTables, fun name hname table ht hsame =>
        htables ▸ hknown ((hss s hs).known name hname table ht hsame)⟩
    refine ⟨said ++ [.executed (.sequence ss) ((b.execute (.sequence ss)).runFrom s.store).1], ?_,
      hworking.use hsaid, ?_, hknown⟩
    · change record ((b.execute (.sequence ss)).runFrom s.store).2 = _
      rw [hb.execute, show record s.store = _ from hs, List.append_assoc]
    · rw [scratchTables_append_of_none (created?_sequence (fun s hs => (hss s hs).keepsTables) _),
        ← htables]
      rfl
  create {known name} hname columns s := by
    rintro ⟨said, hs, hworking, htables, hknown⟩
    have hrecord := hb.execute (Scratch.creation name columns) s.store
    rw [show record s.store = _ from hs, List.append_assoc] at hrecord
    rw [Scratch.runFrom_create]
    generalize (b.execute (Scratch.creation name columns)).runFrom s.store = x at hrecord
    obtain ⟨reply, t⟩ := x
    cases reply with
    | error e =>
      refine .inr ⟨e, _, rfl, _, hrecord, hworking.create hname, ?_, hknown⟩
      rw [scratchTables_append_of_none rfl]
      exact htables
    | ok out =>
      refine .inl ⟨_, rfl, said ++ [.executed (Scratch.creation name columns) (.ok out)], ?_, hworking.create hname, ?_,
        fun table htable => ?_⟩
      · change record (Scratch.remember _ _).store = _
        rw [Scratch.store_remember]
        exact hrecord
      · rw [scratchTables_append, Exchange.remember, Exchange.created?, Scratch.scratch?_creation, ← htables,
          Scratch.remember]
        dsimp only
        split <;> rfl
      · rw [Scratch.mem_remember]
        obtain rfl | htable := List.mem_cons.1 htable
        · exact .inr rfl
        · exact .inl (hknown htable)

/-! ## The tables in the store -/

/-- The table was there before, or is a scratch table that was created. -/
def Accounted (before : Database) (created : List String) (name : String) : Prop :=
  (∃ t ∈ before.tables, t.name = name) ∨ name ∈ created

/-- So is each table in the store. -/
def Accounts (view : σ → Database) (before : Database) (s : Scratch σ) : Prop :=
  ∀ t ∈ (view s.store).tables, Accounted before s.tables t.name

theorem Store.Statement.names_of_keepsTables {s : Statement} (hs : s.keepsTables = true) {db db' : Database}
    {answer : Option (List Row)} (h : db.apply s = .ok (db', answer)) {P : String → Prop}
    (hdb : ∀ t ∈ db.tables, P t.name) : ∀ t ∈ db'.tables, P t.name := by
  refine Database.apply_names h (fun _ _ _ hc => ?_) hdb
  rw [hc] at hs
  cases hs

theorem Store.Database.run_creation (name : String) (columns : Columns) {db : Database} {P : String → Prop}
    (hdb : ∀ t ∈ db.tables, P t.name) :
    (∀ fault, (db.run (Scratch.creation name columns)).1 = .error fault →
      ∀ t ∈ (db.run (Scratch.creation name columns)).2.tables, P t.name) ∧
    ∀ t ∈ (db.run (Scratch.creation name columns)).2.tables, P t.name ∨ t.name = scratchPrefix ++ name := by
  have hremoved : ∀ t ∈ (db.remove (scratchPrefix ++ name)).tables, P t.name :=
    fun t ht => hdb t (List.mem_filter.1 ht).1
  have hrun : db.run (Scratch.creation name columns) = runAll false (db.remove (scratchPrefix ++ name)) none
      [.create false (scratchPrefix ++ name) columns] := runAll_cons_ok (apply_discard db (scratchPrefix ++ name))
  rw [hrun, runAll]
  cases happly : (db.remove (scratchPrefix ++ name)).apply (.create false (scratchPrefix ++ name) columns) with
  | error c => exact ⟨fun _ _ => hremoved, fun t ht => .inl (hremoved t ht)⟩
  | ok changed =>
    refine ⟨fun _ hfault => (by cases hfault), apply_names (P := fun n => P n ∨ n = scratchPrefix ++ name) happly (fun _ _ _ hc => ?_)
      fun t ht => .inl (hremoved t ht)⟩
    cases hc
    exact .inr rfl

theorem Backend.run_error_of_execute {r : Request} {db : Database} {e : BackendError}
    (h : ((memory.execute r).runFrom db).1 = .error e) : ∃ fault, (db.run r).1 = .error fault := by
  obtain ⟨answer, hanswer⟩ | ⟨fault, hfault⟩ :
      (∃ answer, (db.run r).1 = .ok answer) ∨ ∃ fault, (db.run r).1 = .error fault := by
    cases (db.run r).1 <;> simp
  · obtain ⟨output, hout⟩ := memory_execute_ok (Prod.ext hanswer rfl : db.run r = (.ok answer, (db.run r).2))
    rw [hout] at h
    cases h
  · exact ⟨fault, hfault⟩

theorem Backend.IsDatabase.accompanies {b : Backend σ} {view : σ → Database} {fails : Prop}
    (hb : b.IsDatabase view fails)
    (scratch : List String) (before : Database) :
    (b.along Scratch.storeLens).Accompanies scratch fun _ => Accounts view before where
  mono _ _ h := h
  execute {known ss} hss s hs := by
    refine hb.execute_preserves (I := fun db => ∀ t ∈ db.tables, Accounted before s.tables t.name)
      (fun db hdb => ?_) s.store hs
    refine run_batch_preserves (I := fun db => ∀ t ∈ db.tables, Accounted before s.tables t.name)
      (fun st hst db db' answer hdb h => ?_) hdb
    exact Statement.names_of_keepsTables (hss st hst).keepsTables h hdb
  create {known name} hname columns s hs := by
    obtain ⟨hfault, hnames⟩ := run_creation name columns hs
    have hattempt := hb.execute (Scratch.creation name columns) s.store
    unfold Backend.Attempts at hattempt
    rw [Scratch.runFrom_create]
    generalize (b.execute (Scratch.creation name columns)).runFrom s.store = x at hattempt
    obtain ⟨reply, t⟩ := x
    cases reply with
    | error e =>
      refine .inr ⟨e, _, rfl, fun u hu => ?_⟩
      obtain ⟨-, -, -, hview⟩ | ⟨hreply, hview⟩ := hattempt
      · exact hs u (hview ▸ hu)
      · obtain ⟨fault, hrun⟩ := run_error_of_execute hreply.symm
        rw [memory_execute_store] at hview
        exact hfault fault hrun u (hview ▸ hu)
    | ok out =>
      refine .inl ⟨_, rfl, fun u hu => ?_⟩
      obtain ⟨-, e, he, -⟩ | ⟨-, hview⟩ := hattempt
      · cases he
      · rw [memory_execute_store] at hview
        rw [Scratch.store_remember] at hu
        rw [Accounted, Scratch.mem_remember]
        exact (hnames u (hview ▸ hu)).elim (Or.imp_right .inl) fun heq => .inr (.inr heq)

/-! ## The end of an instruction -/

theorem Scratch.runFrom_within (b : Backend σ) (body : Backend (Scratch σ) → Action (Scratch σ) BackendError α)
    (s : σ) :
    ((Scratch.within b body).runFrom s).2
      = ((Scratch.finish b).runFrom ((body (b.along Scratch.storeLens)).runFrom (Scratch.start s)).2).2.store := by
  simp only [Scratch.within, runFrom_of]
  generalize (body (b.along Scratch.storeLens)).runFrom (Scratch.start s) = x
  obtain ⟨_ | _, t⟩ := x
  · rfl
  · dsimp only
    split <;> next heq => rw [heq]

theorem Scratch.runFrom_finish (b : Backend σ) (s : Scratch σ) :
    ((Scratch.finish b).runFrom s).2.store = if s.tables.isEmpty then s.store
      else ((b.execute (.lines (s.tables.map Statement.discard))).runFrom s.store).2 := by
  simp only [Scratch.finish, runFrom_bind, runFrom_get, runFrom_set]
  split
  · rfl
  · simp only [Backend.perform, runFrom_along, Scratch.storeLens, runFrom_bind]
    split <;> next heq => simp [heq]

/-- If the scratch tables can be dropped, or there are none, only tables that were there before are left, and none of the
scratch tables is. -/
theorem Scratch.finish_leaves {b : Backend σ} {view : σ → Database} {fails : Prop} (hb : b.IsDatabase view fails)
    {before : Database} {s : Scratch σ} (hs : Accounts view before s)
    (hdrop : s.tables ≠ [] →
      ∃ out, ((b.execute (.lines (s.tables.map Statement.discard))).runFrom s.store).1 = .ok out) :
    ∀ t ∈ (view ((Scratch.finish b).runFrom s).2.store).tables,
      (∃ u ∈ before.tables, u.name = t.name) ∧ ∀ table ∈ s.tables, sameName t.name table = false := by
  rw [Scratch.runFrom_finish]
  by_cases hnone : s.tables = []
  · rw [if_pos (List.isEmpty_iff.2 hnone)]
    refine fun t ht => ⟨(hs t ht).resolve_right fun hmem => ?_, fun table htable => ?_⟩
    · rw [hnone] at hmem
      cases hmem
    · rw [hnone] at htable
      cases htable
  · rw [if_neg (mt List.isEmpty_iff.1 hnone)]
    obtain ⟨out, hout⟩ := hdrop hnone
    -- the drop succeeded, so it was carried out
    obtain ⟨-, e, he, -⟩ | ⟨-, hstore⟩ := hb.execute (.lines (s.tables.map Statement.discard)) s.store
    · rw [he] at hout
      cases hout
    · rw [hstore, Backend.memory_execute_store, run_discards]
      intro t ht
      rw [mem_tables_foldl_remove] at ht
      refine ⟨(hs t ht.1).resolve_right fun hmem => ?_, ht.2⟩
      have hself := ht.2 t.name hmem
      rw [sameName_self] at hself
      cases hself

/-- Over a store that does not fail, no scratch table is left. -/
theorem Scratch.within_leaves {b : Backend σ} {view : σ → Database} {fails : Prop} (hb : b.IsDatabase view fails)
    (hfails : ¬ fails) {scratch : List String} {body : Backend (Scratch σ) → Action (Scratch σ) BackendError α}
    (hbody : ∀ {K}, (b.along Scratch.storeLens).Accompanies scratch K →
      Preserves (K []) (body (b.along Scratch.storeLens))) (s : σ) :
    ∀ t ∈ (view ((Scratch.within b body).runFrom s).2).tables, ∃ u ∈ (view s).tables, u.name = t.name := by
  have haccounts : Accounts view (view s) ((body (b.along Scratch.storeLens)).runFrom (Scratch.start s)).2 :=
    hbody (hb.accompanies scratch _) (Scratch.start s) fun t ht => .inl ⟨t, ht, rfl⟩
  rw [Scratch.runFrom_within]
  generalize ((body (b.along Scratch.storeLens)).runFrom (Scratch.start s)).2 = used at haccounts ⊢
  have hdrop : ∃ out, ((b.execute (.lines (used.tables.map Statement.discard))).runFrom used.store).1 = .ok out := by
    obtain ⟨hf, -⟩ | ⟨hreply, -⟩ := hb.execute (.lines (used.tables.map Statement.discard)) used.store
    · exact absurd hf hfails
    · obtain ⟨out, hout⟩ := Backend.memory_execute_ok (run_discards used.tables (view used.store))
      exact ⟨out, by rw [hreply, hout]⟩
  exact fun t ht => (Scratch.finish_leaves hb haccounts (fun _ => hdrop) t ht).1

/-- An action that drops the scratch tables it creates, and leaves none of them. -/
def DropsScratch (b : Backend σ) (record : σ → List Exchange) (scratch : List String) (a : Action σ BackendError α) :
    Prop :=
  ∀ s, ∃ said, record (a.runFrom s).2 = record s ++ said ∧ CleansUp scratch said ∧
    ∀ {view : σ → Database} {fails : Prop}, b.IsDatabase view fails → (scratchTables said ≠ [] → endsWell said = true) →
      ∀ t ∈ (view (a.runFrom s).2).tables, (∃ u ∈ (view s).tables, u.name = t.name) ∧
        ∀ table ∈ scratchTables said, sameName t.name table = false

theorem within_dropsScratch {b : Backend σ} {record : σ → List Exchange} (hb : b.Records record) {scratch : List String}
    (hscratch : ∀ table ∈ scratch, IsLower table) {body : Backend (Scratch σ) → Action (Scratch σ) BackendError α}
    (hbody : ∀ {K}, (b.along Scratch.storeLens).Accompanies scratch K →
      Preserves (K []) (body (b.along Scratch.storeLens))) :
    DropsScratch b record scratch (Scratch.within b body) := by
  intro s
  obtain ⟨working, hrecord, hworking, htables, -⟩ := hbody (hb.accompanies scratch (record s)) (Scratch.start s)
    ⟨[], by simp [Scratch.start], .nil, rfl, List.nil_subset _⟩
  have haccounts : ∀ {view : σ → Database} {fails : Prop}, b.IsDatabase view fails →
      Accounts view (view s) ((body (b.along Scratch.storeLens)).runFrom (Scratch.start s)).2 := fun hview =>
    hbody (hview.accompanies scratch _) (Scratch.start s) fun t ht => .inl ⟨t, ht, rfl⟩
  rw [Scratch.runFrom_within]
  generalize ((body (b.along Scratch.storeLens)).runFrom (Scratch.start s)).2 = t at hrecord htables haccounts
  change record t.store = _ at hrecord
  by_cases hnone : scratchTables working = []
  · refine ⟨working, ?_, hworking.cleansUp_nil hscratch hnone, fun hview _ => ?_⟩
    · rw [Scratch.runFrom_finish, if_pos (by rw [htables, hnone]; rfl), hrecord]
    · rw [← htables]
      exact Scratch.finish_leaves hview (haccounts hview) fun hsome => absurd (htables.trans hnone) hsome
  · have hsome : ¬ t.tables.isEmpty = true := by rwa [htables, List.isEmpty_iff]
    have hexecute := hb.execute (.lines ((scratchTables working).map Statement.discard)) t.store
    rw [hrecord, List.append_assoc, ← htables] at hexecute
    refine ⟨_, by rw [Scratch.runFrom_finish, if_neg hsome]; exact hexecute, ?_, fun hview hends => ?_⟩
    · rw [htables]
      exact hworking.cleansUp_drop hscratch hnone _
    · rw [scratchTables_drop] at hends ⊢
      rw [← htables]
      refine Scratch.finish_leaves hview (haccounts hview) fun _ => ?_
      have hends := hends hnone
      rw [endsWell, List.getLast?_concat] at hends
      cases hreply : ((b.execute (.lines (t.tables.map Statement.discard))).runFrom t.store).1 with
      | ok out => exact ⟨out, rfl⟩
      | error e =>
        rw [hreply] at hends
        cases hends

theorem DropsScratch.silently {b : Backend σ} {record : σ → List Exchange} {scratch : List String}
    {a : Action σ BackendError Unit} (h : DropsScratch b record scratch a) :
    DropsScratch b record scratch (Instruction.execute.silently a) := by
  intro s
  have hstate : ((Instruction.execute.silently a).runFrom s).2 = (a.runFrom s).2 := by
    rw [Instruction.execute.silently, runFrom_bind]
    split <;> next heq => simp [heq]
  rw [hstate]
  exact h s

/-! ## Instructions -/

/-- The connections are collected when there is no other scratch table yet. A table of the subject is none, for its
name ends in that of a side. -/
theorem uses_connections (subject : Graph) :
    (Statement.insertFrom (scratchPrefix ++ "conn") (Traversal.connections subject)).Uses
      Instruction.shortestPathScratch [scratchPrefix ++ "conn"] where
  keepsTables := rfl
  known name hname table htable hsame := by
    have hedge : ∀ table ∈ Instruction.shortestPathScratch, sameName table Algebra.edgeTable = false := by decide
    have hlast : ∀ table ∈ Instruction.shortestPathScratch,
        (folded Side.edge.label).getLast? ≠ (folded table).getLast? := by decide
    have hlower : ∀ table ∈ Instruction.shortestPathScratch, IsLower table := by decide
    obtain rfl | rfl | rfl : name = scratchPrefix ++ "conn" ∨ name = Algebra.edgeTable ∨ name = subject.edgeTable := by
      rw [Statement.names, List.mem_cons, Traversal.connections] at hname
      refine hname.imp_right fun hname => ?_
      split at hname
      · exact .inl (by simpa [Selection.tables, Selection.groupedBy, Selection.grouped, Selection.columns] using hname)
      · simpa [Selection.tables, Selection.groupedBy, Selection.grouped, Selection.columns, Condition.table?]
          using hname
    · exact List.mem_singleton.2 (eq_of_sameName (hlower table htable) (by decide) hsame)
    · rw [hedge table htable] at hsame
      cases hsame
    · have hapart : sameName subject.edgeTable table = false := Graph.sameName_table (hlast table htable)
      rw [sameName_comm, hapart] at hsame
      cases hsame

theorem Instruction.isLower_of_mem_scratchNames {i : Instruction} : ∀ table ∈ i.scratchNames, IsLower table := by
  cases i with
  | endpoints | subgraph => exact (by decide : ∀ table ∈ edgeScratch, IsLower table)
  | lineage => exact (by decide : ∀ table ∈ lineageScratch, IsLower table)
  | path => exact (by decide : ∀ table ∈ pathScratch, IsLower table)
  | shortestPath => exact (by decide : ∀ table ∈ shortestPathScratch, IsLower table)
  | _ => exact fun _ h => absurd h List.not_mem_nil

open Backend.Accompanies in
/-- An instruction with scratch tables works within these. -/
theorem Instruction.execute_eq_within (b : Backend σ) {i : Instruction} (hi : i.scratchNames ≠ []) :
    ∃ body : Backend (Scratch σ) → Action (Scratch σ) BackendError Unit,
      i.execute b = execute.silently (Scratch.within b body) ∧
        ∀ {K}, (b.along Scratch.storeLens).Accompanies i.scratchNames K →
          Preserves (K []) (body (b.along Scratch.storeLens)) := by
  cases i with
  | endpoints target subject which =>
    change ∃ body, _ ∧ ∀ {K}, Backend.Accompanies _ edgeScratch K → _
    refine ⟨_, rfl, fun h => h.createIntegers_bind (by decide) ?_⟩
    exact (Preserves.forM fun _ _ => h.performAll (by decide) rfl).bind fun _ => h.performAll (by decide) rfl
  | subgraph target subject skeleton =>
    change ∃ body, _ ∧ ∀ {K}, Backend.Accompanies _ edgeScratch K → _
    refine ⟨_, rfl, fun h => h.createIntegers_bind (by decide) ?_⟩
    exact (h.performAll (by decide) rfl).bind fun _ => h.performAll (by decide) rfl
  | lineage target subject start depth direction =>
    change ∃ body, _ ∧ ∀ {K}, Backend.Accompanies _ lineageScratch K → _
    refine ⟨_, rfl, fun h => .forM fun one _ => ?_⟩
    simp only [Traversal.expand, bind_assoc, pure_bind]
    refine h.createIntegers_bind (by decide) (h.createIntegers_bind (by decide) (h.createIntegers_bind (by decide)
      (h.createIntegers_bind (by decide) ?_)))
    exact (h.performAll (by decide) rfl).bind fun _ => (h.sweep (by decide) (fun _ => rfl) _ _ _).bind fun _ =>
      h.performAll (by decide) rfl
  | path target subject source destination maxDepth =>
    change ∃ body, _ ∧ ∀ {K}, Backend.Accompanies _ pathScratch K → _
    refine ⟨_, rfl, fun h => h.createIntegers_bind (by decide) (h.createIntegers_bind (by decide)
      (h.createIntegers_bind (by decide) (h.createIntegers_bind (by decide) ?_)))⟩
    exact (h.performAll (by decide) rfl).bind fun _ => (h.sweep (by decide) (fun _ => rfl) _ _ _).bind fun _ =>
      (h.performAll (by decide) rfl).bind fun _ => (h.sweep (by decide) (fun _ => rfl) _ _ _).bind fun _ =>
        h.performAll (by decide) rfl
  | shortestPath target subject source destination maxDepth =>
    change ∃ body, _ ∧ ∀ {K}, Backend.Accompanies _ shortestPathScratch K → _
    refine ⟨_, rfl, fun h => h.createIntegers_bind (by decide) (.bind ?_ fun _ =>
      h.createIntegers_bind (by decide) (h.createIntegers_bind (by decide) (h.createIntegers_bind (by decide)
        (h.createIntegers_bind (by decide) ?_))))⟩
    · exact h.perform (List.forall_mem_singleton.2 (uses_connections subject))
    · refine (h.performAll (by decide) rfl).bind fun _ => (h.sweep (by decide) (fun _ => rfl) _ _ _).bind fun _ => ?_
      refine h.createIntegers_bind (by decide) (h.createIntegers_bind (by decide) ?_)
      exact (h.performAll (by decide) rfl).bind fun _ => (h.sweep (by decide) (fun _ => rfl) _ _ _).bind fun _ =>
        h.performAll (by decide) rfl
  | _ => exact absurd rfl hi

/-- However the store replies, the scratch tables that an instruction creates are dropped once, by its last call, and
none is mentioned before it is created. If the last call succeeds, all tables that are left were there before, and
none of them is a scratch table that was created. -/
theorem Instruction.execute_dropsScratch {b : Backend σ} {record : σ → List Exchange} (hb : b.Records record)
    {i : Instruction} (hi : i.scratchNames ≠ []) : DropsScratch b record i.scratchNames (i.execute b) := by
  obtain ⟨body, hexecute, hbody⟩ := i.execute_eq_within b hi
  rw [hexecute]
  exact (within_dropsScratch hb isLower_of_mem_scratchNames hbody).silently

theorem Backend.IsDatabase.recorded {b : Backend σ} {view : σ → Database} {fails : Prop}
    (hb : b.IsDatabase view fails) :
    b.recorded.IsDatabase (fun s => view s.store) fails where
  execute r s := hb.execute r s.store
  queryRows r s := hb.queryRows r s.store
  relationNames s := hb.relationNames s.store
  acquire s := hb.acquire s.store
  release s := hb.release s.store

/-- A store that is full for a moment, when the second direction of a lineage makes its second table anew. -/
def fullForAMoment : Backend Counted :=
  Backend.unreliable fun n => if n = 9 then some (.other "disk full") else none

def interruptedLineage : Instruction := .lineage .base .base .base 1 .both

/-- What it was told, and what it holds then. -/
def afterInterruption : Recorded Counted :=
  ((interruptedLineage.execute fullForAMoment.recorded).runFrom ⟨⟨0, Storage.fresh⟩, []⟩).2

/-- The tables of the first direction are dropped, also the one that could not be replaced. -/
theorem execute_dropsScratch_interrupted :
    CleansUp Instruction.lineageScratch afterInterruption.record ∧
      scratchTables afterInterruption.record = Instruction.lineageScratch ∧
      afterInterruption.record.length = 11 ∧
      ∀ t ∈ afterInterruption.store.store.tables, ∃ u ∈ Storage.fresh.tables, u.name = t.name := by
  obtain ⟨said, hsaid, hcleans, hleft⟩ := Instruction.execute_dropsScratch (Backend.records_recorded fullForAMoment)
    (i := interruptedLineage) (by decide) ⟨⟨0, Storage.fresh⟩, []⟩
  obtain rfl : afterInterruption.record = said := hsaid
  refine ⟨hcleans, by decide +kernel, by decide +kernel, fun t ht => ?_⟩
  exact (hleft (Backend.isDatabase_unreliable _).recorded (fun _ => by decide +kernel) t ht).1

end Provenance

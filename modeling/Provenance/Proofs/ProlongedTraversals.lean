import Provenance.Proofs.ProlongedSweeps

/-!
# Traversals whose sweeps are not ended early

A traversal is followed next to one that runs its sweeps in another way. All that may differ on the way are the
vertices one edge further. Their table is one of the scratch tables, so that in the end there is no difference.
-/

namespace Provenance.Traversal

open Store Database Action

/-! ## Scratch states side by side -/

/-- The stores differ at most in the vertices one edge further, and only once their table is to be dropped. The
created tables are to be dropped as well, and those of a sweep are tables of ids. -/
structure Alike (created : List String) (s s' : Scratch Database) : Prop extends
    Beside (AlikeBut sweepTables.next) s s' where
  same : sweepTables.next ∈ s.tables ∨ SameTables s.store s'.store
  created : ∀ name ∈ created, name ∈ s.tables
  ids : ∀ name ∈ [sweepTables.frontier, sweepTables.next, sweepTables.reached], name ∈ s.tables →
    s.store.HasIdsFirst name

/-- The statement refills a table and keeps off the vertices one edge further. -/
def KeepsOff (s : Statement) : Prop := s.IsRefill ∧ s.Avoids sweepTables.next

namespace Alike

variable {created created' : List String} {s s' : Scratch Database}

theorem mono (h : Alike created s s') (hcreated : created' ⊆ created) : Alike created' s s' :=
  { h with created := fun name hname => h.created name (hcreated hname) }

/-- At first there is no difference. -/
theorem start (db : Database) : Alike [] (Scratch.start db) (Scratch.start db) where
  tables := rfl
  store := .of_eq fun _ => rfl
  same := .inr fun _ => rfl
  created := nofun
  ids _ _ := nofun

theorem haveIds (h : Alike created s s')
    (hcreated : [sweepTables.frontier, sweepTables.next, sweepTables.reached] ⊆ created) :
    sweepTables.HaveIds s'.store := by
  have hids : ∀ name ∈ [sweepTables.frontier, sweepTables.next, sweepTables.reached], s'.store.HasIdsFirst name :=
    fun name hname => (h.ids name hname (h.created name (hcreated hname))).congr h.store.sameColumns
  exact ⟨hids _ (by simp), hids _ (by simp), hids _ (by simp)⟩

/-- Tables get other rows. -/
theorem refilled (h : Alike created s s') {d d' : Scratch Database} (htables : d.tables = s.tables)
    (hcolumns : SameColumns s.store d.store) (hbeside : Beside (AlikeBut sweepTables.next) d d')
    (hsame : sweepTables.next ∈ s.tables ∨ SameTables d.store d'.store) : Alike created d d' where
  toBeside := hbeside
  same := by rwa [htables]
  created := by rw [htables]; exact h.created
  ids name hname hmem := (h.ids name hname (htables ▸ hmem)).congr hcolumns

end Alike

/-! ## Steps side by side -/

section Steps

variable {created : List String} {α : Type}

theorem concurs_performAll {ss : List Statement} (hss : ∀ x ∈ ss, KeepsOff x) :
    Concurs (Alike []) (Alike created) (scratchMemory.performAll ss) (scratchMemory.performAll ss)
      fun _ => Alike created := by
  intro s s' hs
  have hrefills : ∀ x ∈ ss, x.IsRefill := fun x hx => (hss x hx).1
  have hrun : Concur (fun _ d d' => AlikeBut sweepTables.next d d' ∧ (sweepTables.next ∈ s.tables ∨ SameTables d d'))
      (fun d d' => AlikeBut sweepTables.next d d' ∧ (sweepTables.next ∈ s.tables ∨ SameTables d d'))
      (runAll false s.store none ss) (runAll false s'.store none ss) := by
    rcases hs.same with hnext | hsame
    · exact (hs.store.concur hrefills fun x hx => (hss x hx).2).mono (fun _ _ _ h => ⟨h, .inl hnext⟩)
        fun _ _ h => ⟨h, .inl hnext⟩
    · exact (hsame.concur hrefills).mono (fun _ _ _ h => ⟨.of_eq h, .inr h⟩) fun _ _ h => ⟨.of_eq h, .inr h⟩
  rw [runFrom_performAll, runFrom_performAll, hs.tables]
  rcases hrun with ⟨answer, d, d', hd, hd', halike, hsame⟩ | ⟨e, d, d', hd, hd', halike, hsame⟩
  · have hafter : Alike created (⟨s.tables, d⟩ : Scratch Database) ⟨s.tables, d'⟩ :=
      hs.refilled rfl (Statement.sameColumns_of_runAll hrefills hd) ⟨rfl, halike⟩ hsame
    rw [hd, hd']
    exact .inl ⟨(), _, _, rfl, rfl, hafter⟩
  · have hafter : Alike created (⟨s.tables, d⟩ : Scratch Database) ⟨s.tables, d'⟩ :=
      hs.refilled rfl (Statement.sameColumns_of_runAll hrefills hd) ⟨rfl, halike⟩ hsame
    rw [hd, hd']
    exact .inr ⟨_, _, _, rfl, rfl, hafter.mono (List.nil_subset _)⟩

theorem mem_remember {table name : String} {s : Scratch Database} :
    name ∈ (Scratch.remember table s).tables ↔ name ∈ s.tables ∨ name = table := by
  unfold Scratch.remember
  split
  · next hmem =>
    refine (or_iff_left_of_imp ?_).symm
    rintro rfl
    simpa using hmem
  · simp

theorem store_remember (table : String) (s : Scratch Database) : (Scratch.remember table s).store = s.store := by
  unfold Scratch.remember
  split <;> rfl

theorem tables_remember {table : String} {s s' : Scratch Database} (h : s'.tables = s.tables) :
    (Scratch.remember table s').tables = (Scratch.remember table s).tables := by
  unfold Scratch.remember
  rw [h]
  split
  · exact h
  · rfl

/-- If the table is one of a sweep, its first column has the ids. -/
def SuitsSweeps (table : String) (columns : List String) : Prop :=
  ∀ other ∈ [sweepTables.frontier, sweepTables.next, sweepTables.reached],
    sameName table other = true → columns.head? = some "id"

instance (table : String) (columns : List String) : Decidable (SuitsSweeps table columns) :=
  inferInstanceAs (Decidable (∀ other ∈ [sweepTables.frontier, sweepTables.next, sweepTables.reached],
    sameName table other = true → columns.head? = some "id"))

/-- A table that is created anew is the same then. -/
theorem Alike.renewed {s s' : Scratch Database} (hs : Alike created s s') {table : String} {columns : List String}
    (hids : SuitsSweeps table columns) :
    Alike (table :: created)
      (Scratch.remember table ⟨s.tables, (s.store.remove table).add (newTable table (columns.map Column.integer))⟩)
      (Scratch.remember table
        ⟨s'.tables, (s'.store.remove table).add (newTable table (columns.map Column.integer))⟩) := by
  refine ⟨⟨tables_remember hs.tables, ?_⟩, ?_, ?_, fun other hother hmem => ?_⟩
  · rw [store_remember, store_remember]
    refine ⟨fun other hother => ?_, ?_⟩
    · rw [table?_created, table?_created, hs.store.others other hother]
    · rw [table?_created, table?_created]
      split
      · rfl
      · exact hs.store.cleared
  · rw [mem_remember, store_remember, store_remember]
    refine hs.same.imp .inl fun hsame other => ?_
    rw [table?_created, table?_created, hsame other]
  · intro other hother
    rw [mem_remember]
    rcases List.mem_cons.1 hother with rfl | hother
    · exact .inr rfl
    · exact .inl (hs.created other hother)
  · rw [store_remember]
    by_cases hsame : sameName table other = true
    · obtain ⟨columns, rfl⟩ := List.head?_eq_some_iff.1 (hids other hother hsame)
      exact ⟨_, columns.map Column.integer, (table?_created _ _ _ _).trans (if_pos hsame), rfl⟩
    · have hold : other ∈ s.tables := (mem_remember.1 hmem).resolve_right fun heq => hsame (heq ▸ sameName_self _)
      obtain ⟨t, rest, ht, hcolumns⟩ := hs.ids other hother hold
      exact ⟨t, rest, (table?_created _ _ _ _).trans ((if_neg hsame).trans ht), hcolumns⟩

theorem concurs_create {name : String} {columns : List String}
    (hname : Database.isReserved (scratchPrefix ++ name) = false ∧ SuitsSweeps (scratchPrefix ++ name) columns)
    {f f' : String → Action (Scratch Database) BackendError α} {K : α → Scratch Database → Scratch Database → Prop}
    (hf : Concurs (Alike []) (Alike ((scratchPrefix ++ name) :: created)) (f (scratchPrefix ++ name))
      (f' (scratchPrefix ++ name)) K) :
    Concurs (Alike []) (Alike created) (Scratch.createIntegers scratchMemory name columns >>= f)
      (Scratch.createIntegers scratchMemory name columns >>= f') K := by
  intro s s' hs
  simp only [Scratch.createIntegers, Scratch.create, bind_assoc, pure_bind]
  rw [runFrom_bind, runFrom_bind, runFrom_performAll, runFrom_performAll, runAll_create hname.1,
    runAll_create hname.1]
  dsimp only
  rw [runFrom_bind, runFrom_bind, runFrom_modify, runFrom_modify]
  exact hf _ _ (hs.renewed hname.2)

theorem concurs_sweep {sw : Sweeper Database} (hsw : IsFaithful sw) {round : Int → List Statement}
    (h : Advances sweepTables round)
    (hcreated : [sweepTables.frontier, sweepTables.next, sweepTables.reached] ⊆ created) (rounds : ℕ) (hop : Int) :
    Concurs (Alike []) (Alike created) (sweeping scratchMemory round sweepTables rounds hop)
      (sw scratchMemory round sweepTables rounds hop) fun _ => Alike created := by
  intro s s' hs
  have hnext : sweepTables.next ∈ s.tables := hs.created _ (hcreated (by simp))
  have hkept : Preserves (fun d => d.tables = s.tables ∧ SameColumns s.store d.store)
      (sweeping scratchMemory round sweepTables rounds hop) :=
    preserves_sweeping h fun r d hd => ⟨hd.1, hd.2.trans (Statement.sameColumns_of_runAll r.isRefill rfl)⟩
  have hafter := hkept s ⟨rfl, .refl _⟩
  rcases hsw h sweepTables_areApart rounds hop s s' hs.toBeside (hs.haveIds hcreated) with
    ⟨x, d, d', hd, hd', hbeside⟩ | ⟨e, d, d', hd, hd', hbeside⟩
  · rw [hd] at hafter
    exact .inl ⟨x, d, d', hd, hd', hs.refilled hafter.1 hafter.2 hbeside (.inl hnext)⟩
  · rw [hd] at hafter
    exact .inr ⟨e, d, d', hd, hd',
      (hs.refilled hafter.1 hafter.2 hbeside (.inl hnext)).mono (List.nil_subset _)⟩

/-- When the scratch tables are dropped, there is no difference left. -/
theorem Alike.finish {s s' : Scratch Database} (h : Alike created s s') :
    SameTables (s.tables.foldl Database.remove s.store) (s'.tables.foldl Database.remove s'.store) := by
  intro name
  rw [table?_foldl_remove, table?_foldl_remove, h.tables]
  split
  · rfl
  · next hkept =>
    rcases h.same with hnext | hsame
    · refine h.store.others name ?_
      rw [Bool.not_eq_true, List.any_eq_false] at hkept
      simpa using hkept _ hnext
    · exact hsame name

theorem concur_within {body body' : Backend (Scratch Database) → Action (Scratch Database) BackendError α}
    (h : Concurs (Alike []) (Alike []) (body scratchMemory) (body' scratchMemory) fun _ => Alike [])
    (db : Database) :
    Concur (fun _ => SameTables) SameTables ((Scratch.within Backend.memory body).runFrom db)
      ((Scratch.within Backend.memory body').runFrom db) := by
  simp only [Scratch.within, runFrom_of]
  rcases h (Scratch.start db) (Scratch.start db) (.start db) with
    ⟨x, s, s', hs, hs', halike⟩ | ⟨e, s, s', hs, hs', halike⟩
  · rw [hs, hs']
    simp only [runFrom_finish]
    exact .inl ⟨x, _, _, rfl, rfl, halike.finish⟩
  · rw [hs, hs']
    simp only [Scratch.abandon, runFrom_finish]
    exact .inr ⟨e, _, _, rfl, rfl, halike.finish⟩

end Steps

/-! ## Statements that keep off the vertices one edge further -/

section KeepsOff

variable (g : Graph) (side : Side)

theorem keepsOff_clear {table : String} (h : sameName sweepTables.next table = false) : KeepsOff (.clear table) :=
  ⟨.clear table, List.forall_mem_singleton.2 h⟩

theorem keepsOff_insertFrom {table : String} (h : sameName sweepTables.next table = false) {q : Selection}
    (hq : ∀ name ∈ q.tables, sameName sweepTables.next name = false) : KeepsOff (.insertFrom table q) :=
  ⟨.insertFrom table q, List.forall_mem_cons.2 ⟨h, hq⟩⟩

theorem next_frontier : sameName sweepTables.next sweepTables.frontier = false := sweepTables_areApart.next_frontier

theorem next_reached : sameName sweepTables.next sweepTables.reached = false := sweepTables_areApart.next_reached

theorem next_table : sameName sweepTables.next (g.table side) = false :=
  IntegerTable.sameName_sweepNames_table g side _ next_mem_sweepNames

theorem keepsOff_ids {table : String} (h : sameName sweepTables.next table = false) {source : String}
    (hsource : sameName sweepTables.next source = false) : KeepsOff (.insertFrom table (.ids source)) :=
  keepsOff_insertFrom h (List.forall_mem_singleton.2 hsource)

/-- The statements that come before the first sweep. -/
theorem keepsOff_start : ∀ x ∈ [Statement.insertFrom sweepTables.frontier (.ids g.vertexTable),
    .insertFrom sweepTables.reached (.ids sweepTables.frontier)], KeepsOff x :=
  List.forall_mem_cons.2 ⟨keepsOff_ids next_frontier (next_table g .vertex),
    List.forall_mem_singleton.2 (keepsOff_ids next_reached next_frontier)⟩

/-- The statements of `restart`. -/
theorem keepsOff_restart : ∀ x ∈ [Statement.clear sweepTables.frontier,
    .insertFrom sweepTables.frontier (.idsWhere g.vertexTable [.within (.plain "id") sweepTables.reached]),
    .clear sweepTables.reached, .insertFrom sweepTables.reached (.ids sweepTables.frontier)], KeepsOff x := by
  simp only [List.forall_mem_cons]
  refine ⟨keepsOff_clear next_frontier, keepsOff_insertFrom next_frontier ?_, keepsOff_clear next_reached,
    keepsOff_ids next_reached next_frontier, nofun⟩
  exact List.forall_mem_cons.2 ⟨next_table g .vertex, List.forall_mem_singleton.2 next_reached⟩

/-- The connections of a subject are found without the vertices one edge further. -/
theorem keepsOff_connections : KeepsOff (.insertFrom (scratchPrefix ++ "conn") (connections g)) := by
  refine keepsOff_insertFrom (by decide +kernel) (List.forall_mem_cons.2
    ⟨IntegerTable.sameName_sweepNames_edge _ next_mem_sweepNames, fun name hname => ?_⟩)
  obtain ⟨source, hsource, hname⟩ := List.mem_flatMap.1 hname
  rw [List.mem_singleton.1 hsource] at hname
  dsimp only at hname
  split at hname
  · cases hname
  · rw [List.mem_singleton.1 hname]
    exact next_table g .edge

theorem concurs_writeInduced {created : List String} (target subject : Graph) :
    Concurs (Alike []) (Alike created) (writeInduced scratchMemory target subject sweepTables.reached)
      (writeInduced scratchMemory target subject sweepTables.reached) fun _ => Alike created := by
  refine concurs_performAll ?_
  simp only [List.forall_mem_cons]
  refine ⟨keepsOff_ids (next_table target .vertex) next_reached, ⟨.insertFrom _ _, ?_⟩, nofun⟩
  exact avoids_insertFrom_edges subject (next_table target .edge) _
    [.within (.plain "src") sweepTables.reached, .within (.plain "dst") sweepTables.reached]
    (List.forall_mem_cons.2 ⟨next_reached, List.forall_mem_singleton.2 next_reached⟩)

end KeepsOff

/-! ## Traversals side by side -/

section Traversals

variable {sw : Sweeper Database} (hsw : IsFaithful sw) (target subject start source destination : Graph) (bound : Int)
  (direction : Direction) (db : Database)

include hsw

theorem concur_lineage : Concur (fun _ => SameTables) SameTables
    ((lineage Backend.memory target subject start bound direction).runFrom db)
    ((lineageBy sw Backend.memory target subject start bound direction).runFrom db) := by
  rw [← lineageBy_sweeping]
  refine concur_within (.forM fun one _ => ?_) db
  simp only [expandBy, bind_assoc, pure_bind]
  refine concurs_create (by decide +kernel) (concurs_create (by decide +kernel)
    (concurs_create (by decide +kernel) (concurs_create (by decide +kernel) ?_)))
  refine (concurs_performAll (keepsOff_start start)).bind fun _ =>
    (concurs_sweep hsw (advances_crossing _ _ _ _ _) (by decide +kernel) _ _).bind fun _ =>
      (concurs_performAll ?_).mono fun _ _ _ h => h.mono (List.nil_subset _)
  exact List.forall_mem_cons.2 ⟨keepsOff_ids (next_table target .vertex) next_reached,
    List.forall_mem_singleton.2 (keepsOff_insertFrom (next_table target .edge)
      (List.forall_mem_singleton.2 (by decide +kernel)))⟩

theorem concur_path : Concur (fun _ => SameTables) SameTables
    ((path Backend.memory target subject source destination bound).runFrom db)
    ((pathBy sw Backend.memory target subject source destination bound).runFrom db) := by
  rw [← pathBy_sweeping]
  refine concur_within (concurs_create (by decide +kernel) (concurs_create (by decide +kernel)
    (concurs_create (by decide +kernel) (concurs_create (by decide +kernel) ?_)))) db
  exact (concurs_performAll (keepsOff_start destination)).bind fun _ =>
    (concurs_sweep hsw (advances_noteRound subject) (by decide +kernel) _ _).bind fun _ =>
      (concurs_performAll (keepsOff_restart source)).bind fun _ =>
        (concurs_sweep hsw (advances_followRound _ _ bound) (by decide +kernel) _ _).bind fun _ =>
          (concurs_writeInduced target subject).mono fun _ _ _ h => h.mono (List.nil_subset _)

theorem concur_shortestPath : Concur (fun _ => SameTables) SameTables
    ((shortestPath Backend.memory target subject source destination bound).runFrom db)
    ((shortestPathBy sw Backend.memory target subject source destination bound).runFrom db) := by
  rw [← shortestPathBy_sweeping]
  refine concur_within (concurs_create (by decide +kernel) ?_) db
  -- The connections are read off, then the tables of the backward sweep are created.
  refine (concurs_performAll (List.forall_mem_singleton.2 (keepsOff_connections subject))).bind fun _ =>
    concurs_create (by decide +kernel) (concurs_create (by decide +kernel)
      (concurs_create (by decide +kernel) (concurs_create (by decide +kernel) ?_)))
  -- After the backward sweep two of its tables are created anew, with a column less.
  refine (concurs_performAll ?_).bind fun _ =>
    (concurs_sweep hsw advances_noteReachingRound (by decide +kernel) _ _).bind fun _ =>
      concurs_create (by decide +kernel) (concurs_create (by decide +kernel) ?_)
  · exact List.forall_mem_cons.2 ⟨keepsOff_insertFrom next_frontier
        (List.forall_mem_singleton.2 (next_table destination .vertex)),
      List.forall_mem_singleton.2 (keepsOff_insertFrom next_reached (List.forall_mem_singleton.2 next_frontier))⟩
  exact (concurs_performAll (keepsOff_restart source)).bind fun _ =>
    (concurs_sweep hsw (advances_followNearestRound _ _ bound) (by decide +kernel) _ _).bind fun _ =>
      (concurs_writeInduced target subject).mono fun _ _ _ h => h.mono (List.nil_subset _)

end Traversals

/-! ## Sweeps that end early -/

/-- From every database, both give the same result, be it an error, and leave the same tables. -/
def RunsAlike (a a' : Action Database BackendError Unit) : Prop :=
  ∀ db, (a'.runFrom db).1 = (a.runFrom db).1 ∧ SameTables (a.runFrom db).2 (a'.runFrom db).2

theorem RunsAlike.of_concur {a a' : Action Database BackendError Unit}
    (h : ∀ db, Concur (fun _ => SameTables) SameTables (a.runFrom db) (a'.runFrom db)) : RunsAlike a a' := by
  intro db
  rcases h db with ⟨x, d, d', hd, hd', hsame⟩ | ⟨e, d, d', hd, hd', hsame⟩
  · rw [hd, hd']
    exact ⟨rfl, hsame⟩
  · rw [hd, hd']
    exact ⟨rfl, hsame⟩

/-- No traversal, whatever its operands and its bound, is changed when its sweeps are run in this way. -/
structure IsUnnoticed (sw : Sweeper Database) : Prop where
  lineage (target subject start : Graph) (bound : Int) (direction : Direction) :
    RunsAlike (lineage Backend.memory target subject start bound direction)
      (lineageBy sw Backend.memory target subject start bound direction)
  path (target subject source destination : Graph) (bound : Int) :
    RunsAlike (path Backend.memory target subject source destination bound)
      (pathBy sw Backend.memory target subject source destination bound)
  shortestPath (target subject source destination : Graph) (bound : Int) :
    RunsAlike (shortestPath Backend.memory target subject source destination bound)
      (shortestPathBy sw Backend.memory target subject source destination bound)

theorem IsFaithful.isUnnoticed {sw : Sweeper Database} (hsw : IsFaithful sw) : IsUnnoticed sw where
  lineage target subject start bound direction :=
    .of_concur (concur_lineage hsw target subject start bound direction)
  path target subject source destination bound :=
    .of_concur (concur_path hsw target subject source destination bound)
  shortestPath target subject source destination bound :=
    .of_concur (concur_shortestPath hsw target subject source destination bound)

/-- Each sweep of a traversal ends in time: as soon as the frontier is empty, and after at most one round more than
it reaches new vertices. For if this is checked before each sweep, with any error for sweeps of which it is not true,
traversals do what they do without the check. Nor do they give or write anything else if each sweep runs all rounds
up to the bound. -/
theorem sweeps_end_by_frontier (e : BackendError) : IsUnnoticed (provided EndsInTime e) ∧ IsUnnoticed everyRound :=
  ⟨IsFaithful.isUnnoticed (isFaithful_provided e), IsFaithful.isUnnoticed isFaithful_everyRound⟩

end Provenance.Traversal

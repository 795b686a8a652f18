import Provenance.Proofs.LostBindings
import Provenance.Proofs.Queries
import Provenance.Storage

/-!
# What a query keeps

A collection asks the bindings in memory what is reached. Over a store whose calls may fail these
are the stored ones only if the query's commit or discard has succeeded. Then no relation of a stored
variable is dropped. Else a variable may still be stored with a name to which nothing is bound in
memory any more, and the relations of such a name are dropped.
-/

namespace Provenance

open Store SymbolTable Workspace

variable {σ : Type} {b : Backend σ} {view : σ → Database} {fails : Prop}

/-- The query has no command that sends a text of the user. -/
def Query.IsPlain (query : String) : Prop :=
  ∀ statements, Query.parse query = .ok statements → ∀ s ∈ statements, s.isNative = false

instance (query : String) : Decidable (Query.IsPlain query) :=
  match h : Query.parse query with
  | .error _ => isTrue fun _ hss => nomatch h.symm.trans hss
  | .ok statements => decidable_of_iff (∀ s ∈ statements, s.isNative = false)
      ⟨fun hs _ hss => by rw [h] at hss; cases hss; exact hs, fun hs => hs statements h⟩

namespace Session

/-- The workspace with which a query comes to its collection, if it does. -/
def beforeCollection? (b : Backend σ) (query : String) (s : σ) : Option (Workspace σ) :=
  match Query.parse query with
  | .error _ => none
  | .ok statements =>
    match (SymbolTable.load b).runFrom s with
    | (.error _, _) => none
    | (.ok symbols, s) => some ((resolveAndRun b statements).runFrom ⟨symbols, s⟩).2

/-- Whether the bindings that a query makes are committed, or discarded, without an error. -/
def settles (b : Backend σ) (query : String) (s : σ) : Bool :=
  match Query.parse query with
  | .error _ => true
  | .ok statements =>
    match (SymbolTable.load b).runFrom s with
    | (.error _, _) => true
    | (.ok symbols, s) => Resolution.settles b statements ⟨symbols, s⟩

/-- What holds of the store between queries: the bindings can be read, names are in lower case, and
variables are stored with names of the engine. -/
structure Sound (db : Database) : Prop where
  intact : Intact db
  lower : db.IsLowerCased
  own : StoresOnly IsOwn db

/-! ## One query -/

/-- A query fails before its collection, or it is resolved, executed and collected. -/
theorem execute_cases (b : Backend σ) (query : String) (s : σ) :
    (beforeCollection? b query s = none ∧ settles b query s = true ∧
        (((execute b query).runFrom s).2 = s ∨
          ∃ e, (SymbolTable.load b).runFrom s = (.error e, ((execute b query).runFrom s).2))) ∨
      ∃ statements symbols s', Query.parse query = .ok statements ∧
        (SymbolTable.load b).runFrom s = (.ok symbols, s') ∧
        beforeCollection? b query s = some ((resolveAndRun b statements).runFrom ⟨symbols, s'⟩).2 ∧
        settles b query s = Resolution.settles b statements ⟨symbols, s'⟩ ∧
        ((execute b query).runFrom s).2 = ((Workspace.collect b).runFrom
          ((resolveAndRun b statements).runFrom ⟨symbols, s'⟩).2).2.store := by
  simp only [beforeCollection?, settles, execute]
  cases hparse : Query.parse query with
  | error e => exact .inl ⟨rfl, rfl, .inl rfl⟩
  | ok statements =>
    simp only [withSymbols, Action.runFrom_of]
    cases hload : (SymbolTable.load b).runFrom s with
    | mk result s' =>
      cases result with
      | error e => exact .inl ⟨rfl, rfl, .inr ⟨e, rfl⟩⟩
      | ok symbols =>
        refine .inr ⟨statements, symbols, s', rfl, rfl, rfl, rfl, ?_⟩
        simp only [Action.runFrom_bind, Action.runFrom_attempt, Action.runFrom_mapError,
          Action.runFrom_ofExcept]
        split <;> (try split) <;> simp_all

theorem run_preserves {I : σ → Prop} {program : Program} (hacquire : ∀ s, I s → I (b.acquire s))
    (hrelease : ∀ s, I s → I (b.release s))
    (h : Action.Preserves (fun x => I x.store) (program.execute b)) :
    Action.Preserves I (run b program) := by
  refine .bind (.modify hacquire) fun _ => .thenAlways (fun s hs => ?_) hrelease
  have hx := h ⟨s, none⟩ hs
  simp only [Action.runFrom_of]
  split <;> next heq => rw [heq] at hx; exact hx

theorem runFrom_resolveAndRun (b : Backend σ) (ss : List Query.Statement) (w : Workspace σ) :
    ((resolveAndRun b ss).runFrom w).2 = match (Resolution.resolve b ss).runFrom w with
      | (.ok program, w') => ⟨w'.symbols, ((run b program).runFrom w'.store).2⟩
      | (.error _, w') => w' := by
  simp only [resolveAndRun, Action.runFrom_bind, Action.runFrom_mapError, Action.runFrom_along]
  cases (Resolution.resolve b ss).runFrom w with
  | mk result w' =>
    cases result with
    | error e => rfl
    | ok program =>
      dsimp only
      split <;> next heq => exact (Prod.mk.inj heq).2.symm

/-- What a query without texts of the user leaves to its collection. -/
theorem resolveAndRun_leaves (hb : b.IsDatabase view fails) {w : Workspace σ}
    (h : w.Mirrors view IsOwn) {ss : List Query.Statement} (hss : ∀ s ∈ ss, s.isNative = false) :
    ∃ w', ((resolveAndRun b ss).runFrom w).2.symbols = w'.symbols ∧
      Resolution.Leaves b view IsOwn ss w ((Resolution.resolve b ss).runFrom w).1 w' ∧
      Sustains (view w'.store) (view ((resolveAndRun b ss).runFrom w).2.store) := by
  have hleaves := Resolution.resolve_leaves hb admits_isOwn h ss
  rw [runFrom_resolveAndRun]
  generalize (Resolution.resolve b ss).runFrom w = x at hleaves
  obtain ⟨result, w'⟩ := x
  refine ⟨w', ?_, hleaves, ?_⟩
  · cases result <;> rfl
  · cases result with
    | error e => exact .refl _
    | ok program =>
      refine run_preserves (I := fun s => Sustains (view w'.store) (view s)) (fun s hs => ?_)
        (fun s hs => ?_) (Program.execute_sustains hb (hleaves.orderly hss program rfl)) _ (.refl _)
      · rw [hb.acquire]; exact hs
      · rw [hb.release]; exact hs

/-- A workspace as a query leaves it to its collection. -/
structure Ready (b : Backend σ) (view : σ → Database) (query : String) (s : σ)
    (w : Workspace σ) : Prop where
  keeps : ∃ entries, Keeps (view w.store) entries
  own : StoresOnly IsOwn (view w.store)
  lower : (view w.store).IsLowerCased
  tables : ∀ name, IsOwn name → HasRelations (view s) name → HasRelations (view w.store) name
  agrees : settles b query s = true → w.Agrees view

theorem hasRelations_of_spares {db db' : Database} {name : String} (hs : Spares db db')
    (h : HasRelations db name) : HasRelations db' name := fun side => by
  rw [hs.others _ (by rw [sameName_comm]; exact Graph.sameName_table_relation _ side)]
  exact h side

theorem Sound.ready (hb : b.IsDatabase view fails) {s : σ} (h : Sound (view s)) {query : String}
    (hquery : Query.IsPlain query) {w : Workspace σ} (hw : beforeCollection? b query s = some w) :
    Ready b view query s w := by
  obtain ⟨hnone, -⟩ | ⟨statements, symbols, s', hparse, hload, hsome, hsettles, -⟩ :=
    execute_cases b query s
  · rw [hnone] at hw; cases hw
  · rw [hsome] at hw
    cases hw
    have hspares : Spares (view s) (view s') := by
      have h := SymbolTable.load_preserves hb (undisturbed_spares _) s (Spares.refl (view s))
      rwa [hload] at h
    obtain ⟨w', hsymbols, hleaves, hsustains⟩ :=
      resolveAndRun_leaves hb (Workspace.mirrors_load hb h.intact h.own hload) (hquery statements hparse)
    obtain ⟨entries, hk⟩ := hleaves.keeps
    have hlower := hleaves.spares.lower (hspares.lower h.lower)
    refine ⟨⟨entries, hk.congr hsustains.relation⟩, hleaves.only.congr hsustains.relation,
      hsustains.lower hlower, fun name hname hdb => ?_, fun hs var hvar => ?_⟩
    · exact hsustains.hasRelations hlower hname (hasRelations_of_spares hleaves.spares
        (hasRelations_of_spares hspares hdb))
    · rw [hsymbols, hleaves.agrees (by rwa [← hsettles]) var hvar,
        storedName?_congr hsustains.relation]

/-- A collection leaves the relation of the bindings. -/
theorem Ready.collect (hb : b.IsDatabase view fails) {query : String} {s : σ} {w : Workspace σ}
    (h : Ready b view query s w) :
    Sound (view ((Workspace.collect b).runFrom w).2.store) ∧
      (view ((Workspace.collect b).runFrom w).2.store).table? relation
        = (view w.store).table? relation := by
  obtain ⟨entries, hk⟩ := h.keeps
  obtain ⟨-, e, s', hs, hv⟩ | ⟨n, s', hs, hv⟩ := collect_spec (w := w) hb
  · rw [hs, hv]
    exact ⟨⟨.inr ⟨entries, hk⟩, h.lower, h.own⟩, rfl⟩
  · have hrelation : (view s').table? relation = (view w.store).table? relation := by
      rw [hv, table?_collected h.lower (by decide), if_neg relation_not_mem_collected]
    rw [hs]
    refine ⟨⟨.inr ⟨entries, hk.congr hrelation⟩, fun t ht => ?_, h.own.congr hrelation⟩, hrelation⟩
    rw [hv, Database.mem_tables_foldl_remove] at ht
    exact h.lower t ht.1

/-- What is stored once a query is answered was stored when it came to its collection. -/
theorem Sound.storedName?_executed (hb : b.IsDatabase view fails) {s : σ} (h : Sound (view s))
    {query : String} (hquery : Query.IsPlain query) {w : Workspace σ}
    (hw : beforeCollection? b query s = some w) (var : String) :
    storedName? (view ((execute b query).runFrom s).2) var = storedName? (view w.store) var := by
  have hready := h.ready hb hquery hw
  obtain ⟨hnone, -⟩ | ⟨statements, symbols, s', -, -, hsome, -, hafter⟩ := execute_cases b query s
  · rw [hnone] at hw; cases hw
  · rw [hsome] at hw
    cases hw
    rw [hafter, storedName?_congr (hready.collect hb).2]

/-- A query without texts of the user leads from a sound store to a sound one. -/
theorem Sound.executed (hb : b.IsDatabase view fails) {s : σ} (h : Sound (view s)) {query : String}
    (hquery : Query.IsPlain query) : Sound (view ((execute b query).runFrom s).2) := by
  obtain ⟨-, -, hsame | ⟨e, hload⟩⟩ | ⟨statements, symbols, s', hparse, hload, hsome, -, hafter⟩ :=
    execute_cases b query s
  · rw [hsame]; exact h
  · have hspares : Spares (view s) (view ((execute b query).runFrom s).2) := by
      have h := SymbolTable.load_preserves hb (undisturbed_spares _) s (Spares.refl (view s))
      rwa [hload] at h
    obtain ⟨e', _, hs, hintact, hsame⟩ | ⟨t, _, entries, hs, -⟩ := load_spec hb h.intact
    · rw [hs] at hload
      cases hload
      exact ⟨hintact, hspares.lower h.lower, fun var name hname => h.own var name (by
        rwa [hsame] at hname)⟩
    · rw [hs] at hload; cases hload
  · rw [hafter]
    exact ((h.ready hb hquery hsome).collect hb).1

/-! ## Histories -/

/-- The stores that document loads and steps of another kind lead to, from a new store. -/
inductive Reachable (step : Database → Database → Prop) : Database → Prop
  | fresh : Reachable step Storage.fresh
  | load {db : Database} (d : Document) : Reachable step db →
    Reachable step ((Storage.load d).runFrom db).2
  | step {db db' : Database} : Reachable step db → step db db' → Reachable step db'

/-- A query without texts of the user leads from one database to another, whichever calls fail. -/
def PlainStep (db db' : Database) : Prop :=
  ∃ faults query, Query.IsPlain query ∧
    db' = ((execute (Backend.unreliable faults) query).runFrom ⟨0, db⟩).2.store

theorem sound_fresh : Sound Storage.fresh := by
  have hfresh : Storage.fresh = ⟨Storage.baseTables⟩ := rfl
  have hnone : Storage.fresh.table? relation = none := rfl
  refine ⟨.inl hnone, ?_, fun var name hname => ?_⟩
  · rw [hfresh]
    exact fun t ht => (show ∀ t ∈ Storage.baseTables, IsLower t.name by decide) t ht
  · simp [storedName?, hnone] at hname

/-- A statement that adds rows to a base relation. -/
def IsBaseInsertion (s : Statement) : Prop :=
  ∃ table columns rows, s = .insert table columns rows ∧ table ∈ Storage.baseTables.map Table.name

/-- What each statement of a transaction preserves is preserved by the transaction. -/
theorem transaction_preserves {I : Database → Prop} {ss : List Statement}
    (h : ∀ s ∈ ss, ∀ db db' answer, I db → db.apply s = .ok (db', answer) → I db') :
    Action.Preserves I (Storage.transaction ss) := fun db hdb => by
  have hrun : I (db.run (.batch false ss)).2 := Database.run_batch_preserves h hdb
  simp only [Storage.transaction, Action.runFrom_of, Request.sequence]
  split <;> next heq => first | exact hdb | (rw [heq] at hrun; exact hrun)

theorem isBaseInsertion_insertCommon (side : Side) (id : Int) (annotations : List (String × String)) :
    ∀ s ∈ Storage.insertCommon side id annotations, IsBaseInsertion s := fun s hs => by
  obtain hs | hs := List.mem_append.1 hs
  · obtain ⟨p, -, rfl⟩ := List.mem_map.1 hs
    exact ⟨_, _, _, rfl, by cases side <;> decide⟩
  · rw [List.mem_singleton.1 hs]
    exact ⟨_, _, _, rfl, by cases side <;> decide⟩

section Recording

/-! What adding rows to base relations preserves is preserved by recording an element, and by adding a document. -/

variable {I : Database → Prop}
  (h : ∀ s, IsBaseInsertion s → ∀ db db' answer, I db → db.apply s = .ok (db', answer) → I db')
include h

theorem vertex_preserves (id : Int) (md5 : Option String) (annotations : List (String × String)) :
    Action.Preserves I (Storage.putVertex id md5 annotations) :=
  transaction_preserves (List.forall_mem_cons.2 ⟨h _ ⟨_, _, _, rfl, by decide⟩, fun s hs =>
    h s (isBaseInsertion_insertCommon _ _ _ s hs)⟩)

theorem edge_preserves (id src dst : Int) (annotations : List (String × String)) :
    Action.Preserves I (Storage.putEdge id src dst annotations) :=
  transaction_preserves (List.forall_mem_cons.2 ⟨h _ ⟨_, _, _, rfl, by decide⟩, fun s hs =>
    h s (isBaseInsertion_insertCommon _ _ _ s hs)⟩)

theorem document_preserves (d : Document) : Action.Preserves I (Storage.load d) :=
  .bind (.forM fun v _ => .mapError _ (vertex_preserves h v.id v.md5 v.annotations)) fun _ =>
    .bind (.forM fun e _ => .mapError _ (edge_preserves h e.id e.src e.dst e.annotations)) fun _ => .pure _

end Recording

theorem Sound.loaded {db : Database} (h : Sound db) (d : Document) :
    Sound ((Storage.load d).runFrom db).2 := by
  have hkept : ((Storage.load d).runFrom db).2.table? relation = db.table? relation ∧
      ((Storage.load d).runFrom db).2.IsLowerCased := by
    refine document_preserves (I := fun db' => db'.table? relation = db.table? relation ∧
      db'.IsLowerCased) (fun s hs db₁ db₂ answer h₁ happly => ?_) d db ⟨rfl, h.lower⟩
    obtain ⟨table, columns, rows, rfl, htable⟩ := hs
    refine ⟨?_, Database.apply_names happly (fun _ _ _ hc => nomatch hc) h₁.2⟩
    rw [Database.apply_other happly fun t ht => ?_, h₁.1]
    cases ht
    rw [sameName_of_isLower ((show ∀ n ∈ Storage.baseTables.map Table.name, IsLower n by decide)
      table htable) (by decide), decide_eq_false_iff_not]
    rintro rfl
    exact absurd htable (by decide)
  refine ⟨?_, hkept.2, h.own.congr hkept.1⟩
  obtain hnone | ⟨entries, hk⟩ := h.intact
  · exact .inl (hkept.1.trans hnone)
  · exact .inr ⟨entries, hk.congr hkept.1⟩

theorem Reachable.sound {db : Database} (h : Reachable PlainStep db) : Sound db := by
  induction h with
  | fresh => exact sound_fresh
  | load d _ ih => exact ih.loaded d
  | step _ hstep ih =>
    obtain ⟨faults, query, hquery, rfl⟩ := hstep
    exact ih.executed (s := ⟨0, _⟩) (Backend.isDatabase_unreliable faults) hquery

/-! ## What is kept -/

/-- The relations of a stored variable are there after a collection just if that fails, or finds some
variable bound to the name. They are if memory and store agree. -/
theorem Ready.kept (hb : b.IsDatabase view fails) {query : String} {s : σ} {w : Workspace σ}
    (h : Ready b view query s w) {var name : String} (hbefore : HasRelations (view w.store) name)
    (hstored : storedName? (view w.store) var = some name) :
    (HasRelations (view ((Workspace.collect b).runFrom w).2.store) name ↔
        (((Workspace.collect b).runFrom w).1.isOk = true →
          name = Graph.base.name ∨ name ∈ w.symbols.bindings.map Prod.snd)) ∧
      (settles b query s = true →
        HasRelations (view ((Workspace.collect b).runFrom w).2.store) name) := by
  have hname : IsOwn name := h.own var name hstored
  obtain ⟨-, e, s', hs, hv⟩ | ⟨n, s', hs, hv⟩ := collect_spec (w := w) hb
  · rw [hs]
    have hafter : HasRelations (view s') name := by rw [hv]; exact hbefore
    exact ⟨⟨fun _ => nofun, fun _ => hafter⟩, fun _ => hafter⟩
  · have hiff : HasRelations (view s') name ↔
        name = Graph.base.name ∨ name ∈ w.symbols.bindings.map Prod.snd := by
      rw [hv]; exact hasRelations_collected h.lower hname hbefore
    rw [hs]
    refine ⟨hiff.trans ⟨fun hr _ => hr, fun hr => hr rfl⟩, fun hsettles => hiff.2 (.inr ?_)⟩
    have hvar : var ≠ counterKey := by
      rintro rfl
      simp [storedName?] at hstored
    have hbound := h.agrees hsettles var hvar
    rw [hstored] at hbound
    exact List.mem_map.2 ⟨_, OrderedMap.mem_of_find? hbound, rfl⟩

/-- The relations of a stored variable are still there after a query just if the query's collection
is not reached, or fails, or finds some variable bound to the name. They are if the query's commit or
discard has succeeded. -/
theorem hasRelations_execute (faults : Nat → Option BackendError) {db : Database}
    (hdb : Reachable PlainStep db) {query : String} (hquery : Query.IsPlain query)
    {var name : String} (hbefore : HasRelations db name)
    (hstored : storedName? ((execute (Backend.unreliable faults) query).runFrom ⟨0, db⟩).2.store var
      = some name) :
    (HasRelations ((execute (Backend.unreliable faults) query).runFrom ⟨0, db⟩).2.store name ↔
        ∀ w, beforeCollection? (Backend.unreliable faults) query ⟨0, db⟩ = some w →
          ((Workspace.collect (Backend.unreliable faults)).runFrom w).1.isOk = true →
          name = Graph.base.name ∨ name ∈ w.symbols.bindings.map Prod.snd) ∧
      (settles (Backend.unreliable faults) query ⟨0, db⟩ = true →
        HasRelations ((execute (Backend.unreliable faults) query).runFrom ⟨0, db⟩).2.store name) := by
  have hb := Backend.isDatabase_unreliable faults
  have hsound := hdb.sound
  obtain ⟨hnone, -, hsame | ⟨e, hload⟩⟩ |
    ⟨statements, symbols, s', hparse, hload, hsome, -, hafter⟩ :=
      execute_cases (Backend.unreliable faults) query ⟨0, db⟩
  · rw [hsame, hnone]
    exact ⟨⟨fun _ => nofun, fun _ => hbefore⟩, fun _ => hbefore⟩
  · have hspares := SymbolTable.load_preserves hb (undisturbed_spares _) ⟨0, db⟩
      (Spares.refl db)
    rw [hload] at hspares
    have hafter := hasRelations_of_spares hspares hbefore
    rw [hnone]
    exact ⟨⟨fun _ => nofun, fun _ => hafter⟩, fun _ => hafter⟩
  · have hname : IsOwn name := (hsound.executed (s := ⟨0, db⟩) hb hquery).own var name hstored
    have hready := hsound.ready (s := ⟨0, db⟩) hb hquery hsome
    rw [hsound.storedName?_executed (s := ⟨0, db⟩) hb hquery hsome] at hstored
    rw [hafter, hsome]
    obtain ⟨hiff, hsettled⟩ := hready.kept hb (hready.tables name hname hbefore) hstored
    refine ⟨hiff.trans ⟨fun h w hw hok => ?_, fun h => h _ rfl⟩, hsettled⟩
    cases hw
    exact h hok

/-! ## A commit that fails -/

theorem storedName?_execute (faults : Nat → Option BackendError) {db : Database}
    (hdb : Reachable PlainStep db) {query : String} (hquery : Query.IsPlain query)
    {w : Workspace Counted} (hw : beforeCollection? (Backend.unreliable faults) query ⟨0, db⟩ = some w)
    (var : String) :
    storedName? ((execute (Backend.unreliable faults) query).runFrom ⟨0, db⟩).2.store var
      = storedName? w.store.store var :=
  hdb.sound.storedName?_executed (s := ⟨0, db⟩) (Backend.isDatabase_unreliable faults) hquery hw var

theorem collect_isOk {faults : Nat → Option BackendError} {w : Workspace Counted}
    (h : ∀ n, w.store.calls ≤ n → faults n = none) :
    ((Workspace.collect (Backend.unreliable faults)).runFrom w).1.isOk = true := by
  have hnames : (Backend.unreliable faults).relationNames.runFrom w.store
      = (.ok w.store.store.tableNames, ⟨w.store.calls + 1, w.store.store⟩) := by
    simp only [Backend.unreliable, Backend.orFail, Action.runFrom_of, h _ (Nat.le_refl _)]
    rfl
  rw [Workspace.collect, Action.runFrom_bind, Action.runFrom_along]
  simp only [storeLens, hnames, Action.runFrom_bind, Action.runFrom_get]
  split
  · rfl
  · obtain ⟨output, hout⟩ := Backend.memory_execute_ok (Database.run_discards
      (collected w.symbols w.store.store) w.store.store)
    simp only [send, storeLens, Action.runFrom_along, Action.runFrom_bind, Backend.perform,
      Backend.unreliable, Backend.orFail, Action.runFrom_of, h _ (Nat.le_succ _)]
    rw [← collected, hout]
    rfl

/-- A store without failures. -/
def unfailing : Nat → Option BackendError := fun _ => none

/-- A store in which a query has bound a variable to a graph of one vertex. -/
def oneVertex : Database :=
  ((beforeCollection? (Backend.unreliable unfailing) "$a = vertices(1)" ⟨0, Storage.fresh⟩).map
    fun w => w.store.store).getD .empty

theorem execute_oneVertex : ((execute (Backend.unreliable unfailing) "$a = vertices(1)").runFrom
    ⟨0, Storage.fresh⟩).2.store = oneVertex := by
  have hkept : (beforeCollection? (Backend.unreliable unfailing) "$a = vertices(1)"
      ⟨0, Storage.fresh⟩).map (fun w => w.store.store.tables.all fun t =>
        !w.symbols.isCollected t.name) = some true := by decide +kernel
  obtain ⟨hnone, -⟩ | ⟨statements, symbols, s', -, -, hsome, -, hafter⟩ :=
    execute_cases (Backend.unreliable unfailing) "$a = vertices(1)" ⟨0, Storage.fresh⟩
  · rw [hnone] at hkept; cases hkept
  · rw [hsome, Option.map_some, Option.some.injEq, List.all_eq_true] at hkept
    rw [hafter, oneVertex, hsome, Option.map_some, Option.getD_some]
    generalize ((resolveAndRun _ statements).runFrom ⟨symbols, s'⟩).2 = w at hkept
    obtain ⟨-, e, s, hs, hv⟩ | ⟨n, s, hs, hv⟩ :=
      collect_spec (w := w) (Backend.isDatabase_unreliable unfailing)
    · rw [hs]; exact hv
    · have hnone : collected w.symbols w.store.store = [] := by
        refine List.filter_eq_nil_iff.2 fun name hname => ?_
        obtain ⟨⟨t, ht, rfl⟩, -⟩ := Database.mem_tableNames.1 hname
        simpa using hkept t ht
      rw [hs]
      exact hv.trans (by rw [hnone]; rfl)

theorem reachable_oneVertex : Reachable PlainStep oneVertex :=
  .step .fresh ⟨unfailing, "$a = vertices(1)", by decide +kernel, execute_oneVertex.symm⟩

/-- The variable is bound anew. The commit fails, and the relations are dropped to which the variable
is still bound in the store. -/
theorem hasRelations_execute_fullOnce :
    HasRelations oneVertex "trace_1" ∧
      storedName? ((execute (Backend.unreliable Ledger.fullOnce) "$a = $base").runFrom
        ⟨0, oneVertex⟩).2.store "$a" = some "trace_1" ∧
      settles (Backend.unreliable Ledger.fullOnce) "$a = $base" ⟨0, oneVertex⟩ = false ∧
      ¬ HasRelations ((execute (Backend.unreliable Ledger.fullOnce) "$a = $base").runFrom
        ⟨0, oneVertex⟩).2.store "trace_1" := by
  have hquery : Query.IsPlain "$a = $base" := by decide +kernel
  have hbefore : HasRelations oneVertex "trace_1" := by decide +kernel
  have hcollection : (beforeCollection? (Backend.unreliable Ledger.fullOnce) "$a = $base"
      ⟨0, oneVertex⟩).map (fun w => (w.symbols.bindings.map Prod.snd, w.store.calls,
        storedName? w.store.store "$a")) = some (["trace_base"], 3, some "trace_1") := by
    decide +kernel
  have hsettles : settles (Backend.unreliable Ledger.fullOnce) "$a = $base" ⟨0, oneVertex⟩ = false := by
    decide +kernel
  obtain ⟨w, hw, hfacts⟩ := Option.map_eq_some_iff.1 hcollection
  rw [Prod.mk.injEq, Prod.mk.injEq] at hfacts
  obtain ⟨hbindings, hcalls, hname⟩ := hfacts
  have hstored := (storedName?_execute Ledger.fullOnce reachable_oneVertex hquery hw "$a").trans hname
  refine ⟨hbefore, hstored, hsettles, fun hrelations => ?_⟩
  have hreached := (hasRelations_execute Ledger.fullOnce reachable_oneVertex hquery hbefore
    hstored).1.1 hrelations w hw (collect_isOk fun n hn => ?_)
  · rw [hbindings] at hreached
    exact absurd hreached (by decide)
  · rw [hcalls] at hn
    exact if_neg (by omega)

end Session

end Provenance

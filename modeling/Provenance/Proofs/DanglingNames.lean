import Provenance.Proofs.KeptRelations

/-!
# Names without relations

The bindings of a query are committed before its program is executed. When the program stops early,
a variable can be stored with a name of which the relations were still to be made. No other name is
left without its relations: neither the rest of the program nor the collection takes away what a
stored variable names.
-/

namespace Provenance

open Store Database SymbolTable Workspace

variable {σ : Type} {b : Backend σ} {view : σ → Database} {fails : Prop}

/-- Both tables of a handle are listed. -/
def Lists (db : Database) (name : String) : Prop :=
  ∀ side, db.Listed ((⟨name⟩ : Graph).table side)

instance (db : Database) (name : String) : Decidable (Lists db name) :=
  decidable_of_iff (∀ side ∈ Side.all, db.Listed ((⟨name⟩ : Graph).table side))
    ⟨fun h side => h side (by cases side <;> decide), fun h side _ => h side⟩

/-! ## Programs that stop early -/

namespace Program

/-- The part of a program that is not executed: it begins with the first instruction that fails. -/
def unexecuted (b : Backend σ) : Program → σ → Program
  | [], _ => []
  | i :: rest, s =>
    match (i.execute b).runFrom s with
    | (.ok _, s) => unexecuted b rest s
    | (.error _, _) => i :: rest

/-- Each text of the user that is sent finds and leaves the store the same. -/
def SendsHarmless (b : Backend σ) (view : σ → Database) : Program → σ → Prop
  | [], _ => True
  | i :: rest, s =>
    (i.isNative = true → view ((i.execute b).runFrom s).2 = view s) ∧
      match (i.execute b).runFrom s with
      | (.ok _, s) => SendsHarmless b view rest s
      | (.error _, _) => True

instance SendsHarmless.decidable (b : Backend σ) (view : σ → Database) :
    (program : Program) → (s : σ) → Decidable (SendsHarmless b view program s)
  | [], _ => .isTrue trivial
  | i :: rest, s =>
    have : Decidable (match (i.execute b).runFrom s with
        | (.ok _, s) => SendsHarmless b view rest s
        | (.error _, _) => True) :=
      match (i.execute b).runFrom s with
      | (.ok _, s) => SendsHarmless.decidable b view rest s
      | (.error _, _) => .isTrue trivial
    instDecidableAnd

theorem runFrom_cons (b : Backend σ) (i : Instruction) (rest : Program) (x : Execution σ) :
    (execute b (i :: rest)).runFrom x = match (i.execute b).runFrom x.store with
      | (.ok answer, s) => (execute b rest).runFrom (.note answer { x with store := s })
      | (.error e, s) => (.error e, { x with store := s }) := by
  rw [execute, Action.runFrom_bind, Action.runFrom_along]
  simp only [Execution.storeLens]
  cases (i.execute b).runFrom x.store with
  | mk result s => cases result <;> rfl

end Program

theorem Sustains.trans {db db' db'' : Database} (h : Sustains db db') (h' : Sustains db' db'') :
    Sustains db db'' where
  relation := h'.relation.trans h.relation
  lower hdb := h'.lower (h.lower hdb)
  distinct hdb := h'.distinct (h.distinct hdb)
  listed name side hname hdb := h'.listed name side hname (h.listed name side hname hdb)

/-- An instruction that creates a handle lists it, or fails. -/
theorem Instruction.execute_creates (hb : b.IsDatabase view fails) {i : Instruction} {name : String}
    (hi : i = .createGraph ⟨name⟩ ∨ i = .createMetadata ⟨name⟩) (hname : IsGenerated name) {s s' : σ}
    {answer : Option Answer} (hrun : (i.execute b).runFrom s = (.ok answer, s')) :
    Lists (view s') name := by
  obtain ⟨columns, hkeys, hexecute⟩ : ∃ columns : List Column,
      columns.filter Column.primaryKey = [] ∧ i.execute b = Instruction.execute.silently (b.perform
        (renewal ((⟨name⟩ : Graph).table .vertex) ((⟨name⟩ : Graph).table .edge) columns)) := by
    obtain rfl | rfl := hi
    · exact ⟨_, rfl, rfl⟩
    · exact ⟨_, rfl, rfl⟩
  rw [hexecute, Instruction.execute.silently] at hrun
  obtain ⟨⟨⟩, t, hperform, hpure⟩ := Action.bind_ok_iff.1 hrun
  cases hpure
  obtain ⟨-, e, t, he, -⟩ | ⟨t, hok, hv⟩ := hb.perform_ok (Sustains.run_creation hname hkeys (view s))
  · rw [he] at hperform; cases hperform
  · rw [hok] at hperform
    cases hperform
    intro side
    rw [hv, Listed, table?_renewed]
    cases side with
    | vertex => exact ⟨_, by rw [sameName_self]; rfl, rfl⟩
    | edge =>
      split
      · next hsame =>
        have hlower := Graph.isLower_table (g := ⟨name⟩) hname.isLower
        exact ⟨_, rfl, eq_of_sameName (hlower .vertex) (hlower .edge) hsame⟩
      · exact ⟨_, by rw [sameName_self]; rfl, rfl⟩

theorem Program.Creates.head_or_rest {i : Instruction} {rest : Program} {name : String}
    (h : Program.Creates (i :: rest) name) :
    (i = .createGraph ⟨name⟩ ∨ i = .createMetadata ⟨name⟩) ∨ Program.Creates rest name := by
  obtain h | h := h
  · exact (List.mem_cons.1 h).elim (fun h => .inl (.inl h.symm)) fun h => .inr (.inl h)
  · exact (List.mem_cons.1 h).elim (fun h => .inl (.inr h.symm)) fun h => .inr (.inr h)

/-- What a program creates is listed afterwards, unless it stands in the part that is not executed. -/
theorem Program.execute_lists (hb : b.IsDatabase view fails) {program : Program}
    (htargets : ∀ i ∈ program, ∀ name ∈ i.target?, IsGenerated name) {x : Execution σ}
    (hsends : program.SendsHarmless b view x.store) :
    Sustains (view x.store) (view ((program.execute b).runFrom x).2.store) ∧
      ∀ name, program.Creates name → Lists (view ((program.execute b).runFrom x).2.store) name ∨
        Program.Creates (program.unexecuted b x.store) name := by
  induction program generalizing x with
  | nil => exact ⟨.refl _, fun name hc => by simp [Creates] at hc⟩
  | cons i rest ih =>
    have hi := htargets i List.mem_cons_self
    have hrest : ∀ j ∈ rest, ∀ name ∈ j.target?, IsGenerated name := fun j hj =>
      htargets j (List.mem_cons_of_mem i hj)
    have hsustains : Sustains (view x.store) (view ((i.execute b).runFrom x.store).2) := by
      cases hnative : i.isNative with
      | true => rw [hsends.1 hnative]; exact .refl _
      | false => exact i.execute_sustains hb ⟨hnative, hi⟩ x.store (.refl _)
    have hlater := hsends.2
    rw [runFrom_cons, unexecuted]
    cases hrun : (i.execute b).runFrom x.store with
    | mk result s =>
      rw [hrun] at hsustains hlater
      cases result with
      | error e => exact ⟨hsustains, fun name hc => .inr hc⟩
      | ok answer =>
        obtain ⟨hkept, hlists⟩ := ih (x := .note answer { x with store := s }) hrest
          hlater
        refine ⟨hsustains.trans hkept, fun name hc => ?_⟩
        obtain hhead | hc := hc.head_or_rest
        · have hname : IsGenerated name := hi name (by obtain rfl | rfl := hhead <;> rfl)
          have hlisted := i.execute_creates hb hhead hname hrun
          exact .inl fun side => hkept.listed name side (IsOwn.isApart (.inr hname)) (hlisted side)
        · exact hlists name hc

/-! ## Collections -/

namespace Workspace

variable {db : Database} {t : SymbolTable} {name : String}

/-- A listed table that is not to be collected stays as it is. -/
theorem table?_collected_of_listed (h : db.Distinct) (hlisted : db.Listed name)
    (hkept : t.isCollected name = false) :
    ((collected t db).foldl remove db).table? name = db.table? name := by
  refine table?_collected_of_forall fun n hn => ?_
  obtain ⟨hn, hcollected⟩ := List.mem_filter.1 hn
  obtain ⟨⟨u, hu, rfl⟩, -⟩ := mem_tableNames.1 hn
  obtain ⟨v, hv, rfl⟩ := hlisted
  by_contra hsame
  rw [Bool.not_eq_false] at hsame
  rw [h.table?_eq hu hsame] at hv
  cases hv
  rw [hkept] at hcollected
  cases hcollected

theorem listed_collected (h : db.Distinct) (hlisted : db.Listed name)
    (hkept : t.isCollected name = false) : ((collected t db).foldl remove db).Listed name :=
  hlisted.congr (table?_collected_of_listed h hlisted hkept)

/-- What a variable is bound to is not collected. -/
theorem isCollected_of_reached {side : Side} (hapart : IsApart name)
    (hreached : name = Graph.base.name ∨ name ∈ t.bindings.map Prod.snd) :
    t.isCollected ((⟨name⟩ : Graph).table side) = false := by
  simp [isCollected, hapart.not_scratch side, mem_reachable_table.2 hreached]

end Workspace

namespace Session

/-! ## Stores between queries -/

/-- Any query, over a store without failures. -/
def AnyStep (db db' : Database) : Prop :=
  ∃ query, db' = ((execute Backend.memory query).runFrom db).2

/-- No scratch table is there. -/
def HasNoScratch (db : Database) : Prop :=
  ∀ t ∈ db.tables, beginsWith scratchPrefix t.name = false

theorem undisturbed_hasNoScratch : Undisturbed HasNoScratch := by
  intro closed ss hss db h
  refine run_batch_preserves (fun s hs db₁ db₂ answer h₁ happly => ?_) h
  refine apply_names (P := fun name => beginsWith scratchPrefix name = false) happly
    (fun ifAbsent name columns hc => ?_) h₁
  rw [hss s hs name (by rw [hc]; rfl)]
  decide

section Preserves

variable {I : Database → Prop} (hb : b.IsDatabase view fails) (hI : ∀ r db, I db → I (db.run r).2)

include hb hI

theorem collect_preserves : Action.Preserves (fun w => I (view w.store)) (Workspace.collect b) := by
  refine .bind (hb.relationNames_preserves.along (l := storeLens) (fun _ h => h)
    fun _ _ h _ => h) fun names => .bind .read fun w => ?_
  dsimp only
  split
  · exact .pure _
  · exact (((hb.execute_preserves (hI _)).bind fun _ => .pure _).along (l := storeLens)
      (fun _ h => h) fun _ _ h _ => h).bind fun _ => .pure _

theorem execute_program_preserves (program : Program) :
    Action.Preserves (fun x => I (view x.store)) (program.execute b) :=
  program.execute_preserves fun i _ => by
    cases hnative : i.isNative with
    | false =>
      exact i.execute_preserves hnative ⟨fun _ _ _ => hb.execute_preserves (hI _),
        fun _ _ _ => hb.queryRows_preserves (hI _)⟩ fun r _ => hb.execute_preserves (hI r)
    | true =>
      cases i with
      | native text => exact (hb.execute_preserves (hI _)).bind fun _ => .pure _
      | _ => cases hnative

theorem resolveAndRun_preserves (ss : List Query.Statement) :
    Action.Preserves (fun w => I (view w.store)) (resolveAndRun b ss) := by
  have hundisturbed : Undisturbed I := fun closed ss _ db => hI _ db
  have hrun : ∀ program, Action.Preserves (fun s => I (view s)) (run b program) := fun program =>
    run_preserves (fun s h => by rw [hb.acquire]; exact h) (fun s h => by rw [hb.release]; exact h)
      (execute_program_preserves hb hI program)
  intro w hw
  have hresolve := Resolution.resolve_preserves hb hundisturbed ss w hw
  rw [runFrom_resolveAndRun]
  split
  · next heq => rw [heq] at hresolve; exact hrun _ _ hresolve
  · next heq => rw [heq] at hresolve; exact hresolve

/-- What all requests preserve is preserved by a query. -/
theorem execute_preserves (query : String) :
    Action.Preserves (fun s => I (view s)) (execute b query) := by
  intro s hs
  have hload := SymbolTable.load_preserves hb (fun closed ss _ db => hI _ db) s hs
  obtain ⟨-, -, hsame | ⟨e, hfailed⟩⟩ | ⟨statements, symbols, s', -, hloaded, -, -, hafter⟩ :=
    execute_cases b query s
  · rw [hsame]; exact hs
  · rwa [hfailed] at hload
  · rw [hloaded] at hload
    rw [hafter]
    exact collect_preserves hb hI _ (resolveAndRun_preserves hb hI statements _ hload)

end Preserves

theorem run_distinct (r : Request) (db : Database) (h : db.Distinct) : (db.run r).2.Distinct :=
  Database.run_preserves (fun _ _ _ _ h happly => apply_distinct happly h) r h

theorem Reachable.distinct {db : Database} (h : Reachable AnyStep db) : db.Distinct := by
  induction h with
  | fresh => exact (show (⟨Storage.baseTables⟩ : Database).Distinct by unfold Distinct; decide +kernel)
  | load d _ ih =>
    exact document_preserves (fun s _ _ _ _ h happly => apply_distinct happly h) d _ ih
  | step _ hstep ih =>
    obtain ⟨query, rfl⟩ := hstep
    exact execute_preserves Backend.isDatabase_memory run_distinct query _ ih

/-- A collection leaves no scratch table. -/
theorem hasNoScratch_collect (w : Workspace Database) :
    HasNoScratch ((Workspace.collect Backend.memory).runFrom w).2.store := by
  intro t ht
  rw [collect_memory, mem_tables_foldl_remove] at ht
  by_contra hscratch
  rw [Bool.not_eq_false] at hscratch
  have hcollected : w.symbols.isCollected t.name = true := by simp [isCollected, hscratch]
  have hmem : t.name ∈ collected w.symbols w.store :=
    List.mem_filter.2 ⟨mem_tableNames.2 ⟨⟨t, ht.1, rfl⟩, isHidden_of_isCollected hcollected⟩, hcollected⟩
  have := ht.2 t.name hmem
  rw [sameName_self] at this
  cases this

/-- Each query ends with a collection, unless it does nothing. -/
theorem execute_hasNoScratch (query : String) : Action.Preserves HasNoScratch (execute Backend.memory query) := by
  intro db hdb
  obtain ⟨-, -, hsame | ⟨e, hload⟩⟩ | ⟨statements, symbols, s', -, -, -, -, hafter⟩ :=
    execute_cases Backend.memory query db
  · rw [hsame]; exact hdb
  · have h := SymbolTable.load_preserves Backend.isDatabase_memory undisturbed_hasNoScratch db hdb
    rwa [hload] at h
  · rw [hafter]
    exact hasNoScratch_collect _

/-- Adding rows to base relations makes no tables. -/
theorem insertion_hasNoScratch {s : Statement} (hs : IsBaseInsertion s) (db db' : Database)
    (answer : Option (List Row)) (h : HasNoScratch db) (happly : db.apply s = .ok (db', answer)) : HasNoScratch db' := by
  obtain ⟨table, columns, rows, rfl, -⟩ := hs
  exact apply_names (P := fun name => beginsWith scratchPrefix name = false) happly (fun _ _ _ hc => nomatch hc) h

theorem hasNoScratch_fresh : HasNoScratch Storage.fresh :=
  show ∀ t ∈ Storage.baseTables, beginsWith scratchPrefix t.name = false by decide

theorem Reachable.hasNoScratch {db : Database} (h : Reachable AnyStep db) : HasNoScratch db := by
  induction h with
  | fresh => exact hasNoScratch_fresh
  | load d _ ih => exact document_preserves (fun s hs => insertion_hasNoScratch hs) d _ ih
  | step _ hstep ih =>
    obtain ⟨query, rfl⟩ := hstep
    exact execute_hasNoScratch query _ ih

/-! ## One query -/

/-- The program that a query executes and the store from which it does, if it gets there. -/
def program? (b : Backend σ) (query : String) (s : σ) : Option (Program × σ) :=
  match Query.parse query with
  | .error _ => none
  | .ok statements =>
    match (SymbolTable.load b).runFrom s with
    | (.error _, _) => none
    | (.ok symbols, s) =>
      match (Resolution.resolve b statements).runFrom ⟨symbols, s⟩ with
      | (.error _, _) => none
      | (.ok program, w) => some (program, b.acquire w.store)

/-- A name that some variable has before a query. -/
def Names (db : Database) (name : String) : Prop :=
  name = Graph.base.name ∨ ∃ var, storedName? db var = some name

theorem view_run (hb : b.IsDatabase view fails) (program : Program) (s : σ) :
    view ((run b program).runFrom s).2
      = view ((program.execute b).runFrom ⟨b.acquire s, none⟩).2.store := by
  simp only [run, Backend.locked, Action.runFrom_bind, Action.runFrom_modify,
    Action.runFrom_thenAlways, Action.runFrom_of, hb.release]
  split <;> next heq => rw [heq]

theorem Lists.of_spares {db db' : Database} {name : String} (hs : Spares db db') (h : Lists db name) :
    Lists db' name := fun side =>
  (h side).congr (hs.others _ (by rw [sameName_comm]; exact Graph.sameName_table_relation _ side))

section Collected

variable (hb : b.IsDatabase view fails) (hfails : ¬ fails) {known : String → Prop} {w w' : Workspace σ}
  (h : w.Mirrors view known) (hknown : ∀ name, known name → IsApart name)
  (hlists : ∀ name, known name → Lists (view w.store) name) {ss : List Query.Statement} {var name : String}

include hb hfails h

theorem bound_of_resolve {result : Except QueryError Program}
    (hrun : (Resolution.resolve b ss).runFrom w = (result, w'))
    (hstored : storedName? (view w'.store) var = some name) :
    w'.symbols.bindings.find? var = some name := by
  have hvar : var ≠ counterKey := by
    rintro rfl
    simp [storedName?] at hstored
  have htrue := h.mono fun name _ => trivial
  have hagrees := (Resolution.resolve_leaves hb admits_true htrue ss).agrees
    (Resolution.settles_of_reliable hb hfails admits_true htrue ss)
  rw [hrun] at hagrees
  exact (hagrees var hvar).trans hstored

include hknown hlists

/-- A query that is resolved and executed: a stored variable has a name that was known, or one that a
statement was to create. -/
theorem executed_names (hbase : known Graph.base.name) {program : Program}
    (hrun : (Resolution.resolve b ss).runFrom w = (.ok program, w'))
    (hsends : Program.SendsHarmless b view program (b.acquire w'.store))
    (hstored : storedName? (view ((run b program).runFrom w'.store).2) var = some name) :
    name ∈ w'.symbols.bindings.map Prod.snd ∧ IsApart name ∧
      (Lists (view ((run b program).runFrom w'.store).2) name ∨
        Program.Creates (Program.unexecuted b program (b.acquire w'.store)) name) := by
  have htrue := h.mono fun name _ => trivial
  have hleaves := Resolution.resolve_leaves hb admits_true htrue ss
  have hmirrors := Resolution.statements_mirrors hb admits_true ss ⟨w, []⟩ htrue
  obtain ⟨d, hd, hcommit, rfl⟩ := Resolution.resolve_ok hrun
  have htraced : d.Traced known := Resolution.statements_induction
    (fun s _ _ _ => Resolution.statement_traced hbase) ⟨fun v n hn => .inl (h.onlyBound v n hn), by simp⟩ hd
  rw [hd] at hmirrors
  obtain ⟨-, -, -, -, hbindings⟩ := hmirrors.commit hb
  rw [hcommit] at hbindings
  rw [hrun] at hleaves
  obtain ⟨hsustains, hcreated⟩ := Program.execute_lists hb htraced.targets
    (x := ⟨b.acquire w'.store, none⟩) hsends
  rw [view_run hb] at hstored ⊢
  rw [storedName?_congr hsustains.relation, hb.acquire] at hstored
  have hbound := bound_of_resolve hb hfails h hrun hstored
  refine ⟨List.mem_map_of_mem (OrderedMap.mem_of_find? hbound), ?_⟩
  rw [hbindings] at hbound
  obtain hname | hname := htraced.names var name hbound
  · refine ⟨hknown name hname, .inl fun side => hsustains.listed name side (hknown name hname) ?_⟩
    rw [hb.acquire]
    exact Lists.of_spares hleaves.spares (hlists name hname) side
  · have hgenerated : IsGenerated name := hname.elim (fun hi => htraced.targets _ hi name rfl)
      fun hi => htraced.targets _ hi name rfl
    exact ⟨IsOwn.isApart (.inr hgenerated), hcreated name hname⟩

/-- A query that is not resolved: a stored variable has the name it had. -/
theorem discarded_names {e : QueryError} (hrun : (Resolution.resolve b ss).runFrom w = (.error e, w'))
    (hstored : storedName? (view w'.store) var = some name) :
    name ∈ w'.symbols.bindings.map Prod.snd ∧ IsApart name ∧ Lists (view w'.store) name := by
  have htrue := h.mono fun name _ => trivial
  have hleaves := Resolution.resolve_leaves hb admits_true htrue ss
  have hmirrors := Resolution.statements_mirrors hb admits_true ss ⟨w, []⟩ htrue
  have hsame := Resolution.statements_storedName? hb (storedName? (view w.store)) ss ⟨w, []⟩
    ⟨h.keeps.imp fun _ hk => hk.1, fun _ => rfl⟩
  have hbound := bound_of_resolve hb hfails h hrun hstored
  have hcases := Resolution.resolve_cases b ss w
  rw [hrun] at hleaves hcases
  obtain ⟨d, hd, -, hcommitted⟩ | ⟨_, d, hd, -, hdiscarded, -⟩ := hcases <;> rw [hd] at hmirrors hsame
  · obtain ⟨-, -, -, hcommit, -⟩ := hmirrors.commit hb
    rw [hcommit hfails] at hcommitted
    cases hcommitted
  · change w' = _ at hdiscarded
    rw [hdiscarded, (hmirrors.discard hb).1, hsame.2] at hstored
    have hname := h.onlyStored var name hstored
    exact ⟨List.mem_map_of_mem (OrderedMap.mem_of_find? hbound), hknown name hname,
      Lists.of_spares hleaves.spares (hlists name hname)⟩

/-- What a query leaves to its collection, over a store without failures: every stored variable is
bound in memory to a name that was known and is still listed, or to one that the program creates. -/
theorem resolveAndRun_names (hbase : known Graph.base.name)
    (hsends : ∀ program w', (Resolution.resolve b ss).runFrom w = (.ok program, w') →
      Program.SendsHarmless b view program (b.acquire w'.store))
    (hstored : storedName? (view ((resolveAndRun b ss).runFrom w).2.store) var = some name) :
    name ∈ ((resolveAndRun b ss).runFrom w).2.symbols.bindings.map Prod.snd ∧ IsApart name ∧
      (Lists (view ((resolveAndRun b ss).runFrom w).2.store) name ∨
        ∃ program w', (Resolution.resolve b ss).runFrom w = (.ok program, w') ∧
          Program.Creates (Program.unexecuted b program (b.acquire w'.store)) name) := by
  rw [runFrom_resolveAndRun] at hstored ⊢
  cases hrun : (Resolution.resolve b ss).runFrom w with
  | mk result w' =>
    rw [hrun] at hstored
    cases result with
    | ok program =>
      obtain ⟨hbound, hapart, hname⟩ :=
        executed_names hb hfails h hknown hlists hbase hrun (hsends program w' hrun) hstored
      exact ⟨hbound, hapart, hname.imp_right fun hcreates => ⟨program, w', rfl, hcreates⟩⟩
    | error e =>
      obtain ⟨hbound, hapart, hname⟩ := discarded_names hb hfails h hknown hlists hrun hstored
      exact ⟨hbound, hapart, .inl hname⟩

end Collected

/-- The stored bindings can be read, and every name that a variable has is in lower case and has both
of its relations. -/
structure Settled (db : Database) : Prop where
  intact : Intact db
  lower : ∀ name, Names db name → IsLower name
  lists : ∀ name, Names db name → Lists db name

theorem Settled.isApart {db : Database} (h : Settled db) (hscratch : HasNoScratch db) {name : String}
    (hname : Names db name) : IsApart name := by
  refine ⟨h.lower name hname, fun side => ?_⟩
  obtain ⟨t, ht, htable⟩ := h.lists name hname side
  rw [← htable]
  exact hscratch t (table?_mem ht)

theorem execute_memory {query : String} {db : Database} {w : Workspace Database}
    (hw : beforeCollection? Backend.memory query db = some w) :
    ((execute Backend.memory query).runFrom db).2
      = (collected w.symbols w.store).foldl remove w.store := by
  obtain ⟨hnone, -⟩ | ⟨statements, symbols, s', -, -, hsome, -, hafter⟩ :=
    execute_cases Backend.memory query db
  · rw [hnone] at hw; cases hw
  · rw [hsome] at hw
    cases hw
    rw [hafter, collect_memory]

theorem storedName?_execute_memory {query : String} {db : Database} {w : Workspace Database}
    (hw : beforeCollection? Backend.memory query db = some w) (var : String) :
    storedName? ((execute Backend.memory query).runFrom db).2 var = storedName? w.store var := by
  rw [execute_memory hw, storedName?_congr table?_relation_collected]

/-- A text that the store refuses stands between the statements for two graphs. -/
def twoGraphs : String := "$a = vertices(1)\nnative 'SELECT * FROM nope'\n$b = vertices(2)"

theorem settled_fresh : Settled Storage.fresh where
  intact := .inl rfl
  lower := by
    rintro name (rfl | ⟨var, hvar⟩)
    · decide
    · exact absurd hvar (by simp [storedName?, show Storage.fresh.table? relation = none from rfl])
  lists := by
    rintro name (rfl | ⟨var, hvar⟩)
    · decide +kernel
    · exact absurd hvar (by simp [storedName?, show Storage.fresh.table? relation = none from rfl])

theorem sendsHarmless_twoGraphs (program : Program) (s : Database)
    (h : program? Backend.memory twoGraphs Storage.fresh = some (program, s)) :
    Program.SendsHarmless Backend.memory id program s := by
  have hall : (program? Backend.memory twoGraphs Storage.fresh).all
      (fun x => Program.SendsHarmless Backend.memory id x.1 x.2) = true := by decide +kernel
  simpa [h] using hall

/-- What the query leaves to its collection: both variables are stored, but the program has only come
to the first of the graphs. -/
theorem beforeCollection?_twoGraphs : ∃ w,
    beforeCollection? Backend.memory twoGraphs Storage.fresh = some w ∧
      storedName? w.store "$a" = some "trace_1" ∧ storedName? w.store "$b" = some "trace_2" ∧
      w.store.table? "trace_2_vertex" = none := by
  have hfacts : (beforeCollection? Backend.memory twoGraphs Storage.fresh).map (fun w =>
      (storedName? w.store "$a", storedName? w.store "$b", (w.store.table? "trace_2_vertex").isNone))
        = some (some "trace_1", some "trace_2", true) := by decide +kernel
  obtain ⟨w, hw, hfacts⟩ := Option.map_eq_some_iff.1 hfacts
  rw [Prod.mk.injEq, Prod.mk.injEq, Option.isNone_iff_eq_none] at hfacts
  exact ⟨w, hw, hfacts⟩

end Session

end Provenance

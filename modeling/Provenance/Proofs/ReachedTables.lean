import Provenance.Proofs.Histories

/-!
# What a query leaves

After a query, the bindings in memory are the stored ones, pair by pair. So its collection, which asks
those in memory what is reached, drops all scratch tables and all tables of graphs and metadata but
those of stored names. It drops no other table, and a collection right after it finds nothing.

Tables of a user may be mistaken for tables of the engine if their names begin with one of its
prefixes in other letters: the store takes them for the same.
-/

namespace Provenance

open Store Database SymbolTable Workspace Action

variable {σ : Type} {b : Backend σ} {view : σ → Database}

/-! ## Bindings as a list of pairs -/

/-- The bindings in memory are in order. Neither the counter nor the base graph is among them. -/
structure SymbolTable.IsOrderly (t : SymbolTable) : Prop where
  sorted : t.bindings.Sorted
  noCounter : t.bindings.find? counterKey = none
  noBase : t.bindings.find? baseVariable = none

namespace SymbolTable.IsOrderly

variable {t t' : SymbolTable} {w : Workspace σ}

theorem of_bindings (h : t.IsOrderly) (hbindings : t'.bindings = t.bindings) : t'.IsOrderly := by
  obtain ⟨hsorted, hcounter, hbase⟩ := h
  rw [← hbindings] at hsorted hcounter hbase
  exact ⟨hsorted, hcounter, hbase⟩

/-- Bindings that are read from the store. -/
theorem of_stored {db : Database} (hsorted : t.bindings.Sorted)
    (hbound : ∀ var, t.bindings.find? var = storedName? db var)
    (hbase : storedName? db baseVariable = none) : t.IsOrderly :=
  ⟨hsorted, by rw [hbound]; simp [storedName?], by rw [hbound, hbase]⟩

theorem insert (h : t.IsOrderly) {var : String} (hcounter : var ≠ counterKey)
    (hbase : var ≠ baseVariable) (name : String) (pending : OrderedMap String String) :
    IsOrderly { t with bindings := t.bindings.insert var name, pending } :=
  ⟨h.sorted.insert var name, by rw [OrderedMap.find?_insert, if_neg hcounter.symm, h.noCounter],
    by rw [OrderedMap.find?_insert, if_neg hbase.symm, h.noBase]⟩

theorem clear (t : SymbolTable) : t.clear.IsOrderly := ⟨List.Pairwise.nil, rfl, rfl⟩

theorem fresh : Preserves (fun w : Workspace σ => w.symbols.IsOrderly) (freshNumber b) :=
  .bind .read fun _ => .bind (.along (I := fun _ => True) (fun _ _ => trivial) (fun _ _ => trivial)
    fun _ _ _ h => h) fun _ => .bind (.modify fun _ h => h.of_bindings rfl) fun _ => .pure _

end SymbolTable.IsOrderly

namespace Resolution

variable {ss : List Query.Statement}

theorem statements_isOrderly (hss : ∀ s ∈ ss, s.assigned? ≠ some counterKey) :
    Preserves (OnWorkspace fun w => w.symbols.IsOrderly) (ss.forM (statement b)) :=
  .forM fun s hs => statement_preserves IsOrderly.fresh
    (fun _ _ name h hvar hbase _ => h.insert (fun hc => hss s hs (hvar.trans (congrArg some hc)))
      hbase name _) fun _ w _ => .clear w.symbols

theorem resolve_isOrderly (hb : b.IsDatabase view False) {w : Workspace σ}
    (hmirrors : w.Mirrors view fun _ => True) (hcounts : w.Counts view) (h : w.symbols.IsOrderly)
    (hbase : storedName? (view w.store) baseVariable = none)
    (hss : ∀ s ∈ ss, s.assigned? ≠ some counterKey) :
    ((resolve b ss).runFrom w).2.symbols.IsOrderly := by
  have hmirrored := statements_mirrors hb admits_true ss ⟨w, []⟩ hmirrors
  have hcounted := statements_counts hb hss ⟨w, []⟩ hcounts
  have horderly := statements_isOrderly (b := b) hss ⟨w, []⟩ h
  have hnames := statements_storedName? hb (storedName? (view w.store)) ss ⟨w, []⟩
    ⟨hmirrors.keeps.imp fun _ hk => hk.1, fun _ => rfl⟩
  obtain ⟨d, hd, -, hrun⟩ | ⟨e, d, hd, -, hw, -⟩ := resolve_cases b ss w
  · rw [hd] at hmirrored horderly
    rw [hrun]
    exact horderly.of_bindings (Mirrors.commit hb hmirrored).2.2.2.2
  · rw [hd] at hmirrored hcounted horderly hnames
    obtain ⟨entries, hk, hreadable⟩ := hmirrored.keeps
    obtain ⟨bindings, s, hs, -, hsorted, hbound⟩ := discard_reliable hb hk hreadable horderly.sorted
      fun var => by
        by_cases hvar : var = counterKey
        · rw [hvar, horderly.noCounter, hcounted.pending]
          simp [storedName?]
        · exact hmirrored.bound var hvar
    rw [hw, hs]
    exact .of_stored hsorted hbound ((hnames.2 _).trans hbase)

end Resolution

namespace Session

theorem beforeCollection?_isOrderly (hb : b.IsDatabase view False) {s : σ} (h : Whole (view s))
    (hbase : storedName? (view s) baseVariable = none) {query : String}
    (hquery : Query.IsPlain query) {w : Workspace σ} (hw : beforeCollection? b query s = some w) :
    w.symbols.IsOrderly := by
  obtain ⟨ss, t, s', hparse, hload, rfl, -⟩ := beforeCollection?_some hw
  obtain ⟨_, _, entries, hload', -, hreads, -, -, hnames, -⟩ := load_reliable hb h.intact h.counter
  rw [hload] at hload'
  cases hload'
  rw [(resolveAndRun_bindings hb (hquery ss hparse) ⟨t, s'⟩).1]
  have hnone : storedName? (view s') baseVariable = none := (hnames _).trans hbase
  exact Resolution.resolve_isOrderly hb (mirrors_load hb h.intact (fun _ _ _ => trivial) hload)
    (counts_load hb h.intact hload) (.of_stored hreads.sorted hreads.bindings hnone) hnone
    fun st hst => Query.assigned?_ne_counterKey (Query.isReadable_of_parse hparse st hst)

/-- The names that a collection reaches are those that variables have. -/
theorem reached_iff {w : Workspace σ} (h : w.symbols.IsOrderly) (hagrees : w.Agrees view)
    {name : String} : (name = Graph.base.name ∨ name ∈ w.symbols.bindings.map Prod.snd) ↔
      Names (view w.store) name := by
  refine or_congr_right ⟨fun hmem => ?_, fun ⟨var, hvar⟩ => ?_⟩
  · obtain ⟨⟨var, name⟩, hpair, rfl⟩ := List.mem_map.1 hmem
    have hfind := OrderedMap.find?_of_mem h.sorted.nodup hpair
    refine ⟨var, (hagrees var ?_).symm.trans hfind⟩
    rintro rfl
    rw [h.noCounter] at hfind
    cases hfind
  · have hne : var ≠ counterKey := by
      rintro rfl
      simp [storedName?] at hvar
    exact List.mem_map.2 ⟨_, OrderedMap.mem_of_find? ((hagrees var hne).trans hvar), rfl⟩

/-! ## What a collection keeps -/

section Kept

variable {t : SymbolTable} {db : Database}

theorem mem_tables_collected (h : db.Distinct) {table : Table} :
    table ∈ ((collected t db).foldl remove db).tables ↔
      table ∈ db.tables ∧ t.isCollected table.name = false := by
  rw [mem_tables_foldl_remove]
  refine and_congr_right fun htable => ⟨fun hkept => ?_, fun hkept n hn => ?_⟩
  · rw [← Bool.not_eq_true]
    intro hcollected
    have := hkept table.name (List.mem_filter.2
      ⟨mem_tableNames.2 ⟨⟨table, htable, rfl⟩, isHidden_of_isCollected hcollected⟩, hcollected⟩)
    rw [sameName_self] at this
    cases this
  · obtain ⟨hlisted, hcollected⟩ := List.mem_filter.1 hn
    obtain ⟨⟨u, hu, rfl⟩, -⟩ := mem_tableNames.1 hlisted
    rw [← Bool.not_eq_true]
    intro hsame
    have heq := h.table?_eq htable hsame
    rw [h.table?_eq hu (sameName_self _)] at heq
    cases heq
    rw [hkept] at hcollected
    cases hcollected

/-- A table of graphs or metadata that is kept is one of a name that is reached. -/
theorem mem_relationsOf_of_kept {name : String} (hkept : t.isCollected name = false)
    (hbegins : beginsWith graphPrefix name = true ∨ beginsWith metadataPrefix name = true) :
    ∃ handle, (handle = Graph.base.name ∨ handle ∈ t.bindings.map Prod.snd) ∧
      name ∈ relationsOf handle := by
  have hmem : name ∈ t.reachable := by
    simp only [isCollected, Bool.or_eq_false_iff, Bool.and_eq_false_iff, Bool.not_eq_false',
      List.contains_iff_mem] at hkept
    obtain hnone | hmem := hkept.2
    · rw [hnone.1, hnone.2] at hbegins
      simp at hbegins
    · exact hmem
  rw [reachable, List.mem_append, List.mem_append] at hmem
  obtain (hmem | hmem) | hmem := hmem
  · have hother : ∀ n ∈ Side.all.map Side.baseTable ++ Side.all.map Side.annotationTable ++ [relation],
        beginsWith graphPrefix n = false ∧ beginsWith metadataPrefix n = false := by decide
    rw [(hother name hmem).1, (hother name hmem).2] at hbegins
    simp at hbegins
  · exact ⟨_, .inl rfl, hmem⟩
  · obtain ⟨⟨var, handle⟩, hbound, hmem⟩ := List.mem_flatMap.1 hmem
    exact ⟨handle, .inr (List.mem_map.2 ⟨_, hbound, rfl⟩), hmem⟩

/-- What is kept is also kept if no fewer names are reached. -/
theorem isCollected_mono {t' : SymbolTable} (h : ∀ handle,
      (handle = Graph.base.name ∨ handle ∈ t.bindings.map Prod.snd) →
        handle = Graph.base.name ∨ handle ∈ t'.bindings.map Prod.snd)
    {name : String} (hkept : t.isCollected name = false) : t'.isCollected name = false := by
  have hscratch : beginsWith scratchPrefix name = false := (Bool.or_eq_false_iff.1 hkept).1
  by_cases hbegins : beginsWith graphPrefix name = true ∨ beginsWith metadataPrefix name = true
  · obtain ⟨handle, hreached, hmem⟩ := mem_relationsOf_of_kept hkept hbegins
    obtain ⟨side, -, rfl⟩ := List.mem_map.1 hmem
    simp [isCollected, hscratch, mem_reachable_table.2 (h handle hreached)]
  · rw [not_or, Bool.not_eq_true, Bool.not_eq_true] at hbegins
    simp [isCollected, hscratch, hbegins]

end Kept

/-! ## Letters -/

/-- The prefixes by which collections know what is their own. -/
def prefixes : List String := [scratchPrefix, graphPrefix, metadataPrefix]

/-- The name does not begin with a prefix of the engine in other letters. -/
def IsLettered (name : String) : Prop :=
  ∀ start ∈ prefixes, start.toList <+: folded name → beginsWith start name = true

theorem isLettered_of_isLower {name : String} (h : IsLower name) : IsLettered name :=
  fun start _ hbegins => by
    rw [show folded name = name.toList from h] at hbegins
    exact List.isPrefixOf_iff_prefix.2 hbegins

/-- All names of tables have the prefixes of the engine in its letters only, and nothing is stored for
the base graph. -/
structure IsOrdinary (db : Database) : Prop where
  lettered : ∀ t ∈ db.tables, IsLettered t.name
  noBase : storedName? db baseVariable = none

theorem IsOrdinary.confined {touched : String → Prop} {db db' : Database} (h : IsOrdinary db)
    (hdb : Confined touched db db') (hbase : storedName? db' baseVariable = none) : IsOrdinary db' where
  lettered t ht := by
    obtain hlower | ⟨u, hu, heq⟩ := hdb.names t ht
    · exact isLettered_of_isLower hlower
    · exact heq ▸ h.lettered u hu
  noBase := hbase

theorem isOrdinary_fresh : IsOrdinary Storage.fresh :=
  ⟨fun t ht => isLettered_of_isLower (sound_fresh.lower t ht), storedName?_fresh _⟩

/-- A statement that records leaves the names of tables. -/
theorem IsOrdinary.recorded {db db' : Database} (h : IsOrdinary db) {s : Statement}
    (hs : IsBaseInsertion s) {answer : Option (List Row)} (happly : db.apply s = .ok (db', answer)) :
    IsOrdinary db' where
  lettered := by
    obtain ⟨table, columns, rows, rfl, -⟩ := hs
    exact apply_names happly nofun h.lettered
  noBase := (storedName?_congr (hs.table?_relation happly) _).trans h.noBase

theorem IsOrdinary.add {db : Database} (h : IsOrdinary db) {t : Table} (ht : IsLettered t.name)
    (hrelation : sameName relation t.name = false) : IsOrdinary (db.add t) where
  lettered u hu := by
    obtain hu | hu := List.mem_append.1 hu
    · exact h.lettered u hu
    · rw [List.mem_singleton.1 hu]; exact ht
  noBase := (storedName?_congr (table?_relation_add hrelation) _).trans h.noBase

/-- A collection leaves the relation of the bindings. -/
theorem table?_relation_collect (w : Workspace Database) :
    ((Workspace.collect Backend.memory).runFrom w).2.store.table? relation
      = w.store.table? relation :=
  (collect_confined Backend.isDatabase_memory w).others relation fun hc => hc rfl

theorem IsOrdinary.executed {db : Database} (h : IsOrdinary db) (hwhole : Whole db) {query : String}
    (hplain : Query.IsPlain query) (hfits : ∀ e, TooMany e →
      ((execute Backend.memory query).runFrom db).1 ≠ .error (.backend e)) :
    IsOrdinary ((execute Backend.memory query).runFrom db).2 := by
  have hb := Backend.isDatabase_memory
  cases hw : beforeCollection? Backend.memory query db with
  | none =>
    obtain ⟨-, hnames, -, hconfined⟩ := execute_of_beforeCollection?_none hb hwhole.intact hw
    exact h.confined hconfined ((hnames _).trans h.noBase)
  | some w =>
    have horderly := beforeCollection?_isOrderly hb hwhole h.noBase hplain hw
    obtain ⟨ss, t, s', hparse, -, -, hafter⟩ := beforeCollection?_some hw
    obtain ⟨e, he, hmany⟩ | ⟨-, w', hw', -, hagrees, -⟩ := hwhole.executed_of_parse hb hplain hparse
    · exact absurd he (hfits e hmany)
    · obtain rfl : w = w' := Option.some.inj (hw.symm.trans hw')
      rw [hafter]
      refine h.confined ((beforeCollection?_confined hb hplain hw).trans (collect_confined hb w)) ?_
      rw [storedName?_congr (table?_relation_collect w)]
      exact (hagrees _ (by decide)).symm.trans horderly.noBase

/-! ## Loading and collecting -/

/-- A loaded symbol table has the stored bindings. Loading adds at most the relation of these. -/
theorem loaded_memory {db : Database} (h : Whole db) : ∃ w : Workspace Database,
    (SymbolTable.load Backend.memory).runFrom db = (.ok w.symbols, w.store) ∧ Whole w.store ∧
      w.symbols.bindings.Sorted ∧ (∀ var, w.symbols.bindings.find? var = storedName? w.store var) ∧
      (∀ var, storedName? w.store var = storedName? db var) ∧
      (∀ u ∈ w.store.tables, u.name = relation ∨ ∃ v ∈ db.tables, v.name = u.name) ∧
      Confined IsBindings db w.store := by
  have hb := Backend.isDatabase_memory
  obtain ⟨t, s, _, hload, -, hreads, -, -, hnames, -⟩ := load_reliable hb h.intact h.counter
  have hpreserves : ∀ {I : Database → Prop}, Undisturbed I → I db → I s := fun hI hdb => by
    have := SymbolTable.load_preserves hb hI db hdb
    rwa [hload] at this
  refine ⟨⟨t, s⟩, hload, (h.loaded hb hload).1, hreads.sorted, hreads.bindings, hnames,
    hpreserves (I := fun s => ∀ u ∈ s.tables, u.name = relation ∨ ∃ v ∈ db.tables, v.name = u.name)
      ?_ fun u hu => .inr ⟨u, hu, rfl⟩, hpreserves (undisturbed_confined db) (.refl _ _)⟩
  intro closed ss hss db' hdb'
  refine run_batch_preserves (I := fun s => ∀ u ∈ s.tables, u.name = relation ∨
    ∃ v ∈ db.tables, v.name = u.name) (fun s hs db₁ db₂ answer h₁ happly => ?_) hdb'
  exact apply_names (P := fun name => name = relation ∨ ∃ v ∈ db.tables, v.name = name) happly
    (fun _ name _ hc => .inl (hss s hs name (by rw [hc]; rfl))) h₁

theorem runFrom_collectGarbage {db : Database} {w : Workspace Database}
    (hload : (SymbolTable.load Backend.memory).runFrom db = (.ok w.symbols, w.store)) :
    (collectGarbage Backend.memory).runFrom db = (((Workspace.collect Backend.memory).runFrom w).1,
      ((Workspace.collect Backend.memory).runFrom w).2.store) := by
  simp only [collectGarbage, withSymbols, runFrom_of, hload]

/-- A collection that finds nothing drops nothing. -/
theorem collect_nothing {w : Workspace Database} (h : collected w.symbols w.store = []) :
    (Workspace.collect Backend.memory).runFrom w = (.ok 0, w) := by
  have hnames : (Backend.memory.relationNames.along storeLens).runFrom w
      = (.ok w.store.tableNames, w) := rfl
  rw [Workspace.collect, runFrom_bind_ok hnames]
  simp only [runFrom_bind, runFrom_get]
  rw [show w.store.tableNames.filter w.symbols.isCollected = [] from h]
  rfl

/-! ## Histories -/

theorem History.isOrdinary {made : Nat} {db : Database} (h : History IsLettered made db) :
    IsOrdinary db := by
  refine h.induction (P := fun _ => IsOrdinary) isOrdinary_fresh
    (fun _ s hs db db' answer hdb happly => hdb.recorded hs.isBaseInsertion happly)
    (fun _ db t hdb _ hrelation hlettered => hdb.add hlettered hrelation) (fun _ db hhistory hdb => ?_)
    fun _ db query hhistory hdb hplain hfits => hdb.executed hhistory.holds.1 hplain hfits
  obtain ⟨w, hload, -, -, -, hnames, -, hconfined⟩ := loaded_memory hhistory.holds.1
  rw [runFrom_collectGarbage hload]
  refine hdb.confined (hconfined.trans (collect_confined Backend.isDatabase_memory w)) ?_
  exact (storedName?_congr (table?_relation_collect w) _).trans ((hnames _).trans hdb.noBase)

/-- No table of the engine can be taken for a table whose name begins with none of the prefixes, also
not in other letters. -/
theorem table?_execute_of_lettered {db : Database} {query : String} (hplain : Query.IsPlain query)
    {name : String} (hletters : ∀ start ∈ prefixes, ¬ start.toList <+: folded name)
    (hrelation : sameName relation name = false) :
    ((execute Backend.memory query).runFrom db).2.table? name = db.table? name := by
  by_contra hne
  have hno : ∀ start ∈ prefixes, ∀ table, beginsWith start table = true →
      ¬ sameName table name = true := fun start hstart table htable hsame => by
    refine hletters start hstart ?_
    rw [← folded_eq_of_sameName hsame]
    exact folded_of_beginsWith htable ((show ∀ s ∈ prefixes, IsLower s by decide) start hstart)
  cases mayChange_of_ne Backend.isDatabase_memory hplain hne with
  | bindings hsame => rw [hrelation] at hsame; cases hsame
  | scratch htable hsame => exact hno scratchPrefix (by decide) _ htable hsame
  | allocated _ _ _ _ _ _ hnumber hsame =>
    rw [Graph.table, String.append_assoc] at hsame
    obtain htable | htable := Bool.or_eq_true_iff.1 (hnumber.isGenerated.begins _)
    · exact hno graphPrefix (by decide) _ htable hsame
    · exact hno metadataPrefix (by decide) _ htable hsame
  | unreached _ _ htable _ hsame =>
    obtain htable | htable := htable
    · exact hno graphPrefix (by decide) _ htable hsame
    · exact hno metadataPrefix (by decide) _ htable hsame

/-- Of the tables with the prefixes of the engine, a store has just the two of the base graph and of
each name that is stored. All its other tables but the relation of the bindings are those of an
earlier store. -/
structure HoldsReached (before after : Database) : Prop where
  scratch : ∀ t ∈ after.tables, beginsWith scratchPrefix t.name = false
  present : ∀ handle, Names after handle → ∀ name ∈ relationsOf handle, ∃ t ∈ after.tables, t.name = name
  reached : ∀ t ∈ after.tables,
    beginsWith graphPrefix t.name = true ∨ beginsWith metadataPrefix t.name = true →
      ∃ handle, Names after handle ∧ t.name ∈ relationsOf handle
  others : ∀ t : Table, (∀ start ∈ prefixes, beginsWith start t.name = false) →
    sameName relation t.name = false → (t ∈ after.tables ↔ t ∈ before.tables)

/-- The two tables of a name that a variable has are there, just under their names. -/
theorem Whole.exists_table {db : Database} (h : Whole db)
    (hbase : storedName? db baseVariable = none) {handle : String} (hhandle : Names db handle)
    (side : Side) : ∃ t ∈ db.tables, t.name = (⟨handle⟩ : Graph).table side := by
  obtain ⟨var, hvar⟩ : ∃ var, nameOf? db var = some handle := by
    obtain rfl | ⟨var, hvar⟩ := hhandle
    · exact ⟨baseVariable, by rw [nameOf?, if_pos rfl]⟩
    · refine ⟨var, ?_⟩
      rw [nameOf?, if_neg, hvar]
      rintro rfl
      rw [hbase] at hvar
      cases hvar
  obtain ⟨columns, hcolumns⟩ : ∃ columns, (Resolution.named ⟨var⟩ handle).tableColumns? = some columns := by
    unfold Resolution.named
    split <;> exact ⟨_, rfl⟩
  obtain ⟨t, ht, hlisted, -⟩ := h.meets _ _ (.handle (.bound hvar) hcolumns side)
  rw [Resolution.named_shown] at hlisted
  exact ⟨t, table?_mem ht, hlisted⟩

/-- A table with none of the prefixes is there after a query just if it was there before. -/
theorem mem_tables_execute {db : Database} {query : String} (hplain : Query.IsPlain query)
    {t : Table} (hbefore : IsOrdinary db) (hdistinct : db.Distinct)
    (hafter : IsOrdinary ((execute Backend.memory query).runFrom db).2)
    (hdistinct' : Distinct ((execute Backend.memory query).runFrom db).2)
    (hbegins : ∀ start ∈ prefixes, beginsWith start t.name = false)
    (hrelation : sameName relation t.name = false) :
    t ∈ ((execute Backend.memory query).runFrom db).2.tables ↔ t ∈ db.tables := by
  have hsame : IsLettered t.name →
      ((execute Backend.memory query).runFrom db).2.table? t.name = db.table? t.name :=
    fun hlettered => by
      refine table?_execute_of_lettered hplain (fun start hstart hprefix => ?_) hrelation
      have := hlettered start hstart hprefix
      rw [hbegins start hstart] at this
      cases this
  constructor
  · intro ht
    have hfound := hsame (hafter.lettered t ht)
    rw [hdistinct'.table?_eq ht (sameName_self _)] at hfound
    exact table?_mem hfound.symm
  · intro ht
    have hfound := hsame (hbefore.lettered t ht)
    rw [hdistinct.table?_eq ht (sameName_self _)] at hfound
    exact table?_mem hfound

theorem names_iff_of_storedName? {db db' : Database} (h : ∀ var, storedName? db' var = storedName? db var)
    (name : String) : Names db' name ↔ Names db name := by simp only [Names, h]

/-- Right after a collection that knew the stored bindings, another one finds nothing. -/
theorem collectGarbage_collected {w : Workspace Database} (hwhole : Whole w.store)
    (horderly : w.symbols.IsOrderly) (hagrees : w.Agrees id) :
    ((collectGarbage Backend.memory).runFrom
      ((collected w.symbols w.store).foldl remove w.store)).1 = .ok 0 := by
  have hafter : Whole ((collected w.symbols w.store).foldl remove w.store) :=
    Whole.collected (w := w) hwhole hagrees
  obtain ⟨w', hload, -, hsorted, hbound, hnames, htables, -⟩ := loaded_memory hafter
  have hstored : ∀ var, storedName? w'.store var = storedName? w.store var := fun var =>
    (hnames var).trans (storedName?_congr table?_relation_collected var)
  have horderly' : w'.symbols.IsOrderly := .of_stored hsorted hbound <|
    (hstored _).trans ((hagrees _ (by decide)).symm.trans horderly.noBase)
  have hagrees' : w'.Agrees id := fun var _ => hbound var
  rw [runFrom_collectGarbage hload, collect_nothing]
  refine List.filter_eq_nil_iff.2 fun name hname => ?_
  obtain ⟨⟨u, hu, rfl⟩, -⟩ := mem_tableNames.1 hname
  rw [Bool.not_eq_true]
  obtain hu | ⟨v, hv, hvu⟩ := htables u hu
  · rw [hu, ← Bool.not_eq_true]
    intro hcollected
    exact absurd (head?_of_isCollected hcollected) (by decide)
  · rw [← hvu]
    refine isCollected_mono (fun handle hreached => ?_) ((mem_tables_collected hwhole.distinct).1 hv).2
    rw [reached_iff horderly hagrees] at hreached
    rw [reached_iff horderly' hagrees']
    exact (names_iff_of_storedName? hstored handle).2 hreached

/-- A table of a user with one row. -/
def userTable (name : String) : Table := ⟨name, [.integer "id"], [], [[.integer 7]]⟩

/-- The query for the ancestors of all vertices, which needs a scratch table `m_cur`. -/
def ancestry : String := "$a = $base.getLineage($base, 1, 'a')"

theorem outcome?_ancestry : (outcome? ancestry (Storage.fresh.add (userTable "M_CUR"))).map
    (fun x => (x.1.isOk, x.2.store.tables.all fun t => t.name != "M_CUR")) = some (true, true) := by
  decide +kernel

end Session

end Provenance

import Provenance.Proofs.ReadyQueries

/-!
# Sessions that never break

Between queries, every variable has a handle with a number, or the base graph, and the tables of that
are there. So a query that sends no text of the user is resolved to a ready program, which succeeds,
and its collection leaves the tables of all variables. Over a store without failures, no such query
ends with an error of the store, whatever the history of the store. Only the store itself can be too
small, when rows are to be counted that are too many for a word.
-/

namespace Provenance

open Store Database SymbolTable Workspace Action

variable {σ : Type} {b : Backend σ} {view : σ → Database} {known : Value → Prop}

/-! ## Tables that stay -/

/-- No table of a schema of handles is that of the bindings. -/
theorem Schema.Of.sameName_relation {name : String} {columns : List Column}
    (h : Schema.Of known name columns) : sameName relation name = false := by
  cases h with
  | edge => rw [sameName_of_isLower (by decide) (by decide)]; decide
  | annotations side => cases side <;> (rw [sameName_of_isLower (by decide) (by decide)]; decide)
  | handle _ _ side => rw [sameName_comm]; exact Graph.sameName_table_relation _ side

theorem SymbolTable.Spares.meets {db db' : Database} (h : Spares db db')
    (hdb : db.Meets (Schema.Of known)) : db'.Meets (Schema.Of known) := fun name columns hname =>
  (hdb name columns hname).congr (h.others name hname.sameName_relation)

namespace Resolution

open Draft

section Resolve

variable (hb : b.IsDatabase view False) {w : Workspace σ} (hmirrors : w.Mirrors view fun _ => True)
  {ss : List Query.Statement}
include hb hmirrors

/-- A draft of all statements is committed. -/
theorem resolve_of_draft {d : Draft σ} (hd : (ss.forM (statement b)).runFrom ⟨w, []⟩ = (.ok (), d)) :
    (resolve b ss).runFrom w = (.ok d.program, ((commit b).runFrom d.workspace).2) ∧
      ((commit b).runFrom d.workspace).2.symbols.bindings = d.workspace.symbols.bindings := by
  have hafter := statements_mirrors hb admits_true ss ⟨w, []⟩ hmirrors
  rw [hd] at hafter
  obtain ⟨-, -, -, hok, hbindings⟩ := Mirrors.commit hb hafter
  obtain ⟨d', hd', -, hresolve⟩ | ⟨_, _, hd', -⟩ := resolve_cases b ss w
  · rw [hd] at hd'
    cases hd'
    rw [hok id] at hresolve
    exact ⟨hresolve, hbindings⟩
  · rw [hd] at hd'
    cases hd'

/-- Statements that were read are resolved to a ready program, which makes what variables are bound
to then, or are refused. -/
theorem resolve_ends (hliterals : HasLiterals known)
    (hbound : ∀ (v : Query.Variable) name, w.symbols.lookup? v.name = some name →
      known (named v name))
    (hreadable : ∀ s ∈ ss, s.IsReadable) (hnative : ∀ s ∈ ss, s.isNative = false) :
    Ends QueryError.IsRefusal (· = w) (resolve b ss) fun program w' =>
      Program.IsReady known program ∧ ∀ (v : Query.Variable) name,
        w'.symbols.lookup? v.name = some name →
          known (named v name) ∨ Program.Makes program (named v name) := by
  rintro _ rfl
  obtain ⟨entries, hkeeps, -⟩ := hmirrors.keeps
  have hends := statements_ends hb hliterals hreadable hnative ⟨_, []⟩
    ⟨⟨entries, hkeeps⟩, trivial, fun v name hname => .inl (hbound v name hname)⟩
  obtain ⟨_, d, hd, hprepared⟩ | ⟨e, d, hd, he⟩ := hends
  · obtain ⟨hresolve, hbindings⟩ := resolve_of_draft hb hmirrors hd
    refine .inl ⟨d.program, _, hresolve, hprepared.ready, fun v name hname => hprepared.bound v name ?_⟩
    rwa [SymbolTable.lookup?, ← hbindings]
  · have hafter := statements_mirrors hb admits_true ss ⟨_, []⟩ hmirrors
    simp only [resolve, runFrom_of]
    rw [hd] at hafter ⊢
    dsimp only at hafter ⊢
    obtain ⟨-, -, hok⟩ := Mirrors.discard hb hafter
    generalize (discard b).runFrom d.workspace = x at hok ⊢
    obtain ⟨result, w'⟩ := x
    cases hok id
    exact .inr ⟨e, w', rfl, he⟩

/-- Statements that are refused leave the names that variables are stored with. -/
theorem resolve_error_storedName? {e : QueryError} {w' : Workspace σ}
    (h : (resolve b ss).runFrom w = (.error e, w')) (var : String) :
    storedName? (view w'.store) var = storedName? (view w.store) var := by
  have hmirrored := statements_mirrors hb admits_true ss ⟨w, []⟩ hmirrors
  have hnames := statements_storedName? hb (storedName? (view w.store)) ss ⟨w, []⟩
    ⟨hmirrors.keeps.imp fun _ hk => hk.1, fun _ => rfl⟩
  obtain ⟨d, hd, -, hrun⟩ | ⟨e', d, hd, -, hw, -⟩ := resolve_cases b ss w
  · rw [hd] at hmirrored
    rw [hrun, (Mirrors.commit hb hmirrored).2.2.2.1 id] at h
    cases h
  · rw [hd] at hmirrored hnames
    rw [h] at hw
    rw [show w' = _ from hw, (Mirrors.discard hb hmirrored).1]
    exact hnames.2 var

end Resolve

end Resolution

namespace Session

/-! ## Stores between queries -/

/-- The values that a query may use: literals, and those of variables. -/
inductive Known (db : Database) : Value → Prop
  | word {n : Int} (h : Text.isWord n = true) : Known db (.integer n)
  | text (s : String) : Known db (.text s)
  | bound {v : Query.Variable} {name : String} (h : nameOf? db v.name = some name) :
    Known db (Resolution.named v name)

theorem hasLiterals_known (db : Database) : Resolution.HasLiterals (Known db) := ⟨fun _ => .word, .text⟩

theorem Known.mono {db db' : Database} (h : ∀ var, nameOf? db var = nameOf? db' var) {v : Value}
    (hv : Known db v) : Known db' v := by
  cases hv with
  | word hn => exact .word hn
  | text s => exact .text s
  | bound hname => exact .bound (h _ ▸ hname)

theorem nameOf?_congr {db db' : Database} (h : ∀ var, storedName? db' var = storedName? db var)
    (var : String) : nameOf? db' var = nameOf? db var := by rw [nameOf?, nameOf?, h]

/-- The stored bindings and the counter can be read. The values that queries may use are words, texts
and handles with numbers, and the tables of these are there. -/
structure Whole (db : Database) : Prop where
  intact : Intact db
  counter : (storedCounter? db).isSome = true
  distinct : db.Distinct
  proper : ∀ v, Known db v → v.IsProper
  meets : db.Meets (Schema.Of (Known db))

/-- A store stays whole if it keeps the names and all other tables. -/
theorem Whole.spared {db db' : Database} (h : Whole db) (hspares : Spares db db')
    (hintact : Intact db') (hcounter : (storedCounter? db').isSome = true) (hdistinct : db'.Distinct)
    (hnames : ∀ var, storedName? db' var = storedName? db var) : Whole db' where
  intact := hintact
  counter := hcounter
  distinct := hdistinct
  proper v hv := h.proper v (hv.mono (nameOf?_congr hnames))
  meets name columns hname := hspares.meets h.meets name columns
    (hname.mono (fun _ hv => hv.mono (nameOf?_congr hnames)) name columns)

/-- The bindings in memory are the stored ones. -/
theorem lookup?_of_agrees {w : Workspace σ} (h : w.Agrees view) {var name : String}
    (hname : nameOf? (view w.store) var = some name) : w.symbols.lookup? var = some name := by
  rw [nameOf?] at hname
  rw [SymbolTable.lookup?]
  split
  · next hbase => rwa [if_pos hbase] at hname
  · next hbase =>
    rw [if_neg hbase] at hname
    rw [h var ?_, hname]
    rintro rfl
    simp [storedName?] at hname

theorem Known.isProper_bound {db : Database} (h : Whole db) {var : String} {name : String}
    (hname : nameOf? db var = some name) : IsOwn name := by
  have hkind : (Resolution.named ⟨var⟩ name).IsHandle := by
    unfold Resolution.named
    split <;> simp [Value.IsHandle, Value.kind]
  have := (h.proper _ (.bound (v := ⟨var⟩) hname)).isOwn hkind
  rwa [Resolution.named_shown] at this

/-- A name that some variable has in memory is reached by collections. -/
theorem reached_of_lookup? {t : SymbolTable} {var name : String} (h : t.lookup? var = some name) :
    name = Graph.base.name ∨ name ∈ t.bindings.map Prod.snd := by
  rw [SymbolTable.lookup?] at h
  split at h
  · exact .inl (Option.some.inj h).symm
  · exact .inr (List.mem_map.2 ⟨_, OrderedMap.mem_of_find? h, rfl⟩)

theorem foldl_remove_distinct {db : Database} (h : db.Distinct) (names : List String) :
    (names.foldl remove db).Distinct := by
  have := run_distinct (.lines (names.map Statement.discard)) db h
  rwa [run_discards] at this

section Collected

variable {w : Workspace σ} (h : Whole (view w.store)) (hagrees : w.Agrees view)
include h hagrees

/-- No table that a query may use is collected if the bindings in memory are the stored ones. -/
theorem Whole.isCollected {name : String} {columns : List Column}
    (hname : Schema.Of (Known (view w.store)) name columns) :
    w.symbols.isCollected name = false := by
  rw [← Bool.not_eq_true]
  intro hcollected
  cases hname with
  | edge => exact absurd (head?_of_isCollected hcollected) (by decide)
  | annotations side => exact absurd (head?_of_isCollected hcollected) (by cases side <;> decide)
  | handle hv hcolumns side =>
    cases hv with
    | word hn => cases hcolumns
    | text s => cases hcolumns
    | @bound var name hbound =>
      rw [Resolution.named_shown, isCollected_of_reached (Known.isProper_bound h hbound).isApart
        (reached_of_lookup? (lookup?_of_agrees hagrees hbound))] at hcollected
      cases hcollected

theorem Whole.table?_collected {name : String} {columns : List Column}
    (hname : Schema.Of (Known (view w.store)) name columns) :
    ((Workspace.collected w.symbols (view w.store)).foldl remove (view w.store)).table? name
      = (view w.store).table? name := by
  obtain ⟨t, ht, hlisted, -⟩ := h.meets name columns hname
  exact table?_collected_of_listed h.distinct ⟨t, ht, hlisted⟩ (h.isCollected hagrees hname)

omit h hagrees in
/-- A collection leaves the values that queries may use. -/
theorem known_collected (v : Value) :
    Known ((Workspace.collected w.symbols (view w.store)).foldl remove (view w.store)) v → Known (view w.store) v :=
  fun hv => hv.mono (nameOf?_congr (storedName?_congr table?_relation_collected))

/-- A collection leaves a store whole if the bindings in memory are the stored ones. -/
theorem Whole.collected : Whole ((Workspace.collected w.symbols (view w.store)).foldl remove (view w.store)) := by
  have hrelation : ((Workspace.collected w.symbols (view w.store)).foldl remove
      (view w.store)).table? relation = (view w.store).table? relation := table?_relation_collected
  refine ⟨h.intact.imp (fun hnone => by rw [hrelation, hnone]) fun ⟨entries, hk⟩ =>
    ⟨entries, hk.congr hrelation⟩, by rw [storedCounter?_congr hrelation]; exact h.counter,
    foldl_remove_distinct h.distinct _, fun v hv => h.proper v (known_collected v hv), fun name columns hname => ?_⟩
  have hname := hname.mono known_collected name columns
  exact (h.meets name columns hname).congr (h.table?_collected hagrees hname)

end Collected

/-! ## One query -/

theorem run_ends (hb : b.IsDatabase view False) (hknown : ∀ v, known v → v.IsProper)
    {program : Program} (hready : program.IsReady known) :
    Ends TooMany (fun s => (view s).Meets (Schema.Of known)) (run b program) fun _ s =>
      (view s).Meets (Schema.Of fun v => known v ∨ Program.Makes program v) := by
  intro s hs
  simp only [run, Backend.locked, runFrom_bind, runFrom_modify, runFrom_thenAlways, runFrom_of]
  obtain ⟨_, x, hrun, hx⟩ | ⟨e, x, hrun, he⟩ := Program.execute_ends hb.serves hknown hready
    ⟨b.acquire s, none⟩ (show (view (b.acquire s)).Meets _ by rw [hb.acquire]; exact hs)
  · rw [hrun]
    exact .inl ⟨_, _, rfl, show (view (b.release _)).Meets _ by rw [hb.release]; exact hx⟩
  · rw [hrun]
    exact .inr ⟨e, _, rfl, he⟩

/-- How a query ends that is resolved. -/
theorem runFrom_resolveAndRun_ok {ss : List Query.Statement} {w w' : Workspace σ} {program : Program}
    (h : (Resolution.resolve b ss).runFrom w = (.ok program, w')) :
    (resolveAndRun b ss).runFrom w = match (run b program).runFrom w'.store with
      | (.ok last, s) => (.ok (last.getD .ok), ⟨w'.symbols, s⟩)
      | (.error e, s) => (.error (.backend e), ⟨w'.symbols, s⟩) := by
  rw [resolveAndRun, runFrom_bind_ok h, runFrom_bind, runFrom_mapError, runFrom_along]
  rw [show storeLens.get w' = w'.store from rfl]
  generalize (run b program).runFrom w'.store = x
  obtain ⟨result, s⟩ := x
  cases result <;> rfl

section Query

variable (hb : b.IsDatabase view False) {s s' : σ} {t : SymbolTable} (h : Whole (view s))
  (hload : (load b).runFrom s = (.ok t, s'))
include hb h hload

/-- Loading the symbol table leaves a store whole. -/
theorem Whole.loaded : Whole (view s') ∧ (∀ var, t.bindings.find? var = storedName? (view s') var) := by
  obtain ⟨e, _, hrun, -⟩ | ⟨_, _, entries, hrun, hkeeps, -, -, -, hbound, hnames⟩ := load_spec hb h.intact
  · rw [hload] at hrun; cases hrun
  · rw [hload] at hrun
    cases hrun
    have hpreserves : ∀ {I : Database → Prop}, Undisturbed I → I (view s) → I (view s') := fun hI hs => by
      have := load_preserves hb hI s hs
      rwa [hload] at this
    have hcounter := (load_storedCounter? hb h.intact).1
    rw [hload] at hcounter
    exact ⟨h.spared (hpreserves (undisturbed_spares _) (.refl _)) (.inr ⟨entries, hkeeps⟩)
      (by rw [hcounter]; exact h.counter)
      (hpreserves (fun closed ss _ db hdb => run_distinct _ db hdb) h.distinct) hnames, hbound⟩

/-- A query that was read is resolved to a ready program, which makes what variables are bound to then, or is
refused. -/
theorem Whole.resolve_ends {ss : List Query.Statement} (hreadable : ∀ s ∈ ss, s.IsReadable)
    (hnative : ∀ s ∈ ss, s.isNative = false) :
    Ends QueryError.IsRefusal (· = ⟨t, s'⟩) (Resolution.resolve b ss) fun program w =>
      Program.IsReady (Known (view s')) program ∧ ∀ (v : Query.Variable) name,
        w.symbols.lookup? v.name = some name →
          Known (view s') (Resolution.named v name) ∨ Program.Makes program (Resolution.named v name) := by
  obtain ⟨-, hbindings⟩ := h.loaded hb hload
  refine Resolution.resolve_ends hb (mirrors_load hb h.intact (fun _ _ _ => trivial) hload)
    (hasLiterals_known (view s')) (fun v name hname => .bound ?_) hreadable hnative
  rwa [nameOf?, ← hbindings]

/-- What resolution leaves, if it succeeds or not. -/
theorem Whole.resolved {ss : List Query.Statement} (hreadable : ∀ s ∈ ss, s.IsReadable) {w : Workspace σ}
    {result : Except QueryError Program} (hrun : (Resolution.resolve b ss).runFrom ⟨t, s'⟩ = (result, w)) :
    (∃ entries, Keeps (view w.store) entries) ∧ (storedCounter? (view w.store)).isSome = true ∧
      (view w.store).Distinct ∧ Spares (view s') (view w.store) ∧ w.Agrees view := by
  obtain ⟨hwhole, -⟩ := h.loaded hb hload
  have hmirrors : Mirrors view (fun _ => True) ⟨t, s'⟩ :=
    mirrors_load hb h.intact (fun _ _ _ => trivial) hload
  have hleaves := Resolution.resolve_leaves hb admits_true hmirrors ss
  have hagrees := hleaves.agrees (Resolution.settles_of_reliable hb id admits_true hmirrors ss)
  obtain ⟨k, -, hcounter, -⟩ := Resolution.resolve_names hb trivial hmirrors
    (counts_load hb h.intact hload) fun st hst => Query.assigned?_ne_counterKey (hreadable st hst)
  have hdistinct := Resolution.resolve_preserves hb (fun closed ss _ db hdb => run_distinct _ db hdb) ss ⟨t, s'⟩
    hwhole.distinct
  rw [hrun] at hleaves hagrees hcounter hdistinct
  refine ⟨hleaves.keeps, ?_, hdistinct, hleaves.spares, hagrees⟩
  obtain hc | ⟨hc, -⟩ := hcounter <;> rw [hc] <;> rfl

/-- What the program leaves, if no rows are too many to count. -/
theorem Whole.ran {ss : List Query.Statement} (hreadable : ∀ s ∈ ss, s.IsReadable)
    (hnative : ∀ s ∈ ss, s.isNative = false) {program : Program} {w : Workspace σ}
    (hresolve : (Resolution.resolve b ss).runFrom ⟨t, s'⟩ = (.ok program, w))
    (hready : Program.IsReady (Known (view s')) program)
    (hbound : ∀ (v : Query.Variable) name, w.symbols.lookup? v.name = some name →
      Known (view s') (Resolution.named v name) ∨ Program.Makes program (Resolution.named v name))
    {last : Option Answer} {s'' : σ} (hrun : (run b program).runFrom w.store = (.ok last, s''))
    (hmeets : (view s'').Meets (Schema.Of fun v => Known (view s') v ∨ Program.Makes program v)) :
    Whole (view s'') ∧ Agrees view ⟨w.symbols, s''⟩ := by
  obtain ⟨hwhole, -⟩ := h.loaded hb hload
  obtain ⟨⟨entries, hkeeps⟩, hcounter, -, -, hagrees⟩ := h.resolved hb hload hreadable hresolve
  have hrelation := (resolveAndRun_bindings hb hnative ⟨t, s'⟩).2
  have hlisted := resolveAndRun_preserves hb run_distinct ss ⟨t, s'⟩ hwhole.distinct
  rw [runFrom_resolveAndRun_ok hresolve, hrun] at hrelation hlisted
  rw [hresolve] at hrelation
  have hagrees' : Agrees view ⟨w.symbols, s''⟩ := fun var hvar => by
    rw [storedName?_congr hrelation, ← hagrees var hvar]
  have hmade : ∀ v, Known (view s'') v → Known (view s') v ∨ Program.Makes program v := by
    rintro v (hn | _ | hname)
    · exact .inl (.word hn)
    · exact .inl (.text _)
    · exact hbound _ _ (lookup?_of_agrees hagrees' hname)
  refine ⟨⟨.inr ⟨entries, hkeeps.congr hrelation⟩, by rwa [storedCounter?_congr hrelation], hlisted, fun v hv => ?_,
    fun name columns hname => hmeets name columns (hname.mono hmade name columns)⟩, hagrees'⟩
  exact (hmade v hv).elim (hwhole.proper v) fun hv => (hready.isMade hv).isProper

/-- What a query that was read leaves to its collection: an error that rows were too many to count,
or a whole store of which the bindings are those in memory, and no error of the store. -/
theorem Whole.resolveAndRun {ss : List Query.Statement} (hreadable : ∀ s ∈ ss, s.IsReadable)
    (hnative : ∀ s ∈ ss, s.isNative = false) :
    (∃ e, ((resolveAndRun b ss).runFrom ⟨t, s'⟩).1 = .error (.backend e) ∧ TooMany e) ∨
      (∀ e, ((Session.resolveAndRun b ss).runFrom ⟨t, s'⟩).1 ≠ .error (.backend e)) ∧
        Whole (view ((Session.resolveAndRun b ss).runFrom ⟨t, s'⟩).2.store) ∧
        ((Session.resolveAndRun b ss).runFrom ⟨t, s'⟩).2.Agrees view := by
  obtain ⟨hwhole, -⟩ := h.loaded hb hload
  obtain ⟨program, w, hrun, hready, hbound⟩ | ⟨e, w, hrun, he⟩ := h.resolve_ends hb hload hreadable hnative _ rfl
  · obtain ⟨-, -, -, hspares, -⟩ := h.resolved hb hload hreadable hrun
    obtain ⟨answer, s'', hs'', hmeets⟩ | ⟨e, s'', hs'', he⟩ :=
      run_ends hb hwhole.proper hready w.store (hspares.meets hwhole.meets)
    · rw [runFrom_resolveAndRun_ok hrun, hs'']
      exact .inr ⟨fun _ hcause => (by cases hcause),
        h.ran hb hload hreadable hnative hrun hready hbound hs'' hmeets⟩
    · rw [runFrom_resolveAndRun_ok hrun, hs'']
      exact .inl ⟨e, rfl, he⟩
  · -- the query is refused
    obtain ⟨⟨entries, hkeeps⟩, hcounter, hdistinct, hspares, hagrees⟩ := h.resolved hb hload hreadable hrun
    have hmirrors : Mirrors view (fun _ => True) ⟨t, s'⟩ :=
      mirrors_load hb h.intact (fun _ _ _ => trivial) hload
    have hnames := Resolution.resolve_error_storedName? hb hmirrors hrun
    have hresult : (Session.resolveAndRun b ss).runFrom ⟨t, s'⟩ = (.error e, w) :=
      runFrom_bind_error hrun _
    rw [hresult]
    exact .inr ⟨fun cause hcause => he cause (Except.error.inj hcause),
      hwhole.spared hspares (.inr ⟨entries, hkeeps⟩) hcounter hdistinct hnames, hagrees⟩

end Query

/-- A query that was read answers what its resolution and program do, and ends with a collection. -/
theorem runFrom_execute (hb : b.IsDatabase view False) {s s' : σ} {query : String}
    {ss : List Query.Statement} (hparse : Query.parse query = .ok ss) {t : SymbolTable}
    (hload : (load b).runFrom s = (.ok t, s')) {w : Workspace σ}
    {result : Except QueryError Answer} (hrun : (resolveAndRun b ss).runFrom ⟨t, s'⟩ = (result, w)) :
    ∃ s'', (execute b query).runFrom s = (result, s'') ∧
      view s'' = (collected w.symbols (view w.store)).foldl remove (view w.store) := by
  obtain ⟨hfails, -⟩ | ⟨n, s'', hcollect, hview⟩ := collect_spec hb (w := w)
  · exact hfails.elim
  · refine ⟨s'', ?_, hview⟩
    simp only [execute, hparse, withSymbols, runFrom_of, hload, runFrom_bind, runFrom_attempt,
      runFrom_mapError, runFrom_ofExcept, hrun, hcollect, Except.mapError]
    cases result <;> rfl

/-- What a query that was read leaves: rows were too many to count, or it has collected, from a whole
store, with the stored bindings in memory. -/
theorem Whole.executed_of_parse (hb : b.IsDatabase view False) {s : σ} (h : Whole (view s))
    {query : String} (hquery : Query.IsPlain query) {ss : List Query.Statement}
    (hparse : Query.parse query = .ok ss) :
    (∃ e, ((execute b query).runFrom s).1 = .error (.backend e) ∧ TooMany e) ∨
      (∀ e, ((execute b query).runFrom s).1 ≠ .error (.backend e)) ∧
        ∃ w, beforeCollection? b query s = some w ∧ Whole (view w.store) ∧ w.Agrees view ∧
          view ((execute b query).runFrom s).2
            = (Workspace.collected w.symbols (view w.store)).foldl remove (view w.store) := by
  obtain ⟨t, s', -, hload, -⟩ := load_reliable hb h.intact h.counter
  have hbefore := h.resolveAndRun hb hload (fun st hst => Query.isReadable_of_parse hparse st hst)
    (hquery ss hparse)
  obtain ⟨s'', hexecute, hview⟩ := runFrom_execute hb hparse hload rfl
  rw [hexecute]
  exact hbefore.imp id fun ⟨hfine, hwhole, hagrees⟩ =>
    ⟨hfine, _, by simp only [beforeCollection?, hparse, hload], hwhole, hagrees, hview⟩

/-- A plain query leaves a whole store and does not end with an error of the store, unless rows are
too many to count. -/
theorem Whole.executed (hb : b.IsDatabase view False) {s : σ} (h : Whole (view s)) {query : String}
    (hquery : Query.IsPlain query) :
    (∃ e, ((execute b query).runFrom s).1 = .error (.backend e) ∧ TooMany e) ∨
      (∀ e, ((execute b query).runFrom s).1 ≠ .error (.backend e)) ∧
        Whole (view ((execute b query).runFrom s).2) := by
  cases hparse : Query.parse query with
  | error e => simp only [execute, hparse, runFrom_throw]; exact .inr ⟨fun _ hcause => (by cases hcause), h⟩
  | ok ss =>
    refine (h.executed_of_parse hb hquery hparse).imp id fun hexecuted => ?_
    obtain ⟨hfine, w, -, hwhole, hagrees, hview⟩ := hexecuted
    refine ⟨hfine, ?_⟩
    rw [hview]
    exact hwhole.collected hagrees

/-- A collection at any time leaves a whole store. -/
theorem Whole.collectedGarbage (hb : b.IsDatabase view False) {s : σ} (h : Whole (view s)) :
    Whole (view ((collectGarbage b).runFrom s).2) := by
  obtain ⟨t, s', -, hload, -⟩ := load_reliable hb h.intact h.counter
  obtain ⟨hwhole, hbindings⟩ := h.loaded hb hload
  simp only [collectGarbage, withSymbols, runFrom_of, hload]
  obtain ⟨hfails, -⟩ | ⟨n, s'', hcollect, hview⟩ := collect_spec hb (w := ⟨t, s'⟩)
  · exact hfails.elim
  · rw [hcollect, hview]
    exact hwhole.collected fun var _ => hbindings var

end Session

end Provenance

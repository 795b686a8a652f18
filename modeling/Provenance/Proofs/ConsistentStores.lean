import Provenance.Proofs.SharedTables
import Provenance.Proofs.UnbrokenSessions

/-!
# Queries on consistent stores

In a consistent store, every variable has its relations. A query that is resolved there executes its
program on tables that are as they were; if the program succeeds, the query leaves a consistent store,
with the bindings and the counter of its resolution, and with the tables of all variables as the program
has left them.
-/

namespace Provenance

open Query Store Database SymbolTable Workspace Action

variable {σ : Type} {b : Backend σ} {view : σ → Database}

/-! ## Programs without texts of the user -/

namespace Program

variable {p : Program} {s u : σ} {answers : List Answer}

theorem sendsHarmless_of_isNative (h : ∀ i ∈ p, i.isNative = false) (s : σ) : p.SendsHarmless b view s := by
  induction p generalizing s with
  | nil => trivial
  | cons i p ih =>
    refine ⟨fun hi => ?_, ?_⟩
    · rw [h i List.mem_cons_self] at hi
      cases hi
    · split
      · exact ih (fun j hj => h j (List.mem_cons_of_mem i hj)) _
      · trivial

theorem unexecuted_of_replies (h : p.Replies b s answers u) : p.unexecuted b s = [] := by
  induction p generalizing s answers with
  | nil => rfl
  | cons i p ih =>
    obtain ⟨answer, t, hi, h⟩ := bind_ok_iff.1 h
    obtain ⟨later, v, hp, h⟩ := bind_ok_iff.1 h
    cases h
    rw [unexecuted, hi]
    exact ih hp

end Program

/-! ## What a collection keeps -/

/-- The base relations are not collected. -/
theorem Workspace.table?_knownTable_collected {t : SymbolTable} {db : Database} {table : String}
    (htable : table ∈ knownTables) : ((collected t db).foldl remove db).table? table = db.table? table := by
  refine table?_collected_of_forall fun n hn => sameName_eq_false 0 ?_
  have hhead := head?_of_isCollected (List.mem_filter.1 hn).2
  rw [← List.head?_eq_getElem?, ← List.head?_eq_getElem?]
  have hbase : (folded table).head? = some 'v' ∨ (folded table).head? = some 'e' := by
    revert table
    decide
  rcases hhead with hhead | hhead <;> rcases hbase with hbase | hbase <;> rw [hhead, hbase] <;> decide

namespace Resolution

/-- Statements leave the row of the counter alone. -/
theorem statements_noCounter {ss : List Query.Statement} (hss : ∀ s ∈ ss, s.assigned? ≠ some counterKey) :
    Preserves (OnWorkspace fun w => w.symbols.bindings.find? counterKey = none) (ss.forM (statement b)) := by
  have hfresh : Preserves (fun w : Workspace σ => w.symbols.bindings.find? counterKey = none)
      (freshNumber b) :=
    .bind .read fun _ => .bind (.along (I := fun _ => True) (fun _ _ => trivial) (fun _ _ => trivial)
      fun _ _ _ h => h) fun _ => .bind (.modify fun _ h => h) fun _ => .pure _
  refine .forM fun s hs => statement_preserves hfresh (fun w var name h hvar _ _ => ?_) fun _ _ _ => rfl
  have hne : var ≠ counterKey := fun hc => hss s hs (hvar.trans (congrArg some hc))
  rw [OrderedMap.find?_insert, if_neg hne.symm]
  exact h

end Resolution

namespace Session

/-! ## Consistent stores -/

/-- The stored bindings can be read. Every name that a variable has is in lower case and names no scratch
table, and both of its relations are listed. -/
structure Consistent (db : Database) : Prop where
  intact : Intact db
  distinct : db.Distinct
  apart : ∀ name, Names db name → IsApart name
  lists : ∀ name, Names db name → Lists db name

theorem names_congr {db db' : Database} (h : ∀ var, storedName? db' var = storedName? db var) (name : String) :
    Names db' name ↔ Names db name := by
  simp only [Names, h]

theorem names_of_nameOf? {db : Database} {var name : String} (h : nameOf? db var = some name) :
    Names db name := by
  rw [nameOf?] at h
  split at h
  · exact .inl (Option.some.inj h).symm
  · exact .inr ⟨var, h⟩

/-- A store stays consistent if it keeps the names and all other tables. -/
theorem Consistent.spared {db db' : Database} (h : Consistent db) (hspares : Spares db db')
    (hintact : Intact db') (hdistinct : db'.Distinct)
    (hnames : ∀ var, storedName? db' var = storedName? db var) : Consistent db' where
  intact := hintact
  distinct := hdistinct
  apart name hname := h.apart name ((names_congr hnames name).1 hname)
  lists name hname := Lists.of_spares hspares (h.lists name ((names_congr hnames name).1 hname))

/-- The last answer that the program of a query gives, if it gives one. -/
def lastAnswer? (b : Backend σ) (query : String) (s : σ) : Option Answer :=
  (program? b query s).bind fun (program, s) => ((Program.execute b program).runFrom ⟨s, none⟩).2.answer

theorem lastAnswer?_of_replies {query : String} {s x u : σ} {program : Program} {answers : List Answer}
    (hprogram : program? b query s = some (program, x)) (h : program.Replies b x answers u) :
    lastAnswer? b query s = answers.getLast? := by
  rw [lastAnswer?, hprogram, Option.bind_some]
  show ((Program.execute b program).runFrom ⟨x, none⟩).2.answer = _
  rw [Program.execute_of_replies h, Option.or_none]

/-! ## Programs under the lock -/

section Run

variable {program : Program} {s u : σ} {answers : List Answer}

theorem runFrom_run (b : Backend σ) (program : Program) (s : σ) : (run b program).runFrom s =
    match (program.execute b).runFrom ⟨b.acquire s, none⟩ with
    | (.ok _, x) => (.ok x.answer, b.release x.store)
    | (.error e, x) => (.error e, b.release x.store) := by
  simp only [run, Backend.locked, runFrom_bind, runFrom_modify, runFrom_thenAlways, runFrom_of]
  cases (program.execute b).runFrom ⟨b.acquire s, none⟩ with
  | mk r x =>
    cases r with
    | ok _ => rfl
    | error e => rfl

theorem runFrom_run_of_replies (h : program.Replies b (b.acquire s) answers u) :
    (run b program).runFrom s = (.ok answers.getLast?, b.release u) := by
  rw [runFrom_run, Program.execute_of_replies h, Option.or_none]

theorem runFrom_run_of_fails (h : program.Fails b (b.acquire s)) :
    ∃ e t, (run b program).runFrom s = (.error e, t) := by
  obtain ⟨e, x, hx⟩ := Program.execute_of_fails h none
  exact ⟨e, _, by rw [runFrom_run, hx]⟩

end Run

/-! ## What queries leave -/

/-- What a query leaves of a draft, after its program has left a database: bindings and counter are stored,
and the tables of all variables and the base relations are as the program has left them. -/
structure Leaves (d : Draft σ) (db db' : Database) : Prop where
  consistent : Consistent db'
  names : ∀ var, storedName? db' var = d.workspace.symbols.bindings.find? var
  counter : storedCounter? db' = some d.workspace.symbols.counter
  tables : ∀ table ∈ tablesOf (Names db'), db'.table? table = db.table? table

/-- What the commit of a draft leaves in memory and in the store. -/
structure Committed (view : σ → Database) (db : Database) (d : Draft σ) (w : Workspace σ) : Prop where
  bindings : w.symbols.bindings = d.workspace.symbols.bindings
  noCounter : w.symbols.bindings.find? counterKey = none
  agrees : w.Agrees view
  keeps : ∃ entries, Keeps (view w.store) entries
  counter : storedCounter? (view w.store) = some d.workspace.symbols.counter
  spares : Spares db (view w.store)
  distinct : (view w.store).Distinct

theorem Committed.storedName? {db : Database} {d : Draft σ} {w : Workspace σ} (hw : Committed view db d w)
    (var : String) : SymbolTable.storedName? (view w.store) var = d.workspace.symbols.bindings.find? var := by
  rw [← hw.bindings]
  by_cases hvar : var = counterKey
  · rw [hvar, hw.noCounter]
    simp [SymbolTable.storedName?]
  · exact (hw.agrees var hvar).symm

/-! ## What a program leaves -/

section Leaves

variable {db : Database} {d : Draft σ} {w : Workspace σ} {u : σ} {answers : List Answer}
  (hb : b.IsDatabase view False) (hw : Committed view db d w) (hdb : Consistent db)
  (htraced : d.Traced (Names db)) (hnative : ∀ i ∈ d.program, i.isNative = false)
  (hreplies : Program.Replies b d.program (b.acquire w.store) answers u)

include hb htraced hnative hreplies

/-- The program of a draft keeps the bindings and lists what it creates. -/
theorem replies_sustain : Sustains (view w.store) (view u) ∧
    ∀ name, Program.Creates d.program name → Lists (view u) name := by
  obtain ⟨hsustains, hcreated⟩ := Program.execute_lists hb htraced.targets (x := ⟨b.acquire w.store, none⟩)
    (Program.sendsHarmless_of_isNative hnative _)
  rw [Program.execute_of_replies hreplies] at hsustains hcreated
  rw [hb.acquire] at hsustains
  refine ⟨hsustains, fun name hname => (hcreated name hname).resolve_right fun hnone => ?_⟩
  rw [Program.unexecuted_of_replies hreplies] at hnone
  simp [Program.Creates] at hnone

include hw hdb

/-- If the draft is committed first, each name that a variable has then is reached by a collection,
and its relations are listed. -/
theorem Committed.names_listed {name : String} (hname : Names (view u) name) :
    (name = Graph.base.name ∨ name ∈ w.symbols.bindings.map Prod.snd) ∧ IsApart name ∧ Lists (view u) name := by
  obtain ⟨hsustains, hcreated⟩ := replies_sustain hb htraced hnative hreplies
  have hold : ∀ {name}, Names db name → IsApart name ∧ Lists (view u) name := fun {name} hname =>
    ⟨hdb.apart name hname, fun side => hsustains.listed name side (hdb.apart name hname)
      (Lists.of_spares hw.spares (hdb.lists name hname) side)⟩
  rcases hname with rfl | ⟨var, hvar⟩
  · exact ⟨.inl rfl, hold (.inl rfl)⟩
  · rw [storedName?_congr hsustains.relation, hw.storedName?] at hvar
    refine ⟨.inr ?_, ?_⟩
    · rw [← hw.bindings] at hvar
      exact List.mem_map_of_mem (OrderedMap.mem_of_find? hvar)
    · rcases htraced.names var name hvar with hknown | hcreates
      · exact hold hknown
      · have hgenerated : IsGenerated name := hcreates.elim (fun hi => htraced.targets _ hi name rfl)
          fun hi => htraced.targets _ hi name rfl
        exact ⟨IsOwn.isApart (.inr hgenerated), hcreated name hcreates⟩

/-- And the collection leaves what is reached. -/
theorem Committed.leaves :
    Leaves d (view u) ((collected w.symbols (view u)).foldl remove (view u)) := by
  obtain ⟨hsustains, -⟩ := replies_sustain hb htraced hnative hreplies
  have hdistinct := hsustains.distinct hw.distinct
  have hrelation : ((collected w.symbols (view u)).foldl remove (view u)).table? relation
      = (view u).table? relation := table?_relation_collected
  have hnames : ∀ {name}, Names ((collected w.symbols (view u)).foldl remove (view u)) name →
      (∀ side, w.symbols.isCollected ((⟨name⟩ : Graph).table side) = false) ∧ IsApart name ∧
        Lists (view u) name := fun hname => by
    obtain ⟨hreached, hapart, hlists⟩ := Committed.names_listed hb hw hdb htraced hnative hreplies
      ((names_congr (storedName?_congr hrelation) _).1 hname)
    exact ⟨fun side => isCollected_of_reached hapart hreached, hapart, hlists⟩
  refine ⟨⟨.inr ?_, foldl_remove_distinct hdistinct _, fun name hname => (hnames hname).2.1,
    fun name hname side => ?_⟩, fun var => ?_, ?_, ?_⟩
  · obtain ⟨entries, hk⟩ := hw.keeps
    exact ⟨entries, (hk.congr hsustains.relation).congr hrelation⟩
  · obtain ⟨hkept, -, hlists⟩ := hnames hname
    exact listed_collected hdistinct (hlists side) (hkept side)
  · rw [storedName?_congr hrelation, storedName?_congr hsustains.relation, hw.storedName?]
  · rw [storedCounter?_congr hrelation, storedCounter?_congr hsustains.relation, hw.counter]
  · rintro table (hbase | ⟨name, side, hname, rfl⟩)
    · exact table?_knownTable_collected hbase
    · obtain ⟨hkept, -, hlists⟩ := hnames hname
      exact table?_collected_of_listed hdistinct (hlists side) (hkept side)

end Leaves

/-! ## Queries -/

section Query

variable (hb : b.IsDatabase view False) {s s' : σ} {t : SymbolTable} (h : Consistent (view s))
  (hload : (load b).runFrom s = (.ok t, s'))

include hb h hload

/-- Loading the symbol table leaves a consistent store, and the stored bindings and counter in memory. -/
theorem Consistent.loaded : Consistent (view s') ∧ Spares (view s) (view s') ∧
    Reads (view s') (t.bindings, t.counter) ∧
    (∀ var, storedName? (view s') var = storedName? (view s) var) ∧
    storedCounter? (view s') = storedCounter? (view s) := by
  have hcounter := (load_storedCounter? hb h.intact).2 t (by rw [hload])
  obtain ⟨_, _, entries, hrun, hkeeps, hreads, -, -, hnames, hsame⟩ := load_reliable hb h.intact
    (by rw [hcounter]; rfl)
  rw [hload] at hrun
  cases hrun
  have hpreserves : ∀ {I : Database → Prop}, Undisturbed I → I (view s) → I (view s') := fun hI hs => by
    have := load_preserves hb hI s hs
    rwa [hload] at this
  have hspares : Spares (view s) (view s') := hpreserves (undisturbed_spares _) (.refl _)
  exact ⟨h.spared hspares (.inr ⟨entries, hkeeps⟩)
    (hpreserves (fun closed ss _ db hdb => run_distinct _ db hdb) h.distinct) hnames, hspares, hreads, hnames,
    hsame⟩

omit h in
/-- A query that cannot be resolved fails. -/
theorem execute_unresolved {query : String} {ss : List Query.Statement} (hparse : Query.parse query = .ok ss)
    {e : QueryError} {d : Draft σ}
    (hd : (ss.forM (Resolution.statement b)).runFrom ⟨⟨t, s'⟩, []⟩ = (.error e, d)) :
    ∃ e' s'', (execute b query).runFrom s = (.error e', s'') := by
  obtain ⟨d', hd', -⟩ | ⟨_, _, -, -, -, e', he'⟩ := Resolution.resolve_cases b ss ⟨t, s'⟩
  · rw [hd] at hd'
    cases hd'
  · have hrun : (resolveAndRun b ss).runFrom ⟨t, s'⟩
        = (.error e', ((Resolution.resolve b ss).runFrom ⟨t, s'⟩).2) :=
      runFrom_bind_error (Prod.ext he' rfl) _
    obtain ⟨s'', hexecute, -⟩ := runFrom_execute hb hparse hload hrun
    exact ⟨e', s'', hexecute⟩

variable {ss : List Query.Statement} {d : Draft σ}
  (hd : (ss.forM (Resolution.statement b)).runFrom ⟨⟨t, s'⟩, []⟩ = (.ok (), d))

include hd

/-- A draft of all statements is committed. -/
theorem Consistent.resolved (hassigned : ∀ st ∈ ss, st.assigned? ≠ some counterKey) : ∃ w, (Resolution.resolve b ss).runFrom ⟨t, s'⟩ = (.ok d.program, w) ∧
    Committed view (view s') d w := by
  obtain ⟨hloaded, -, hreads, -⟩ := h.loaded hb hload
  have hmirrors : Mirrors view (fun _ => True) ⟨t, s'⟩ := mirrors_load hb h.intact (fun _ _ _ => trivial) hload
  have hcounted := Resolution.statements_counts hb hassigned ⟨⟨t, s'⟩, []⟩ (counts_load hb h.intact hload)
  have hunbound := Resolution.statements_noCounter (b := b) hassigned ⟨⟨t, s'⟩, []⟩
    ((hreads.bindings counterKey).trans (by simp [SymbolTable.storedName?]))
  have hleaves := Resolution.resolve_leaves hb admits_true hmirrors ss
  have hagrees := hleaves.agrees (Resolution.settles_of_reliable hb id admits_true hmirrors ss)
  have hdistinct : (view ((Resolution.resolve b ss).runFrom ⟨t, s'⟩).2.store).Distinct :=
    Resolution.resolve_preserves hb (fun closed ss _ db hdb => run_distinct _ db hdb) ss ⟨t, s'⟩
      hloaded.distinct
  obtain ⟨hresolve, hbindings⟩ := Resolution.resolve_of_draft hb hmirrors hd
  rw [hd] at hcounted hunbound
  rw [hresolve] at hleaves hagrees hdistinct
  exact ⟨_, hresolve, hbindings, by rw [hbindings]; exact hunbound, hagrees, hleaves.keeps,
    Counts.commit_reliable hb hcounted, hleaves.spares, hdistinct⟩

/-- Names of variables were known before, or they are created. -/
theorem Consistent.traced : d.Traced (Names (view s')) := by
  obtain ⟨-, -, hreads, -⟩ := h.loaded hb hload
  exact Resolution.statements_induction (fun _ _ _ _ => Resolution.statement_traced (.inl rfl))
    ⟨fun var name hname => .inl (.inr ⟨var, (hreads.bindings var).symm.trans hname⟩), by simp⟩ hd

/-- The program is ready for what was known before. -/
theorem Consistent.ready (hreadable : ∀ st ∈ ss, st.IsReadable) (hplain : ∀ st ∈ ss, st.isNative = false) :
    Program.IsReady (Known (view s')) d.program := by
  obtain ⟨hloaded, -, hreads, -⟩ := h.loaded hb hload
  obtain ⟨entries, hk, -⟩ := (mirrors_load (P := fun _ => True) hb h.intact (fun _ _ _ => trivial) hload).keeps
  have hbound : ∀ (v : Query.Variable) name, t.lookup? v.name = some name →
      Known (view s') (Resolution.named v name) := by
    intro v name hname
    refine .bound ?_
    rw [nameOf?, ← hreads.bindings]
    exact hname
  have hprepared : Draft.Prepared view (Known (view s')) ⟨⟨t, s'⟩, []⟩ :=
    ⟨⟨entries, hk⟩, trivial, fun v name hname => .inl (hbound v name hname)⟩
  rcases Resolution.statements_ends hb (hasLiterals_known _) hreadable hplain _ hprepared with
    ⟨_, d', hd', hafter⟩ | ⟨e, d', hd', -⟩
  · rw [hd] at hd'
    cases hd'
    exact hafter.ready
  · rw [hd] at hd'
    cases hd'

/-- A query that is resolved executes its program in a store that spares all tables. If the program fails,
so does the query; if not, the query gives the last answer, and leaves the tables of variables as the
program has left them. -/
theorem Consistent.execute_resolved {query : String} (hparse : Query.parse query = .ok ss)
    (hplain : ∀ st ∈ ss, st.isNative = false) : ∃ x, program? b query s = some (d.program, x) ∧
      Spares (view s') (view x) ∧
      (Program.Fails b d.program x → ∃ e s'', (execute b query).runFrom s = (.error e, s'')) ∧
      ∀ (answers : List Answer) u, Program.Replies b d.program x answers u → ∃ s'',
        (execute b query).runFrom s = (.ok (answers.getLast?.getD .ok), s'') ∧ Leaves d (view u) (view s'') := by
  obtain ⟨w, hresolve, hw⟩ := h.resolved hb hload hd fun st hst =>
    Query.assigned?_ne_counterKey (Query.isReadable_of_parse hparse st hst)
  have hresult := runFrom_resolveAndRun_ok hresolve
  refine ⟨b.acquire w.store, by simp only [program?, hparse, hload, hresolve], ?_, fun hfails => ?_,
    fun answers u hreplies => ?_⟩
  · rw [hb.acquire]
    exact hw.spares
  · obtain ⟨e, x, hrun⟩ := runFrom_run_of_fails hfails
    rw [hrun] at hresult
    obtain ⟨s'', hexecute, -⟩ := runFrom_execute hb hparse hload hresult
    exact ⟨_, s'', hexecute⟩
  · rw [runFrom_run_of_replies hreplies] at hresult
    obtain ⟨s'', hexecute, hview⟩ := runFrom_execute hb hparse hload hresult
    refine ⟨s'', hexecute, ?_⟩
    have hleaves := Committed.leaves hb hw (h.loaded hb hload).1 (h.traced hb hload hd)
      ((Resolution.statements_orderly hd).2 hplain) hreplies
    rw [hview]
    show Leaves d (view u) ((collected w.symbols (view (b.release u))).foldl remove (view (b.release u)))
    rw [hb.release]
    exact hleaves

end Query

end Session

end Provenance

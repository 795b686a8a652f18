import Provenance.Proofs.DanglingNames
import Provenance.Proofs.Numbering

/-!
# What a query touches

A query changes the relation of the bindings, scratch tables, the tables of handles that its own
program creates, and drops tables that no variable reaches. Each phase is shown to be confined to its
share of these, over a store whose calls may fail; every table outside stays as it is, rows and all.
-/

namespace Provenance

open Store Database SymbolTable Workspace

variable {σ : Type} {b : Backend σ} {view : σ → Database} {fails : Prop} {db db' : Database}

/-- Only tables of some names differ, and tables with a new name have one in lower case. -/
structure Confined (touched : String → Prop) (db db' : Database) : Prop where
  others : ∀ name, ¬ touched name → db'.table? name = db.table? name
  names : ∀ t ∈ db'.tables, IsLower t.name ∨ ∃ u ∈ db.tables, u.name = t.name

namespace Confined

variable {touched touched' : String → Prop}

theorem refl (touched : String → Prop) (db : Database) : Confined touched db db :=
  ⟨fun _ _ => rfl, fun t ht => .inr ⟨t, ht, rfl⟩⟩

theorem trans {db'' : Database} (h : Confined touched db db') (h' : Confined touched' db' db'') :
    Confined (fun name => touched name ∨ touched' name) db db'' where
  others name hname := by
    rw [h'.others name fun hc => hname (.inr hc), h.others name fun hc => hname (.inl hc)]
  names t ht := by
    obtain hlower | ⟨u, hu, heq⟩ := h'.names t ht
    · exact .inl hlower
    · rw [← heq]
      exact h.names u hu

/-- A request stays within the names of the tables that it writes to. -/
theorem run (h : Confined touched db db') {closed : Bool} {ss : List Statement}
    (htargets : ∀ s ∈ ss, ∀ t ∈ s.target?, ∀ name, sameName t name = true → touched name)
    (hcreates : ∀ s ∈ ss, ∀ ifAbsent name columns, s = .create ifAbsent name columns → IsLower name) :
    Confined touched db (db'.run (.batch closed ss)).2 := by
  refine run_batch_preserves (fun s hs db₁ db₂ answer h₁ happly => ⟨fun name hname => ?_, ?_⟩) h
  · rw [apply_other happly fun t ht => ?_, h₁.others name hname]
    by_contra hsame
    exact hname (htargets s hs t ht name (by simpa using hsame))
  · exact apply_names (P := fun name => IsLower name ∨ ∃ u ∈ db.tables, u.name = name) happly
      (fun _ _ _ hc => .inl (hcreates s hs _ _ _ hc)) h₁.names

end Confined

/-- A name of the relation of the bindings. -/
def IsBindings (name : String) : Prop := sameName relation name = true

theorem undisturbed_confined (db : Database) : Undisturbed (Confined IsBindings db) := by
  intro closed ss hss db' h
  refine h.run (fun s hs t ht name hname => ?_) fun s hs _ name _ hc => ?_
  · rw [hss s hs t ht] at hname
    exact hname
  · rw [hss s hs name (by rw [hc]; rfl)]
    decide

/-! ## Programs -/

/-- The tables that a program may change: scratch tables and those of handles that it creates. -/
def Program.Touches (program : Program) (name : String) : Prop :=
  (∃ table, IsScratch table ∧ sameName table name = true) ∨
    ∃ handle side, program.Creates handle ∧
      sameName ((⟨handle⟩ : Graph).table side) name = true

namespace Instruction

open Action

/-- What makes a handle renews its two tables. -/
theorem creation?_eq_some {i : Instruction} {r : Request} (hr : i.creation? = some r) :
    ∃ handle columns, i.creates? = some handle ∧ i.target? = some handle ∧
      r = renewal ((⟨handle⟩ : Graph).table .vertex) ((⟨handle⟩ : Graph).table .edge) columns := by
  cases i with
  | createGraph target => cases hr; exact ⟨target.name, _, rfl, rfl, rfl⟩
  | createMetadata target => cases hr; exact ⟨target.name, _, rfl, rfl, rfl⟩
  | _ => cases hr

/-- An instruction is confined to the tables that its program may change, if it writes to a handle
that the program creates. -/
theorem execute_confined (hb : b.IsDatabase view fails) {program : Program} {i : Instruction}
    (hi : i.IsOrderly) (hcreated : ∀ name ∈ i.target?, program.Creates name) :
    Preserves (fun s => Confined program.Touches db (view s)) (i.execute b) := by
  have htarget : ∀ {table}, i.Targets table → ∀ name, sameName table name = true →
      program.Touches name := by
    rintro table ⟨handle, side, hhandle, rfl⟩ name hname
    exact .inr ⟨handle, side, hcreated handle hhandle, hname⟩
  have hfills : ∀ closed ss db', (∀ s ∈ ss, s.Fills i.Targets) → Confined program.Touches db db' →
      Confined program.Touches db (db'.run (.batch closed ss)).2 := by
    intro closed ss db' hss h
    refine h.run (fun s hs t ht name hname => ?_) fun s hs _ name _ hc => ?_
    · obtain hfilled | hscratch := (hss s hs).target t ht
      · exact htarget hfilled name hname
      · exact .inl ⟨t, hscratch, hname⟩
    · have := hss s hs
      rw [hc] at this
      exact this.2
  refine i.execute_preserves hi.1 ⟨fun closed ss hss => hb.execute_preserves fun _ h =>
    hfills closed ss _ hss h, fun closed ss hss => hb.queryRows_preserves fun _ h =>
    hfills closed ss _ hss h⟩ fun r hr => hb.execute_preserves fun _ h => ?_
  obtain ⟨handle, columns, -, hhandle, rfl⟩ := creation?_eq_some hr
  have hlower := Graph.isLower_table (g := ⟨handle⟩) (hi.2 handle hhandle).isLower
  refine h.run (fun s hs t ht name hname => ?_) fun s hs _ name _ hc => ?_
  · refine .inr ⟨handle, if t = (⟨handle⟩ : Graph).table .vertex then .vertex else .edge,
      hcreated handle hhandle, ?_⟩
    simp only [List.mem_cons, List.not_mem_nil, or_false] at hs
    split
    · next heq => rwa [← heq]
    · next hne =>
      obtain rfl | rfl | rfl | rfl := hs <;> cases ht <;> first | exact hname | exact (hne rfl).elim
  · subst hc
    simp only [List.mem_cons, Statement.discard, reduceCtorEq, Statement.create.injEq, false_or,
      List.not_mem_nil, or_false] at hs
    obtain ⟨-, rfl, -⟩ | ⟨-, rfl, -⟩ := hs
    · exact hlower .vertex
    · exact hlower .edge

end Instruction

namespace Resolution

/-- A resolved program writes to handles that it creates. Their numbers come after the counter, and
are no more than the query makes. -/
theorem resolve_creates {ss : List Query.Statement} {w w' : Workspace σ} {program : Program}
    (h : (resolve b ss).runFrom w = (.ok program, w')) :
    (∀ i ∈ program, ∀ name ∈ i.target?, program.Creates name) ∧
      ∀ name, program.Creates name → ∃ j, 1 ≤ j ∧ j ≤ Query.makings ss ∧
        IsNumbered (wordAfter^[j] w.symbols.counter) name := by
  obtain ⟨d, hd, -, rfl⟩ := resolve_ok h
  have hgrows := statements_spends ss (b := b) ⟨w, []⟩
  rw [hd] at hgrows
  obtain ⟨k, more, hk, -, hprogram, htargets, hnumbers⟩ := hgrows
  rw [hprogram, List.nil_append]
  refine ⟨htargets, fun name hname => ?_⟩
  obtain ⟨j, hj, hjk, hnumbered⟩ := hnumbers name hname
  exact ⟨j, hj, hjk.trans hk, hnumbered⟩

end Resolution

namespace Session

open Action

/-- Each instruction of a resolved program is confined to the tables that the program may change. -/
theorem instruction_confined (hb : b.IsDatabase view fails) {ss : List Query.Statement}
    (hss : ∀ s ∈ ss, s.isNative = false) {w w' : Workspace σ} {program : Program}
    (h : (Resolution.resolve b ss).runFrom w = (.ok program, w')) {i : Instruction} (hi : i ∈ program) :
    Preserves (fun s => Confined program.Touches db (view s)) (i.execute b) :=
  i.execute_confined hb (Resolution.resolve_orderly hss h i hi) ((Resolution.resolve_creates h).1 i hi)

/-- A resolved program is confined to the tables that it may change. -/
theorem run_confined (hb : b.IsDatabase view fails) {ss : List Query.Statement}
    (hss : ∀ s ∈ ss, s.isNative = false) {w w' : Workspace σ} {program : Program}
    (h : (Resolution.resolve b ss).runFrom w = (.ok program, w')) :
    Confined program.Touches (view w'.store) (view ((run b program).runFrom w'.store).2) :=
  run_preserves (I := fun s => Confined program.Touches (view w'.store) (view s))
    (fun s hs => by rw [hb.acquire]; exact hs) (fun s hs => by rw [hb.release]; exact hs)
    (program.execute_preserves fun _ hi => instruction_confined hb hss h hi) _ (.refl _ _)

/-- What resolution and the program of a query touch. -/
theorem resolveAndRun_confined (hb : b.IsDatabase view fails) {ss : List Query.Statement}
    (hss : ∀ s ∈ ss, s.isNative = false) (w : Workspace σ) :
    Confined (fun name => IsBindings name ∨ ∃ program w',
        (Resolution.resolve b ss).runFrom w = (.ok program, w') ∧ Program.Touches program name)
      (view w.store) (view ((resolveAndRun b ss).runFrom w).2.store) := by
  have hresolve := Resolution.resolve_preserves hb (undisturbed_confined (view w.store)) ss w (.refl _ _)
  rw [runFrom_resolveAndRun]
  generalize hx : (Resolution.resolve b ss).runFrom w = x at hresolve
  obtain ⟨result, w'⟩ := x
  cases result with
  | error e =>
    exact ⟨fun name hname => hresolve.others name fun hc => hname (.inl hc), hresolve.names⟩
  | ok program =>
    have hboth := hresolve.trans (run_confined hb hss hx)
    exact ⟨fun name hname => hboth.others name fun hc => hname (hc.imp_right fun ht =>
      ⟨program, w', rfl, ht⟩), hboth.names⟩

/-- After resolution the bindings stay as they are, in memory and in the store. -/
theorem resolveAndRun_bindings (hb : b.IsDatabase view fails) {ss : List Query.Statement}
    (hss : ∀ s ∈ ss, s.isNative = false) (w : Workspace σ) :
    ((resolveAndRun b ss).runFrom w).2.symbols = ((Resolution.resolve b ss).runFrom w).2.symbols ∧
      (view ((resolveAndRun b ss).runFrom w).2.store).table? relation
        = (view ((Resolution.resolve b ss).runFrom w).2.store).table? relation := by
  rw [runFrom_resolveAndRun]
  generalize hx : (Resolution.resolve b ss).runFrom w = x
  obtain ⟨result, w'⟩ := x
  cases result with
  | error e => exact ⟨rfl, rfl⟩
  | ok program =>
    refine ⟨rfl, (run_confined hb hss hx).others relation ?_⟩
    rintro (⟨table, htable, h⟩ | ⟨handle, side, -, h⟩)
    · rw [sameName_scratch_relation htable] at h; cases h
    · rw [Graph.sameName_table_relation] at h; cases h

/-- The tables that a query over a store may change or drop. -/
inductive MayChange (b : Backend σ) (view : σ → Database) (query : String) (s : σ)
    (name : String) : Prop where
  /-- The relation of the bindings. -/
  | bindings (h : sameName relation name = true)
  /-- A scratch table. -/
  | scratch {table : String} (htable : beginsWith scratchPrefix table = true)
      (h : sameName table name = true)
  /-- A table of a handle that the query's own program creates, under a new number. -/
  | allocated {statements : List Query.Statement} {symbols : SymbolTable} {s' s'' : σ}
      {program : Program} {handle : String} {j : Nat} {side : Side}
      (hparse : Query.parse query = .ok statements)
      (hload : (SymbolTable.load b).runFrom s = (.ok symbols, s'))
      (hprogram : program? b query s = some (program, s'')) (hcreates : program.Creates handle)
      (hfirst : 1 ≤ j) (hlast : j ≤ Query.makings statements)
      (hnumber : IsNumbered (wordAfter^[j] symbols.counter) handle)
      (h : sameName ((⟨handle⟩ : Graph).table side) name = true)
  /-- A table that is listed with one of the two other prefixes when the collection runs, and that no
  variable reaches then. -/
  | unreached {w : Workspace σ} {table : String}
      (hcollection : beforeCollection? b query s = some w)
      (hlisted : table ∈ (view w.store).tableNames)
      (hbegins : beginsWith graphPrefix table = true ∨ beginsWith metadataPrefix table = true)
      (hunreached : ∀ var handle, w.symbols.lookup? var = some handle → table ∉ relationsOf handle)
      (h : sameName table name = true)

/-- What a collection drops is a scratch table or a table that no variable reaches. -/
theorem not_mem_relationsOf {t : SymbolTable} {table var handle : String}
    (h : t.reachable.contains table = false) (hvar : t.lookup? var = some handle) :
    table ∉ relationsOf handle := by
  intro hmem
  rw [List.contains_eq_mem, decide_eq_false_iff_not, reachable, List.mem_append, List.mem_append,
    List.mem_flatMap] at h
  rw [lookup?] at hvar
  split at hvar
  · cases hvar
    exact h (.inl (.inr hmem))
  · exact h (.inr ⟨_, OrderedMap.mem_of_find? hvar, hmem⟩)

/-- A table that is other than before a query is one that the query may change. -/
theorem mayChange_of_ne (hb : b.IsDatabase view fails) {query : String}
    (hquery : Query.IsPlain query) {s : σ} {name : String}
    (hne : (view ((execute b query).runFrom s).2).table? name ≠ (view s).table? name) :
    MayChange b view query s name := by
  by_contra hno
  have hbindings : ¬ IsBindings name := fun h => hno (.bindings h)
  have hload := SymbolTable.load_preserves hb (undisturbed_confined (view s)) s (.refl _ _)
  obtain ⟨-, -, hsame | ⟨e, hfailed⟩⟩ | ⟨ss, symbols, s', hparse, hloaded, hbefore, -, hafter⟩ :=
    execute_cases b query s
  · exact hne (by rw [hsame])
  · rw [hfailed] at hload
    exact hne (hload.others name hbindings)
  · rw [hloaded] at hload
    have hrun := resolveAndRun_confined hb (hquery ss hparse) ⟨symbols, s'⟩
    have hkept : (view ((resolveAndRun b ss).runFrom ⟨symbols, s'⟩).2.store).table? name
        = (view s).table? name := by
      rw [hrun.others name ?_, hload.others name hbindings]
      rintro (h | ⟨program, w', hresolve, ⟨table, htable, h⟩ | ⟨handle, side, hcreates, h⟩⟩)
      · exact hbindings h
      · exact hno (.scratch htable.1 h)
      · obtain ⟨j, hfirst, hlast, hnumber⟩ := (Resolution.resolve_creates hresolve).2 handle hcreates
        have hprogram : program? b query s = some (program, b.acquire w'.store) := by
          simp only [program?, hparse, hloaded, hresolve]
        exact hno (.allocated hparse hloaded hprogram hcreates hfirst hlast hnumber h)
    rw [hafter] at hne
    generalize ((resolveAndRun b ss).runFrom ⟨symbols, s'⟩).2 = w at hbefore hkept hne
    obtain ⟨-, e, t, ht, hv⟩ | ⟨n, t, ht, hv⟩ := collect_spec (w := w) hb
    · rw [ht, hv] at hne
      exact hne hkept
    · rw [ht, hv, table?_collected_of_forall fun table htable => ?_] at hne
      · exact hne hkept
      · obtain ⟨hlisted, hcollected⟩ := List.mem_filter.1 htable
        by_contra hsame
        rw [Bool.not_eq_false] at hsame
        simp only [isCollected, Bool.or_eq_true, Bool.and_eq_true, Bool.not_eq_true'] at hcollected
        obtain hscratch | ⟨hbegins, hunreached⟩ := hcollected
        · exact hno (.scratch hscratch hsame)
        · exact hno (.unreached hbefore hlisted hbegins (fun var handle hvar =>
            not_mem_relationsOf hunreached hvar) hsame)

end Session

end Provenance

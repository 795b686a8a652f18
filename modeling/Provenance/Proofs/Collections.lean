import Provenance.Proofs.Workspaces

/-!
# What a collection drops

A collection drops listed tables, all in one request, and nothing else happens. For a table of a
handle that stands to be collected by its name, this is decided by the bindings in memory: it is
dropped unless some variable is bound to the name.
-/

namespace Provenance

open Store

namespace SymbolTable

variable {t : SymbolTable} {name : String} {side : Side}

/-- No table of a handle is a base relation. -/
theorem table_not_mem_base (g : Graph) (side : Side) :
    g.table side ∉ Side.all.map Side.baseTable ++ Side.all.map Side.annotationTable ++ [relation] := by
  intro h
  simp only [Side.all, List.map_cons, List.map_nil, List.cons_append, List.nil_append, List.mem_cons,
    List.not_mem_nil, or_false] at h
  have hlast : ∀ {s : String}, g.table side = s → s.toList.getLast? = side.label.toList.getLast? := by
    rintro s rfl
    cases side <;> simp [Graph.table, Side.label]
  have hlength : ∀ {s : String}, g.table side = s → side.label.length < s.length := by
    rintro s rfl
    rw [Graph.table, String.length_append, String.length_append]
    have : "_".length = 1 := by decide
    omega
  cases side <;> obtain h | h | h | h | h := h <;>
    first | exact absurd (hlast h) (by decide) | exact absurd (hlength h) (by decide)

theorem mem_relationsOf {other : String} :
    (⟨name⟩ : Graph).table side ∈ relationsOf other ↔ name = other := by
  simp only [relationsOf, List.mem_map]
  constructor
  · rintro ⟨side', -, heq⟩
    exact congrArg Graph.name (Graph.table_injective heq.symm).1
  · rintro rfl
    exact ⟨side, by cases side <;> decide, rfl⟩

theorem mem_reachable_table :
    (⟨name⟩ : Graph).table side ∈ t.reachable ↔
      name = Graph.base.name ∨ name ∈ t.bindings.map Prod.snd := by
  rw [reachable, List.mem_append, List.mem_append, mem_relationsOf, List.mem_flatMap, List.mem_map]
  simp only [mem_relationsOf, table_not_mem_base, false_or, eq_comm]

/-- The tables of a numbered name are dropped unless the name is reached. -/
theorem isCollected_table (h : IsGenerated name) :
    t.isCollected ((⟨name⟩ : Graph).table side) = true ↔
      ¬ (name = Graph.base.name ∨ name ∈ t.bindings.map Prod.snd) := by
  have hreachable : (⟨name⟩ : Graph).table side ∈ t.reachable ↔ _ := mem_reachable_table
  rw [← hreachable, isCollected, Graph.table, String.append_assoc, h.not_scratch, h.begins]
  simp

theorem isCollected_base (side : Side) : t.isCollected (Graph.base.table side) = false := by
  have hmem : Graph.base.table side ∈ t.reachable := mem_reachable_table.2 (.inl rfl)
  have hscratch : beginsWith scratchPrefix (Graph.base.table side) = false := by
    cases side <;> decide
  simp [isCollected, hmem, hscratch]

end SymbolTable

namespace Workspace

open SymbolTable

variable {σ : Type} {b : Backend σ} {view : σ → Database} {fails : Prop} {w : Workspace σ}

/-- The names that a collection drops. -/
def collected (t : SymbolTable) (db : Database) : List String := db.tableNames.filter t.isCollected

/-- A collection drops all that is to be dropped, or fails without effect. -/
theorem collect_spec (hb : b.IsDatabase view fails) :
    (fails ∧ ∃ e s, (collect b).runFrom w = (.error e, ⟨w.symbols, s⟩) ∧ view s = view w.store) ∨
      ∃ n s, (collect b).runFrom w = (.ok n, ⟨w.symbols, s⟩) ∧
        view s = (collected w.symbols (view w.store)).foldl Database.remove (view w.store) := by
  have hnames := hb.relationNames w.store
  rw [Backend.Attempts] at hnames
  generalize hlist : b.relationNames.runFrom w.store = x at hnames
  obtain ⟨result, s⟩ := x
  have halong : (b.relationNames.along storeLens).runFrom w = (result, ⟨w.symbols, s⟩) := by
    simp [storeLens, hlist]
  obtain ⟨hf, e, rfl, hv⟩ | ⟨rfl, hv⟩ := hnames
  · exact .inl ⟨hf, e, s, Action.runFrom_bind_error halong _, hv⟩
  · replace hv : view s = view w.store := hv
    have hrun : (collect b).runFrom w = (if (collected w.symbols (view w.store)).isEmpty then
          pure (collected w.symbols (view w.store)).length
        else send b (.lines ((collected w.symbols (view w.store)).map Statement.discard)) >>=
          fun _ => pure (collected w.symbols (view w.store)).length).runFrom ⟨w.symbols, s⟩ := by
      rw [collect, Action.runFrom_bind_ok halong]; rfl
    rw [hrun]
    split
    · next hnone =>
      refine .inr ⟨_, s, rfl, ?_⟩
      rw [List.isEmpty_iff.1 hnone, hv]
      rfl
    · have hrun := Database.run_discards (collected w.symbols (view w.store)) (view s)
      obtain ⟨hf, e, s', hs, hv'⟩ | ⟨s', hs, hv'⟩ := send_ok (w := ⟨w.symbols, s⟩) hb hrun
      · exact .inl ⟨hf, e, s', Action.runFrom_bind_error hs _, hv'.trans hv⟩
      · exact .inr ⟨_, s', by rw [Action.runFrom_bind_ok hs]; rfl, by rw [hv', hv]⟩

section Kept

open Database

variable {db : Database} {t : SymbolTable} {name : String}

/-- What a collection drops begins with one of the letters of the three prefixes. -/
theorem head?_of_isCollected (h : t.isCollected name = true) :
    (folded name).head? = some 'm' ∨ (folded name).head? = some 't' := by
  have hbegins : ∀ start : String, beginsWith start name = true →
      start.toList ≠ [] → (folded name).head? = start.toList.head?.map Char.toLower := by
    intro start hstart hne
    obtain ⟨rest, hrest⟩ := List.isPrefixOf_iff_prefix.1 hstart
    rw [folded, ← hrest, List.map_append, List.head?_append_of_ne_nil _ (by simpa using hne),
      List.head?_map]
  simp only [isCollected, Bool.or_eq_true, Bool.and_eq_true] at h
  obtain h | ⟨h | h, -⟩ := h
  · exact .inl (hbegins _ h (by decide))
  · exact .inr (hbegins _ h (by decide))
  · exact .inl (hbegins _ h (by decide))

theorem isHidden_of_isCollected (h : t.isCollected name = true) : isHidden name = false := by
  rw [isHidden, Bool.and_eq_false_iff]
  left
  rw [← Bool.not_eq_true, toList_toLower, List.isPrefixOf_iff_prefix]
  rintro ⟨rest, hrest⟩
  have hhead := head?_of_isCollected h
  rw [← hrest] at hhead
  exact absurd hhead (by simp)

/-- Another table than those that are to be collected stays. -/
theorem table?_collected_of_forall (h : ∀ n ∈ collected t db, sameName n name = false) :
    ((collected t db).foldl remove db).table? name = db.table? name := by
  rw [table?_foldl_remove, if_neg]
  rw [List.any_eq_true]
  rintro ⟨n, hn, hsame⟩
  rw [h n hn] at hsame
  cases hsame

theorem table?_relation_collected :
    ((collected t db).foldl remove db).table? relation = db.table? relation := by
  refine table?_collected_of_forall fun n hn => sameName_eq_false 0 ?_
  have hhead := head?_of_isCollected (List.mem_filter.1 hn).2
  rw [← List.head?_eq_getElem?, ← List.head?_eq_getElem?]
  obtain hhead | hhead := hhead <;> rw [hhead] <;> decide

/-- Over a store without failures, a collection leaves the tables that are not to be collected. -/
theorem collect_memory (w : Workspace Database) : ((collect Backend.memory).runFrom w).2
    = ⟨w.symbols, (collected w.symbols w.store).foldl remove w.store⟩ := by
  obtain ⟨hf, -⟩ | ⟨n, s, hs, rfl⟩ := collect_spec (w := w) Backend.isDatabase_memory
  · exact hf.elim
  · rw [hs]; rfl

end Kept

end Workspace

end Provenance

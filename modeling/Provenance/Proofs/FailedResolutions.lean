import Provenance.Proofs.Allocations
import Provenance.Proofs.Histories

/-!
# Resolutions that fail

Statements that cannot be resolved may have bound variables, forgotten bindings and allocated names
before. All of this is taken back but the counter: the bindings in memory and the stored ones are as
they were, no other table is touched, and the collection that follows keeps what variables are bound
to.
-/

namespace Provenance

open Store Database SymbolTable Workspace

variable {σ : Type} {b : Backend σ} {view : σ → Database} {fails : Prop} {w : Workspace σ}
  {entries : List (String × String)}

/-! ## All other tables -/

/-- The tables apart from that of the bindings, in their order. -/
def otherTables (db : Database) : List Table := db.tables.filter fun t => !sameName relation t.name

theorem mem_otherTables {db : Database} {t : Table} :
    t ∈ otherTables db ↔ t ∈ db.tables ∧ sameName relation t.name = false := by
  simp [otherTables]

theorem otherTables_add (db : Database) {t : Table} (h : sameName relation t.name = true) :
    otherTables (db.add t) = otherTables db := by
  simp [otherTables, Database.add, h]

theorem otherTables_remove (db : Database) : otherTables (db.remove relation) = otherTables db := by
  rw [otherTables, Database.remove, List.filter_filter, otherTables]
  refine List.filter_congr fun t _ => ?_
  rw [sameName_comm t.name, Bool.and_self]

theorem otherTables_replace (db : Database) {t : Table} (h : sameName relation t.name = true) :
    otherTables (db.replace t) = otherTables db := by
  have hsame : ∀ u : Table, sameName u.name t.name = sameName relation u.name := fun u => by
    rw [sameName_comm u.name, sameName_congr h]
  simp only [otherTables, Database.replace, hsame]
  induction db.tables with
  | nil => rfl
  | cons u tables ih =>
    rw [List.map_cons, List.filter_cons, List.filter_cons, ih]
    by_cases hu : sameName relation u.name = true
    · simp [hu, h]
    · simp [hu]

theorem undisturbed_otherTables (tables : List Table) :
    Undisturbed fun db => otherTables db = tables := by
  intro closed ss hss db h
  refine run_batch_preserves (I := fun db => otherTables db = tables)
    (fun s hs db₁ db₂ answer h₁ happly => ?_) h
  obtain rfl | ⟨_, n, _, _, _, rfl, -, rfl⟩ | ⟨_, n, rfl, rfl⟩ | ⟨n, htarget, u, rows, hu, rfl⟩ :=
    apply_cases happly
  · exact h₁
  · rw [otherTables_add _ (by rw [hss _ hs n rfl]; exact sameName_self _), h₁]
  · rw [hss _ hs n rfl, otherTables_remove, h₁]
  · have hname := table?_name hu
    rw [hss _ hs n htarget, sameName_comm] at hname
    exact (otherTables_replace db₁ (t := { u with rows }) hname).trans h₁

/-- A table of another name is found among the other tables. -/
theorem table?_of_otherTables {db db' : Database} (h : otherTables db' = otherTables db) {name : String}
    (hname : sameName relation name = false) : db'.table? name = db.table? name := by
  have hfind : ∀ db : Database, db.table? name = (otherTables db).find? fun t => sameName t.name name := by
    intro db
    rw [otherTables, List.find?_filter, Database.table?]
    congr 1
    funext t
    by_cases ht : sameName t.name name = true
    · have : sameName relation t.name = false := by
        rw [sameName_comm, sameName_congr ht, sameName_comm]
        exact hname
      simp [ht, this]
    · simp [ht]
  rw [hfind, hfind, h]

/-! ## While statements are resolved -/

/-- The rows of the relation apart from that of the counter. -/
def bindingRows (entries : List (String × String)) : List (String × String) :=
  entries.filter fun e => e.1 ≠ counterKey

theorem bindingRows_put (text : String) (entries : List (String × String)) :
    bindingRows (OrderedMap.put counterKey text entries) = bindingRows entries := by
  have hadjust : ∀ entries : List (String × String),
      bindingRows (OrderedMap.adjust counterKey (fun _ => text) entries) = bindingRows entries := by
    intro entries
    induction entries with
    | nil => rfl
    | cons e entries ih =>
      by_cases he : e.1 = counterKey
      · simpa [bindingRows, OrderedMap.adjust, he] using ih
      · simpa [bindingRows, OrderedMap.adjust, he] using ih
  unfold OrderedMap.put
  split
  · exact hadjust entries
  · simp [bindingRows]

theorem find?_bindingRows (entries : List (String × String)) {var : String} (hvar : var ≠ counterKey) :
    OrderedMap.find? (bindingRows entries) var = OrderedMap.find? entries var := by
  induction entries with
  | nil => rfl
  | cons e entries ih =>
    rw [OrderedMap.find?_cons, ← ih]
    by_cases he : e.1 = counterKey
    · have hne : e.1 ≠ var := fun h => hvar (h.symm.trans he)
      rw [if_neg hne, bindingRows, List.filter_cons_of_neg (by simp [he])]
      rfl
    · rw [bindingRows, List.filter_cons_of_pos (by simp [he]), OrderedMap.find?_cons]
      rfl

/-- The stored bindings are those of `entries`, and the counter is stored. The bindings in memory are as
they were at first, or there is something to discard. -/
structure Unsettled (view : σ → Database) (entries : List (String × String))
    (bindings : OrderedMap String String) (w : Workspace σ) : Prop where
  rows : ∃ rows, Keeps (view w.store) rows ∧ bindingRows rows = bindingRows entries ∧
    counterOf rows = some w.symbols.counter
  bindings : w.symbols.pending = [] → w.symbols.cleared = false → w.symbols.bindings = bindings

namespace Unsettled

variable {bindings : OrderedMap String String}

theorem fresh (hb : b.IsDatabase view fails) :
    Action.Preserves (Unsettled view entries bindings) (freshNumber b) := by
  intro w h
  obtain ⟨rows, hk, hsame, hcounter⟩ := h.rows
  obtain ⟨-, e, s, hs, hv⟩ | ⟨s, hs, hk'⟩ := freshNumber_spec hb hk
  · rw [hs]
    exact ⟨⟨rows, by rw [hv]; exact hk, hsame, hcounter⟩, h.bindings⟩
  · rw [hs]
    exact ⟨⟨_, hk', by rw [bindingRows_put, hsame], counterOf_put (isWord_wordAfter _)⟩, h.bindings⟩

theorem insert_ne_nil (m : OrderedMap String String) (var name : String) : m.insert var name ≠ [] := by
  intro h
  have hmem : var ∈ (m.insert var name).map Prod.fst := OrderedMap.mem_keys_insert.2 (.inl rfl)
  rw [h] at hmem
  cases hmem

theorem statements (hb : b.IsDatabase view fails) (ss : List Query.Statement) :
    Action.Preserves (Resolution.OnWorkspace (Unsettled view entries bindings))
      (ss.forM (Resolution.statement b)) :=
  .forM fun _ _ => Resolution.statement_preserves (fresh hb)
    (fun _ var name h _ _ _ => ⟨h.rows, fun hpending => (insert_ne_nil _ var name hpending).elim⟩)
    fun _ _ h => ⟨h.rows, nofun⟩

/-- A discard takes back all but the counter. -/
theorem discard (hb : b.IsDatabase view False) (h : Unsettled view entries bindings w) {db : Database}
    (hk : Keeps db entries) {n : Int} (hr : Reads db (bindings, n)) :
    ∃ s, (Workspace.discard b).runFrom w = (.ok (), ⟨⟨bindings, [], false, w.symbols.counter⟩, s⟩) ∧
      view s = view w.store := by
  obtain ⟨rows, hrows, hsame, hcounter⟩ := h.rows
  simp only [Workspace.discard, Action.runFrom_bind, Action.runFrom_get]
  split
  · next hnone =>
    obtain ⟨hpending, hcleared⟩ : w.symbols.pending = [] ∧ w.symbols.cleared = false := by
      simpa using hnone
    refine ⟨w.store, ?_, rfl⟩
    rw [← h.bindings hpending hcleared, ← hpending, ← hcleared]
    rfl
  · obtain ⟨stored, s, hs, hv, hreads⟩ :=
      readStored_reliable hb hrows (readable_iff.2 (by rw [hcounter]; rfl))
    have halong : ((readStored b).along storeLens).runFrom w = (.ok stored, ⟨w.symbols, s⟩) := by
      simp [storeLens, hs]
    have hstored : stored.1 = bindings := by
      refine hreads.sorted.ext hr.sorted fun var => ?_
      rw [hreads.bindings, hr.bindings, hrows.storedName?, hk.storedName?]
      by_cases hvar : var = counterKey
      · rw [if_pos hvar, if_pos hvar]
      · rw [if_neg hvar, if_neg hvar, ← find?_bindingRows rows hvar, hsame,
          find?_bindingRows entries hvar]
    refine ⟨s, ?_, hv⟩
    rw [Action.runFrom_bind_ok halong, ← hstored]
    rfl

end Unsettled

/-! ## After the discard -/

/-- What is left of a resolution that failed: names were allocated for what its program creates, and
nothing else happened. -/
structure RolledBack (b : Backend σ) (view : σ → Database) (entries : List (String × String))
    (w : Workspace σ) (program : Program) (w' : Workspace σ) : Prop where
  symbols : w'.symbols = ⟨w.symbols.bindings, [], false,
    wrapped (w.symbols.counter + program.creations.length)⟩
  numbers : List.Forall₂ IsNumbered (numbersAfter w.symbols.counter program.creations.length)
    program.creations
  rows : ∃ rows, Keeps (view w'.store) rows ∧ bindingRows rows = bindingRows entries ∧
    counterOf rows = some w'.symbols.counter
  others : otherTables (view w'.store) = otherTables (view w.store)
  kept : ∀ var name, w.symbols.lookup? var = some name → ∀ side,
    beginsWith scratchPrefix ((⟨name⟩ : Graph).table side) = false →
    (∀ t ∈ (view w.store).tables, sameName t.name ((⟨name⟩ : Graph).table side) = true →
      t.name = (⟨name⟩ : Graph).table side) →
    (view ((collect b).runFrom w').2.store).table? ((⟨name⟩ : Graph).table side)
      = (view w.store).table? ((⟨name⟩ : Graph).table side)

/-- A collection keeps the tables of what a variable is bound to, unless they have the prefix of
scratch tables or are listed with another spelling. -/
theorem table?_collected_of_lookup? {t : SymbolTable} {db : Database} {var name : String}
    (hvar : t.lookup? var = some name) {side : Side}
    (hscratch : beginsWith scratchPrefix ((⟨name⟩ : Graph).table side) = false)
    (hspelled : ∀ u ∈ db.tables, sameName u.name ((⟨name⟩ : Graph).table side) = true →
      u.name = (⟨name⟩ : Graph).table side) :
    ((collected t db).foldl remove db).table? ((⟨name⟩ : Graph).table side)
      = db.table? ((⟨name⟩ : Graph).table side) := by
  refine table?_collected_of_forall fun n hn => ?_
  obtain ⟨hlisted, hcollected⟩ := List.mem_filter.1 hn
  obtain ⟨⟨u, hu, rfl⟩, -⟩ := mem_tableNames.1 hlisted
  by_contra hsame
  rw [Bool.not_eq_false] at hsame
  have hreached : name = Graph.base.name ∨ name ∈ t.bindings.map Prod.snd := by
    rw [lookup?] at hvar
    split at hvar
    · exact .inl (Option.some.inj hvar).symm
    · exact .inr (List.mem_map_of_mem (OrderedMap.mem_of_find? hvar))
  rw [hspelled u hu hsame, isCollected, hscratch] at hcollected
  simp [mem_reachable_table.2 hreached] at hcollected

/-- The tables of a handle that are listed are among the other tables. -/
theorem spelled_of_otherTables {db db' : Database} (h : otherTables db' = otherTables db) {name : String}
    {side : Side} (hspelled : ∀ t ∈ db.tables, sameName t.name ((⟨name⟩ : Graph).table side) = true →
      t.name = (⟨name⟩ : Graph).table side) :
    ∀ t ∈ db'.tables, sameName t.name ((⟨name⟩ : Graph).table side) = true →
      t.name = (⟨name⟩ : Graph).table side := by
  intro t ht hsame
  have hother : t ∈ otherTables db' := by
    rw [mem_otherTables, sameName_comm, sameName_congr hsame]
    exact ⟨ht, Graph.sameName_table_relation _ side⟩
  rw [h] at hother
  exact hspelled t (mem_otherTables.1 hother).1 hsame

namespace Session

open Resolution

theorem runFrom_resolve_error {ss : List Query.Statement} {e : QueryError} {d : Draft σ}
    {w' : Workspace σ} (hfailed : (ss.forM (statement b)).runFrom ⟨w, []⟩ = (.error e, d))
    (hdiscard : (discard b).runFrom d.workspace = (.ok (), w')) :
    (resolve b ss).runFrom w = (.error e, w') := by
  simp only [resolve, Action.runFrom_of, hfailed, hdiscard]

theorem reads_boundByUser (name : String) (tables : List String) :
    Reads (boundByUser name tables) ([("$a", name)], 1) := by
  have hk := keeps_boundByUser name tables
  refine ⟨List.pairwise_singleton _ _, fun var => ?_, hk.storedCounter?⟩
  rw [hk.storedName?, OrderedMap.find?_cons, OrderedMap.find?_cons, OrderedMap.find?_cons]
  by_cases hkey : var = counterKey
  · subst hkey
    simp [counterKey]
  · simp [hkey, Ne.symm hkey]

/-- Before the unknown variable, bindings are made and changed, and all are forgotten. -/
def brokenQuery : String :=
  "$b = $a + vertices(2)\n$b += $a\nreset environment\n$a = vertices(3)\nstat $nope"

/-- The workspace in which one variable is bound to the graph of the number 1. -/
def oneBound : Workspace Database :=
  ⟨⟨[("$a", "trace_1")], [], false, 1⟩, boundByUser "trace_1" ["trace_1_vertex", "trace_1_edge"]⟩

/-- What the resolution of a query has created before it fails. -/
def creationsBefore? (query : String) (w : Workspace Database) : Option (List String) :=
  match Query.parse query with
  | .error _ => none
  | .ok ss => match (ss.forM (statement Backend.memory)).runFrom ⟨w, []⟩ with
    | (.ok _, _) => none
    | (.error _, d) => some (Program.creations d.program)

end Session

end Provenance

import Provenance.Proofs.BaseElements
import Provenance.Proofs.ScratchLifetimes
import Provenance.Proofs.StartingOver

/-!
# Stores without scratch tables

Over a store that does not fail, an instruction leaves the tables that were there, and those of the handle that it
makes: of its scratch tables none is left. So no scratch table is there between two instructions of a program, and
none between queries, whatever happened to the store before.
-/

namespace Provenance

open Store Database SymbolTable Action

variable {σ : Type} {b : Backend σ} {view : σ → Database} {fails : Prop}

/-! ## The tables that are left -/

/-- All tables have names of a kind. -/
def Store.Database.AllNamed (P : String → Prop) (db : Database) : Prop := ∀ t ∈ db.tables, P t.name

/-- Statements that keep the tables keep their names. -/
theorem Backend.IsDatabase.respects_allNamed (hb : b.IsDatabase view fails) (P : String → Prop) :
    b.Respects fun s => (view s).AllNamed P := by
  have hbatch : ∀ {closed ss}, ss.all Statement.keepsTables = true → ∀ db : Database, db.AllNamed P →
      (db.run (.batch closed ss)).2.AllNamed P := fun hss db hdb =>
    run_batch_preserves (I := AllNamed P) (fun s hs _ _ _ hdb happly =>
      Statement.names_of_keepsTables (List.all_eq_true.1 hss s hs) happly hdb) hdb
  exact ⟨fun hss => hb.execute_preserves (hbatch hss), fun hss => hb.queryRows_preserves (hbatch hss)⟩

/-- The tables that are renewed are the only new ones. -/
theorem Store.Database.AllNamed.renewal {P : String → Prop} {db : Database} (hdb : db.AllNamed P)
    {first second : String} (hfirst : P first) (hsecond : P second) (columns : List Column) :
    (db.run (renewal first second columns)).2.AllNamed P := by
  refine run_batch_preserves (I := AllNamed P) (fun s hs _ _ _ hdb happly => ?_) hdb
  refine apply_names happly (fun ifAbsent name columns hc => ?_) hdb
  subst hc
  simp only [List.mem_cons, Statement.discard, reduceCtorEq, Statement.create.injEq, false_or, List.not_mem_nil,
    or_false] at hs
  obtain ⟨-, rfl, -⟩ | ⟨-, rfl, -⟩ := hs
  · exact hfirst
  · exact hsecond

namespace Instruction

theorem target?_of_creates? {i : Instruction} {name : String} (h : i.creates? = some name) : i.target? = some name := by
  cases i <;> cases h <;> rfl

theorem execute_of_creation {i : Instruction} {r : Request} (hr : i.creation? = some r) (b : Backend σ) :
    i.execute b = execute.silently (b.perform r) := by
  cases i <;> cases hr <;> rfl

/-- Over a store that does not fail, all tables have names of a kind after an instruction if they had before, and
if those of the handle that it makes have. -/
theorem execute_allNamed (hb : b.IsDatabase view fails) (hfails : ¬ fails) {P : String → Prop} {i : Instruction}
    (hnative : i.isNative = false)
    (hcreates : ∀ name, i.creates? = some name → ∀ side, P ((⟨name⟩ : Graph).table side)) :
    Preserves (fun s => (view s).AllNamed P) (i.execute b) := by
  by_cases hscratch : i.scratchNames = []
  · cases hcreation : i.creation? with
    | none => exact execute_respected (hb.respects_allNamed P) hnative hcreation hscratch
    | some r =>
      obtain ⟨handle, columns, hhandle, -, rfl⟩ := creation?_eq_some hcreation
      rw [execute_of_creation hcreation]
      exact silently_preserves ((hb.execute_preserves fun db hdb =>
        hdb.renewal (hcreates handle hhandle .vertex) (hcreates handle hhandle .edge) columns).bind fun _ => .pure _)
  · obtain ⟨body, hexecute, hbody⟩ := i.execute_eq_within b hscratch
    rw [hexecute]
    refine silently_preserves fun s hs t ht => ?_
    obtain ⟨u, hu, hname⟩ := Scratch.within_leaves hb hfails hbody s t ht
    exact hname ▸ hs u hu

/-- So no scratch table is there after an instruction if there was none before. -/
theorem execute_hasNoScratch (hb : b.IsDatabase view fails) (hfails : ¬ fails) {i : Instruction}
    (hi : i.IsOrderly) : Preserves (fun s => Session.HasNoScratch (view s)) (i.execute b) := by
  refine execute_allNamed (P := fun name => beginsWith scratchPrefix name = false) hb hfails hi.1
    fun name hname side => ?_
  exact (IsOwn.isApart (.inr (hi.2 name (target?_of_creates? hname)))).not_scratch side

end Instruction

/-! ## Chronicles -/

namespace Session

theorem hasNoScratch_reset {db : Database} (h : HasNoScratch db) : HasNoScratch (Storage.reset db) := by
  rw [Storage.reset_eq]
  intro t ht
  obtain ht | ht := List.mem_append.1 ht
  · exact h t (List.mem_filter.1 ht).1
  · exact hasNoScratch_fresh t ht

theorem collectGarbage_hasNoScratch : Preserves HasNoScratch (collectGarbage Backend.memory) := by
  intro db hdb
  have hload := SymbolTable.load_preserves Backend.isDatabase_memory undisturbed_hasNoScratch db hdb
  simp only [collectGarbage, withSymbols, runFrom_of]
  rcases hrun : (SymbolTable.load Backend.memory).runFrom db with ⟨e | t, s⟩ <;> rw [hrun] at hload
  · exact hload
  · exact hasNoScratch_collect ⟨t, s⟩

/-- While a query is under way, the store is without scratch tables between two instructions. -/
theorem HasNoScratch.underway (hb : b.IsDatabase view fails) (hfails : ¬ fails) {query : String}
    (hquery : Query.IsPlain query) {s s' : σ} (h : HasNoScratch (view s)) {done rest : Program}
    (hprogram : program? b query s = some (done ++ rest, s')) (last : Option Answer) :
    HasNoScratch (view ((done.execute b).runFrom ⟨s', last⟩).2.store) := by
  obtain ⟨ss, t, u, w, hparse, hload, hresolve, rfl⟩ := program?_eq_some hprogram
  have hloaded := SymbolTable.load_preserves hb undisturbed_hasNoScratch s h
  rw [hload] at hloaded
  have hresolved := Resolution.resolve_preserves hb undisturbed_hasNoScratch ss ⟨t, u⟩ hloaded
  rw [hresolve] at hresolved
  have horderly := Resolution.resolve_orderly (hquery ss hparse) hresolve
  refine Program.execute_preserves (I := fun s => HasNoScratch (view s)) (fun i hi =>
    i.execute_hasNoScratch hb hfails (horderly i (List.mem_append_left rest hi))) ⟨b.acquire w.store, last⟩ ?_
  show HasNoScratch (view (b.acquire w.store))
  rw [hb.acquire]
  exact hresolved

/-- Whatever happened to a store, there is no scratch table, also while a query is under way. -/
theorem Chronicle.hasNoScratch {log : Storage.Log} {db : Database} (h : Chronicle log db) : HasNoScratch db := by
  induction h with
  | fresh => exact hasNoScratch_fresh
  | putVertex _ id md5 annotations ih =>
    exact vertex_preserves (fun s hs => insertion_hasNoScratch hs) id md5 annotations _ ih
  | putEdge _ id src dst annotations ih =>
    exact edge_preserves (fun s hs => insertion_hasNoScratch hs) id src dst annotations _ ih
  | load _ d ih => exact document_preserves (fun s hs => insertion_hasNoScratch hs) d _ ih
  | reset _ ih => exact hasNoScratch_reset ih
  | collect _ ih => exact collectGarbage_hasNoScratch _ ih
  | query _ _ ih => exact execute_hasNoScratch _ _ ih
  | underway _ hplain hprogram ih => exact ih.underway Backend.isDatabase_memory id hplain hprogram none

/-- No table that is there has the name of a scratch table, in any case. -/
theorem HasNoScratch.sameName_scratch {db : Database} (h : HasNoScratch db) (hlower : db.IsLowerCased)
    {name table : String} (hname : (db.table? name).isSome = true) (ht : IsScratch table) :
    sameName table name = false := by
  obtain ⟨t, hfound⟩ := Option.isSome_iff_exists.1 hname
  by_contra hsame
  rw [Bool.not_eq_false] at hsame
  have hboth : sameName t.name table = true :=
    sameName_trans (table?_name hfound) (by rwa [sameName_comm])
  obtain rfl := eq_of_sameName (hlower t (table?_mem hfound)) ht.2 hboth
  exact absurd ht.1 (by simp [h t (table?_mem hfound)])

end Session

end Provenance

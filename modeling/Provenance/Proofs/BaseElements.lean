import Provenance.Proofs.BaseRelations
import Provenance.Proofs.DanglingNames

/-!
# The elements of the base graph

A chronicle is what may happen to a store: elements are recorded, documents loaded, all is dropped, garbage is
collected, queries run, and a store may be seen while the program of a query is under way. Its log says what
was recorded since all was dropped last, and this is what the base relations hold.

Every record of an element adds it to the base graph, so the base graph has just the recorded elements.
-/

namespace Provenance

open Store Database SymbolTable Workspace Action

/-! ## Chronicles -/

namespace Session

/-- A store that came from a new one, with what was recorded since all was dropped last. -/
inductive Chronicle : Storage.Log → Database → Prop
  | fresh : Chronicle [] Storage.fresh
  | putVertex {log : Storage.Log} {db : Database} (h : Chronicle log db) (id : Int) (md5 : Option String)
    (annotations : List (String × String)) :
    Chronicle (log ++ Storage.vertexLog id md5 annotations)
      ((Storage.putVertex id md5 annotations).runFrom db).2
  | putEdge {log : Storage.Log} {db : Database} (h : Chronicle log db) (id src dst : Int)
    (annotations : List (String × String)) :
    Chronicle (log ++ Storage.edgeLog id src dst annotations)
      ((Storage.putEdge id src dst annotations).runFrom db).2
  | load {log : Storage.Log} {db : Database} (h : Chronicle log db) (d : Document) :
    Chronicle (log ++ Storage.documentLog d) ((Storage.load d).runFrom db).2
  | reset {log : Storage.Log} {db : Database} (h : Chronicle log db) : Chronicle [] (Storage.reset db)
  | collect {log : Storage.Log} {db : Database} (h : Chronicle log db) :
    Chronicle log ((collectGarbage Backend.memory).runFrom db).2
  | query {log : Storage.Log} {db : Database} (h : Chronicle log db) {query : String}
    (hplain : Query.IsPlain query) : Chronicle log ((execute Backend.memory query).runFrom db).2
  /-- The first instructions of a query's program were executed. -/
  | underway {log : Storage.Log} {db db' : Database} (h : Chronicle log db) {query : String}
    (hplain : Query.IsPlain query) {done rest : Program}
    (hprogram : program? Backend.memory query db = some (done ++ rest, db')) :
    Chronicle log ((Program.execute Backend.memory done).runFrom ⟨db', none⟩).2.store

variable {σ : Type} {b : Backend σ} {view : σ → Database} {fails : Prop}

theorem program?_eq_some {query : String} {s s' : σ} {program : Program}
    (h : program? b query s = some (program, s')) :
    ∃ ss t u w, Query.parse query = .ok ss ∧ (SymbolTable.load b).runFrom s = (.ok t, u) ∧
      (Resolution.resolve b ss).runFrom ⟨t, u⟩ = (.ok program, w) ∧ s' = b.acquire w.store := by
  unfold program? at h
  split at h
  · cases h
  · next ss hparse =>
    split at h
    · cases h
    · next t u hload =>
      split at h
      · cases h
      · next p w hresolve =>
        cases h
        exact ⟨ss, t, u, w, hparse, hload, hresolve, rfl⟩

end Session

/-- What is recorded stays while the program of a query is under way. -/
theorem Storage.Records.underway {σ : Type} {b : Backend σ} {view : σ → Database} {fails : Prop}
    (hb : b.IsDatabase view fails) {log : Storage.Log} {query : String} (hquery : Query.IsPlain query) {s s' : σ}
    (h : Storage.Records log (view s)) {done rest : Program}
    (hprogram : Session.program? b query s = some (done ++ rest, s')) (last : Option Answer) :
    Storage.Records log (view ((done.execute b).runFrom ⟨s', last⟩).2.store) := by
  obtain ⟨ss, t, u, w, hparse, hload, hresolve, rfl⟩ := Session.program?_eq_some hprogram
  have hloaded := h.loaded hb
  rw [hload] at hloaded
  have hresolved := Resolution.resolve_preserves hb (undisturbed_confined (view u)) ss ⟨t, u⟩ (.refl _ _)
  rw [hresolve] at hresolved
  refine (hloaded.confined hresolved fun name => Storage.not_isBindings).confined
    (Program.execute_preserves (fun i hi => Session.instruction_confined hb (hquery ss hparse) hresolve
      (List.mem_append_left rest hi)) ⟨b.acquire w.store, last⟩ ?_)
    fun name hname => Storage.not_touches_resolved hresolve hname
  show Confined _ _ (view (b.acquire w.store))
  rw [hb.acquire]
  exact .refl _ _

/-! ## Recorded elements -/

namespace Storage

/-- The rows of the base graph are the ids of the recorded elements, in their order. -/
def Log.Mirrors (log : Log) (side : Side) : Prop :=
  ∃ ids : List Int, log.rows (Graph.base.table side) = ids.map (fun id => [.integer id]) ∧
    (log.rows side.baseTable).map List.head? = ids.map fun id => some (.integer id)

namespace Log

variable {log log' : Log} {side : Side}

theorem Mirrors.append (h : log.Mirrors side) (h' : log'.Mirrors side) : (log ++ log').Mirrors side := by
  obtain ⟨ids, hgraph, hrecorded⟩ := h
  obtain ⟨ids', hgraph', hrecorded'⟩ := h'
  exact ⟨ids ++ ids', by simp [hgraph, hgraph'], by simp [hrecorded, hrecorded']⟩

theorem Mirrors.nil : Log.Mirrors [] side := ⟨[], rfl, rfl⟩

theorem Mirrors.flatMap {α : Type} {entries : α → Log} (h : ∀ x, (entries x).Mirrors side) (xs : List α) :
    Log.Mirrors (xs.flatMap entries) side := by
  induction xs with
  | nil => exact .nil
  | cons x xs ih => exact (h x).append ih

/-- Annotations have no rows elsewhere. -/
theorem rows_commonLog {name : String} (hname : side.annotationTable ≠ name) (id : Int)
    (annotations : List (String × String)) : Log.rows (commonLog side id annotations) name
      = if Graph.base.table side = name then [[.integer id]] else [] := by
  have hannotations : ∀ entry : String × String → String × Row, (∀ p, (entry p).1 = side.annotationTable) →
      Log.rows (annotations.map entry) name = [] := by
    intro entry hentry
    rw [rows, List.map_eq_nil_iff, List.filter_eq_nil_iff]
    intro _ hmem
    obtain ⟨p, -, rfl⟩ := List.mem_map.1 hmem
    simp [hentry, hname]
  rw [commonLog, rows_append, hannotations _ fun _ => rfl, rows_cons, rows_nil, List.append_nil, List.nil_append]

theorem mirrors_vertexLog (id : Int) (md5 : Option String) (annotations : List (String × String)) (side : Side) :
    Log.Mirrors (vertexLog id md5 annotations) side := by
  cases side
  · refine ⟨[id], ?_, ?_⟩
    · rw [vertexLog, rows_cons, rows_commonLog (by decide), if_neg (by decide), if_pos rfl]
      rfl
    · rw [vertexLog, rows_cons, rows_commonLog (by decide), if_pos rfl, if_neg (by decide)]
      rfl
  · refine ⟨[], ?_, ?_⟩ <;>
      rw [vertexLog, rows_cons, rows_commonLog (by decide), if_neg (by decide), if_neg (by decide)] <;> rfl

theorem mirrors_edgeLog (id src dst : Int) (annotations : List (String × String)) (side : Side) :
    Log.Mirrors (edgeLog id src dst annotations) side := by
  cases side
  · refine ⟨[], ?_, ?_⟩ <;>
      rw [edgeLog, rows_cons, rows_commonLog (by decide), if_neg (by decide), if_neg (by decide)] <;> rfl
  · refine ⟨[id], ?_, ?_⟩
    · rw [edgeLog, rows_cons, rows_commonLog (by decide), if_neg (by decide), if_pos rfl]
      rfl
    · rw [edgeLog, rows_cons, rows_commonLog (by decide), if_pos rfl, if_neg (by decide)]
      rfl

theorem mirrors_documentLog (d : Document) (side : Side) : Log.Mirrors (documentLog d) side :=
  .append (.flatMap (fun _ => mirrors_vertexLog _ _ _ side) d.vertices)
    (.flatMap (fun _ => mirrors_edgeLog _ _ _ _ side) d.edges)

end Log

end Storage

namespace Session.Chronicle

variable {log : Storage.Log} {db : Database}

/-- The base relations hold what the log of a chronicle says. -/
theorem records (h : Chronicle log db) : Storage.Records log db := by
  have hb := Backend.isDatabase_memory
  induction h with
  | fresh => exact .fresh
  | putVertex _ id md5 annotations ih =>
    obtain ⟨db', hrun, h'⟩ := ih.putVertex id md5 annotations
    rwa [hrun]
  | putEdge _ id src dst annotations ih =>
    obtain ⟨db', hrun, h'⟩ := ih.putEdge id src dst annotations
    rwa [hrun]
  | load _ d ih =>
    obtain ⟨db', hrun, h'⟩ := ih.load d
    rwa [hrun]
  | reset _ ih => exact ih.reset
  | collect _ ih => exact ih.collectedGarbage hb
  | query _ hplain ih => exact ih.executed hb hplain
  | underway _ hplain hprogram ih => exact ih.underway hb hplain hprogram none

theorem mirrors (h : Chronicle log db) (side : Side) : log.Mirrors side := by
  induction h with
  | fresh => exact .nil
  | putVertex _ id md5 annotations ih => exact ih.append (Storage.Log.mirrors_vertexLog id md5 annotations side)
  | putEdge _ id src dst annotations ih => exact ih.append (Storage.Log.mirrors_edgeLog id src dst annotations side)
  | load _ d ih => exact ih.append (Storage.Log.mirrors_documentLog d side)
  | reset => exact .nil
  | collect _ ih => exact ih
  | query _ _ ih => exact ih
  | underway _ _ _ ih => exact ih

end Session.Chronicle

end Provenance

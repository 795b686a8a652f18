import Mathlib.Data.Finset.Sort
import Provenance.Proofs.BaseElements
import Provenance.Proofs.Numerals
import Provenance.Proofs.ReadDocuments
import Provenance.Proofs.ReliableTables
import Provenance.Proofs.SelectedElements

/-!
# Exports of recorded documents

An export gathers the ids of a graph and then the annotations of these elements, row by row, in maps. After
a document is recorded, what it gathers for an id is what the document says of it.
-/

namespace Provenance

open Store Action

/-! ## Maps of elements -/

namespace OrderedMap

variable {α : Type}

/-- Ids in ascending order, each once. -/
def ascending (ids : List Int) : List Int := ids.toFinset.sort (· ≤ ·)

theorem mem_ascending {ids : List Int} {n : Int} : n ∈ ascending ids ↔ n ∈ ids := by
  rw [ascending, Finset.mem_sort, List.mem_toFinset]

theorem ascending_congr {ids ids' : List Int} (h : ∀ n, n ∈ ids ↔ n ∈ ids') : ascending ids = ascending ids' := by
  rw [ascending, ascending, List.toFinset_eq_iff_perm_dedup.2]
  exact (List.perm_ext_iff_of_nodup (List.nodup_dedup ids) (List.nodup_dedup ids')).2 (by simpa using h)

theorem pairwise_ascending (ids : List Int) : (ascending ids).Pairwise (· < ·) :=
  Finset.sortedLT_sort _ |>.pairwise

theorem ascending_of_pairwise {ids : List Int} (h : ids.Pairwise (· < ·)) : ascending ids = ids :=
  (List.toFinset_sort (· ≤ ·) (h.imp ne_of_lt)).2 (h.imp le_of_lt)

/-- Elements under their ids. -/
def byId (f : Int → α) (ids : List Int) : OrderedMap Int α :=
  ids.foldl (fun m n => m.insert n (f n)) []

/-- Changes to elements, one after the other. -/
def changed {γ : Type} (change : γ → α → α) (changes : List (Int × γ)) (m : OrderedMap Int α) :
    OrderedMap Int α :=
  changes.foldl (fun m p => m.adjust p.1 (change p.2)) m

theorem byId_spec (f : Int → α) (ids : List Int) : (byId f ids).Sorted ∧
    ∀ n, (byId f ids).find? n = if n ∈ ids then some (f n) else none := by
  have hfold : ∀ (ids : List Int) (m : OrderedMap Int α), m.Sorted →
      (ids.foldl (fun m n => m.insert n (f n)) m).Sorted ∧
        ∀ n, (ids.foldl (fun m n => m.insert n (f n)) m).find? n
          = if n ∈ ids then some (f n) else m.find? n := by
    intro ids
    induction ids with
    | nil => exact fun m hm => ⟨hm, fun n => by simp⟩
    | cons id ids ih =>
      intro m hm
      obtain ⟨hsorted, hfind⟩ := ih _ (hm.insert id (f id))
      refine ⟨hsorted, fun n => ?_⟩
      rw [List.foldl_cons, hfind, find?_insert]
      by_cases hn : n ∈ ids
      · simp [hn]
      · by_cases heq : n = id
        · simp [heq]
        · simp [hn, heq]
  obtain ⟨hsorted, hfind⟩ := hfold ids [] List.Pairwise.nil
  exact ⟨hsorted, hfind⟩

theorem changed_spec {γ : Type} (change : γ → α → α) (changes : List (Int × γ)) {m : OrderedMap Int α}
    (hm : m.Sorted) : (changed change changes m).Sorted ∧ ∀ n, (changed change changes m).find? n
      = (m.find? n).map fun x => ((changes.filter fun p => p.1 = n).map Prod.snd).foldl (fun x c => change c x) x := by
  induction changes generalizing m with
  | nil => exact ⟨hm, fun n => by simp [changed]⟩
  | cons p changes ih =>
    have hadjusted : (m.adjust p.1 (change p.2)).Sorted := by
      rw [Sorted, map_fst_adjust]
      exact hm
    obtain ⟨hsorted, hfind⟩ := ih hadjusted
    refine ⟨hsorted, fun n => ?_⟩
    rw [changed, List.foldl_cons, ← changed, hfind, find?_adjust]
    by_cases hn : n = p.1
    · subst hn
      simp [Function.comp_def]
    · simp [hn, Ne.symm hn]

/-- The elements of a map in order. -/
theorem map_snd_eq {m : OrderedMap Int α} (hm : m.Sorted) {ids : List Int} {g : Int → α}
    (hfind : ∀ n, m.find? n = if n ∈ ids then some (g n) else none) :
    m.map Prod.snd = (ascending ids).map g := by
  have hkeys : (((ascending ids).map fun n => (n, g n) : OrderedMap Int α)).map Prod.fst = ascending ids := by
    rw [List.map_map]
    exact List.map_id _
  have hsorted : Sorted ((ascending ids).map fun n => (n, g n)) := by
    rw [Sorted, hkeys]
    exact pairwise_ascending ids
  have heq : m = (ascending ids).map fun n => (n, g n) := by
    refine hm.ext hsorted fun n => ?_
    rw [hfind]
    split
    · next hn =>
      exact (find?_of_mem hsorted.nodup (List.mem_map_of_mem (mem_ascending.2 hn))).symm
    · next hn =>
      rw [eq_comm, find?_eq_none_iff, hkeys, mem_ascending]
      exact hn
  rw [heq, List.map_map]
  rfl

/-- A map is made of its own pairs. -/
theorem ofList_self {β γ : Type} [LinearOrder β] {m : OrderedMap β γ} (hm : m.Sorted) : ofList m = m := by
  have hfold : ∀ (pairs : List (β × γ)) (found : OrderedMap β γ), (pairs.map Prod.fst).Nodup → found.Sorted →
      (pairs.foldl (fun m p => insert p.1 p.2 m) found).Sorted ∧
        ∀ k, find? (pairs.foldl (fun m p => insert p.1 p.2 m) found) k = (find? pairs k).or (found.find? k) := by
    intro pairs
    induction pairs with
    | nil => exact fun found _ hfound => ⟨hfound, fun k => rfl⟩
    | cons p pairs ih =>
      intro found hnodup hfound
      obtain ⟨hnew, hnodup⟩ := List.nodup_cons.1 hnodup
      obtain ⟨hsorted, hfind⟩ := ih _ hnodup (hfound.insert p.1 p.2)
      refine ⟨hsorted, fun k => ?_⟩
      rw [List.foldl_cons, hfind, find?_insert, find?_cons]
      by_cases hk : p.1 = k
      · subst hk
        simp [find?_eq_none_iff.2 hnew]
      · simp [hk, Ne.symm hk]
  obtain ⟨hsorted, hfind⟩ := hfold m [] hm.nodup List.Pairwise.nil
  exact hsorted.ext hm fun k => (hfind k).trans Option.or_none

end OrderedMap

/-! ## Documents as maps -/

namespace Document

variable (d : Document)

/-- The ids and the annotations of the elements of one side. -/
def elements : Side → List (Int × Annotations)
  | .vertex => d.vertices.map fun v => (v.id, v.annotations)
  | .edge => d.edges.map fun e => (e.id, e.annotations)

/-- The annotations of all elements of one side, one by one. -/
def annotationList (side : Side) : List (Int × String × String) :=
  (d.elements side).flatMap fun p => p.2.map fun a => (p.1, a)

/-- What a document says of a vertex; nothing of one that it does not have. -/
def shownVertex (id : Int) : ExportedVertex := ⟨id, (OrderedMap.find? (d.elements .vertex) id).getD []⟩

/-- An edge of a document. -/
def shownEdge? (id : Int) : Option ExportedEdge :=
  (d.edges.find? fun e => e.id = id).map fun e => ⟨e.id, e.src, e.dst, e.annotations⟩

/-- An edge of a document without its annotations. -/
def bareEdge (id : Int) : ExportedEdge :=
  ((d.edges.find? fun e => e.id = id).map fun e => ⟨e.id, e.src, e.dst, []⟩).getD default

/-- What an export shows of vertices and edges with these ids. -/
def shown (vertices edges : List Int) : ExportedGraph where
  vertices := (OrderedMap.ascending vertices).map d.shownVertex
  edges := (OrderedMap.ascending edges).filterMap d.shownEdge?

variable {d} {side : Side}

theorem filter_annotationList (h : ((d.elements side).map Prod.fst).Nodup) (id : Int) :
    ((d.annotationList side).filter fun p => p.1 = id).map Prod.snd
      = (OrderedMap.find? (d.elements side) id).getD [] := by
  unfold annotationList
  generalize d.elements side = pairs at h
  induction pairs with
  | nil => rfl
  | cons p pairs ih =>
    obtain ⟨hnew, hnodup⟩ := List.nodup_cons.1 h
    rw [List.flatMap_cons, List.filter_append, List.map_append, ih hnodup, OrderedMap.find?_cons]
    by_cases hp : p.1 = id
    · subst hp
      rw [OrderedMap.find?_eq_none_iff.2 hnew, if_pos rfl]
      simp [List.filter_map, Function.comp_def]
    · simp [hp, List.filter_map, Function.comp_def]

namespace IsSound

variable (h : d.IsSound)

include h

theorem nodup_elements (side : Side) : ((d.elements side).map Prod.fst).Nodup := by
  cases side
  · rw [elements, List.map_map]
    exact h.vertices
  · rw [elements, List.map_map]
    exact h.edges

theorem sorted_elements (side : Side) : ∀ p ∈ d.elements side, p.2.Sorted := by
  cases side <;> rw [elements, List.forall_mem_map]
  · exact h.vertexAnnotations
  · exact h.edgeAnnotations

theorem isWord_elements (side : Side) : ∀ p ∈ d.elements side, Text.isWord p.1 = true := by
  cases side <;> rw [elements, List.forall_mem_map]
  · exact h.words.1
  · exact fun e he => (h.words.2 e he).1

theorem isWord_annotationList (side : Side) : ∀ p ∈ d.annotationList side, Text.isWord p.1 = true := by
  intro p hp
  obtain ⟨q, hq, hp⟩ := List.mem_flatMap.1 hp
  obtain ⟨a, -, rfl⟩ := List.mem_map.1 hp
  exact h.isWord_elements side q hq

/-- The annotations of an id, put into a map one by one, are those that the document has. -/
theorem ofList_annotations (side : Side) (id : Int) :
    OrderedMap.ofList (((d.annotationList side).filter fun p => p.1 = id).map Prod.snd)
      = (OrderedMap.find? (d.elements side) id).getD [] := by
  rw [filter_annotationList (h.nodup_elements side)]
  refine OrderedMap.ofList_self ?_
  cases hfind : OrderedMap.find? (d.elements side) id with
  | none => exact List.Pairwise.nil
  | some annotations => exact h.sorted_elements side _ (OrderedMap.mem_of_find? hfind)

theorem find?_edges {e : EdgeRecord} (he : e ∈ d.edges) : (d.edges.find? fun f => f.id = e.id) = some e := by
  have hfind := OrderedMap.find?_of_mem (m := d.edges.map fun e => (e.id, e))
    (by rw [List.map_map]; exact h.edges) (List.mem_map_of_mem he)
  rw [OrderedMap.find?, List.find?_map, Option.map_map] at hfind
  simpa [Function.comp_def] using hfind

theorem bareEdge_eq {e : EdgeRecord} (he : e ∈ d.edges) : d.bareEdge e.id = ⟨e.id, e.src, e.dst, []⟩ := by
  rw [bareEdge, h.find?_edges he]
  rfl

/-- The edges of a document with given ids, one after the other. -/
theorem filterMap_shownEdge? (ids : List Int) : (OrderedMap.ascending ids).filterMap d.shownEdge?
    = (OrderedMap.ascending ((d.edges.filter fun e => e.id ∈ ids).map EdgeRecord.id)).map fun n =>
      { d.bareEdge n with annotations := (OrderedMap.find? (d.elements .edge) n).getD [] } := by
  have hshown : ∀ n, d.shownEdge? n = if n ∈ d.edges.map EdgeRecord.id then
      some { d.bareEdge n with annotations := (OrderedMap.find? (d.elements .edge) n).getD [] } else none := by
    intro n
    split
    · next hn =>
      obtain ⟨e, he, rfl⟩ := List.mem_map.1 hn
      have hannotations : OrderedMap.find? (d.elements .edge) e.id = some e.annotations :=
        OrderedMap.find?_of_mem (h.nodup_elements .edge)
          (List.mem_map_of_mem (f := fun e : EdgeRecord => (e.id, e.annotations)) he)
      rw [shownEdge?, h.bareEdge_eq he, h.find?_edges he, hannotations]
      rfl
    · next hn =>
      rw [shownEdge?, Option.map_eq_none_iff, List.find?_eq_none]
      exact fun e he heq => hn (List.mem_map.2 ⟨e, he, of_decide_eq_true heq⟩)
  have hids : (OrderedMap.ascending ids).filter (fun n => n ∈ d.edges.map EdgeRecord.id)
      = OrderedMap.ascending ((d.edges.filter fun e => e.id ∈ ids).map EdgeRecord.id) := by
    rw [← OrderedMap.ascending_of_pairwise ((OrderedMap.pairwise_ascending ids).filter _)]
    refine OrderedMap.ascending_congr fun n => ?_
    rw [List.mem_filter, OrderedMap.mem_ascending, decide_eq_true_iff, List.mem_map, List.mem_map]
    constructor
    · rintro ⟨hn, e, he, rfl⟩
      exact ⟨e, List.mem_filter.2 ⟨he, decide_eq_true hn⟩, rfl⟩
    · rintro ⟨e, he, rfl⟩
      obtain ⟨he, hn⟩ := List.mem_filter.1 he
      exact ⟨of_decide_eq_true hn, e, he, rfl⟩
  rw [← hids, ← List.filterMap_eq_map, List.filterMap_filter]
  refine List.filterMap_congr fun n _ => ?_
  rw [hshown]
  simp

end IsSound

end Document

/-! ### Rows of a recorded document -/

namespace Storage

namespace Log

theorem rows_flatMap {α : Type} (entries : α → Log) (xs : List α) (name : String) :
    Log.rows (xs.flatMap entries) name = xs.flatMap fun x => (entries x).rows name := by
  induction xs with
  | nil => rfl
  | cons x xs ih => rw [List.flatMap_cons, rows_append, ih, List.flatMap_cons]

theorem rows_commonLog_annotationTable (side : Side) (id : Int) (annotations : List (String × String)) :
    Log.rows (commonLog side id annotations) side.annotationTable
      = annotations.map fun (field, value) => annotationRow id field value := by
  have hbase : Graph.base.table side ≠ side.annotationTable := by cases side <;> decide
  rw [commonLog, rows_append, rows_cons, if_neg hbase, rows_nil, List.append_nil, List.append_nil, rows,
    List.filter_eq_self.2, List.map_map]
  · rfl
  · intro entry hentry
    obtain ⟨p, -, rfl⟩ := List.mem_map.1 hentry
    exact beq_self_eq_true _

end Log

variable {d : Document}

theorem rows_annotations (side : Side) : (documentLog d).rows side.annotationTable
    = (d.annotationList side).map fun p => annotationRow p.1 p.2.1 p.2.2 := by
  have hvertex : ∀ v : VertexRecord, Log.rows (vertexLog v.id v.md5 v.annotations) side.annotationTable
      = if side = .vertex then v.annotations.map fun (f, x) => annotationRow v.id f x else [] := fun v => by
    cases side
    · rw [vertexLog, Log.rows_cons, if_neg (by decide), List.nil_append, Log.rows_commonLog_annotationTable]
      rfl
    · rw [vertexLog, Log.rows_cons, if_neg (by decide), List.nil_append, Log.rows_commonLog (by decide),
        if_neg (by decide)]
      rfl
  have hedge : ∀ e : EdgeRecord, Log.rows (edgeLog e.id e.src e.dst e.annotations) side.annotationTable
      = if side = .edge then e.annotations.map fun (f, x) => annotationRow e.id f x else [] := fun e => by
    cases side
    · rw [edgeLog, Log.rows_cons, if_neg (by decide), List.nil_append, Log.rows_commonLog (by decide),
        if_neg (by decide)]
      rfl
    · rw [edgeLog, Log.rows_cons, if_neg (by decide), List.nil_append, Log.rows_commonLog_annotationTable]
      rfl
  rw [documentLog, Log.rows_append, Log.rows_flatMap, Log.rows_flatMap]
  simp only [hvertex, hedge]
  have hnone : ∀ {α : Type} (xs : List α), xs.flatMap (fun _ => ([] : List Row)) = [] := fun xs =>
    List.flatMap_eq_nil_iff.2 fun _ _ => rfl
  cases side <;>
    simp [Document.annotationList, Document.elements, List.flatMap_map, List.map_flatMap, hnone, Function.comp_def]

theorem rows_vertices : (documentLog d).rows Side.vertex.baseTable
    = d.vertices.map fun v => [.integer v.id, v.md5.elim .null .text] := by
  have hvertex : ∀ v : VertexRecord, Log.rows (vertexLog v.id v.md5 v.annotations) Side.vertex.baseTable
      = [[.integer v.id, v.md5.elim .null .text]] := fun v => by
    rw [vertexLog, Log.rows_cons, if_pos rfl, Log.rows_commonLog (by decide), if_neg (by decide)]
    rfl
  have hedge : ∀ e : EdgeRecord, Log.rows (edgeLog e.id e.src e.dst e.annotations) Side.vertex.baseTable = [] :=
    fun e => by
      rw [edgeLog, Log.rows_cons, if_neg (by decide), Log.rows_commonLog (by decide), if_neg (by decide)]
      rfl
  rw [documentLog, Log.rows_append, Log.rows_flatMap, Log.rows_flatMap]
  simp only [hvertex, hedge]
  rw [List.flatMap_eq_nil_iff.2 fun _ _ => rfl, List.append_nil, List.map_eq_flatMap]

theorem rows_edges : (documentLog d).rows Side.edge.baseTable
    = d.edges.map fun e => [.integer e.id, .integer e.src, .integer e.dst] := by
  have hvertex : ∀ v : VertexRecord, Log.rows (vertexLog v.id v.md5 v.annotations) Side.edge.baseTable = [] :=
    fun v => by
      rw [vertexLog, Log.rows_cons, if_neg (by decide), Log.rows_commonLog (by decide), if_neg (by decide)]
      rfl
  have hedge : ∀ e : EdgeRecord, Log.rows (edgeLog e.id e.src e.dst e.annotations) Side.edge.baseTable
      = [[.integer e.id, .integer e.src, .integer e.dst]] := fun e => by
    rw [edgeLog, Log.rows_cons, if_pos rfl, Log.rows_commonLog (by decide), if_neg (by decide)]
    rfl
  rw [documentLog, Log.rows_append, Log.rows_flatMap, Log.rows_flatMap]
  simp only [hvertex, hedge]
  rw [List.flatMap_eq_nil_iff.2 fun _ _ => rfl, List.nil_append, List.map_eq_flatMap]

end Storage

/-! ## Exports -/

section Exports

variable {σ : Type}

theorem Backend.queryRows_memory {db : Database} {q : Selection} {rows : List Row}
    (h : q.shownRows db = .ok rows) : (memory.queryRows (.single (.select q))).runFrom db
      = (.ok (rows.map fun row => row.map Cell.shown), db) := by
  have happly : db.apply (.select q) = .ok (db, some rows) := by
    simp only [Database.apply, h]
    rfl
  simp only [memory, runShown, runFrom_of, Database.run_single_ok happly, Option.getD_some]

theorem Algebra.idAt_eq {row : List String} {i : Nat} {n : Int} (hrow : row[i]? = some (Text.decimal n))
    (hn : Text.isWord n = true) : (idAt row i : Action σ BackendError Int) = pure n := by
  rw [idAt, cellAt, hrow, pure_bind]
  simp only [Text.trimmedWord?_decimal hn]

/-- Annotations change the elements of their ids, one after the other. -/
theorem Algebra.annotate_eq {α : Type} (put : String → String → α → α) (changes : List (Int × String × String))
    (hwords : ∀ p ∈ changes, Text.isWord p.1 = true) (elements : OrderedMap Int α) :
    (annotate put elements (changes.map fun p => [Text.decimal p.1, p.2.1, p.2.2]) : Action σ BackendError _)
      = pure (OrderedMap.changed (fun c => put c.1 c.2) changes elements) := by
  induction changes generalizing elements with
  | nil => rfl
  | cons p changes ih =>
    obtain ⟨hp, hwords⟩ := List.forall_mem_cons.1 hwords
    rw [List.map_cons, annotate, idAt_eq rfl hp, pure_bind]
    cases hfind : elements.find? p.1 with
    | none =>
      have hsame : elements.adjust p.1 (put p.2.1 p.2.2) = elements := by
        refine (List.map_congr_left fun q hq => ?_).trans (List.map_id _)
        have hne : q.1 ≠ p.1 := fun heq => OrderedMap.find?_eq_none_iff.1 hfind (heq ▸ List.mem_map_of_mem hq)
        exact if_neg hne
      rw [ih hwords, OrderedMap.changed, OrderedMap.changed, List.foldl_cons, hsame]
    | some x =>
      exact ih hwords _

theorem Action.foldlM_eq_pure {ε α β : Type} {f : β → α → Action σ ε β} {g : β → α → β} {xs : List α}
    (h : ∀ y, ∀ x ∈ xs, f y x = pure (g y x)) (y : β) : xs.foldlM f y = pure (xs.foldl g y) := by
  induction xs generalizing y with
  | nil => rfl
  | cons x xs ih =>
    rw [List.foldlM_cons, h y x List.mem_cons_self, pure_bind, List.foldl_cons,
      ih fun y z hz => h y z (List.mem_cons_of_mem x hz)]

end Exports

namespace Storage.Records

open Algebra OrderedMap

/-- Whole rows of a base relation whose id is an id of another table. -/
theorem shownRows_within {log : Log} {db : Database} (h : Records log db) {t : Table} (ht : t ∈ baseTables)
    {α : Type} {entries : List α} {key : α → Int} {rest : α → Row}
    (hrows : log.rows t.name = entries.map fun a => .integer (key a) :: rest a)
    (hlength : ∀ a ∈ entries, (rest a).length + 1 = t.columns.length) {other : String} {ids : List Int}
    (hids : db.HasIds other (ids.map .integer)) :
    (Selection.columns (t.columns.map Column.name) t.name [.within (.plain "id") other]).shownRows db
      = .ok ((entries.filter fun a => key a ∈ ids).map fun a => .integer (key a) :: rest a) := by
  obtain ⟨c, columns, hcolumns, hname, haffinity⟩ : ∃ c columns, t.columns = c :: columns ∧ c.name = "id" ∧
      c.affinity = .integer := by
    simp only [baseTables, List.mem_cons, List.not_mem_nil, or_false] at ht
    obtain rfl | rfl | rfl | rfl | rfl | rfl := ht <;> exact ⟨_, _, rfl, rfl, rfl⟩
  have hother : (db.table? other).isSome = true := by
    obtain ⟨u, d, hu, -⟩ := hids
    rw [hu]
    rfl
  have htable := h.holds t ht
  have hindex : (Table.index? { t with rows := log.rows t.name } "id").isSome = true := by
    rw [Table.index?, List.findIdx?_isSome]
    exact List.any_eq_true.2 ⟨c, hcolumns ▸ List.mem_cons_self, hname ▸ sameName_self _⟩
  have hlengths : ∀ row ∈ log.rows t.name, row.length = t.columns.length := by
    rw [hrows, List.forall_mem_map]
    exact hlength
  have hdistinct := distinct_columns ht
  refine (Selection.shownRows_within htable hdistinct hlengths hindex hother).trans ?_
  rw [hrows, List.filter_map]
  congr 2
  exact List.filter_congr fun a _ => Condition.holds_within hids hcolumns hname haffinity _ _ _

variable {d : Document} (hd : d.IsSound) {db : Database} (h : Records (documentLog d) db) {target : Graph}

section Annotations

include h

theorem runFrom_annotationsOf {side : Side} {ids : List Int}
    (hids : db.HasIds (target.table side) (ids.map .integer)) :
    (Backend.memory.queryRows (.single (.select (annotationsOf side (target.table side))))).runFrom db
      = (.ok (((d.annotationList side).filter fun p => p.1 ∈ ids).map fun p =>
          [Text.decimal p.1, p.2.1, p.2.2]), db) := by
  have hrows := h.shownRows_within (t := annotationTable side) (by cases side <;> decide)
    (rows_annotations side) (fun _ _ => rfl) hids
  rw [show annotationsOf side (target.table side) = .columns ((annotationTable side).columns.map Column.name)
    (annotationTable side).name [.within (.plain "id") (target.table side)] from rfl,
    Backend.queryRows_memory hrows, List.map_map]
  rfl

end Annotations

include hd

/-- The annotations of an id that is asked for, put into its element one by one, are those that the document
has. -/
theorem foldl_annotations {side : Side} {ids : List Int} {n : Int} (hn : n ∈ ids) {α : Type} (f : Annotations → α)
    (put : α → String × String → α) (hput : ∀ found c, put (f found) c = f (OrderedMap.insert c.1 c.2 found)) :
    ((((d.annotationList side).filter fun p => p.1 ∈ ids).filter fun p => p.1 = n).map Prod.snd).foldl put (f [])
      = f ((find? (d.elements side) n).getD []) := by
  have hfilter : ((d.annotationList side).filter fun p => p.1 ∈ ids).filter (fun p => p.1 = n)
      = (d.annotationList side).filter fun p => p.1 = n := by
    rw [List.filter_filter]
    refine List.filter_congr fun p _ => ?_
    by_cases hp : p.1 = n <;> simp [hp, hn]
  rw [hfilter, List.foldl_hom f hput, ← hd.ofList_annotations]
  rfl

include h

theorem runFrom_exportVertices {ids : List Int} (hwords : ∀ n ∈ ids, Text.isWord n = true)
    (hids : db.HasIds target.vertexTable (ids.map .integer)) :
    (exportVertices Backend.memory target).runFrom db = (.ok ((ascending ids).map d.shownVertex), db) := by
  obtain ⟨found, hrows, hfound⟩ := Selection.shownRows_ids hids
  have hmap : ((found.map fun n => [Cell.integer n]).map fun row => row.map Cell.shown).foldlM
      (fun (m : OrderedMap Int ExportedVertex) row => do
        let id ← idAt row 0
        pure (m.insert id ⟨id, []⟩)) [] = (pure (byId (fun n => ⟨n, []⟩) found) : Action Database BackendError _) := by
    rw [List.map_map, List.foldlM_map]
    refine Action.foldlM_eq_pure (fun m n hn => ?_) []
    rw [idAt_eq rfl (hwords n ((hfound n).1 hn)), pure_bind]
  have hannotate := annotate_eq (σ := Database) (fun key value (v : ExportedVertex) =>
    { v with annotations := v.annotations.insert key value })
    ((d.annotationList .vertex).filter fun p => p.1 ∈ ids)
    (fun p hp => hd.isWord_annotationList .vertex p (List.mem_of_mem_filter hp)) (byId (fun n => ⟨n, []⟩) found)
  have hannotations : (Backend.memory.queryRows
      (.single (.select (annotationsOf .vertex target.vertexTable)))).runFrom db = _ :=
    h.runFrom_annotationsOf hids
  rw [exportVertices, runFrom_bind_ok (Backend.queryRows_memory hrows), hmap, pure_bind,
    runFrom_bind_ok hannotations, hannotate, pure_bind, runFrom_pure]
  obtain ⟨hsorted, hfind⟩ := byId_spec (fun n => (⟨n, []⟩ : ExportedVertex)) found
  obtain ⟨hsorted, hchanged⟩ := changed_spec (fun (c : String × String) (v : ExportedVertex) =>
    { v with annotations := v.annotations.insert c.1 c.2 })
    ((d.annotationList .vertex).filter fun p => p.1 ∈ ids) hsorted
  rw [ascending_congr fun n => (hfound n).symm]
  congr 2
  refine map_snd_eq hsorted fun n => ?_
  rw [hchanged, hfind]
  split
  · next hn =>
    rw [Option.map_some, foldl_annotations hd ((hfound n).1 hn) (ExportedVertex.mk n) _ fun _ _ => rfl]
    rfl
  · rfl

theorem runFrom_exportEdges {ids : List Int} (hids : db.HasIds target.edgeTable (ids.map .integer)) :
    (exportEdges Backend.memory target).runFrom db = (.ok ((ascending ids).filterMap d.shownEdge?), db) := by
  have hrows : (Selection.columns ["id", "src", "dst"] Side.edge.baseTable
      [.within (.plain "id") target.edgeTable]).shownRows db = _ :=
    h.shownRows_within (t := edgeTable) (by decide) rows_edges (fun _ _ => rfl) hids
  have hannotations : (Backend.memory.queryRows
      (.single (.select (annotationsOf .edge target.edgeTable)))).runFrom db = _ :=
    h.runFrom_annotationsOf hids
  have hmap : (((d.edges.filter fun e => e.id ∈ ids).map fun e =>
      [Cell.integer e.id, .integer e.src, .integer e.dst]).map fun row => row.map Cell.shown).foldlM
        (fun (m : OrderedMap Int ExportedEdge) row => do
          let id ← idAt row 0
          let src ← idAt row 1
          let dst ← idAt row 2
          pure (m.insert id ⟨id, src, dst, []⟩)) []
      = (pure (byId d.bareEdge ((d.edges.filter fun e => e.id ∈ ids).map EdgeRecord.id)) :
        Action Database BackendError _) := by
    rw [List.map_map, List.foldlM_map, byId, List.foldl_map]
    refine Action.foldlM_eq_pure (fun m e he => ?_) []
    obtain ⟨hid, hsrc, hdst⟩ := hd.words.2 e (List.mem_of_mem_filter he)
    rw [idAt_eq rfl hid, pure_bind, idAt_eq rfl hsrc, pure_bind, idAt_eq rfl hdst, pure_bind,
      hd.bareEdge_eq (List.mem_of_mem_filter he)]
  have hannotate := annotate_eq (σ := Database) (fun key value (e : ExportedEdge) =>
    { e with annotations := e.annotations.insert key value })
    ((d.annotationList .edge).filter fun p => p.1 ∈ ids)
    (fun p hp => hd.isWord_annotationList .edge p (List.mem_of_mem_filter hp))
    (byId d.bareEdge ((d.edges.filter fun e => e.id ∈ ids).map EdgeRecord.id))
  rw [exportEdges, runFrom_bind_ok (Backend.queryRows_memory hrows), hmap, pure_bind,
    runFrom_bind_ok hannotations, hannotate, pure_bind, runFrom_pure]
  obtain ⟨hsorted, hfind⟩ := byId_spec d.bareEdge ((d.edges.filter fun e => e.id ∈ ids).map EdgeRecord.id)
  obtain ⟨hsorted, hchanged⟩ := changed_spec (fun (c : String × String) (e : ExportedEdge) =>
    { e with annotations := e.annotations.insert c.1 c.2 })
    ((d.annotationList .edge).filter fun p => p.1 ∈ ids) hsorted
  rw [hd.filterMap_shownEdge?]
  congr 2
  refine map_snd_eq hsorted fun n => ?_
  rw [hchanged, hfind]
  split
  · next hn =>
    obtain ⟨e, he, rfl⟩ := List.mem_map.1 hn
    obtain ⟨he, hmem⟩ := List.mem_filter.1 he
    rw [Option.map_some, hd.bareEdge_eq he, foldl_annotations hd (of_decide_eq_true hmem)
      (ExportedEdge.mk e.id e.src e.dst) _ fun _ _ => rfl]
  · rfl

/-- An export of recorded elements shows what the document says of them. -/
theorem runFrom_exportedGraph {vertices edges : List Int} (hwords : ∀ n ∈ vertices, Text.isWord n = true)
    (hvertices : db.HasIds target.vertexTable (vertices.map .integer))
    (hedges : db.HasIds target.edgeTable (edges.map .integer)) :
    (exportedGraph Backend.memory target).runFrom db = (.ok (d.shown vertices edges), db) := by
  rw [exportedGraph, runFrom_bind_ok (runFrom_exportVertices hd h hwords hvertices),
    runFrom_bind_ok (runFrom_exportEdges hd h hedges), runFrom_pure]
  rfl

end Storage.Records

end Provenance

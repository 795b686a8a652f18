import Provenance.Proofs.Histories

/-!
# Documents that can be read

What is read of a document is well formed: ids are words, and annotations are maps in order. A document
that is accepted has no two vertices and no two edges of one id, and the ends of its edges are vertices of
its own.
-/

namespace Provenance

open Action

/-! ## What readers yield -/

namespace Json.Reader

variable {α β : Type} {P : α → Prop} {Q : β → Prop}

/-- All that a reader can read has the property. -/
def Yields (a : Reader α) (P : α → Prop) : Prop := ∀ s x t, a.runFrom s = (.ok x, t) → P x

namespace Yields

variable {a : Reader α}

theorem pure {x : α} (h : P x) : Yields (pure x) P := by
  rintro s _ t ⟨⟩
  exact h

theorem throw (f : Fault) : Yields (throw f : Reader α) P := fun s x t h => by
  rw [runFrom_throw] at h
  cases h

theorem bind {f : α → Reader β} (ha : Yields a P) (hf : ∀ x, P x → Yields (f x) Q) : Yields (a >>= f) Q := by
  intro s y u h
  obtain ⟨x, t, hx, hy⟩ := bind_ok_iff.1 h
  exact hf x (ha s x t hx) t y u hy

/-- Nothing is said of what comes first. -/
theorem after {f : α → Reader β} (hf : ∀ x, Yields (f x) Q) : Yields (a >>= f) Q :=
  bind (fun _ _ _ _ => trivial : Yields a fun _ => True) fun x _ => hf x

theorem map {f : α → β} (ha : Yields a P) (hf : ∀ x, P x → Q (f x)) : Yields (f <$> a) Q := by
  rw [map_eq_pure_bind]
  exact ha.bind fun x hx => .pure (hf x hx)

theorem ofExcept {r : Except Fault α} (h : ∀ x, r = .ok x → P x) : Yields (Action.ofExcept r) P := by
  intro s x t hx
  rw [runFrom_ofExcept] at hx
  exact h x (congrArg Prod.fst hx)

theorem attempt (ha : Yields a P) : Yields (a.attempt : Reader (Except Fault α)) fun r => ∀ x, r = .ok x → P x := by
  intro s r t h x hx
  rw [runFrom_attempt] at h
  cases h
  exact ha s x _ (Prod.ext hx rfl)

theorem placed (ha : Yields a P) : Yields (placed a) P := by
  refine ha.attempt.bind fun r hr => ?_
  split
  · exact .pure (hr _ rfl)
  · exact .after fun _ => .throw _

theorem failUnplaced (reason : Reason) : Yields (failUnplaced reason : Reader α) P := .throw _

theorem failNext (reason : Reason) : Yields (failNext reason : Reader α) P := by
  refine .after fun s => ?_
  split <;> exact .throw _

theorem mismatch (expected : String) : Yields (mismatch expected : Reader α) P := by
  refine .placed (.after fun c => ?_)
  split
  · exact .after fun _ => .after fun _ => .throw _
  · exact .after fun _ => .after fun _ => .throw _
  · exact .after fun _ => .after fun _ => .throw _
  · exact .after fun _ => .after fun _ => .throw _
  · exact .after fun _ => .after fun _ => .throw _
  · exact .throw _
  · exact .throw _
  · split
    · exact .after fun _ => .throw _
    · exact .failNext _
  · exact .failNext _

theorem within (ha : Yields a P) (close : Reader Unit) : Yields (within a close) P :=
  .placed (.after fun _ => ha.attempt.bind fun _ hr => .after fun _ =>
    (Yields.ofExcept hr).bind fun _ hx => .after fun _ => .pure hx)

/-- What holds of the start and is kept by each member. -/
theorem members {member : String → α → Reader α} (hmember : ∀ key x, P x → Yields (member key x) P)
    (start : α) (hstart : P start) : Yields (members member start) P := by
  refine .after fun s => ?_
  generalize s.rest.length + 1 = n
  generalize true = first
  induction n generalizing first start with
  | zero => exact .pure hstart
  | succ n ih =>
    refine .after fun more => ?_
    split
    · exact .after fun _ => .after fun key => (hmember key start hstart).bind fun x hx => ih x hx false
    · exact .pure hstart

theorem list (ha : Yields a P) : Yields (list a) fun xs => ∀ x ∈ xs, P x := by
  have hitems : ∀ n first read, (∀ x ∈ read, P x) → Yields (itemsFrom a n first read) fun xs => ∀ x ∈ xs, P x := by
    intro n
    induction n with
    | zero => exact fun _ _ hread => .pure fun x hx => hread x (List.mem_reverse.1 hx)
    | succ n ih =>
      refine fun first read hread => .after fun more => ?_
      split
      · exact ha.bind fun x hx => ih false _ (List.forall_mem_cons.2 ⟨hx, hread⟩)
      · exact .pure fun x hx => hread x (List.mem_reverse.1 hx)
  refine .after fun c => ?_
  split
  · exact .within (.after fun _ => hitems _ _ [] nofun) _
  · exact .mismatch _

theorem record {label : String} {object list : Reader α} (hobject : Yields object P) (hlist : Yields list P) :
    Yields (record label object list) P := by
  refine .after fun c => ?_
  split
  · exact hobject.within _
  · exact hlist.within _
  · exact .mismatch _

theorem valueOf (ha : Yields a P) : Yields (valueOf a) P := by
  refine .after fun _ => .after fun c => ?_
  split
  · exact .after fun _ => ha
  · exact .after fun _ => ha
  · exact .after fun _ => ha

theorem fieldOnce (name : String) (before : Option α) (ha : Yields a P) :
    Yields (fieldOnce name before a) fun o => ∀ x ∈ o, P x := by
  unfold Reader.fieldOnce
  split
  · exact .failUnplaced _
  · exact ha.valueOf.map fun x hx y hy => Option.some.inj hy ▸ hx

theorem required {name : String} {o : Option α} (h : ∀ x ∈ o, P x) : Yields (required name o) P := by
  cases o with
  | none => exact .failUnplaced _
  | some x => exact .pure (h x rfl)

theorem item? (first : Bool) (ha : Yields a P) : Yields (item? first a) fun o => ∀ x ∈ o, P x := by
  refine .after fun more => ?_
  split
  · exact ha.map fun x hx y hy => Option.some.inj hy ▸ hx
  · exact .pure nofun

theorem itemAt (index : Nat) (form : String) (ha : Yields a P) : Yields (itemAt index form a) P := by
  refine (ha.item? _).bind fun o ho => ?_
  split
  · exact .pure (ho _ rfl)
  · exact .failUnplaced _

theorem readAll (ha : Yields a P) {source : String} {x : α} (h : readAll a source = .ok x) : P x := by
  have hwhole : ∀ {whole : Reader α}, Yields whole P → (whole.runFrom ⟨source.toList, .start⟩).1 = .ok x → P x :=
    fun hyields hx => hyields _ x _ (Prod.ext hx rfl)
  refine hwhole ?_ h
  refine ha.bind fun x hx => .after fun _ => .after fun c => ?_
  split
  · exact .failNext _
  · exact .pure hx

end Yields

theorem word_yields : Yields word fun n => Text.isWord n = true := by
  have hword : ∀ n, Yields (asWord n) fun n => Text.isWord n = true := by
    intro n
    cases n with
    | integer n =>
      rw [asWord]
      split
      · next h => exact .pure h
      · exact .failUnplaced _
    | real x => exact .failUnplaced _
  refine .after fun c => .placed ?_
  split
  · exact .after fun _ => .after fun n => hword n
  · split
    · exact .after fun n => hword n
    · exact .mismatch _

end Json.Reader

/-! ## Documents -/

namespace Document

open Json Json.Reader

/-- A document without contradictions, whose parts are well formed. -/
structure IsSound (d : Document) : Prop where
  words : d.HasWords
  vertices : (d.vertices.map VertexRecord.id).Nodup
  edges : (d.edges.map EdgeRecord.id).Nodup
  ends : ∀ e ∈ d.edges, e.src ∈ d.vertices.map VertexRecord.id ∧ e.dst ∈ d.vertices.map VertexRecord.id
  vertexAnnotations : ∀ v ∈ d.vertices, v.annotations.Sorted
  edgeAnnotations : ∀ e ∈ d.edges, e.annotations.Sorted

/-! ### What is read -/

theorem readAnnotations_yields : Yields readAnnotations OrderedMap.Sorted := by
  refine .after fun c => ?_
  split
  · exact .within (.members (P := OrderedMap.Sorted) (fun key found hfound => .after fun value =>
      .pure (hfound.insert key value)) [] List.Pairwise.nil) _
  · exact .mismatch _

/-- A vertex as it is read. -/
def IsReadVertex (v : VertexRecord) : Prop := Text.isWord v.id = true ∧ v.annotations.Sorted

/-- What is known of a vertex while its fields are read. -/
def VertexFields.AreRead (f : VertexFields) : Prop :=
  (∀ n ∈ f.id, Text.isWord n = true) ∧ ∀ m ∈ f.annotations, m.Sorted

/-- An edge as it is read. -/
def IsReadEdge (e : EdgeRecord) : Prop :=
  (Text.isWord e.id = true ∧ Text.isWord e.src = true ∧ Text.isWord e.dst = true) ∧ e.annotations.Sorted

/-- What is known of an edge while its fields are read. -/
def EdgeFields.AreRead (f : EdgeFields) : Prop :=
  ((∀ n ∈ f.id, Text.isWord n = true) ∧ (∀ n ∈ f.src, Text.isWord n = true) ∧
    ∀ n ∈ f.dst, Text.isWord n = true) ∧ ∀ m ∈ f.annotations, m.Sorted

/-- What is known of a document while its fields are read. -/
def DocumentFields.AreRead (f : DocumentFields) : Prop :=
  (∀ vs ∈ f.vertices, ∀ v ∈ vs, IsReadVertex v) ∧ ∀ es ∈ f.edges, ∀ e ∈ es, IsReadEdge e

theorem sorted_getD {o : Option Annotations} (h : ∀ x ∈ o, OrderedMap.Sorted x) : (o.getD []).Sorted := by
  cases o with
  | none => exact List.Pairwise.nil
  | some x => exact h x rfl

theorem readVertex_yields : Yields readVertex IsReadVertex := by
  have hfield : ∀ key f, VertexFields.AreRead f → Yields (vertexField key f) VertexFields.AreRead := by
    intro key f hf
    unfold vertexField
    split
    · exact (word_yields.fieldOnce _ _).bind fun n hn => .pure ⟨hn, hf.2⟩
    · exact .after fun _ => .pure hf
    · exact (readAnnotations_yields.fieldOnce _ _).bind fun m hm => .pure ⟨hf.1, hm⟩
    · exact .after fun _ => .pure hf
  refine .record ((Yields.members hfield ⟨none, none, none⟩ ⟨nofun, nofun⟩).bind fun f hf => ?_) ?_
  · exact (Yields.required hf.1).bind fun n hn => .pure ⟨hn, sorted_getD hf.2⟩
  · exact (word_yields.itemAt _ _).bind fun n hn => .after fun _ =>
      (readAnnotations_yields.item? _).bind fun m hm => .pure ⟨hn, sorted_getD hm⟩

theorem readEdge_yields : Yields readEdge IsReadEdge := by
  have hfield : ∀ key f, EdgeFields.AreRead f → Yields (edgeField key f) EdgeFields.AreRead := by
    rintro key f ⟨⟨hid, hsrc, hdst⟩, hannotations⟩
    unfold edgeField
    split
    · exact (word_yields.fieldOnce _ _).bind fun n hn => .pure ⟨⟨hn, hsrc, hdst⟩, hannotations⟩
    · exact (word_yields.fieldOnce _ _).bind fun n hn => .pure ⟨⟨hid, hn, hdst⟩, hannotations⟩
    · exact (word_yields.fieldOnce _ _).bind fun n hn => .pure ⟨⟨hid, hsrc, hn⟩, hannotations⟩
    · exact (readAnnotations_yields.fieldOnce _ _).bind fun m hm => .pure ⟨⟨hid, hsrc, hdst⟩, hm⟩
    · exact .after fun _ => .pure ⟨⟨hid, hsrc, hdst⟩, hannotations⟩
  refine .record ((Yields.members hfield ⟨none, none, none, none⟩ ⟨⟨nofun, nofun, nofun⟩, nofun⟩).bind fun f hf => ?_) ?_
  · obtain ⟨⟨hid, hsrc, hdst⟩, hannotations⟩ := hf
    exact (Yields.required hid).bind fun _ hid => (Yields.required hsrc).bind fun _ hsrc =>
      (Yields.required hdst).bind fun _ hdst => .pure ⟨⟨hid, hsrc, hdst⟩, sorted_getD hannotations⟩
  · exact (word_yields.itemAt _ _).bind fun _ hid => (word_yields.itemAt _ _).bind fun _ hsrc =>
      (word_yields.itemAt _ _).bind fun _ hdst => (readAnnotations_yields.item? _).bind fun m hm =>
        .pure ⟨⟨hid, hsrc, hdst⟩, sorted_getD hm⟩

theorem readDocument_yields : Yields readDocument fun d =>
    (∀ v ∈ d.vertices, IsReadVertex v) ∧ ∀ e ∈ d.edges, IsReadEdge e := by
  have hgetD : ∀ {α : Type} {P : α → Prop} {o : Option (List α)}, (∀ xs ∈ o, ∀ x ∈ xs, P x) →
      ∀ x ∈ o.getD [], P x := by
    intro α P o h
    cases o with
    | none => exact nofun
    | some xs => exact h xs rfl
  have hfield : ∀ key f, DocumentFields.AreRead f → Yields (documentField key f) DocumentFields.AreRead := by
    intro key f hf
    unfold documentField
    split
    · exact (readVertex_yields.list.fieldOnce _ _).bind fun _ hvertices => .pure ⟨hvertices, hf.2⟩
    · exact (readEdge_yields.list.fieldOnce _ _).bind fun _ hedges => .pure ⟨hf.1, hedges⟩
    · exact .after fun _ => .pure hf
  refine .record ((Yields.members hfield ⟨none, none⟩ ⟨nofun, nofun⟩).bind fun f hf => ?_) ?_
  · exact .pure ⟨hgetD hf.1, hgetD hf.2⟩
  · exact (readVertex_yields.list.item? _).bind fun _ hvertices => (readEdge_yields.list.item? _).bind
      fun _ hedges => .pure ⟨hgetD hvertices, hgetD hedges⟩

/-! ### What is checked -/

theorem checkVertices_ok {seen : List Int} {vs : List VertexRecord} (h : checkVertices seen vs = .ok ()) :
    (vs.map VertexRecord.id).Nodup ∧ ∀ v ∈ vs, v.id ∉ seen := by
  induction vs generalizing seen with
  | nil => exact ⟨List.nodup_nil, nofun⟩
  | cons v vs ih =>
    rw [checkVertices] at h
    split at h
    · cases h
    · next hnew =>
      obtain ⟨hnodup, hunseen⟩ := ih h
      refine ⟨List.nodup_cons.2 ⟨fun hmem => ?_, hnodup⟩, List.forall_mem_cons.2 ⟨by simpa using hnew, fun w hw hseen => ?_⟩⟩
      · obtain ⟨w, hw, hsame⟩ := List.mem_map.1 hmem
        exact hunseen w hw (hsame ▸ List.mem_cons_self)
      · exact hunseen w hw (List.mem_cons_of_mem _ hseen)

theorem checkEdges_ok {vertices seen : List Int} {es : List EdgeRecord} (h : checkEdges vertices seen es = .ok ()) :
    (es.map EdgeRecord.id).Nodup ∧ ∀ e ∈ es, e.id ∉ seen ∧ e.src ∈ vertices ∧ e.dst ∈ vertices := by
  induction es generalizing seen with
  | nil => exact ⟨List.nodup_nil, nofun⟩
  | cons e es ih =>
    rw [checkEdges] at h
    split at h
    · cases h
    · next hnew =>
      split at h
      · cases h
      · next hsrc =>
        split at h
        · cases h
        · next hdst =>
          obtain ⟨hnodup, hrest⟩ := ih h
          refine ⟨List.nodup_cons.2 ⟨fun hmem => ?_, hnodup⟩, List.forall_mem_cons.2
            ⟨⟨by simpa using hnew, by simpa using hsrc, by simpa using hdst⟩, fun f hf => ?_⟩⟩
          · obtain ⟨f, hf, hsame⟩ := List.mem_map.1 hmem
            exact (hrest f hf).1 (hsame ▸ List.mem_cons_self)
          · exact ⟨fun hseen => (hrest f hf).1 (List.mem_cons_of_mem _ hseen), (hrest f hf).2⟩

/-- A text that is accepted is that of a sound document. -/
theorem isSound_of_read {source : String} {d : Document} (h : read source = .ok d) : d.IsSound := by
  rw [read] at h
  cases hread : readAll readDocument source with
  | error f => rw [hread] at h; cases h
  | ok d' =>
    obtain ⟨hvertex, hedge⟩ := readDocument_yields.readAll hread
    replace h : (d'.check >>= fun _ => pure d') = .ok d := by rwa [hread] at h
    cases hcheck : d'.check with
    | error e => rw [hcheck] at h; cases h
    | ok _ =>
      rw [hcheck] at h
      obtain rfl : d' = d := Except.ok.inj h
      rw [check] at hcheck
      cases hvertices : checkVertices [] d'.vertices with
      | error e => rw [hvertices] at hcheck; cases hcheck
      | ok _ =>
        rw [hvertices] at hcheck
        obtain ⟨hdistinct, -⟩ := checkVertices_ok hvertices
        obtain ⟨hdistinct', hends⟩ := checkEdges_ok hcheck
        exact ⟨⟨fun v hv => (hvertex v hv).1, fun e he => (hedge e he).1⟩, hdistinct, hdistinct',
          fun e he => (hends e he).2, fun v hv => (hvertex v hv).2, fun e he => (hedge e he).2⟩

end Document

end Provenance

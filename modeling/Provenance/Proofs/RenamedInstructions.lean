import Provenance.Proofs.ReadyQueries
import Provenance.Proofs.Walks

/-!
# Instructions with renamed handles

An instruction and the same one with other handles. The one follows the other, over tables that are
copies of each other. What an operation plans on values it plans on values with renamed handles, with
the handles renamed in all instructions.
-/

namespace Provenance

open Store Action

/-! ## Renamed handles -/

def Graph.under (H : String → String) (g : Graph) : Graph := ⟨H g.name⟩

def Metadata.under (H : String → String) (m : Metadata) : Metadata := ⟨H m.name⟩

def Value.under (H : String → String) : Value → Value
  | graph g => graph (g.under H)
  | metadata m => metadata (m.under H)
  | v => v

/-- The instruction with its handles renamed. -/
def Instruction.under (H : String → String) : Instruction → Instruction
  | createGraph t => createGraph (t.under H)
  | createMetadata t => createMetadata (t.under H)
  | union t x => union (t.under H) (x.under H)
  | intersect t x y => intersect (t.under H) (x.under H) (y.under H)
  | subtract t x y => subtract (t.under H) (x.under H) (y.under H)
  | distinct t x => distinct (t.under H) (x.under H)
  | limit t x bound => limit (t.under H) (x.under H) bound
  | insertVertices t ids => insertVertices (t.under H) ids
  | insertEdges t ids => insertEdges (t.under H) ids
  | collapse t x fields => collapse (t.under H) (x.under H) fields
  | endpoints t x which => endpoints (t.under H) (x.under H) which
  | subgraph t x y => subgraph (t.under H) (x.under H) (y.under H)
  | lineage t x y depth direction => lineage (t.under H) (x.under H) (y.under H) depth direction
  | path t x y z maxDepth => path (t.under H) (x.under H) (y.under H) (z.under H) maxDepth
  | shortestPath t x y z maxDepth => shortestPath (t.under H) (x.under H) (y.under H) (z.under H) maxDepth
  | setMetadata t coverage x name value => setMetadata (t.under H) coverage (x.under H) name value
  | overwriteMetadata t l r => overwriteMetadata (t.under H) (l.under H) (r.under H)
  | stat x => stat (x.under H)
  | exportGraph x format force file => exportGraph (x.under H) format force file
  | native query => native query

section Follows

variable {σ τ : Type} {b : Backend σ} {b' : Backend τ} {T H : String → String} {W D : Set String}
  {R : Set String → σ → τ → Prop}

open Backend.Tracks

theorem silently_follows {R' R'' : σ → τ → Prop} {a : Action σ BackendError Unit}
    {a' : Action τ BackendError Unit} (h : Follows R' R'' a a') :
    Follows R' R'' (Instruction.execute.silently a) (Instruction.execute.silently a') :=
  h.bind fun _ => .pure _

/-- An instruction follows the same one with other handles, if these stand for its own, and if the
tables of its target may be written to. -/
theorem Instruction.execute_follows (h : b.Tracks b' T W R) (hknown : KeepsKnown T D) {i : Instruction}
    (hnative : i.isNative = false) (hcreates : i.creates? = none)
    (huses : ∀ v ∈ i.uses, v.IsHandle → Moves T D ⟨v.shown⟩ ⟨H v.shown⟩)
    (htarget : ∀ name ∈ i.target?, ∀ side, (⟨name⟩ : Graph).table side ∈ W) :
    Follows (R D) (R D) (i.execute b) ((i.under H).execute b') := by
  have hgraph : ∀ {g : Graph}, .graph g ∈ i.uses → Moves T D g (g.under H) :=
    fun hg => huses _ hg (.inl rfl)
  have hmetadata : ∀ {m : Metadata}, .metadata m ∈ i.uses → Stands T D ⟨m.name⟩ ⟨(m.under H).name⟩ :=
    fun hm => (huses _ hm (.inr rfl)).stands
  have hfills : ∀ {t : Graph}, .graph t ∈ i.uses → i.target? = some t.name → Fills T W D t (t.under H) :=
    fun hg ht side => ⟨(hgraph hg).stands side, htarget _ ht side⟩
  have hfillsMetadata : ∀ {t : Metadata}, .metadata t ∈ i.uses → i.target? = some t.name →
      Fills T W D ⟨t.name⟩ ⟨(t.under H).name⟩ := fun hm ht side => ⟨hmetadata hm side, htarget _ ht side⟩
  cases i with
  | createGraph t => cases hcreates
  | createMetadata t => cases hcreates
  | union t x =>
    exact silently_follows (h.union (hfills (by simp [uses]) rfl) (hgraph (by simp [uses])).stands)
  | intersect t x y =>
    exact silently_follows (h.intersect (hfills (by simp [uses]) rfl) (hgraph (by simp [uses])).stands
      (hgraph (by simp [uses])).stands)
  | subtract t x y =>
    exact silently_follows (h.subtract (hfills (by simp [uses]) rfl) (hgraph (by simp [uses])).stands
      (hgraph (by simp [uses])).stands)
  | distinct t x =>
    exact silently_follows (h.distinct (hfills (by simp [uses]) rfl) (hgraph (by simp [uses])).stands)
  | limit t x bound =>
    exact silently_follows (h.limit (hfills (by simp [uses]) rfl) (hgraph (by simp [uses])).stands bound)
  | insertVertices t ids =>
    exact silently_follows (h.insertIds (hfills (by simp [uses]) rfl) .vertex ids)
  | insertEdges t ids =>
    exact silently_follows (h.insertIds (hfills (by simp [uses]) rfl) .edge ids)
  | collapse t x fields =>
    exact silently_follows (h.collapse hknown (hfills (by simp [uses]) rfl)
      (hgraph (by simp [uses])).stands fields)
  | endpoints t x which =>
    exact silently_follows (h.endpoints hknown (hfills (by simp [uses]) rfl)
      (hgraph (by simp [uses])).stands which)
  | subgraph t x y =>
    exact silently_follows (h.subgraph hknown (hfills (by simp [uses]) rfl)
      (hgraph (by simp [uses])).stands (hgraph (by simp [uses])).stands)
  | lineage t x y depth direction =>
    exact silently_follows (h.lineage hknown (hfills (by simp [uses]) rfl) (hgraph (by simp [uses]))
      (hgraph (by simp [uses])).stands depth direction)
  | path t x y z maxDepth =>
    exact silently_follows (h.path hknown (hfills (by simp [uses]) rfl) (hgraph (by simp [uses]))
      (hgraph (by simp [uses])).stands (hgraph (by simp [uses])).stands maxDepth)
  | shortestPath t x y z maxDepth =>
    exact silently_follows (h.shortestPath hknown (hfills (by simp [uses]) rfl)
      (hgraph (by simp [uses])) (hgraph (by simp [uses])).stands (hgraph (by simp [uses])).stands maxDepth)
  | setMetadata t coverage x name value =>
    exact silently_follows (h.setMetadata (hfillsMetadata (by simp [uses]) rfl)
      (hgraph (by simp [uses])).stands coverage name value)
  | overwriteMetadata t l r =>
    exact silently_follows (h.overwriteMetadata (hfillsMetadata (by simp [uses]) rfl)
      (hmetadata (by simp [uses])) (hmetadata (by simp [uses])))
  | stat x => exact (h.stat (hgraph (by simp [uses])).stands).map some
  | exportGraph x format force file =>
    exact (h.exportGraph hknown (hgraph (by simp [uses])).stands format force file).map some
  | native query => cases hnative

/-- The tables that are known once a handle is created. -/
def withTables (D : Set String) (name : String) : Set String :=
  insert ((⟨name⟩ : Graph).table .edge) (insert ((⟨name⟩ : Graph).table .vertex) D)

theorem Instruction.createGraph_follows (h : b.Tracks b' T W R) {t : Graph}
    (ht : Renews T W t (t.under H)) : Follows (R D) (R (withTables D t.name))
      ((createGraph t).execute b) (((createGraph t).under H).execute b') :=
  silently_follows (h.renew ht _)

theorem Instruction.createMetadata_follows (h : b.Tracks b' T W R) {t : Metadata}
    (ht : Renews T W ⟨t.name⟩ ⟨(t.under H).name⟩) : Follows (R D) (R (withTables D t.name))
      ((createMetadata t).execute b) (((createMetadata t).under H).execute b') :=
  silently_follows (h.renew ht _)

/-- The relation of two stores, of executions. -/
def OfStores (Q : σ → τ → Prop) (x : Execution σ) (y : Execution τ) : Prop := Q x.store y.store

theorem Program.cons_follows {Q Q' Q'' : σ → τ → Prop} {i i' : Instruction} {p p' : Program}
    (hi : Follows Q Q' (i.execute b) (i'.execute b'))
    (hp : Follows (OfStores Q') (OfStores Q'') (Program.execute b p) (Program.execute b' p')) :
    Follows (OfStores Q) (OfStores Q'') (Program.execute b (i :: p)) (Program.execute b' (i' :: p')) := by
  have hstep : Follows (OfStores Q) (OfStores Q') ((i.execute b).along Execution.storeLens)
      ((i'.execute b').along Execution.storeLens) :=
    hi.along (fun _ _ hxy => hxy) fun _ _ _ _ _ hst => hst
  have hnote : ∀ answer, Follows (ε := BackendError) (OfStores Q') (OfStores Q')
      (modify (Execution.note answer)) (modify (Execution.note answer)) :=
    fun answer => .modify fun _ _ hxy => hxy
  exact hstep.bind fun answer => (hnote answer).bind fun _ => hp

theorem Program.execute_follows {Q : σ → τ → Prop} {p : Program}
    (h : ∀ i ∈ p, Follows Q Q (i.execute b) ((i.under H).execute b')) :
    Follows (OfStores Q) (OfStores Q) (Program.execute b p)
      (Program.execute b' (p.map (Instruction.under H))) := by
  induction p with
  | nil => exact .pure _
  | cons i p ih =>
    exact cons_follows (h i List.mem_cons_self) (ih fun j hj => h j (List.mem_cons_of_mem i hj))

end Follows

/-! ## Plans -/

/-- What fills the one handle fills the other one, with the handles renamed. -/
inductive Plan.Matches (H : String → String) : Plan → Plan → Prop where
  | graph {fill fill' : Graph → List Instruction}
      (h : ∀ t, fill' (t.under H) = (fill t).map (Instruction.under H)) : Matches H (.graph fill) (.graph fill')
  | metadata {fill fill' : Metadata → Instruction}
      (h : ∀ t, fill' (t.under H) = (fill t).under H) : Matches H (.metadata fill) (.metadata fill')

namespace Value

variable {H : String → String} {v : Value}

@[simp] theorem under_eq_graph {g : Graph} : v.under H = graph g ↔ ∃ x, v = graph x ∧ x.under H = g := by
  cases v <;> simp [under]

@[simp] theorem under_eq_metadata {m : Metadata} :
    v.under H = metadata m ↔ ∃ x, v = metadata x ∧ x.under H = m := by
  cases v <;> simp [under]

@[simp] theorem under_eq_integer {n : Int} : v.under H = integer n ↔ v = integer n := by
  cases v <;> simp [under]

@[simp] theorem under_eq_text {s : String} : v.under H = text s ↔ v = text s := by
  cases v <;> simp [under]

@[simp] theorem integer?_under : (v.under H).integer? = v.integer? := by cases v <;> rfl

@[simp] theorem text?_under : (v.under H).text? = v.text? := by cases v <;> rfl

end Value

namespace Resolution

/-- What is planned on values with renamed handles is planned on the values themselves, with the
handles renamed in all instructions. -/
def IsNatural (plan : Option Value → List Value → Option Plan) : Prop :=
  ∀ (H : String → String) subject operands p',
    plan (subject.map (Value.under H)) (operands.map (Value.under H)) = some p' →
      ∃ p, plan subject operands = some p ∧ p.Matches H p'

theorem allOf_under {α : Type} {part : Value → Option α} {H : String → String}
    (hpart : ∀ v, part (v.under H) = part v) (operands : List Value) :
    allOf part (operands.map (Value.under H)) = allOf part operands := by
  induction operands with
  | nil => rfl
  | cons v operands ih =>
    simp only [allOf, List.map_cons, List.mapM_cons, hpart] at ih ⊢
    rw [ih]

theorem planCounted_matches {n : Int} {p' q : Plan} {H : String → String} (p : Plan)
    (h : planCounted n p' = some q) (hp : p.Matches H p') :
    ∃ q', planCounted n p = some q' ∧ q'.Matches H q := by
  unfold planCounted at h ⊢
  split at h
  · cases h
  · cases h
    next hn => exact ⟨p, if_neg hn, hp⟩

theorem planInfix_natural {operator : String} {lhs rhs : Value} {H : String → String} {p' : Plan}
    (h : planInfix operator (lhs.under H) (rhs.under H) = some p') :
    ∃ p, planInfix operator lhs rhs = some p ∧ p.Matches H p' := by
  generalize hl : lhs.under H = l at h
  generalize hr : rhs.under H = r at h
  unfold planInfix at h
  split at h
  · obtain ⟨x, rfl, rfl⟩ := Value.under_eq_graph.1 hl
    obtain ⟨y, rfl, rfl⟩ := Value.under_eq_graph.1 hr
    cases h
    exact ⟨.graph fun t => [.union t x, .union t y], rfl, .graph fun t => rfl⟩
  · obtain ⟨x, rfl, rfl⟩ := Value.under_eq_metadata.1 hl
    obtain ⟨y, rfl, rfl⟩ := Value.under_eq_metadata.1 hr
    cases h
    exact ⟨.metadata fun t => .overwriteMetadata t x y, rfl, .metadata fun t => rfl⟩
  · obtain ⟨x, rfl, rfl⟩ := Value.under_eq_graph.1 hl
    obtain ⟨y, rfl, rfl⟩ := Value.under_eq_graph.1 hr
    cases h
    exact ⟨.graph fun t => [.intersect t x y], rfl, .graph fun t => rfl⟩
  · obtain ⟨x, rfl, rfl⟩ := Value.under_eq_graph.1 hl
    obtain ⟨y, rfl, rfl⟩ := Value.under_eq_graph.1 hr
    cases h
    exact ⟨.graph fun t => [.subtract t x y], rfl, .graph fun t => rfl⟩
  · cases h

theorem planCall_natural (o : Operation) : IsNatural (planCall o) := by
  intro H subject operands p' h
  generalize hs : subject.map (Value.under H) = s at h
  generalize hv : operands.map (Value.under H) = vs at h
  have hgraph : ∀ {g'}, s = some (.graph g') → ∃ g, subject = some (.graph g) ∧ g.under H = g' := by
    intro g' hsome
    rw [hsome, Option.map_eq_some_iff] at hs
    obtain ⟨v, hv, hg⟩ := hs
    obtain ⟨g, rfl, heq⟩ := Value.under_eq_graph.1 hg
    exact ⟨g, hv, heq⟩
  unfold planCall at h
  split at h
  · subst hv
    rw [allOf_under fun v => v.integer?_under, Option.map_eq_some_iff] at h
    obtain ⟨ids, hids, rfl⟩ := h
    obtain rfl := Option.map_eq_none_iff.1 hs
    exact ⟨.graph fun t => [.insertVertices t ids], by rw [planCall, hids]; rfl, .graph fun t => rfl⟩
  · subst hv
    rw [allOf_under fun v => v.integer?_under, Option.map_eq_some_iff] at h
    obtain ⟨ids, hids, rfl⟩ := h
    obtain rfl := Option.map_eq_none_iff.1 hs
    exact ⟨.graph fun t => [.insertEdges t ids], by rw [planCall, hids]; rfl, .graph fun t => rfl⟩
  · obtain ⟨g, rfl, rfl⟩ := hgraph rfl
    simp only [List.map_eq_cons_iff, List.map_eq_nil_iff, Value.under_eq_graph,
      Value.under_eq_integer, Value.under_eq_text] at hv
    obtain ⟨_, _, rfl, ⟨start, rfl, rfl⟩, _, _, rfl, rfl, _, _, rfl, rfl, rfl⟩ := hv
    obtain ⟨direction, hdirection, h⟩ := Option.bind_eq_some_iff.1 h
    obtain ⟨q, hq, hmatches⟩ := planCounted_matches (.graph fun t => [.lineage t g start _ direction]) h
      (.graph fun t => rfl)
    exact ⟨q, by rw [planCall, hdirection, Option.bind_some, hq], hmatches⟩
  · obtain ⟨g, rfl, rfl⟩ := hgraph rfl
    simp only [List.map_eq_cons_iff, List.map_eq_nil_iff, Value.under_eq_graph,
      Value.under_eq_integer] at hv
    obtain ⟨_, _, rfl, ⟨source, rfl, rfl⟩, _, _, rfl, ⟨destination, rfl, rfl⟩, _, _, rfl, rfl, rfl⟩ := hv
    exact planCounted_matches (.graph fun t => [.path t g source destination _]) h (.graph fun t => rfl)
  · obtain ⟨g, rfl, rfl⟩ := hgraph rfl
    simp only [List.map_eq_cons_iff, List.map_eq_nil_iff, Value.under_eq_graph,
      Value.under_eq_integer] at hv
    obtain ⟨_, _, rfl, ⟨source, rfl, rfl⟩, _, _, rfl, ⟨destination, rfl, rfl⟩, _, _, rfl, rfl, rfl⟩ := hv
    exact planCounted_matches (.graph fun t => [.shortestPath t g source destination _]) h
      (.graph fun t => rfl)
  · obtain ⟨g, rfl, rfl⟩ := hgraph rfl
    simp only [List.map_eq_cons_iff, List.map_eq_nil_iff, Value.under_eq_graph] at hv
    obtain ⟨_, _, rfl, ⟨skeleton, rfl, rfl⟩, rfl⟩ := hv
    cases h
    exact ⟨.graph fun t => [.subgraph t g skeleton], rfl, .graph fun t => rfl⟩
  · next which g' =>
    obtain ⟨g, rfl, rfl⟩ := hgraph rfl
    obtain rfl := List.map_eq_nil_iff.1 hv
    cases h
    exact ⟨.graph fun t => [.endpoints t g which], rfl, .graph fun t => rfl⟩
  · obtain ⟨g, rfl, rfl⟩ := hgraph rfl
    subst hv
    rw [allOf_under fun v => v.text?_under, Option.map_eq_some_iff] at h
    obtain ⟨fields, hfields, rfl⟩ := h
    exact ⟨.graph fun t => [.collapse t g fields], by rw [planCall, hfields]; rfl, .graph fun t => rfl⟩
  · obtain ⟨g, rfl, rfl⟩ := hgraph rfl
    simp only [List.map_eq_cons_iff, List.map_eq_nil_iff, Value.under_eq_integer] at hv
    obtain ⟨_, _, rfl, rfl, rfl⟩ := hv
    exact planCounted_matches (.graph fun t => [.limit t g _]) h (.graph fun t => rfl)
  · obtain ⟨g, rfl, rfl⟩ := hgraph rfl
    obtain rfl := List.map_eq_nil_iff.1 hv
    cases h
    exact ⟨.graph fun t => [.distinct t g], rfl, .graph fun t => rfl⟩
  · next coverage g' name value =>
    obtain ⟨g, rfl, rfl⟩ := hgraph rfl
    simp only [List.map_eq_cons_iff, List.map_eq_nil_iff, Value.under_eq_text] at hv
    obtain ⟨_, _, rfl, rfl, _, _, rfl, rfl, rfl⟩ := hv
    cases h
    exact ⟨.metadata fun t => .setMetadata t coverage g name value, rfl, .metadata fun t => rfl⟩
  · cases h

end Resolution

/-! ## Plans that are carried out -/

section Carried

variable {σ τ : Type} {b : Backend σ} {b' : Backend τ} {T H : String → String} {W D : Set String}
  {R : Set String → σ → τ → Prop}

open Backend.Tracks

theorem made?_of_creates? {i : Instruction} (h : i.creates? = none) : i.made? = none := by
  cases i <;> first | rfl | cases h

/-- What a ready program uses was known before it, if it makes nothing. -/
theorem Program.IsReady.uses {p : Program} {known : Value → Prop} (h : p.IsReady known)
    (hmade : ∀ i ∈ p, i.made? = none) : ∀ i ∈ p, ∀ v ∈ i.uses, known v := by
  induction p with
  | nil => intro i hi; cases hi
  | cons i p ih =>
    have hrest : IsReady known p := by
      have hrest := h.2
      rw [hmade i List.mem_cons_self] at hrest
      simpa using hrest
    intro j hj
    obtain rfl | hj := List.mem_cons.1 hj
    · exact h.1.uses
    · exact ih hrest (fun k hk => hmade k (List.mem_cons_of_mem i hk)) j hj

/-- Carrying out a plan follows carrying out the one with renamed handles. -/
theorem Plan.Matches.follows (h : b.Tracks b' T W R) (hknown : KeepsKnown T D) {p p' : Plan} {m n : Int}
    (hmatches : p.Matches H p') (hname : H (p.value m).shown = (p'.value n).shown) (hproper : p.Proper)
    {wanted : Value → Prop} (hready : p.IsReady wanted)
    (hwanted : ∀ v, wanted v → v.IsHandle → Moves T D ⟨v.shown⟩ ⟨H v.shown⟩)
    (htarget : Renews T W ⟨(p.value m).shown⟩ ⟨(p'.value n).shown⟩)
    (hbase : (⟨(p'.value n).shown⟩ : Graph).isBase = (⟨(p.value m).shown⟩ : Graph).isBase) :
    Follows (OfStores (R D)) (OfStores (R (withTables D (p.value m).shown)))
      (Program.execute b (p.instructions m)) (Program.execute b' (p'.instructions n)) := by
  have hsubset : D ⊆ withTables D (p.value m).shown :=
    (Set.subset_insert _ D).trans (Set.subset_insert _ _)
  have hmoved : Moves T (withTables D (p.value m).shown) ⟨(p.value m).shown⟩ ⟨H (p.value m).shown⟩ := by
    rw [hname]
    refine ⟨fun side => ⟨?_, htarget.same side⟩, hbase⟩
    cases side
    · exact .inr (.inl rfl)
    · exact .inl rfl
  have hfill : ∀ i : Instruction, i.target? = some (p.value m).shown → i.isNative = false →
      i.creates? = none → (∀ v ∈ i.uses, wanted v ∨ v = p.value m) →
      Follows (R (withTables D (p.value m).shown)) (R (withTables D (p.value m).shown)) (i.execute b)
        ((i.under H).execute b') := by
    intro i hi hnative hcreates huses
    refine Instruction.execute_follows h (hknown.mono hsubset) hnative hcreates (fun v hv hhandle => ?_) ?_
    · obtain hv | rfl := huses v hv
      · exact (hwanted v hv hhandle).mono hsubset
      · exact hmoved
    · intro name hmem side
      rw [hi] at hmem
      cases hmem
      exact htarget.written side
  cases hmatches with
  | @graph fill fill' hunder =>
    have hfilled := hunder ⟨graphPrefix ++ Text.decimal m⟩
    have huses := (hready m).2.uses fun i hi => made?_of_creates? (hproper _ i hi).2.2
    have hsame : (⟨graphPrefix ++ Text.decimal m⟩ : Graph).under H = ⟨graphPrefix ++ Text.decimal n⟩ :=
      congrArg Graph.mk hname
    rw [hsame] at hfilled
    rw [Plan.instructions, Plan.instructions, hfilled, ← hsame]
    refine Program.cons_follows (Instruction.createGraph_follows h ?_)
      (Program.execute_follows fun i hi => ?_)
    · rw [hsame]; exact htarget
    · obtain ⟨hi₁, hi₂, hi₃⟩ := hproper _ i hi
      exact hfill i hi₁ hi₂ hi₃ fun v hv => (huses i hi v hv).imp_right fun h => (Option.some.inj h).symm
  | @metadata fill fill' hunder =>
    have hfilled := hunder ⟨metadataPrefix ++ Text.decimal m⟩
    have huses := (hready m).2.uses fun i hi => by
      rw [List.mem_singleton.1 hi]
      exact made?_of_creates? (hproper _).2.2
    have hsame : (⟨metadataPrefix ++ Text.decimal m⟩ : Metadata).under H
        = ⟨metadataPrefix ++ Text.decimal n⟩ := congrArg Metadata.mk hname
    rw [hsame] at hfilled
    rw [Plan.instructions, Plan.instructions, hfilled, ← hsame]
    refine Program.cons_follows (Instruction.createMetadata_follows h ?_)
      (Program.execute_follows (p := [fill ⟨metadataPrefix ++ Text.decimal m⟩]) fun i hi => ?_)
    · rw [hsame]; exact htarget
    · obtain rfl := List.mem_singleton.1 hi
      obtain ⟨hi₁, hi₂, hi₃⟩ := hproper ⟨metadataPrefix ++ Text.decimal m⟩
      exact hfill _ hi₁ hi₂ hi₃ fun v hv => (huses _ hi v hv).imp_right fun h => (Option.some.inj h).symm

end Carried

end Provenance

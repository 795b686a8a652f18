import Provenance.Proofs.Allocations
import Provenance.Proofs.Operations

/-!
# Programs over shared tables

A ready program reads the base relations, handles that were known before it, and handles that it has
made itself. Two stores that hold the same in these tables give it the same answers and hold the same
again afterwards, also in the tables of what it has made; or it fails in both. What else is in the stores
does not matter.
-/

namespace Provenance

open Store Action

/-- The base relations, and the tables of handles of some names. -/
def tablesOf (names : String → Prop) : Set String :=
  {table | table ∈ knownTables ∨ ∃ name side, names name ∧ table = (⟨name⟩ : Graph).table side}

theorem tablesOf_mono {names names' : String → Prop} (h : ∀ name, names name → names' name) :
    tablesOf names ⊆ tablesOf names' := by
  rintro table (hbase | ⟨name, side, hname, rfl⟩)
  · exact .inl hbase
  · exact .inr ⟨name, side, h name hname, rfl⟩

/-! ## Tables that two databases have in common -/

namespace Store

variable {D : Set String} {db db' db'' : Database}

/-- Two databases hold the same in some tables, or lack the same of them. -/
abbrev Shared (D : Set String) (db db' : Database) : Prop := Copies id D db db'

theorem Shared.of_eq (h : ∀ table ∈ D, db'.table? table = db.table? table) : Shared D db db' :=
  fun table htable => congrArg (Option.map Table.body) (h table htable)

theorem Shared.symm (h : Shared D db db') : Shared D db' db := fun table htable => (h table htable).symm

theorem Shared.trans (h : Shared D db db') (h' : Shared D db' db'') : Shared D db db'' :=
  fun table htable => (h' table htable).trans (h table htable)

/-- Names that are left as they are separate all tables. -/
theorem separates_id : Separates id Set.univ Set.univ where
  short _ _ := rfl
  alike _ _ _ := rfl
  subset := subset_rfl
  apart _ _ _ _ := rfl
  reserved _ _ := rfl

end Store

variable {σ τ : Type} {b : Backend σ} {b' : Backend τ} {view : σ → Database}
  {R : Set String → σ → τ → Prop} {known : Value → Prop} {names : String → Prop}

/-- A reliable store gives the same answers on tables that two of its states share. -/
theorem Backend.Tracks.shared (hb : b.IsDatabase view False) :
    Backend.Tracks b b id Set.univ fun D s t => Shared D (view s) (view t) := by
  have hmemory := Backend.Tracks.memory separates_id fun _ _ => ⟨Set.mem_univ _, rfl⟩
  have hfollows : ∀ {α : Type} {D E : Set String} {a a' : Action Database BackendError α}
      {c c' : Action σ BackendError α}, Follows (Staged id Set.univ D) (Staged id Set.univ E) a a' →
      (∀ s, Backend.Attempts False view c a s) → (∀ s, Backend.Attempts False view c' a' s) →
      Follows (fun s t => Shared D (view s) (view t)) (fun s t => Shared E (view s) (view t)) c c' := by
    intro α D E a a' c c' hmem hattempts hattempts' s t hst
    rcases hattempts s with ⟨hfalse, -⟩ | ⟨hresult, hview⟩
    · exact hfalse.elim
    rcases hattempts' t with ⟨hfalse, -⟩ | ⟨hresult', hview'⟩
    · exact hfalse.elim
    rcases hmem (view s) (view t) ⟨hst, Set.subset_univ D⟩ with
      ⟨e, e', db, db', hs, ht⟩ | ⟨x, db, db', hs, ht, hstaged⟩
    · rw [hs] at hresult
      rw [ht] at hresult'
      exact .inl ⟨e, e', _, _, Prod.ext hresult rfl, Prod.ext hresult' rfl⟩
    · rw [hs] at hresult hview
      rw [ht] at hresult' hview'
      refine .inr ⟨x, _, _, Prod.ext hresult rfl, Prod.ext hresult' rfl, ?_⟩
      show Shared E (view (c.runFrom s).2) (view (c'.runFrom t).2)
      rw [hview, hview']
      exact hstaged.copies
  exact ⟨fun closed _ _ _ _ h => hfollows (hmemory.execute closed h) (hb.execute _) (hb.execute _),
    fun closed _ _ _ _ h => hfollows (hmemory.queryRows closed h) (hb.queryRows _) (hb.queryRows _),
    fun _ _ _ _ hE h => h.mono hE, fun _ _ => ⟨Set.mem_univ _, rfl⟩⟩

/-! ## Instructions -/

theorem Instruction.under_id (i : Instruction) : i.under id = i := by cases i <;> rfl

/-- The tables of a handle that is created are among those that are known then. -/
theorem tablesOf_subset_withTables {name : String} :
    tablesOf (fun other => names other ∨ some name = some other) ⊆ withTables (tablesOf names) name := by
  rintro table (hbase | ⟨other, side, hother | hother, rfl⟩)
  · exact .inr (.inr (.inl hbase))
  · exact .inr (.inr (.inr ⟨other, side, hother, rfl⟩))
  · obtain rfl := Option.some.inj hother
    cases side
    · exact .inr (.inl rfl)
    · exact .inl rfl

theorem Instruction.creates?_of_made? {i : Instruction} {v : Value} (h : i.made? = some v) :
    i.creates? = some v.shown := by
  cases i <;> cases h <;> rfl

/-- A ready instruction reads tables of handles that were known only. -/
theorem Instruction.IsReady.execute_shared (h : b.Tracks b' id Set.univ R) {i : Instruction}
    (hi : i.IsReady known) (hknown : ∀ v, known v → v.IsHandle → names v.shown) :
    Follows (R (tablesOf names)) (R (tablesOf fun name => names name ∨ i.creates? = some name)) (i.execute b)
      (i.execute b') := by
  have hother : i.creates? = none → Follows (R (tablesOf names))
      (R (tablesOf fun name => names name ∨ i.creates? = some name)) (i.execute b) (i.execute b') := by
    intro hcreates
    have hbase : KeepsKnown id (tablesOf names) := fun _ ht => ⟨.inl ht, rfl⟩
    have hmoves : ∀ v ∈ i.uses, v.IsHandle →
        Backend.Tracks.Moves id (tablesOf names) ⟨v.shown⟩ ⟨id v.shown⟩ := fun v hv hhandle =>
      ⟨fun side => ⟨.inr ⟨_, side, hknown v (hi.uses v hv) hhandle, rfl⟩, rfl⟩, rfl⟩
    have hstep := Instruction.execute_follows h hbase hi.isNative hcreates hmoves fun _ _ _ => Set.mem_univ _
    rw [i.under_id] at hstep
    refine hstep.imp fun s t hst => h.mono _ _ s t (tablesOf_mono fun name hname => ?_) hst
    rw [hcreates] at hname
    exact hname.resolve_right nofun
  have hrenews : ∀ g : Graph, Backend.Tracks.Renews id Set.univ g g := fun g =>
    ⟨fun _ => Set.mem_univ _, fun _ => rfl⟩
  cases i with
  | createGraph g =>
    have hstep : Follows (R (tablesOf names)) (R (withTables (tablesOf names) g.name)) _ _ :=
      Instruction.createGraph_follows (H := id) h (hrenews g)
    exact hstep.imp fun s t hst => h.mono _ _ s t tablesOf_subset_withTables hst
  | createMetadata m =>
    have hstep : Follows (R (tablesOf names)) (R (withTables (tablesOf names) m.name)) _ _ :=
      Instruction.createMetadata_follows (H := id) h (t := m) (hrenews ⟨m.name⟩)
    exact hstep.imp fun s t hst => h.mono _ _ s t tablesOf_subset_withTables hst
  | _ => exact hother rfl

/-! ## Programs -/

namespace Program

variable {p : Program}

theorem creates_cons {i : Instruction} {name : String} :
    Creates (i :: p) name ↔ i.creates? = some name ∨ Creates p name := by
  rw [← mem_creations, ← mem_creations, creations, creations, List.filterMap_cons]
  cases i.creates? with
  | none => simp
  | some other => simp [eq_comm]

theorem IsReady.replies_shared (h : b.Tracks b' id Set.univ R) (hp : p.IsReady known)
    (hknown : ∀ v, known v → v.IsHandle → names v.shown) :
    Follows (R (tablesOf names)) (R (tablesOf fun name => names name ∨ Creates p name)) (replies b p)
      (replies b' p) := by
  induction p generalizing known names with
  | nil =>
    refine (Follows.pure _).imp fun s t hst => h.mono _ _ s t (tablesOf_mono fun name hname => ?_) hst
    exact hname.resolve_right fun hc => by simp [Creates] at hc
  | cons i p ih =>
    have hlater := @ih _ (fun name => names name ∨ i.creates? = some name) hp.2 fun v hv hhandle =>
      hv.imp (fun hv => hknown v hv hhandle) Instruction.creates?_of_made?
    simp only [or_assoc, ← creates_cons] at hlater
    exact (hp.1.execute_shared h hknown).bind fun answer => hlater.bind fun later => .pure _

/-- In two states of a reliable store that share what a ready program may use, the program fails, or it
gives the same answers and leaves states that share this and what it has created. -/
theorem IsReady.shared (hb : b.IsDatabase view False) (hp : p.IsReady known)
    (hknown : ∀ v, known v → v.IsHandle → names v.shown) {s t : σ}
    (h : Shared (tablesOf names) (view s) (view t)) :
    (Fails b p s ∧ Fails b p t) ∨ ∃ answers s' t', Replies b p s answers s' ∧ Replies b p t answers t' ∧
      Shared (tablesOf fun name => names name ∨ Creates p name) (view s') (view t') := by
  rcases hp.replies_shared (.shared hb) hknown s t h with ⟨e, e', s', t', hs, ht⟩ | ⟨answers, s', t', hs, ht, hst⟩
  · exact .inl ⟨⟨e, s', hs⟩, e', t', ht⟩
  · exact .inr ⟨answers, s', t', hs, ht, hst⟩

end Program

end Provenance

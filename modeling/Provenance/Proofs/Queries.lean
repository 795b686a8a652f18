import Provenance.Proofs.Relations
import Provenance.Proofs.Resolving
import Provenance.Session

/-!
# The bindings of a query

While a query is resolved, the bindings in memory are the stored ones, unless these were forgotten,
overridden by the pending ones. They are the stored ones again once they are committed or discarded
without an error; otherwise memory and store may differ. Over a store without failures they always
are.
-/

namespace Provenance

open Store SymbolTable

variable {σ : Type} {b : Backend σ} {view : σ → Database} {fails : Prop} {P : String → Prop}

namespace SymbolTable

/-- All names that variables are stored with have the property. -/
def StoresOnly (P : String → Prop) (db : Database) : Prop :=
  ∀ var name, storedName? db var = some name → P name

theorem StoresOnly.congr {db db' : Database} (h : StoresOnly P db)
    (hdb : db'.table? relation = db.table? relation) : StoresOnly P db' := fun var name hname =>
  h var name (by rwa [storedName?_congr hdb] at hname)

/-- The engine's own names have the property. -/
structure Admits (P : String → Prop) : Prop where
  base : P Graph.base.name
  generated : ∀ name, IsGenerated name → P name

theorem admits_isOwn : Admits IsOwn := ⟨.inl rfl, fun _ h => .inr h⟩

theorem admits_true : Admits fun _ => True := ⟨trivial, fun _ _ => trivial⟩

end SymbolTable

namespace Workspace

/-- The invariant of resolution, for names with a property. The counter's row is no binding. -/
structure Mirrors (view : σ → Database) (P : String → Prop) (w : Workspace σ) : Prop where
  keeps : ∃ entries, Keeps (view w.store) entries ∧ Readable entries
  sorted : w.symbols.pending.Sorted
  bound : ∀ var, var ≠ counterKey → w.symbols.bindings.find? var
    = (w.symbols.pending.find? var).or
      (if w.symbols.cleared then none else storedName? (view w.store) var)
  onlyBound : ∀ var name, w.symbols.bindings.find? var = some name → P name
  onlyPending : ∀ var name, w.symbols.pending.find? var = some name → P name
  onlyStored : StoresOnly P (view w.store)

variable {w : Workspace σ}

theorem Mirrors.lookup? (h : w.Mirrors view P) (hP : Admits P) {var name : String}
    (hname : w.symbols.lookup? var = some name) : P name := by
  rw [SymbolTable.lookup?] at hname
  split at hname
  · cases hname; exact hP.base
  · exact h.onlyBound var name hname

theorem Mirrors.mono {Q : String → Prop} (h : w.Mirrors view P) (hPQ : ∀ name, P name → Q name) :
    w.Mirrors view Q :=
  ⟨h.keeps, h.sorted, h.bound, fun var name hn => hPQ name (h.onlyBound var name hn),
    fun var name hn => hPQ name (h.onlyPending var name hn),
    fun var name hn => hPQ name (h.onlyStored var name hn)⟩

theorem Mirrors.fresh (hb : b.IsDatabase view fails) :
    Action.Preserves (Mirrors view P) (freshNumber b) := by
  intro w h
  obtain ⟨entries, hk, hr⟩ := h.keeps
  obtain ⟨-, e, s, hs, hv⟩ | ⟨s, hs, hk'⟩ := freshNumber_spec hb hk
  · rw [hs]
    exact ⟨⟨entries, by rw [hv]; exact hk, hr⟩, h.sorted, by rw [hv]; exact h.bound, h.onlyBound,
      h.onlyPending, by rw [hv]; exact h.onlyStored⟩
  · have hsame : ∀ var, storedName? (view s) var = storedName? (view w.store) var := fun var => by
      rw [storedName?_put hk hk', if_neg fun hc => hc.2 hc.1]
    rw [hs]
    exact ⟨⟨_, hk', readable_put _⟩, h.sorted,
      fun var hvar => by rw [hsame]; exact h.bound var hvar, h.onlyBound, h.onlyPending,
      fun var name hname => h.onlyStored var name (by rwa [hsame] at hname)⟩

theorem Mirrors.bind (h : w.Mirrors view P) {var name : String} (hname : P name) :
    Mirrors view P { w with symbols := { w.symbols with
      bindings := w.symbols.bindings.insert var name
      pending := w.symbols.pending.insert var name } } where
  keeps := h.keeps
  sorted := h.sorted.insert var name
  bound v hv := by
    simp only [OrderedMap.find?_insert]
    split
    · rfl
    · exact h.bound v hv
  onlyBound v n hn := by
    simp only [OrderedMap.find?_insert] at hn
    split at hn
    · cases hn; exact hname
    · exact h.onlyBound v n hn
  onlyPending v n hn := by
    simp only [OrderedMap.find?_insert] at hn
    split at hn
    · cases hn; exact hname
    · exact h.onlyPending v n hn
  onlyStored := h.onlyStored

theorem Mirrors.clear (h : w.Mirrors view P) :
    Mirrors view P { w with symbols := w.symbols.clear } where
  keeps := h.keeps
  sorted := List.Pairwise.nil
  bound _ _ := rfl
  onlyBound _ _ hn := nomatch hn
  onlyPending _ _ hn := nomatch hn
  onlyStored := h.onlyStored

/-- A symbol table that is loaded mirrors the stored bindings. -/
theorem mirrors_load (hb : b.IsDatabase view fails) {s s' : σ} (hintact : Intact (view s))
    (honly : StoresOnly P (view s)) {symbols : SymbolTable}
    (hload : (load b).runFrom s = (.ok symbols, s')) : Mirrors view P ⟨symbols, s'⟩ := by
  obtain ⟨e, _, hs, -⟩ | ⟨t, _, entries, hs, hk, hr, hpending, hcleared, hbound, hsame⟩ :=
    load_spec hb hintact
  · rw [hs] at hload; cases hload
  · rw [hs] at hload
    cases hload
    have honly' : StoresOnly P (view s') := fun var name hname =>
      honly var name (by rwa [hsame] at hname)
    refine ⟨⟨entries, hk, hr⟩, ?_, fun var _ => ?_, fun var name hname => ?_,
      fun var name hname => ?_, honly'⟩
    · simp only [hpending]; exact List.Pairwise.nil
    · simp [hpending, hcleared, hbound]
    · exact honly' var name (by rw [← hbound, hname])
    · simp [hpending] at hname

/-- The bindings in memory are those in the store. -/
def Agrees (view : σ → Database) (w : Workspace σ) : Prop :=
  ∀ var, var ≠ counterKey → w.symbols.bindings.find? var = storedName? (view w.store) var

/-- What a commit leaves, however it ends. -/
theorem Mirrors.commit (hb : b.IsDatabase view fails) (h : w.Mirrors view P) :
    (∃ entries, Keeps (view ((commit b).runFrom w).2.store) entries) ∧
      StoresOnly P (view ((commit b).runFrom w).2.store) ∧
      (((commit b).runFrom w).1 = .ok () → Agrees view ((commit b).runFrom w).2) ∧
      (¬ fails → ((commit b).runFrom w).1 = .ok ()) ∧
      ((commit b).runFrom w).2.symbols.bindings = w.symbols.bindings := by
  obtain ⟨entries, hk, -⟩ := h.keeps
  obtain ⟨hf, e, s, rows, hs, hk', hrows, -⟩ | ⟨r, s, rows, hs, hk', hpart, hall, hr⟩ :=
    commit_spec hb h.sorted.nodup hk
  · rw [hs]
    refine ⟨⟨rows, hk'⟩, fun var name hname => ?_, nofun, fun hn => (hn hf).elim, rfl⟩
    rw [hk'.storedName?] at hname
    obtain rfl | rfl := hrows
    · exact h.onlyStored var name (by rwa [hk.storedName?])
    · simp at hname
  · rw [hs]
    refine ⟨⟨rows, hk'⟩, fun var name hname => ?_, fun hr var hvar => ?_, hr, rfl⟩
    · obtain hsame | ⟨hpending, -⟩ := hpart var
      · rw [hname] at hsame
        split at hsame
        · cases hsame
        · exact h.onlyStored var name hsame.symm
      · exact h.onlyPending var name (by rw [← hpending, hname])
    · rw [hall hr var hvar, ← h.bound var hvar]

/-- What a discard leaves, however it ends. -/
theorem Mirrors.discard (hb : b.IsDatabase view fails) (h : w.Mirrors view P) :
    view ((discard b).runFrom w).2.store = view w.store ∧
      (((discard b).runFrom w).1 = .ok () → Agrees view ((discard b).runFrom w).2) ∧
      (¬ fails → ((discard b).runFrom w).1 = .ok ()) := by
  obtain ⟨entries, hk, hr⟩ := h.keeps
  obtain ⟨hs, hpending, hcleared⟩ | ⟨hf, e, s, hs, hv⟩ | ⟨bindings, s, hs, -, hv, hread⟩ :=
    discard_spec hb hk
  · rw [hs]
    refine ⟨rfl, fun _ var hvar => ?_, fun _ => rfl⟩
    rw [h.bound var hvar, hpending, hcleared]
    rfl
  · rw [hs]
    exact ⟨hv, nofun, fun hn => (hn (hf hr)).elim⟩
  · rw [hs]
    exact ⟨hv, fun _ var _ => (hread var).trans (by rw [hv]), fun _ => rfl⟩

end Workspace

/-! ## Resolving -/

namespace Resolution

open Action Workspace

variable {w : Workspace σ}

/-- Whether the bindings that statements make are committed, or discarded, without an error. -/
def settles (b : Backend σ) (statements : List Query.Statement) (w : Workspace σ) : Bool :=
  match (statements.forM (statement b)).runFrom ⟨w, []⟩ with
  | (.ok _, d) => ((commit b).runFrom d.workspace).1.isOk
  | (.error _, d) => ((discard b).runFrom d.workspace).1.isOk

theorem statements_mirrors (hb : b.IsDatabase view fails) (hP : Admits P)
    (ss : List Query.Statement) :
    Preserves (OnWorkspace (Mirrors view P)) (ss.forM (statement b)) :=
  .forM fun _ _ => statement_preserves (Mirrors.fresh hb)
    (fun _ _ _ h _ _ hname => h.bind (hname.elim (hP.generated _) fun ⟨_, hv⟩ => h.lookup? hP hv))
    fun _ _ h => h.clear

theorem statements_preserves (hb : b.IsDatabase view fails) {I : Database → Prop}
    (hI : Undisturbed I) (ss : List Query.Statement) :
    Preserves (OnWorkspace fun w => I (view w.store)) (ss.forM (statement b)) :=
  .forM fun _ _ => statement_preserves (freshNumber_preserves hb hI) (fun _ _ _ h _ _ _ => h)
    fun _ _ h => h

/-- Statements that are resolved leave the stored bindings as they are. -/
theorem statements_storedName? (hb : b.IsDatabase view fails) (stored : String → Option String)
    (ss : List Query.Statement) :
    Preserves (OnWorkspace fun w => (∃ entries, Keeps (view w.store) entries) ∧
      ∀ var, storedName? (view w.store) var = stored var) (ss.forM (statement b)) := by
  refine .forM fun _ _ => statement_preserves (fun w h => ?_) (fun _ _ _ h _ _ _ => h) fun _ _ h => h
  obtain ⟨⟨entries, hk⟩, hsame⟩ := h
  obtain ⟨-, e, s, hs, hv⟩ | ⟨s, hs, hk'⟩ := freshNumber_spec hb hk
  · rw [hs, hv]
    exact ⟨⟨entries, hk⟩, hsame⟩
  · rw [hs]
    exact ⟨⟨_, hk'⟩, fun var => by rw [storedName?_put hk hk', if_neg fun hc => hc.2 hc.1, hsame]⟩

/-- A program writes to new names only. It sends texts of the user only if a statement has one. -/
theorem statements_orderly {ss : List Query.Statement} {d : Draft σ}
    (h : (ss.forM (statement b)).runFrom ⟨w, []⟩ = (.ok (), d)) :
    (∀ i ∈ d.program, ∀ name ∈ i.target?, IsGenerated name) ∧
      ((∀ s ∈ ss, s.isNative = false) → ∀ i ∈ d.program, i.isNative = false) := by
  have htraced : d.Traced fun _ => True := statements_induction
    (fun s _ _ _ hd hs => statement_traced trivial hd hs) ⟨fun _ _ _ => .inl trivial, by simp⟩ h
  refine ⟨htraced.targets, fun hss => ?_⟩
  exact statements_induction (P := fun d => ∀ i ∈ d.program, i.isNative = false)
    (fun s hs _ _ hd hok => statement_native (hss s hs) hd hok) (by simp) h

/-- Resolution ends with a commit of all statements, or with a discard. -/
theorem resolve_cases (b : Backend σ) (ss : List Query.Statement) (w : Workspace σ) :
    (∃ d, (ss.forM (statement b)).runFrom ⟨w, []⟩ = (.ok (), d) ∧
        settles b ss w = ((commit b).runFrom d.workspace).1.isOk ∧
        (resolve b ss).runFrom w = ((((commit b).runFrom d.workspace).1.map fun _ => d.program).mapError
          .backend, ((commit b).runFrom d.workspace).2)) ∨
      ∃ e d, (ss.forM (statement b)).runFrom ⟨w, []⟩ = (.error e, d) ∧
        settles b ss w = ((discard b).runFrom d.workspace).1.isOk ∧
        ((resolve b ss).runFrom w).2 = ((discard b).runFrom d.workspace).2 ∧
        ∃ e', ((resolve b ss).runFrom w).1 = .error e' := by
  generalize hrun : (ss.forM (statement b)).runFrom ⟨w, []⟩ = x
  obtain ⟨result, d⟩ := x
  simp only [resolve, settles, runFrom_of, hrun]
  cases result with
  | ok _ =>
    refine .inl ⟨d, rfl, rfl, ?_⟩
    dsimp only
    cases (commit b).runFrom d.workspace with
    | mk result w' => cases result <;> rfl
  | error e =>
    refine .inr ⟨e, d, rfl, rfl, ?_⟩
    dsimp only
    cases (discard b).runFrom d.workspace with
    | mk result w' => cases result <;> exact ⟨rfl, _, rfl⟩

/-- A resolved program is that of a draft of all statements, which was committed. -/
theorem resolve_ok {ss : List Query.Statement} {w w' : Workspace σ} {program : Program}
    (h : (resolve b ss).runFrom w = (.ok program, w')) :
    ∃ d, (ss.forM (statement b)).runFrom ⟨w, []⟩ = (.ok (), d) ∧
      (commit b).runFrom d.workspace = (.ok (), w') ∧ d.program = program := by
  obtain ⟨d, hd, -, hrun⟩ | ⟨e, d, -, -, -, e', he'⟩ := resolve_cases b ss w
  · rw [h] at hrun
    refine ⟨d, hd, ?_⟩
    generalize (commit b).runFrom d.workspace = x at hrun
    obtain ⟨result, w''⟩ := x
    cases result with
    | error e => cases hrun
    | ok _ => cases hrun; exact ⟨rfl, rfl⟩
  · rw [h] at he'
    cases he'

/-- Its instructions write to new names only, and send texts of the user only if a statement has one. -/
theorem resolve_orderly {ss : List Query.Statement} (hss : ∀ s ∈ ss, s.isNative = false) {w w' : Workspace σ}
    {program : Program} (h : (resolve b ss).runFrom w = (.ok program, w')) : ∀ i ∈ program, i.IsOrderly := by
  obtain ⟨d, hd, -, rfl⟩ := resolve_ok h
  obtain ⟨htargets, hnative⟩ := statements_orderly hd
  exact fun i hi => ⟨hnative hss i hi, htargets i hi⟩

/-- Over a store without failures the bindings are committed or discarded. -/
theorem settles_of_reliable (hb : b.IsDatabase view fails) (hfails : ¬ fails) (hP : Admits P)
    (h : w.Mirrors view P) (ss : List Query.Statement) : settles b ss w = true := by
  have hmirrors := statements_mirrors hb hP ss ⟨w, []⟩ h
  obtain ⟨d, hd, hsettles, -⟩ | ⟨e, d, hd, hsettles, -⟩ := resolve_cases b ss w
  · rw [hd] at hmirrors
    rw [hsettles, (hmirrors.commit hb).2.2.2.1 hfails]
    rfl
  · rw [hd] at hmirrors
    rw [hsettles, (hmirrors.discard hb).2.2 hfails]
    rfl

/-- What requests preserve that change the bindings at most is preserved by resolution. -/
theorem resolve_preserves (hb : b.IsDatabase view fails) {I : Database → Prop} (hI : Undisturbed I)
    (ss : List Query.Statement) : Preserves (fun w => I (view w.store)) (resolve b ss) := by
  intro w hw
  have hstatements := statements_preserves hb hI ss ⟨w, []⟩ hw
  obtain ⟨d, hd, -, hrun⟩ | ⟨e, d, hd, -, hrun, -⟩ := resolve_cases b ss w
  · rw [hd] at hstatements
    rw [hrun]
    exact commit_preserves hb hI _ hstatements
  · rw [hd] at hstatements
    rw [hrun]
    exact discard_preserves hb hI _ hstatements

/-- What resolution leaves, however it ends. -/
structure Leaves (b : Backend σ) (view : σ → Database) (P : String → Prop)
    (ss : List Query.Statement) (w : Workspace σ) (result : Except QueryError (List Instruction))
    (w' : Workspace σ) : Prop where
  keeps : ∃ entries, Keeps (view w'.store) entries
  only : StoresOnly P (view w'.store)
  spares : Spares (view w.store) (view w'.store)
  agrees : settles b ss w = true → w'.Agrees view
  orderly : (∀ s ∈ ss, s.isNative = false) → ∀ program, result = .ok program →
    ∀ i ∈ program, i.IsOrderly

theorem resolve_leaves (hb : b.IsDatabase view fails) (hP : Admits P) (h : w.Mirrors view P)
    (ss : List Query.Statement) :
    Leaves b view P ss w ((resolve b ss).runFrom w).1 ((resolve b ss).runFrom w).2 := by
  have hmirrors := statements_mirrors hb hP ss ⟨w, []⟩ h
  have hspares := resolve_preserves hb (undisturbed_spares _) ss w (Spares.refl (view w.store))
  have horderly : (∀ s ∈ ss, s.isNative = false) → ∀ program, ((resolve b ss).runFrom w).1 = .ok program →
      ∀ i ∈ program, i.IsOrderly := fun hss program hp => resolve_orderly hss (Prod.ext hp rfl)
  obtain ⟨d, hd, hsettles, hrun⟩ | ⟨e, d, hd, hsettles, hw, -⟩ := resolve_cases b ss w
  · rw [hd] at hmirrors
    obtain ⟨hkeeps, honly, hagrees, -⟩ := hmirrors.commit hb
    rw [hrun] at hspares horderly ⊢
    refine ⟨hkeeps, honly, hspares, fun hs => hagrees ?_, horderly⟩
    rw [hsettles] at hs
    cases hcommit : ((commit b).runFrom d.workspace).1 with
    | ok _ => rfl
    | error e => rw [hcommit] at hs; cases hs
  · rw [hd] at hmirrors
    obtain ⟨hv, hagrees, -⟩ := hmirrors.discard hb
    obtain ⟨entries, hk, -⟩ := hmirrors.keeps
    rw [hw] at hspares ⊢
    refine ⟨⟨entries, by rw [hv]; exact hk⟩, by rw [hv]; exact hmirrors.onlyStored, hspares, fun hs => hagrees ?_,
      horderly⟩
    rw [hsettles] at hs
    cases hdiscard : ((discard b).runFrom d.workspace).1 with
    | ok _ => rfl
    | error e => rw [hdiscard] at hs; cases hs

end Resolution

end Provenance

import Provenance.Proofs.Numbering
import Provenance.Proofs.Queries
import Provenance.Proofs.ReliableTables

/-!
# The stored counter

The counter in memory is the stored one from loading on, whatever calls fail: a new number is stored
before it counts, and no binding is stored in the counter's row. A commit keeps the stored counter
too, unless it fails after it has emptied the relation; then no binding is stored either.
-/

namespace Provenance

open Store SymbolTable

variable {σ : Type} {b : Backend σ} {view : σ → Database} {fails : Prop}
  {entries : List (String × String)}

namespace SymbolTable

/-- Loading leaves the stored counter as it is, and takes it over if it succeeds. -/
theorem load_storedCounter? (hb : b.IsDatabase view fails) {s : σ} (h : Intact (view s)) :
    storedCounter? (view ((load b).runFrom s).2) = storedCounter? (view s) ∧
      ∀ t, ((load b).runFrom s).1 = .ok t → storedCounter? (view s) = some t.counter := by
  obtain ⟨db, entries, hrun, hk, -⟩ := run_createRelation h
  have hkept := storedCounter?_createRelation h hrun
  rw [load]
  obtain ⟨-, e, s', hs, hv⟩ | ⟨s', hs, rfl⟩ := hb.perform_ok hrun
  · rw [Action.runFrom_bind_error hs]
    exact ⟨by rw [hv], fun _ ht => (by cases ht)⟩
  · obtain ⟨hv, -, -⟩ := readStored_spec hb hk
    rw [Action.runFrom_bind_ok hs]
    generalize hread : (readStored b).runFrom s' = x at hv
    obtain ⟨result, s''⟩ := x
    cases result with
    | error e =>
      rw [Action.runFrom_bind_error hread]
      exact ⟨by rw [hv, hkept], fun _ ht => (by cases ht)⟩
    | ok stored =>
      rw [Action.runFrom_bind_ok hread]
      refine ⟨by rw [← hkept, ← hv]; rfl, fun t ht => ?_⟩
      cases ht
      have hrows : (entries.map fun e => [e.1, e.2]).foldlM readRow ([], 0) = .ok stored := by
        rw [runFrom_readStored] at hread
        split at hread
        · next rows s₁ hrows =>
          obtain ⟨-, e, he, -⟩ | ⟨hr, -⟩ := hb.queryRows readRequest s'
          · rw [hrows] at he; cases he
          · rw [hrows, queryRows_keeps hk] at hr
            cases hr
            exact congrArg Prod.fst hread
        · cases hread
      rw [← hkept, hk.storedCounter?, counterOf]
      exact foldlM_readRow_counter hk.nodup hrows

end SymbolTable

namespace Workspace

variable {w : Workspace σ}

/-- The counter in memory is the stored one, and nothing is to be stored in its row. -/
structure Counts (view : σ → Database) (w : Workspace σ) : Prop where
  keeps : ∃ entries, Keeps (view w.store) entries
  counter : storedCounter? (view w.store) = some w.symbols.counter
  pending : w.symbols.pending.find? counterKey = none

theorem counterOf_put {n : Int} (hn : Text.isWord n = true) :
    counterOf (OrderedMap.put counterKey (Text.decimal n) entries) = some n := by
  rw [counterOf, OrderedMap.find?_put, if_pos rfl]
  exact Text.trimmedWord?_decimal hn

/-- Emptying the relation keeps the counter. -/
theorem counterOf_emptied {t : SymbolTable} (h : counterOf entries = some t.counter) :
    counterOf (emptied t entries) = some t.counter := by
  rw [emptied]
  split
  · refine counterOf_put ?_
    rw [counterOf] at h
    split at h
    · rw [← Option.some.inj h]
      decide
    · exact isWord_of_trimmedWord? h
  · exact h

theorem counts_load (hb : b.IsDatabase view fails) {s s' : σ} (h : Intact (view s)) {t : SymbolTable}
    (hload : (load b).runFrom s = (.ok t, s')) : Counts view ⟨t, s'⟩ := by
  have hcounter := load_storedCounter? hb h
  obtain ⟨e, _, hs, -⟩ | ⟨t', _, entries, hs, hk, -, hpending, -⟩ := load_spec hb h
  · rw [hs] at hload; cases hload
  · rw [hs] at hload
    cases hload
    rw [hs] at hcounter
    exact ⟨⟨entries, hk⟩, hcounter.1.trans (hcounter.2 t rfl), by rw [hpending]; rfl⟩

namespace Counts

theorem fresh (hb : b.IsDatabase view fails) : Action.Preserves (Counts view) (freshNumber b) := by
  intro w h
  obtain ⟨entries, hk⟩ := h.keeps
  obtain ⟨-, e, s, hs, hv⟩ | ⟨s, hs, hk'⟩ := freshNumber_spec hb hk
  · rw [hs]
    exact ⟨⟨entries, by rw [hv]; exact hk⟩, by rw [hv]; exact h.counter, h.pending⟩
  · rw [hs]
    exact ⟨⟨_, hk'⟩, by rw [hk'.storedCounter?, counterOf_put (isWord_wordAfter _)], h.pending⟩

theorem bind (h : w.Counts view) {var : String} (hvar : var ≠ counterKey) (name : String) :
    Counts view { w with symbols := { w.symbols with
      bindings := w.symbols.bindings.insert var name
      pending := w.symbols.pending.insert var name } } :=
  ⟨h.keeps, h.counter, by rw [OrderedMap.find?_insert, if_neg hvar.symm]; exact h.pending⟩

theorem clear (h : w.Counts view) : Counts view { w with symbols := w.symbols.clear } :=
  ⟨h.keeps, h.counter, rfl⟩

/-- Storing other bindings leaves the stored counter. -/
theorem storePending (hb : b.IsDatabase view fails) {n : Int} {pending : List (String × String)}
    (hpending : counterKey ∉ pending.map Prod.fst) :
    Action.Preserves (fun w => ∃ entries, Keeps (view w.store) entries ∧ counterOf entries = some n)
      (pending.forM fun (var, name) => send b (.single (storeBinding var name))) := by
  refine .forM fun (var, name) hp w ⟨entries, hk, hn⟩ => ?_
  obtain ⟨-, e, s, hs, hv⟩ | ⟨s, hs, hk'⟩ := send_storeBinding hb hk var name
  · rw [hs]
    exact ⟨entries, by rw [hv]; exact hk, hn⟩
  · rw [hs]
    refine ⟨_, hk', ?_⟩
    have hvar : var ≠ counterKey := by
      rintro rfl
      exact hpending (List.mem_map_of_mem hp)
    rw [counterOf, OrderedMap.find?_put, if_neg hvar.symm]
    exact hn

theorem commit (hb : b.IsDatabase view fails) (h : w.Counts view) :
    storedCounter? (view ((commit b).runFrom w).2.store) = some w.symbols.counter ∨
      storedCounter? (view ((Workspace.commit b).runFrom w).2.store) = some 0 ∧
        ∀ var, storedName? (view ((Workspace.commit b).runFrom w).2.store) var = none := by
  obtain ⟨entries, hk⟩ := h.keeps
  have hcounter : counterOf entries = some w.symbols.counter := by rw [← hk.storedCounter?, h.counter]
  rw [Workspace.commit]
  obtain ⟨-, e, s, rows, hs, hk', hrows, -⟩ | ⟨s, hs, hk'⟩ := commitClear_spec hb hk
  · rw [Action.runFrom_bind_error hs]
    obtain rfl | rfl := hrows
    · exact .inl (hk'.storedCounter?.trans hcounter)
    · exact .inr ⟨hk'.storedCounter?, fun var => by rw [hk'.storedName?]; simp⟩
  · left
    rw [Action.runFrom_bind_ok hs]
    obtain ⟨rows, hrows, hn⟩ := storePending hb (OrderedMap.find?_eq_none_iff.1 h.pending)
      ⟨{ w.symbols with cleared := false, pending := [] }, s⟩ ⟨_, hk', counterOf_emptied hcounter⟩
    exact hrows.storedCounter?.trans hn

/-- Over a store that does not fail, a commit keeps the stored counter. -/
theorem commit_reliable (hb : b.IsDatabase view False) (h : w.Counts view) :
    storedCounter? (view ((Workspace.commit b).runFrom w).2.store) = some w.symbols.counter := by
  obtain ⟨entries, hk⟩ := h.keeps
  have hcounter : counterOf entries = some w.symbols.counter := by rw [← hk.storedCounter?, h.counter]
  rw [Workspace.commit]
  obtain ⟨hfails, -⟩ | ⟨s, hs, hk'⟩ := commitClear_spec hb hk
  · exact hfails.elim
  · rw [Action.runFrom_bind_ok hs]
    obtain ⟨rows, hrows, hn⟩ := storePending hb (OrderedMap.find?_eq_none_iff.1 h.pending)
      ⟨{ w.symbols with cleared := false, pending := [] }, s⟩ ⟨_, hk', counterOf_emptied hcounter⟩
    exact hrows.storedCounter?.trans hn

end Counts

end Workspace

namespace Resolution

open Action Workspace

variable {w : Workspace σ}

theorem statements_counts (hb : b.IsDatabase view fails) {ss : List Query.Statement}
    (hss : ∀ s ∈ ss, s.assigned? ≠ some counterKey) :
    Preserves (OnWorkspace (Counts view)) (ss.forM (statement b)) :=
  .forM fun s hs => statement_preserves (Counts.fresh hb)
    (fun _ _ name h hvar _ _ => h.bind (fun hc => hss s hs (hvar.trans (congrArg some hc))) name)
    fun _ _ h => h.clear

/-! ## The numbers of stored names -/

/-- The words after a word, until they would be too large. -/
theorem iterate_wordAfter {c : Int} {j : Nat} (hc : Text.isWord c = true) (h : c + j < 2 ^ 63) :
    wordAfter^[j] c = c + j := by
  induction j with
  | zero => simp
  | succ j ih =>
    rw [Text.isWord, Bool.and_eq_true, decide_eq_true_eq, decide_eq_true_eq] at hc
    rw [Function.iterate_succ_apply', ih (by omega), wordAfter]
    push_cast at h ⊢
    rw [show c + j + 1 = c + (j + 1) by omega]
    refine Int.bmod_eq_of_le ?_ ?_
    · change -(2 ^ 64 / 2) ≤ c + (j + 1)
      omega
    · change c + (j + 1) < (2 ^ 64 + 1) / 2
      omega

/-- What resolution, however it ends, leaves stored: names that were known and names that have one of
the numbers up to the stored counter. -/
def LeavesNames (view : σ → Database) (known : String → Prop) (n : Nat) (w w' : Workspace σ) : Prop :=
  ∃ k ≤ n, (storedCounter? (view w'.store) = some (wordAfter^[k] w.symbols.counter) ∨
      storedCounter? (view w'.store) = some 0 ∧ ∀ var, storedName? (view w'.store) var = none) ∧
    ∀ var name, storedName? (view w'.store) var = some name → known name ∨
      ∃ j, 1 ≤ j ∧ j ≤ k ∧ IsNumbered (wordAfter^[j] w.symbols.counter) name

theorem resolve_names (hb : b.IsDatabase view fails) {known : String → Prop}
    (hbase : known Graph.base.name) (hmirrors : w.Mirrors view known) (hcounts : w.Counts view)
    {ss : List Query.Statement} (hss : ∀ s ∈ ss, s.assigned? ≠ some counterKey) :
    LeavesNames view known (Query.makings ss) w ((resolve b ss).runFrom w).2 := by
  have htrue := statements_mirrors hb admits_true ss ⟨w, []⟩ (hmirrors.mono fun _ _ => trivial)
  have hcounted := statements_counts hb hss ⟨w, []⟩ hcounts
  have hsame := statements_storedName? hb (storedName? (view w.store)) ss ⟨w, []⟩
    ⟨hmirrors.keeps.imp fun _ hk => hk.1, fun _ => rfl⟩
  obtain ⟨k, more, hk, hcounter, hprogram, -, hnumbers⟩ := statements_spends (b := b) ss ⟨w, []⟩
  obtain ⟨d, hd, -, hrun⟩ | ⟨e, d, hd, -, hw, -⟩ := resolve_cases b ss w
  · rw [hd] at htrue hcounted hcounter hprogram hsame
    rw [hrun]
    have htraced : d.Traced known := statements_induction
      (fun s _ _ _ => statement_traced hbase) ⟨fun v n hn => .inl (hmirrors.onlyBound v n hn), by simp⟩ hd
    refine ⟨k, hk, (hcounted.commit hb).imp_left fun h => h.trans (congrArg some hcounter),
      fun var name hname => ?_⟩
    have hbound : d.workspace.symbols.bindings.find? var = some name → known name ∨
        ∃ j, 1 ≤ j ∧ j ≤ k ∧ IsNumbered (wordAfter^[j] w.symbols.counter) name := fun hvar =>
      (htraced.names var name hvar).imp_right fun hc => hnumbers name (by rwa [hprogram] at hc)
    have hstored : storedName? (view d.workspace.store) var = some name → known name := fun h =>
      hmirrors.onlyStored var name (by rwa [hsame.2] at h)
    have hvar : var ≠ counterKey := by
      rintro rfl
      simp [storedName?] at hname
    obtain ⟨entries, hk', -⟩ := htrue.keeps
    obtain ⟨-, e, s, rows, hs, hk₁, hrows, -⟩ | ⟨r, s, rows, hs, -, hpart, -⟩ :=
      commit_spec hb htrue.sorted.nodup hk'
    · rw [hs, hk₁.storedName?] at hname
      obtain rfl | rfl := hrows
      · exact .inl (hstored (by rwa [hk'.storedName?]))
      · simp at hname
    · rw [hs] at hname
      obtain hkept | ⟨hpending, -⟩ := hpart var
      · rw [hname] at hkept
        split at hkept
        · cases hkept
        · exact .inl (hstored hkept.symm)
      · refine hbound ?_
        rw [htrue.bound var hvar, ← hpending, hname]
        rfl
  · rw [hd] at htrue hcounted hcounter hsame
    rw [hw]
    have hv := (htrue.discard hb).1
    refine ⟨k, hk, .inl (by rw [hv, hcounted.counter, hcounter]), fun var name hname => .inl ?_⟩
    rw [hv, hsame.2] at hname
    exact hmirrors.onlyStored var name hname

end Resolution

end Provenance

import Provenance.Proofs.StoredBindings

/-!
# Sending from a workspace

What the operations on a symbol table do to the stored bindings, over a store whose calls may fail.
A request that is sent leaves the symbol table in memory alone.
-/

namespace Provenance.Workspace

open Store SymbolTable

variable {σ : Type} {b : Backend σ} {view : σ → Database} {fails : Prop} {w : Workspace σ}
  {entries : List (String × String)}

/-- A request that succeeds in memory takes effect, or fails without one. -/
theorem send_ok (hb : b.IsDatabase view fails) {r : Request} {answer : Option (List Row)} {db : Database}
    (hrun : (view w.store).run r = (.ok answer, db)) :
    (fails ∧ ∃ e s, (send b r).runFrom w = (.error e, ⟨w.symbols, s⟩) ∧ view s = view w.store) ∨
      ∃ s, (send b r).runFrom w = (.ok (), ⟨w.symbols, s⟩) ∧ view s = db := by
  obtain ⟨hf, e, s, hs, hv⟩ | ⟨s, hs, hv⟩ := hb.perform_ok hrun
  · exact .inl ⟨hf, e, s, by simp [send, storeLens, hs], hv⟩
  · exact .inr ⟨s, by simp [send, storeLens, hs], hv⟩

/-- A binding is stored, or nothing happens. -/
theorem send_storeBinding (hb : b.IsDatabase view fails) (h : Keeps (view w.store) entries)
    (var name : String) :
    (fails ∧ ∃ e s, (send b (.single (storeBinding var name))).runFrom w
        = (.error e, ⟨w.symbols, s⟩) ∧ view s = view w.store) ∨
      ∃ s, (send b (.single (storeBinding var name))).runFrom w = (.ok (), ⟨w.symbols, s⟩) ∧
        Keeps (view s) (OrderedMap.put var name entries) := by
  obtain ⟨db, happly, hkeeps⟩ := apply_storeBinding h var name
  obtain hfail | ⟨s, hs, hv⟩ := send_ok hb (Database.run_single_ok happly)
  · exact .inl hfail
  · exact .inr ⟨s, hs, by rw [hv]; exact hkeeps⟩

/-- The request that empties the relation of the bindings. -/
def recreation : Request := .sequence [.discard relation, createRelation]

theorem run_recreation (db : Database) :
    ∃ db', db.run recreation = (.ok none, db') ∧ Keeps db' [] := by
  have hgone : (db.remove relation).table? relation = none := by
    rw [Database.table?_remove, sameName_self]; rfl
  refine ⟨_, ?_, keeps_add_emptyRelation hgone⟩
  have hdrop : db.apply (.discard relation) = .ok (db.remove relation, none) := by
    simp only [Statement.discard, Database.apply, Database.drop_present]; rfl
  rw [recreation, Request.sequence, Database.run, Database.runAll_cons_ok hdrop,
    Database.runAll_cons_ok (apply_createRelation_absent hgone)]
  rfl

/-- The relation is emptied, or nothing happens. -/
theorem send_recreation (hb : b.IsDatabase view fails) :
    (fails ∧ ∃ e s, (send b recreation).runFrom w = (.error e, ⟨w.symbols, s⟩) ∧
        view s = view w.store) ∨
      ∃ s, (send b recreation).runFrom w = (.ok (), ⟨w.symbols, s⟩) ∧ Keeps (view s) [] := by
  obtain ⟨db, hrun, hkeeps⟩ := run_recreation (view w.store)
  obtain hfail | ⟨s, hs, hv⟩ := send_ok hb hrun
  · exact .inl hfail
  · exact .inr ⟨s, hs, by rw [hv]; exact hkeeps⟩

@[simp] theorem runFrom_modifySymbols (f : SymbolTable → SymbolTable) (w : Workspace σ) :
    (modifySymbols f).runFrom w = (.ok (), ⟨f w.symbols, w.store⟩) := rfl

/-! ## New numbers -/

/-- A new number is stored before it is given out; the bindings stay as they are. -/
theorem freshNumber_spec (hb : b.IsDatabase view fails) (h : Keeps (view w.store) entries) :
    (fails ∧ ∃ e s, (freshNumber b).runFrom w = (.error e, ⟨w.symbols, s⟩) ∧
        view s = view w.store) ∨
      ∃ s, (freshNumber b).runFrom w
          = (.ok (wordAfter w.symbols.counter),
            ⟨{ w.symbols with counter := wordAfter w.symbols.counter }, s⟩) ∧
        Keeps (view s)
          (OrderedMap.put counterKey (Text.decimal (wordAfter w.symbols.counter)) entries) := by
  simp only [freshNumber, Action.runFrom_bind, Action.runFrom_get, storeCounter]
  obtain ⟨hf, e, s, hs, hv⟩ | ⟨s, hs, hk⟩ :=
    send_storeBinding hb h counterKey (Text.decimal (wordAfter w.symbols.counter))
  · exact .inl ⟨hf, e, s, by rw [hs], hv⟩
  · exact .inr ⟨s, by rw [hs]; rfl, hk⟩

theorem isWord_wordAfter (n : Int) : Text.isWord (wordAfter n) = true := by
  have hlow := Int.le_bmod (x := n + 1) (m := Nat.pow 2 64) (by decide)
  have hhigh := Int.bmod_lt (x := n + 1) (m := Nat.pow 2 64) (by decide)
  rw [Text.isWord, wordAfter, Bool.and_eq_true, decide_eq_true_eq, decide_eq_true_eq]
  change -(2 ^ 64 / 2) ≤ (n + 1).bmod (Nat.pow 2 64) at hlow
  change (n + 1).bmod (Nat.pow 2 64) < (2 ^ 64 + 1) / 2 at hhigh
  omega

/-- A number that is given out can be read back. -/
theorem readable_put (n : Int) :
    Readable (OrderedMap.put counterKey (Text.decimal (wordAfter n)) entries) := fun text htext => by
  rw [OrderedMap.find?_put, if_pos rfl] at htext
  cases htext
  rw [Text.trimmedWord?_decimal (isWord_wordAfter n)]
  rfl

theorem runFrom_freshGraph (b : Backend σ) (w : Workspace σ) :
    (freshGraph b).runFrom w = match (freshNumber b).runFrom w with
      | (.ok n, w) => (.ok ⟨graphPrefix ++ Text.decimal n⟩, w)
      | (.error e, w) => (.error e, w) := by
  rw [freshGraph, Action.runFrom_bind]
  cases (freshNumber b).runFrom w with
  | mk result w => cases result <;> rfl

theorem runFrom_freshMetadata (b : Backend σ) (w : Workspace σ) :
    (freshMetadata b).runFrom w = match (freshNumber b).runFrom w with
      | (.ok n, w) => (.ok ⟨metadataPrefix ++ Text.decimal n⟩, w)
      | (.error e, w) => (.error e, w) := by
  rw [freshMetadata, Action.runFrom_bind]
  cases (freshNumber b).runFrom w with
  | mk result w => cases result <;> rfl

/-! ## Commit -/

/-- The rows that the relation has once the bindings were forgotten. -/
def emptied (t : SymbolTable) (entries : List (String × String)) : List (String × String) :=
  if t.cleared then OrderedMap.put counterKey (Text.decimal t.counter) [] else entries

/-- Forgotten bindings are forgotten in the store too. If that fails, they still are to be. -/
theorem commitClear_spec (hb : b.IsDatabase view fails) (h : Keeps (view w.store) entries) :
    (fails ∧ ∃ e s rows, (commitClear b).runFrom w = (.error e, ⟨w.symbols, s⟩) ∧
        Keeps (view s) rows ∧ (rows = entries ∨ rows = []) ∧ w.symbols.cleared = true) ∨
      ∃ s, (commitClear b).runFrom w = (.ok (), ⟨{ w.symbols with cleared := false }, s⟩) ∧
        Keeps (view s) (emptied w.symbols entries) := by
  simp only [commitClear, Action.runFrom_bind, Action.runFrom_get, emptied]
  split
  · next hc =>
    rw [← recreation]
    obtain ⟨hf, e, s, hs, hv⟩ | ⟨s, hs, hk⟩ := send_recreation (w := w) hb
    · exact .inl ⟨hf, e, s, entries, by rw [Action.runFrom_bind_error hs], by rw [hv]; exact h,
        .inl rfl, hc⟩
    · rw [Action.runFrom_bind_ok hs, storeCounter]
      obtain ⟨hf, e, s', hs', hv⟩ | ⟨s', hs', hk'⟩ := send_storeBinding (w := ⟨w.symbols, s⟩) hb hk
        counterKey (Text.decimal w.symbols.counter)
      · exact .inl ⟨hf, e, s', [], Action.runFrom_bind_error hs' _, by rw [hv]; exact hk, .inr rfl, hc⟩
      · exact .inr ⟨s', by rw [Action.runFrom_bind_ok hs']; rfl, hk'⟩
  · next hc =>
    refine .inr ⟨w.store, ?_, h⟩
    rw [Bool.not_eq_true] at hc
    simp [← hc]

/-- The names that variables have in the store once the bindings were forgotten. -/
theorem storedName?_emptied {db db' : Database} {t : SymbolTable} (h : Keeps db entries)
    (h' : Keeps db' (emptied t entries)) (var : String) :
    storedName? db' var = if t.cleared then none else storedName? db var := by
  rw [h'.storedName?, h.storedName?, emptied]
  by_cases hc : t.cleared = true
  · rw [if_pos hc, if_pos hc, OrderedMap.find?_put]
    by_cases hv : var = counterKey
    · simp [hv]
    · rw [if_neg hv, if_neg hv]; rfl
  · simp [hc]

theorem storedName?_put {db db' : Database} {var name : String} (h : Keeps db entries)
    (h' : Keeps db' (OrderedMap.put var name entries)) (v : String) :
    storedName? db' v = if v = var ∧ v ≠ counterKey then some name else storedName? db v := by
  rw [h'.storedName?, h.storedName?, OrderedMap.find?_put]
  by_cases hv : v = counterKey <;> simp [hv]

/-- What is pending is stored, one binding after the other, up to the first that fails. -/
theorem storePending_spec (hb : b.IsDatabase view fails) {pending : List (String × String)}
    (hnodup : (pending.map Prod.fst).Nodup) (h : Keeps (view w.store) entries) :
    ∃ r s rows, (pending.forM fun (var, name) => send b (.single (storeBinding var name))).runFrom w
        = (r, ⟨w.symbols, s⟩) ∧ Keeps (view s) rows ∧
      (∀ var, storedName? (view s) var = storedName? (view w.store) var ∨
        storedName? (view s) var = OrderedMap.find? pending var ∧
          (OrderedMap.find? pending var).isSome = true) ∧
      (r = .ok () → ∀ var, var ≠ counterKey → storedName? (view s) var
        = (OrderedMap.find? pending var).or (storedName? (view w.store) var)) ∧
      (¬ fails → r = .ok ()) := by
  induction pending generalizing w entries with
  | nil =>
    exact ⟨.ok (), w.store, entries, rfl, h, fun _ => .inl rfl, fun _ _ _ => rfl, fun _ => rfl⟩
  | cons p pending ih =>
    obtain ⟨var, name⟩ := p
    obtain ⟨hnew, hnodup⟩ := List.nodup_cons.1 hnodup
    rw [Action.forM_cons]
    obtain ⟨hf, e, s, hs, hv⟩ | ⟨s, hs, hk⟩ := send_storeBinding hb h var name
    · refine ⟨.error e, s, entries, Action.runFrom_bind_error hs _, by rw [hv]; exact h,
        fun _ => .inl (by rw [hv]), nofun, fun hn => (hn hf).elim⟩
    · obtain ⟨r, s', rows, hrun, hk', hpart, hall, hr⟩ := ih (w := ⟨w.symbols, s⟩) hnodup hk
      have hput := storedName?_put h hk
      have hnone := OrderedMap.find?_eq_none_iff.2 hnew
      refine ⟨r, s', rows, by rw [Action.runFrom_bind_ok hs]; exact hrun, hk', fun v => ?_,
        fun hr v hkey => ?_, hr⟩
      · rw [OrderedMap.find?_cons]
        by_cases hv : var = v
        · subst hv
          obtain hsame | ⟨-, hsome⟩ := hpart var
          · rw [hsame, hput]
            by_cases hkey : var = counterKey
            · simp [hkey]
            · simp [hkey]
          · rw [hnone] at hsome; cases hsome
        · obtain hsame | hpend := hpart v
          · exact .inl (by rw [hsame, hput, if_neg fun hc => hv hc.1.symm])
          · exact .inr (by simpa [hv] using hpend)
      · rw [hall hr v hkey, hput, OrderedMap.find?_cons]
        by_cases hv : var = v
        · subst hv
          simp [hnone, hkey]
        · rw [if_neg hv, if_neg fun hc => hv hc.1.symm]

/-- A commit fails before it takes what is pending, or takes it and stores some of it; all of it if
the commit succeeds. -/
theorem commit_spec (hb : b.IsDatabase view fails) (hnodup : (w.symbols.pending.map Prod.fst).Nodup)
    (h : Keeps (view w.store) entries) :
    (fails ∧ ∃ e s rows, (commit b).runFrom w = (.error e, ⟨w.symbols, s⟩) ∧ Keeps (view s) rows ∧
        (rows = entries ∨ rows = []) ∧ w.symbols.cleared = true) ∨
      ∃ r s rows, (commit b).runFrom w
          = (r, ⟨{ w.symbols with cleared := false, pending := [] }, s⟩) ∧ Keeps (view s) rows ∧
        (∀ var, storedName? (view s) var
            = (if w.symbols.cleared then none else storedName? (view w.store) var) ∨
          storedName? (view s) var = w.symbols.pending.find? var ∧
            (w.symbols.pending.find? var).isSome = true) ∧
        (r = .ok () → ∀ var, var ≠ counterKey →
          storedName? (view s) var = (w.symbols.pending.find? var).or
            (if w.symbols.cleared then none else storedName? (view w.store) var)) ∧
        (¬ fails → r = .ok ()) := by
  rw [commit]
  obtain ⟨hf, e, s, rows, hs, hk, hrows, hc⟩ | ⟨s, hs, hk⟩ := commitClear_spec hb h
  · exact .inl ⟨hf, e, s, rows, Action.runFrom_bind_error hs _, hk, hrows, hc⟩
  · obtain ⟨r, s', rows, hrun, hk', hpart, hall, hr⟩ := storePending_spec (w := ⟨{ w.symbols with
      cleared := false, pending := [] }, s⟩) hb hnodup hk
    simp only [storedName?_emptied h hk] at hpart hall
    refine .inr ⟨r, s', rows, ?_, hk', hpart, hall, hr⟩
    rw [Action.runFrom_bind_ok hs]
    exact hrun

/-! ## Discard -/

/-- A discard has nothing to do, or fails without effect, or returns to the stored bindings. -/
theorem discard_spec (hb : b.IsDatabase view fails) (h : Keeps (view w.store) entries) :
    ((discard b).runFrom w = (.ok (), w) ∧ w.symbols.pending = [] ∧ w.symbols.cleared = false) ∨
      ((Readable entries → fails) ∧
        ∃ e s, (discard b).runFrom w = (.error e, ⟨w.symbols, s⟩) ∧ view s = view w.store) ∨
      ∃ bindings s, (discard b).runFrom w
          = (.ok (), ⟨{ w.symbols with bindings, pending := [], cleared := false }, s⟩) ∧
        (w.symbols.pending.isEmpty && !w.symbols.cleared) = false ∧
        view s = view w.store ∧ ∀ var, bindings.find? var = storedName? (view w.store) var := by
  simp only [discard, Action.runFrom_bind, Action.runFrom_get]
  split
  · next hnone => exact .inl ⟨rfl, by simpa using hnone⟩
  · next hsome =>
    obtain ⟨hv, hread, hok⟩ := readStored_spec hb h
    generalize hrun : (readStored b).runFrom w.store = x at hv hread hok
    obtain ⟨result, s⟩ := x
    have halong : ((readStored b).along storeLens).runFrom w = (result, ⟨w.symbols, s⟩) := by
      simp [storeLens, hrun]
    cases result with
    | error e =>
      refine .inr (.inl ⟨fun hreadable => ?_, e, s, Action.runFrom_bind_error halong _, hv⟩)
      by_contra hf
      obtain ⟨stored, h⟩ := hok hf hreadable
      cases h
    | ok stored =>
      refine .inr (.inr ⟨stored.1, s, ?_, by simpa using hsome, hv, (hread stored rfl).2⟩)
      rw [Action.runFrom_bind_ok halong]
      rfl

/-! ## All else -/

section Undisturbed

open Action

variable {I : Database → Prop} (hb : b.IsDatabase view fails) (hI : Undisturbed I)

include hb hI

theorem send_preserves {closed : Bool} {ss : List Statement}
    (hss : ∀ s ∈ ss, ∀ t ∈ s.target?, t = relation) :
    Preserves (fun w => I (view w.store)) (send b (.batch closed ss)) :=
  ((hb.execute_preserves fun _ => hI closed ss hss _).bind fun _ => .pure _).along (fun _ h => h)
    fun _ _ h _ => h

theorem send_storeBinding_preserves (var name : String) :
    Preserves (fun w => I (view w.store)) (send b (.single (storeBinding var name))) :=
  send_preserves hb hI (by simp [storeBinding, Statement.target?])

theorem freshNumber_preserves : Preserves (fun w => I (view w.store)) (freshNumber b) :=
  .bind .read fun _ => (send_storeBinding_preserves hb hI counterKey _).bind fun _ =>
    .bind (.modify fun _ h => h) fun _ => .pure _

theorem commitClear_preserves : Preserves (fun w => I (view w.store)) (commitClear b) := by
  refine .bind .read fun w => ?_
  dsimp only
  split
  · exact (send_preserves hb hI (by simp [Statement.discard, createRelation,
      Statement.target?])).bind fun _ => (send_storeBinding_preserves hb hI counterKey _).bind
        fun _ => .modify fun _ h => h
  · exact .pure _

theorem commit_preserves : Preserves (fun w => I (view w.store)) (commit b) :=
  (commitClear_preserves hb hI).bind fun _ => .bind .read fun _ => .bind (.modify fun _ h => h)
    fun _ => .forM fun p _ => send_storeBinding_preserves hb hI p.1 p.2

theorem discard_preserves : Preserves (fun w => I (view w.store)) (discard b) := by
  refine .bind .read fun w => ?_
  dsimp only
  split
  · exact .pure _
  · exact ((readStored_preserves hb hI).along (l := storeLens) (fun _ h => h) fun _ _ h _ => h).bind
      fun _ => .modify fun _ h => h

end Undisturbed

end Provenance.Workspace

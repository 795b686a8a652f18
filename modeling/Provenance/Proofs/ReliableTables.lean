import Provenance.Proofs.Workspaces

/-!
# Symbol tables over a store that does not fail

What the operations on a symbol table leave in the relation of the bindings, row by row, if no call
fails. The row of the counter is one of these rows: nothing but a new number changes it.
-/

namespace Provenance

open Store

namespace OrderedMap

section Put

variable {α β : Type} [DecidableEq α]

/-- The pairs with further ones put in one after the other. -/
def putAll (pairs m : List (α × β)) : List (α × β) := pairs.foldl (fun m p => put p.1 p.2 m) m

theorem find?_putAll {pairs : List (α × β)} (h : (pairs.map Prod.fst).Nodup) (m : List (α × β))
    (key : α) : find? (putAll pairs m) key = (find? pairs key).or (find? m key) := by
  induction pairs generalizing m with
  | nil => rfl
  | cons p pairs ih =>
    obtain ⟨hnew, hnodup⟩ := List.nodup_cons.1 h
    rw [putAll, List.foldl_cons, ← putAll, ih hnodup, find?_put, find?_cons]
    by_cases hkey : p.1 = key
    · subst hkey
      simp [find?_eq_none_iff.2 hnew]
    · simp [hkey, Ne.symm hkey]

end Put

section Sorted

variable {α β : Type} [LinearOrder α]

/-- Ordered maps are equal if all keys have the same values. -/
theorem Sorted.ext {m n : OrderedMap α β} (hm : m.Sorted) (hn : n.Sorted)
    (h : ∀ key, m.find? key = n.find? key) : m = n := by
  induction m generalizing n with
  | nil =>
    cases n with
    | nil => rfl
    | cons q n => simpa [find?_cons] using h q.1
  | cons p m ih =>
    cases n with
    | nil => simpa [find?_cons] using h p.1
    | cons q n =>
      obtain ⟨hp, hm⟩ := List.pairwise_cons.1 hm
      obtain ⟨hq, hn⟩ := List.pairwise_cons.1 hn
      have hkeys : p.1 = q.1 := by
        by_contra hne
        rcases lt_or_gt_of_ne hne with hlt | hlt
        · have hp' := h p.1
          rw [find?_cons, if_pos rfl, find?_cons, if_neg (Ne.symm hne)] at hp'
          have hmem : p.1 ∈ n.map Prod.fst := by
            by_contra hnone
            rw [find?_eq_none_iff.2 hnone] at hp'
            cases hp'
          exact lt_asymm hlt (hq _ hmem)
        · have hq' := h q.1
          rw [find?_cons, if_neg hne, find?_cons, if_pos rfl] at hq'
          have hmem : q.1 ∈ m.map Prod.fst := by
            by_contra hnone
            rw [find?_eq_none_iff.2 hnone] at hq'
            cases hq'
          exact lt_asymm hlt (hp _ hmem)
      have hvalue : p.2 = q.2 := by
        have := h p.1
        rw [find?_cons, if_pos rfl, find?_cons, if_pos hkeys.symm] at this
        exact Option.some.inj this
      have hrest : m = n := by
        refine ih hm hn fun key => ?_
        have hkey := h key
        rw [find?_cons, find?_cons, ← hkeys] at hkey
        by_cases he : p.1 = key
        · subst he
          rw [find?_eq_none_iff.2 fun hmem => lt_irrefl _ (hp _ hmem),
            find?_eq_none_iff.2 fun hmem => lt_irrefl _ (hkeys ▸ hq _ hmem)]
        · simpa [he] using hkey
      rw [hrest, Prod.ext hkeys hvalue]

end Sorted

end OrderedMap

namespace SymbolTable

variable {σ : Type} {b : Backend σ} {view : σ → Database} {entries : List (String × String)}

/-- The number that the row of the counter has: 0 if there is no such row. -/
def counterOf (entries : List (String × String)) : Option Int :=
  match OrderedMap.find? entries counterKey with
  | none => some 0
  | some text => Text.trimmedWord? text

theorem readable_iff : Readable entries ↔ (counterOf entries).isSome = true := by
  rw [Readable, counterOf]
  cases OrderedMap.find? entries counterKey <;> simp

/-- The number that the stored counter has: 0 if it was never stored. -/
def storedCounter? (db : Database) : Option Int :=
  match db.table? relation with
  | none => some 0
  | some t =>
    match t.rows.findSome? fun
      | [.text v, .text text] => if v = counterKey then some text else none
      | _ => none with
    | none => some 0
    | some text => Text.trimmedWord? text

theorem Keeps.storedCounter? {db : Database} (h : Keeps db entries) :
    storedCounter? db = counterOf entries := by
  obtain ⟨-, t, ht, -, hrows⟩ := h
  have hfind : (t.rows.findSome? fun
      | [.text v, .text text] => if v = counterKey then some text else none
      | _ => none) = OrderedMap.find? entries counterKey := by
    rw [hrows]
    clear ht hrows
    induction entries with
    | nil => rfl
    | cons e entries ih =>
      rw [List.map_cons, List.findSome?_cons, OrderedMap.find?_cons]
      by_cases he : e.1 = counterKey
      · simp [entryRow, he]
      · simpa [entryRow, he] using ih
  rw [SymbolTable.storedCounter?, ht, counterOf]
  dsimp only
  rw [hfind]

theorem isWord_of_trimmedWord? {text : String} {n : Int} (h : Text.trimmedWord? text = some n) :
    Text.isWord n = true :=
  (Option.filter_eq_some_iff.1 h).2

theorem isWord_of_storedCounter? {db : Database} {n : Int} (h : storedCounter? db = some n) :
    Text.isWord n = true := by
  rw [SymbolTable.storedCounter?] at h
  split at h
  · cases h; decide
  · split at h
    · cases h; decide
    · exact isWord_of_trimmedWord? h

theorem storedCounter?_congr {db db' : Database} (h : db'.table? relation = db.table? relation) :
    storedCounter? db' = storedCounter? db := by
  rw [storedCounter?, storedCounter?, h]

/-! ## Reading -/

theorem foldlM_readRow_sorted {stored result : Stored} (hsorted : stored.1.Sorted)
    (h : (entries.map fun e => [e.1, e.2]).foldlM readRow stored = .ok result) :
    result.1.Sorted := by
  induction entries generalizing stored with
  | nil => cases h; exact hsorted
  | cons e entries ih =>
    rw [List.map_cons, List.foldlM_cons] at h
    by_cases he : e.1 = counterKey
    · cases hword : Text.trimmedWord? e.2 with
      | none => simp only [readRow, he, if_true, hword] at h; cases h
      | some n =>
        simp only [readRow, he, if_true, hword] at h
        have hrest : (entries.map fun e => [e.1, e.2]).foldlM readRow (stored.1, n) = .ok result := h
        exact ih (by exact hsorted) hrest
    · simp only [readRow, he, if_false] at h
      exact ih (hsorted.insert e.1 e.2) h

theorem foldlM_readRow_counter {stored result : Stored} (hnodup : (entries.map Prod.fst).Nodup)
    (h : (entries.map fun e => [e.1, e.2]).foldlM readRow stored = .ok result) :
    (match OrderedMap.find? entries counterKey with
      | none => some stored.2
      | some text => Text.trimmedWord? text) = some result.2 := by
  induction entries generalizing stored with
  | nil => cases h; rfl
  | cons e entries ih =>
    obtain ⟨hnew, hnodup⟩ := List.nodup_cons.1 hnodup
    rw [List.map_cons, List.foldlM_cons] at h
    rw [OrderedMap.find?_cons]
    by_cases he : e.1 = counterKey
    · cases hword : Text.trimmedWord? e.2 with
      | none => simp only [readRow, he, if_true, hword] at h; cases h
      | some n =>
        simp only [readRow, he, if_true, hword] at h
        have := ih hnodup h
        rw [OrderedMap.find?_eq_none_iff.2 (he ▸ hnew)] at this
        simpa [he, hword] using this
    · simp only [readRow, he, if_false] at h
      simpa [he] using ih hnodup h

/-- What is read from the relation: the stored bindings in order, and the counter. -/
structure Reads (db : Database) (stored : Stored) : Prop where
  sorted : stored.1.Sorted
  bindings : ∀ var, stored.1.find? var = storedName? db var
  counter : storedCounter? db = some stored.2

theorem readStored_reliable (hb : b.IsDatabase view False) {s : σ} (h : Keeps (view s) entries)
    (hreadable : Readable entries) :
    ∃ stored s', (readStored b).runFrom s = (.ok stored, s') ∧ view s' = view s ∧
      Reads (view s) stored := by
  obtain ⟨hv, hread, hok⟩ := readStored_spec hb h
  obtain ⟨stored, hstored⟩ := hok id hreadable
  refine ⟨stored, ((readStored b).runFrom s).2, Prod.ext hstored rfl, hv, ?_⟩
  have hrows : (entries.map fun e => [e.1, e.2]).foldlM readRow ([], 0) = .ok stored := by
    rw [runFrom_readStored] at hstored
    obtain ⟨hf, -⟩ | ⟨hr, -⟩ := hb.queryRows readRequest s
    · exact hf.elim
    · rw [queryRows_keeps h] at hr
      split at hstored
      · next heq => rw [heq] at hr; cases hr; exact hstored
      · next heq => rw [heq] at hr; cases hr
  exact ⟨foldlM_readRow_sorted (by exact List.Pairwise.nil) hrows, (hread stored hstored).2, by
    rw [h.storedCounter?, counterOf]; exact foldlM_readRow_counter h.nodup hrows⟩

/-- Creating the relation stores no counter. -/
theorem storedCounter?_createRelation {db db' : Database} (h : Intact db)
    (hrun : db.run (.single createRelation) = (.ok none, db')) :
    storedCounter? db' = storedCounter? db := by
  obtain hnone | ⟨rows, hrows⟩ := h
  · have hadd : db' = db.add emptyRelation := by
      have := Database.run_single_ok (apply_createRelation_absent hnone)
      rw [hrun] at this
      exact congrArg Prod.snd this
    rw [hadd, (keeps_add_emptyRelation hnone).storedCounter?, storedCounter?, hnone]
    rfl
  · obtain ⟨t, ht, -⟩ := hrows.table
    have := Database.run_single_ok (apply_createRelation_present ht)
    rw [hrun] at this
    rw [show db' = db from congrArg Prod.snd this]

/-- A symbol table can be loaded if the counter can be read. -/
theorem load_reliable (hb : b.IsDatabase view False) {s : σ} (h : Intact (view s))
    (hcounter : (storedCounter? (view s)).isSome = true) :
    ∃ t s' entries, (load b).runFrom s = (.ok t, s') ∧ Keeps (view s') entries ∧
      Reads (view s') (t.bindings, t.counter) ∧ t.pending = [] ∧ t.cleared = false ∧
      (∀ var, storedName? (view s') var = storedName? (view s) var) ∧
      storedCounter? (view s') = storedCounter? (view s) := by
  obtain ⟨db, entries, hrun, hk, hsame⟩ := run_createRelation h
  have hkept := storedCounter?_createRelation h hrun
  obtain ⟨hf, -⟩ | ⟨s₁, hs₁, rfl⟩ := hb.perform_ok hrun
  · exact hf.elim
  · obtain ⟨stored, s₂, hs₂, hv, hreads⟩ := readStored_reliable hb hk
      (readable_iff.2 (by rw [← hk.storedCounter?, hkept]; exact hcounter))
    refine ⟨⟨stored.1, [], false, stored.2⟩, s₂, entries, ?_, by rw [hv]; exact hk, ?_, rfl, rfl, fun var => by rw [hv, hsame],
      by rw [hv, hkept]⟩
    · rw [load, Action.runFrom_bind_ok hs₁, Action.runFrom_bind_ok hs₂]; rfl
    · rw [hv]; exact hreads

end SymbolTable

namespace Workspace

open SymbolTable

variable {σ : Type} {b : Backend σ} {view : σ → Database} {w : Workspace σ}
  {entries : List (String × String)}

/-! ## New numbers, commit and discard -/

theorem freshNumber_reliable (hb : b.IsDatabase view False) (h : Keeps (view w.store) entries) :
    ∃ s, (freshNumber b).runFrom w = (.ok (wordAfter w.symbols.counter),
        ⟨{ w.symbols with counter := wordAfter w.symbols.counter }, s⟩) ∧
      Keeps (view s)
        (OrderedMap.put counterKey (Text.decimal (wordAfter w.symbols.counter)) entries) := by
  obtain ⟨hf, -⟩ | hok := freshNumber_spec hb h
  · exact hf.elim
  · exact hok

theorem storePending_reliable (hb : b.IsDatabase view False) (pending : List (String × String))
    (h : Keeps (view w.store) entries) :
    ∃ s, (pending.forM fun (var, name) => send b (.single (storeBinding var name))).runFrom w
        = (.ok (), ⟨w.symbols, s⟩) ∧ Keeps (view s) (OrderedMap.putAll pending entries) := by
  induction pending generalizing w entries with
  | nil => exact ⟨w.store, rfl, h⟩
  | cons p pending ih =>
    obtain ⟨hf, -⟩ | ⟨s, hs, hk⟩ := send_storeBinding hb h p.1 p.2
    · exact hf.elim
    · obtain ⟨s', hs', hk'⟩ := ih (w := ⟨w.symbols, s⟩) hk
      exact ⟨s', by rw [Action.forM_cons, Action.runFrom_bind_ok hs, hs'], hk'⟩

/-- A commit empties the relation if the bindings were forgotten, and stores what is pending. -/
theorem commit_reliable (hb : b.IsDatabase view False) (h : Keeps (view w.store) entries) :
    ∃ s, (commit b).runFrom w = (.ok (), ⟨{ w.symbols with cleared := false, pending := [] }, s⟩) ∧
      Keeps (view s) (OrderedMap.putAll w.symbols.pending (emptied w.symbols entries)) := by
  obtain ⟨hf, -⟩ | ⟨s, hs, hk⟩ := commitClear_spec hb h
  · exact hf.elim
  · obtain ⟨s', hs', hk'⟩ := storePending_reliable (w := ⟨{ w.symbols with
      cleared := false, pending := [] }, s⟩) hb w.symbols.pending hk
    refine ⟨s', ?_, hk'⟩
    rw [commit, Action.runFrom_bind_ok hs]
    exact hs'

/-- A discard leaves the stored bindings in memory, if those there were the stored ones overridden
by what is pending. -/
theorem discard_reliable (hb : b.IsDatabase view False) (h : Keeps (view w.store) entries)
    (hreadable : Readable entries) (hsorted : w.symbols.bindings.Sorted)
    (hmirror : ∀ var, w.symbols.bindings.find? var = (w.symbols.pending.find? var).or
      (if w.symbols.cleared then none else storedName? (view w.store) var)) :
    ∃ bindings s, (discard b).runFrom w
        = (.ok (), ⟨{ w.symbols with bindings, pending := [], cleared := false }, s⟩) ∧
      view s = view w.store ∧ bindings.Sorted ∧
      ∀ var, bindings.find? var = storedName? (view w.store) var := by
  simp only [discard, Action.runFrom_bind, Action.runFrom_get]
  split
  · next hnone =>
    obtain ⟨hpending, hcleared⟩ : w.symbols.pending = [] ∧ w.symbols.cleared = false := by
      simpa using hnone
    refine ⟨w.symbols.bindings, w.store, ?_, rfl, hsorted, fun var => ?_⟩
    · rw [← hpending, ← hcleared]; rfl
    · rw [hmirror var, hpending, hcleared]; rfl
  · obtain ⟨stored, s, hs, hv, hreads⟩ := readStored_reliable hb h hreadable
    have halong : ((readStored b).along storeLens).runFrom w = (.ok stored, ⟨w.symbols, s⟩) := by
      simp [storeLens, hs]
    refine ⟨stored.1, s, ?_, hv, hreads.sorted, hreads.bindings⟩
    rw [Action.runFrom_bind_ok halong]
    rfl

end Workspace

end Provenance

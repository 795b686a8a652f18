import Provenance.Proofs.Collections
import Provenance.Proofs.ReliableTables

/-!
# A symbol table as a map with two levels

What a symbol table is for its users: a *committed* map, a *working* map that is read and changed,
and the number of the last name given out. A commit makes the committed map equal to the working one,
a discard or a new load makes the working map equal to the committed one, and only a new name changes
the number.

The symbol table keeps the working map as a copy in memory, a map of what is pending and a mark that
all was forgotten; the committed map and the number share one stored relation. Over a store that does
not fail, any sequence of calls has the replies of the two maps. Numbers are given out as signed
64-bit words.
-/

namespace Provenance

open Store SymbolTable Workspace

/-- What can be asked of a symbol table and its store. -/
inductive TableCall where
  | lookup (var : String)
  | symbols
  | bind (var name : String)
  | freshGraph
  | freshMetadata
  | clear
  | commit
  | discard
  | collect
  | reload
  deriving DecidableEq, Repr

/-- What a call replies. The number of relations that a collection drops is left out. -/
inductive TableReply where
  | done
  | refused
  | found (name : Option String)
  | bindings (list : List (String × String))
  | given (name : String)
  deriving DecidableEq, Repr

namespace TableCall

variable {σ : Type}

/-- Makes a call. -/
def run (b : Backend σ) : TableCall → Action (Workspace σ) BackendError TableReply
  | lookup var => do
    let w ← get
    pure (.found (w.symbols.lookup? var))
  | symbols => do
    let w ← get
    pure (.bindings w.symbols.bindings)
  | bind var name => do
    let w ← get
    match w.symbols.bind? var name with
    | none => pure .refused
    | some t => do
      set { w with symbols := t }
      pure .done
  | freshGraph => do
    let g ← Workspace.freshGraph b
    pure (.given g.name)
  | freshMetadata => do
    let m ← Workspace.freshMetadata b
    pure (.given m.name)
  | clear => do
    modifySymbols SymbolTable.clear
    pure .done
  | commit => do
    Workspace.commit b
    pure .done
  | discard => do
    Workspace.discard b
    pure .done
  | collect => do
    let _ ← Workspace.collect b
    pure .done
  | reload => do
    let t ← (SymbolTable.load b).along storeLens
    modifySymbols fun _ => t
    pure .done

/-- Makes calls one after the other. -/
def runAll (b : Backend σ) : List TableCall → Action (Workspace σ) BackendError (List TableReply)
  | [] => pure []
  | c :: cs => do
    let reply ← c.run b
    let replies ← runAll b cs
    pure (reply :: replies)

/-- The row of the counter is not bound. -/
def IsPlain : TableCall → Prop
  | bind var _ => var ≠ counterKey
  | _ => True

instance : DecidablePred IsPlain := fun c => by cases c <;> unfold IsPlain <;> infer_instance

end TableCall

/-- The signed 64-bit word that an integer is taken for. -/
def wrapped (n : Int) : Int := n.bmod (Nat.pow 2 64)

theorem isWord_wrapped (n : Int) : Text.isWord (wrapped n) = true := by
  simpa [wordAfter, wrapped] using isWord_wordAfter (n - 1)

theorem wrapped_of_isWord {n : Int} (h : Text.isWord n = true) : wrapped n = n := by
  rw [Text.isWord, Bool.and_eq_true, decide_eq_true_eq, decide_eq_true_eq] at h
  refine Int.bmod_eq_of_le ?_ ?_
  · change -(2 ^ 64 / 2) ≤ n
    omega
  · change n < (2 ^ 64 + 1) / 2
    omega

theorem wordAfter_wrapped (n : Int) : wordAfter (wrapped n) = wrapped (n + 1) := by
  rw [wordAfter, wrapped, wrapped, Int.bmod_add_bmod]

/-- Two levels of bindings, and how many names were given out in all. -/
structure TwoLevels where
  committed : OrderedMap String String
  working : OrderedMap String String
  counter : Int

namespace TwoLevels

/-- The reply to a call, and the levels after it. -/
def step (m : TwoLevels) : TableCall → TableReply × TwoLevels
  | .lookup var =>
    (.found (if var = baseVariable then some Graph.base.name else m.working.find? var), m)
  | .symbols => (.bindings m.working, m)
  | .bind var name =>
    if var = baseVariable then (.refused, m)
    else (.done, { m with working := m.working.insert var name })
  | .freshGraph => (.given (graphPrefix ++ Text.decimal (wrapped (m.counter + 1))),
      { m with counter := m.counter + 1 })
  | .freshMetadata => (.given (metadataPrefix ++ Text.decimal (wrapped (m.counter + 1))),
      { m with counter := m.counter + 1 })
  | .clear => (.done, { m with working := [] })
  | .commit => (.done, { m with committed := m.working })
  | .discard => (.done, { m with working := m.committed })
  | .collect => (.done, m)
  | .reload => (.done, { m with working := m.committed })

def replies (m : TwoLevels) : List TableCall → List TableReply
  | [] => []
  | c :: cs => (m.step c).1 :: (m.step c).2.replies cs

def after (m : TwoLevels) (calls : List TableCall) : TwoLevels :=
  calls.foldl (fun m c => (m.step c).2) m

variable {σ : Type} {b : Backend σ} {view : σ → Database} {m : TwoLevels} {w : Workspace σ}

/-- A workspace shows the two levels. The bindings in memory are the stored ones, unless these were
forgotten, overridden by the pending ones. -/
structure ShownBy (view : σ → Database) (m : TwoLevels) (w : Workspace σ) : Prop where
  working : w.symbols.bindings = m.working
  committed : ∀ var, storedName? (view w.store) var = m.committed.find? var
  counter : w.symbols.counter = wrapped m.counter
  durable : storedCounter? (view w.store) = some w.symbols.counter
  mirror : ∀ var, w.symbols.bindings.find? var = (w.symbols.pending.find? var).or
    (if w.symbols.cleared then none else storedName? (view w.store) var)
  keeps : ∃ entries, Keeps (view w.store) entries
  noCounter : counterKey ∉ w.symbols.pending.map Prod.fst
  sortedPending : w.symbols.pending.Sorted
  sortedWorking : m.working.Sorted
  sortedCommitted : m.committed.Sorted

namespace ShownBy

/-- A store in which the relation of the bindings is as before. -/
theorem of_store (h : ShownBy view m w) {s : σ}
    (hs : (view s).table? relation = (view w.store).table? relation) :
    ShownBy view m ⟨w.symbols, s⟩ where
  working := h.working
  committed var := by rw [storedName?_congr hs]; exact h.committed var
  counter := h.counter
  durable := by rw [storedCounter?_congr hs]; exact h.durable
  mirror var := by rw [storedName?_congr hs]; exact h.mirror var
  keeps := h.keeps.imp fun _ hk => hk.congr hs
  noCounter := h.noCounter
  sortedPending := h.sortedPending
  sortedWorking := h.sortedWorking
  sortedCommitted := h.sortedCommitted

theorem lookup? (h : ShownBy view m w) (var : String) : w.symbols.lookup? var
    = if var = baseVariable then some Graph.base.name else m.working.find? var := by
  rw [SymbolTable.lookup?, h.working]

theorem bind (h : ShownBy view m w) {var : String} (hvar : var ≠ counterKey) (name : String) :
    ShownBy view { m with working := m.working.insert var name }
      { w with symbols := { w.symbols with
        bindings := w.symbols.bindings.insert var name
        pending := w.symbols.pending.insert var name } } where
  working := by rw [h.working]
  committed := h.committed
  counter := h.counter
  durable := h.durable
  mirror v := by
    have := h.mirror v
    simp only [OrderedMap.find?_insert]
    split <;> simp [this]
  keeps := h.keeps
  noCounter := by simpa [OrderedMap.mem_keys_insert, Ne.symm hvar] using h.noCounter
  sortedPending := h.sortedPending.insert var name
  sortedWorking := h.sortedWorking.insert var name
  sortedCommitted := h.sortedCommitted

theorem clear (h : ShownBy view m w) :
    ShownBy view { m with working := [] } { w with symbols := w.symbols.clear } where
  working := rfl
  committed := h.committed
  counter := h.counter
  durable := h.durable
  mirror _ := rfl
  keeps := h.keeps
  noCounter := List.not_mem_nil
  sortedPending := List.Pairwise.nil
  sortedWorking := List.Pairwise.nil
  sortedCommitted := h.sortedCommitted

/-- A new number is stored with the bindings left alone. -/
theorem fresh (hb : b.IsDatabase view False) (h : ShownBy view m w) :
    ∃ w', (freshNumber b).runFrom w = (.ok (wrapped (m.counter + 1)), w') ∧
      ShownBy view { m with counter := m.counter + 1 } w' := by
  obtain ⟨entries, hk⟩ := h.keeps
  obtain ⟨s, hs, hk'⟩ := freshNumber_reliable hb hk
  have hnext : wordAfter w.symbols.counter = wrapped (m.counter + 1) := by
    rw [h.counter, wordAfter_wrapped]
  have hstored : ∀ var, storedName? (view s) var = storedName? (view w.store) var := fun var => by
    rw [storedName?_put hk hk', if_neg fun hc => hc.2 hc.1]
  rw [hnext] at hs hk'
  refine ⟨_, hs, h.working, fun var => by rw [hstored]; exact h.committed var, rfl, ?_,
    fun var => by rw [hstored]; exact h.mirror var, ⟨_, hk'⟩, h.noCounter, h.sortedPending,
    h.sortedWorking, h.sortedCommitted⟩
  rw [hk'.storedCounter?, counterOf, OrderedMap.find?_put, if_pos rfl]
  exact Text.trimmedWord?_decimal (isWord_wrapped _)

/-- The row that a variable has once all that is pending was stored. -/
theorem find?_stored (h : ShownBy view m w) {entries : List (String × String)}
    (hk : Keeps (view w.store) entries) (var : String) :
    OrderedMap.find? (OrderedMap.putAll w.symbols.pending (emptied w.symbols entries)) var
      = if var = counterKey then OrderedMap.find? (emptied w.symbols entries) counterKey
        else m.working.find? var := by
  rw [OrderedMap.find?_putAll h.sortedPending.nodup]
  split
  · next hvar =>
    rw [hvar, OrderedMap.find?_eq_none_iff.2 h.noCounter]
    rfl
  · next hvar =>
    rw [← h.working, h.mirror var, hk.storedName?, if_neg hvar, emptied]
    cases w.symbols.cleared <;> simp [OrderedMap.find?_put, hvar]

theorem commit (hb : b.IsDatabase view False) (h : ShownBy view m w) :
    ∃ w', (Workspace.commit b).runFrom w = (.ok (), w') ∧
      ShownBy view { m with committed := m.working } w' := by
  obtain ⟨entries, hk⟩ := h.keeps
  obtain ⟨s, hs, hk'⟩ := commit_reliable hb hk
  have hworking : m.working.find? counterKey = none := by
    rw [← h.working, h.mirror, OrderedMap.find?_eq_none_iff.2 h.noCounter, hk.storedName?]
    simp
  have hstored : ∀ var, storedName? (view s) var = m.working.find? var := fun var => by
    rw [hk'.storedName?, h.find?_stored hk]
    split
    · next hvar => rw [hvar, hworking]
    · rfl
  refine ⟨_, hs, h.working, hstored, h.counter, ?_, fun var => ?_, ⟨_, hk'⟩, List.not_mem_nil,
    List.Pairwise.nil, h.sortedWorking, h.sortedWorking⟩
  · have hdurable := h.durable
    rw [hk.storedCounter?, counterOf] at hdurable
    rw [hk'.storedCounter?, counterOf, h.find?_stored hk, if_pos rfl, emptied]
    split
    · next hnone =>
      split at hnone
      · rw [OrderedMap.find?_put, if_pos rfl] at hnone; cases hnone
      · rw [hnone] at hdurable; exact hdurable
    · next text htext =>
      split at htext
      · rw [OrderedMap.find?_put, if_pos rfl] at htext
        cases htext
        rw [h.counter]
        exact Text.trimmedWord?_decimal (isWord_wrapped _)
      · rw [htext] at hdurable; exact hdurable
  · rw [hstored, ← h.working]; rfl

/-- The bindings that are read are those of the committed level. -/
theorem eq_committed (h : ShownBy view m w) {bindings : OrderedMap String String}
    (hsorted : bindings.Sorted)
    (hbindings : ∀ var, bindings.find? var = storedName? (view w.store) var) :
    bindings = m.committed :=
  hsorted.ext h.sortedCommitted fun var => by rw [hbindings, h.committed]

/-- Memory is read again: nothing is pending, and the working level is the committed one. -/
theorem reread (h : ShownBy view m w) {s : σ} {bindings : OrderedMap String String}
    (hs : ∀ var, storedName? (view s) var = storedName? (view w.store) var)
    (hcounter : storedCounter? (view s) = storedCounter? (view w.store))
    (hkeeps : ∃ entries, Keeps (view s) entries) (hsorted : bindings.Sorted)
    (hbindings : ∀ var, bindings.find? var = storedName? (view w.store) var) :
    ShownBy view { m with working := m.committed }
      ⟨{ w.symbols with bindings, pending := [], cleared := false }, s⟩ where
  working := h.eq_committed hsorted hbindings
  committed var := by rw [hs]; exact h.committed var
  counter := h.counter
  durable := by rw [hcounter]; exact h.durable
  mirror var := by rw [hs]; exact hbindings var
  keeps := hkeeps
  noCounter := List.not_mem_nil
  sortedPending := List.Pairwise.nil
  sortedWorking := h.sortedCommitted
  sortedCommitted := h.sortedCommitted

theorem discard (hb : b.IsDatabase view False) (h : ShownBy view m w) :
    ∃ w', (Workspace.discard b).runFrom w = (.ok (), w') ∧
      ShownBy view { m with working := m.committed } w' := by
  obtain ⟨entries, hk⟩ := h.keeps
  have hreadable : Readable entries := readable_iff.2 (by rw [← hk.storedCounter?, h.durable]; rfl)
  obtain ⟨bindings, s, hs, hv, hsorted, hbindings⟩ :=
    discard_reliable hb hk hreadable (by rw [h.working]; exact h.sortedWorking) h.mirror
  exact ⟨_, hs, h.reread (fun _ => by rw [hv]) (by rw [hv]) ⟨entries, by rw [hv]; exact hk⟩ hsorted
    hbindings⟩

theorem collect (hb : b.IsDatabase view False) (h : ShownBy view m w) :
    ∃ n w', (Workspace.collect b).runFrom w = (.ok n, w') ∧ ShownBy view m w' := by
  obtain ⟨hf, -⟩ | ⟨n, s, hs, hv⟩ := collect_spec (w := w) hb
  · exact hf.elim
  · refine ⟨n, _, hs, h.of_store ?_⟩
    rw [hv, table?_relation_collected]

/-- A symbol table that is loaded anew has the committed level and the number that was stored. -/
theorem reload (hb : b.IsDatabase view False) (h : ShownBy view m w) :
    ∃ t s, (SymbolTable.load b).runFrom w.store = (.ok t, s) ∧
      ShownBy view { m with working := m.committed } ⟨t, s⟩ := by
  obtain ⟨entries, hk⟩ := h.keeps
  obtain ⟨t, s, entries', hs, hk', hreads, hpending, hcleared, hsame, hcounter⟩ :=
    load_reliable hb (.inr ⟨entries, hk⟩) (by rw [h.durable]; rfl)
  refine ⟨t, s, hs, ?_⟩
  have ht : t = { w.symbols with bindings := t.bindings, pending := [], cleared := false } := by
    have hnumber : t.counter = w.symbols.counter :=
      Option.some.inj (hreads.counter.symm.trans (hcounter.trans h.durable))
    simp only [← hpending, ← hcleared, ← hnumber]
  rw [ht]
  exact h.reread hsame hcounter ⟨entries', hk'⟩ hreads.sorted fun var =>
    (hreads.bindings var).trans (hsame var)

end ShownBy

/-! ## Calls -/

/-- A call has the reply of the two levels, and leads to a workspace that shows them. -/
theorem run_step (hb : b.IsDatabase view False) (h : ShownBy view m w) {c : TableCall}
    (hc : c.IsPlain) :
    ∃ w', (c.run b).runFrom w = (.ok (m.step c).1, w') ∧ ShownBy view (m.step c).2 w' := by
  cases c with
  | lookup var =>
    exact ⟨w, by rw [TableCall.run, Action.runFrom_bind_ok (Action.runFrom_get w), h.lookup?]; rfl, h⟩
  | symbols =>
    exact ⟨w, by rw [TableCall.run, Action.runFrom_bind_ok (Action.runFrom_get w), h.working]; rfl, h⟩
  | bind var name =>
    rw [TableCall.run, Action.runFrom_bind_ok (Action.runFrom_get w), SymbolTable.bind?, step]
    by_cases hbase : var = baseVariable
    · simp only [if_pos hbase]
      exact ⟨w, rfl, h⟩
    · simp only [if_neg hbase]
      exact ⟨_, rfl, h.bind hc name⟩
  | freshGraph =>
    obtain ⟨w', hw, h'⟩ := h.fresh hb
    refine ⟨w', ?_, h'⟩
    rw [TableCall.run, Action.runFrom_bind, runFrom_freshGraph, hw]
    rfl
  | freshMetadata =>
    obtain ⟨w', hw, h'⟩ := h.fresh hb
    refine ⟨w', ?_, h'⟩
    rw [TableCall.run, Action.runFrom_bind, runFrom_freshMetadata, hw]
    rfl
  | clear => exact ⟨_, rfl, h.clear⟩
  | commit =>
    obtain ⟨w', hw, h'⟩ := h.commit hb
    exact ⟨w', by rw [TableCall.run, Action.runFrom_bind_ok hw]; rfl, h'⟩
  | discard =>
    obtain ⟨w', hw, h'⟩ := h.discard hb
    exact ⟨w', by rw [TableCall.run, Action.runFrom_bind_ok hw]; rfl, h'⟩
  | collect =>
    obtain ⟨n, w', hw, h'⟩ := h.collect hb
    exact ⟨w', by rw [TableCall.run, Action.runFrom_bind_ok hw]; rfl, h'⟩
  | reload =>
    obtain ⟨t, s, hs, h'⟩ := h.reload hb
    have halong : ((SymbolTable.load b).along storeLens).runFrom w = (.ok t, ⟨w.symbols, s⟩) := by
      simp [storeLens, hs]
    exact ⟨⟨t, s⟩, by rw [TableCall.run, Action.runFrom_bind_ok halong]; rfl, h'⟩

theorem run_calls (hb : b.IsDatabase view False) {calls : List TableCall}
    (hcalls : ∀ c ∈ calls, c.IsPlain) (h : ShownBy view m w) :
    ∃ w', (TableCall.runAll b calls).runFrom w = (.ok (m.replies calls), w') ∧
      ShownBy view (m.after calls) w' := by
  induction calls generalizing m w with
  | nil => exact ⟨w, rfl, h⟩
  | cons c cs ih =>
    obtain ⟨w₁, hw₁, h₁⟩ := run_step hb h (hcalls c List.mem_cons_self)
    obtain ⟨w₂, hw₂, h₂⟩ := ih (fun c' hc' => hcalls c' (List.mem_cons_of_mem c hc')) h₁
    refine ⟨w₂, ?_, h₂⟩
    rw [TableCall.runAll, Action.runFrom_bind_ok hw₁, Action.runFrom_bind_ok hw₂]
    rfl

/-- Over a store that does not fail, a symbol table is loaded as two equal levels, the stored
bindings, and any calls from there have the replies of the two levels and lead to a workspace that
shows them. The numbers given out are those of the levels as long as these are words. -/
theorem replies_runAll (hb : b.IsDatabase view False) {s : σ} (hdb : Intact (view s))
    (hcounter : (storedCounter? (view s)).isSome = true) {calls : List TableCall}
    (hcalls : ∀ c ∈ calls, c.IsPlain) :
    ∃ (m : TwoLevels) (t : SymbolTable) (s₀ : σ) (w : Workspace σ),
      (∀ var, m.committed.find? var = storedName? (view s) var) ∧ m.working = m.committed ∧
      storedCounter? (view s) = some m.counter ∧
      (SymbolTable.load b).runFrom s = (.ok t, s₀) ∧
      (TableCall.runAll b calls).runFrom ⟨t, s₀⟩ = (.ok (m.replies calls), w) ∧
      ShownBy view (m.after calls) w ∧
      (Text.isWord (m.after calls).counter = true → w.symbols.counter = (m.after calls).counter) := by
  obtain ⟨t, s₀, entries, hload, hk, hreads, hpending, hcleared, hsame, hkept⟩ :=
    load_reliable hb hdb hcounter
  have hwrapped : wrapped t.counter = t.counter := wrapped_of_isWord (isWord_of_storedCounter? hreads.counter)
  have hshown : ShownBy view ⟨t.bindings, t.bindings, t.counter⟩ ⟨t, s₀⟩ :=
    ⟨rfl, fun var => (hreads.bindings var).symm, hwrapped.symm, hreads.counter,
      fun var => by simp [hpending, hcleared, hreads.bindings var], ⟨entries, hk⟩,
      by simp [hpending], by rw [hpending]; exact List.Pairwise.nil, hreads.sorted, hreads.sorted⟩
  obtain ⟨w, hw, hshown'⟩ := run_calls hb hcalls hshown
  exact ⟨_, t, s₀, w, fun var => (hreads.bindings var).trans (hsame var), rfl,
    hkept.symm.trans hreads.counter, hload, hw, hshown',
    fun hisWord => hshown'.counter.trans (wrapped_of_isWord hisWord)⟩

/-- A committed binding is forgotten and a new one made, and both changes are taken back; then all is
forgotten again, and the table is loaded anew. -/
def interrupted : List TableCall :=
  [.bind "$a" "trace_1", .commit, .clear, .freshGraph, .bind "$b" "trace_1", .discard, .lookup "$a",
    .clear, .freshMetadata, .reload, .symbols]

theorem replies_runAll_interrupted :
    Intact Database.empty ∧ (storedCounter? Database.empty).isSome = true ∧
      (∀ c ∈ interrupted, c.IsPlain) ∧
      ∃ (m : TwoLevels) (t : SymbolTable) (s₀ : Database) (w : Workspace Database),
        (∀ var, m.committed.find? var = storedName? Database.empty var) ∧ m.working = m.committed ∧
        storedCounter? Database.empty = some m.counter ∧
        (SymbolTable.load Backend.memory).runFrom Database.empty = (.ok t, s₀) ∧
        (TableCall.runAll Backend.memory interrupted).runFrom ⟨t, s₀⟩
          = (.ok (m.replies interrupted), w) ∧
        ShownBy id (m.after interrupted) w ∧
        (Text.isWord (m.after interrupted).counter = true →
          w.symbols.counter = (m.after interrupted).counter) :=
  ⟨.inl rfl, rfl, by decide, replies_runAll Backend.isDatabase_memory (.inl rfl) rfl (by decide)⟩

end TwoLevels

end Provenance

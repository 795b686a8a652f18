import Provenance.Proofs.Database
import Provenance.Store.Memory

/-!
# A store whose calls may fail

The store in memory, of which any call may fail without doing anything. Which calls fail is told by
a function of their number, so that a theorem for all such functions is one for all patterns of
failures.

What engine code does over such a store is argued for all backends that do, call by call, what the
store in memory does, or, if they may, fail and leave their database as it is. The store in memory is
one of them that may not fail.
-/

namespace Provenance

open Store

/-- A database and the number of calls made to it. -/
structure Counted where
  calls : Nat
  store : Database

namespace Backend

variable {σ τ α : Type}

/-- Makes a call, unless the failure of this one is planned. -/
def orFail (faults : Nat → Option BackendError) (call : Action Database BackendError α) :
    Action Counted BackendError α :=
  .of fun s =>
    match faults s.calls with
    | some e => (.error e, { s with calls := s.calls + 1 })
    | none =>
      let (result, db) := call.runFrom s.store
      (result, ⟨s.calls + 1, db⟩)

/-- The store in memory; its `n`-th call fails with the error that `faults` has for `n`. -/
def unreliable (faults : Nat → Option BackendError) : Backend Counted where
  execute r := orFail faults (memory.execute r)
  queryRows r := orFail faults (memory.queryRows r)
  relationNames := orFail faults memory.relationNames
  acquire := id
  release := id

/-! ## Calls as they are made in memory -/

/-- From a state, an action does what another one does to the database in it, or, if it may, it fails
and leaves the database as it is. -/
def Attempts (fails : Prop) (view : σ → Database) (a : Action σ BackendError α)
    (call : Action Database BackendError α) (s : σ) : Prop :=
  (fails ∧ ∃ e, (a.runFrom s).1 = .error e ∧ view (a.runFrom s).2 = view s) ∨
    ((a.runFrom s).1 = (call.runFrom (view s)).1 ∧
      view (a.runFrom s).2 = (call.runFrom (view s)).2)

/-- A store in memory behind a backend, of which calls may fail if `fails` holds. -/
structure IsDatabase (b : Backend σ) (view : σ → Database) (fails : Prop) : Prop where
  execute : ∀ r s, Attempts fails view (b.execute r) (memory.execute r) s
  queryRows : ∀ r s, Attempts fails view (b.queryRows r) (memory.queryRows r) s
  relationNames : ∀ s, Attempts fails view b.relationNames memory.relationNames s
  acquire : ∀ s, view (b.acquire s) = view s
  release : ∀ s, view (b.release s) = view s

theorem attempts_orFail (faults : Nat → Option BackendError)
    (call : Action Database BackendError α) (s : Counted) :
    Attempts True Counted.store (orFail faults call) call s := by
  simp only [Attempts, orFail, Action.runFrom_of]
  cases faults s.calls with
  | some e => exact .inl ⟨trivial, e, rfl, rfl⟩
  | none => exact .inr ⟨rfl, rfl⟩

theorem isDatabase_unreliable (faults : Nat → Option BackendError) :
    (unreliable faults).IsDatabase Counted.store True where
  execute _ s := attempts_orFail faults _ s
  queryRows _ s := attempts_orFail faults _ s
  relationNames s := attempts_orFail faults _ s
  acquire _ := rfl
  release _ := rfl

theorem isDatabase_memory : memory.IsDatabase id False where
  execute _ _ := .inr ⟨rfl, rfl⟩
  queryRows _ _ := .inr ⟨rfl, rfl⟩
  relationNames _ := .inr ⟨rfl, rfl⟩
  acquire _ := rfl
  release _ := rfl

/-! ## What calls preserve -/

theorem runShown_store (r : Request) (db : Database) :
    ((runShown r).runFrom db).2 = (db.run r).2 := by
  simp only [runShown, Action.runFrom_of]
  split <;> simp_all

theorem memory_execute_store (r : Request) (db : Database) :
    ((memory.execute r).runFrom db).2 = (db.run r).2 := by
  simp only [memory, Action.runFrom_bind]
  split <;> next heq => simp [← runShown_store, heq]

theorem memory_execute_ok {r : Request} {db db' : Database} {answer : Option (List Row)}
    (h : db.run r = (.ok answer, db')) :
    ∃ output, (memory.execute r).runFrom db = (.ok output, db') := by
  have hshown : (runShown r).runFrom db
      = (.ok ((answer.getD []).map fun row => row.map Cell.shown), db') := by
    simp only [runShown, Action.runFrom_of, h]
  exact ⟨_, by simp only [memory, Action.runFrom_bind, hshown]; rfl⟩

/-- A request that succeeds in memory is performed, or fails without effect. -/
theorem IsDatabase.perform_ok {b : Backend σ} {view : σ → Database} {fails : Prop}
    (h : b.IsDatabase view fails) {r : Request} {s : σ} {answer : Option (List Row)} {db : Database}
    (hrun : (view s).run r = (.ok answer, db)) :
    (fails ∧ ∃ e t, (b.perform r).runFrom s = (.error e, t) ∧ view t = view s) ∨
      ∃ t, (b.perform r).runFrom s = (.ok (), t) ∧ view t = db := by
  obtain ⟨output, hout⟩ := memory_execute_ok hrun
  simp only [perform, Action.runFrom_bind]
  obtain ⟨hf, e, he, hv⟩ | ⟨hr, hv⟩ := h.execute r s
  · generalize (b.execute r).runFrom s = x at he hv
    obtain ⟨result, t⟩ := x
    obtain rfl : result = .error e := he
    exact .inl ⟨hf, e, t, rfl, hv⟩
  · rw [hout] at hr hv
    generalize (b.execute r).runFrom s = x at hr hv
    obtain ⟨result, t⟩ := x
    obtain rfl : result = .ok output := hr
    exact .inr ⟨t, rfl, hv⟩

section Preserves

open Action

variable {b : Backend σ} {view : σ → Database} {fails : Prop} {I : Database → Prop}

theorem Attempts.preserves {a : Action σ BackendError α} {call : Action Database BackendError α}
    (h : ∀ s, Attempts fails view a call s) (hI : Preserves I call) :
    Preserves (fun s => I (view s)) a := by
  intro s hs
  obtain ⟨-, e, -, hv⟩ | ⟨-, hv⟩ := h s
  · rw [hv]; exact hs
  · rw [hv]; exact hI _ hs

theorem IsDatabase.execute_preserves (h : b.IsDatabase view fails) {r : Request}
    (hI : ∀ db, I db → I (db.run r).2) : Preserves (fun s => I (view s)) (b.execute r) :=
  Attempts.preserves (h.execute r) fun db hdb => by
    rw [memory_execute_store]; exact hI db hdb

theorem IsDatabase.queryRows_preserves (h : b.IsDatabase view fails) {r : Request}
    (hI : ∀ db, I db → I (db.run r).2) : Preserves (fun s => I (view s)) (b.queryRows r) :=
  Attempts.preserves (h.queryRows r) fun db hdb => by
    change I ((runShown r).runFrom db).2
    rw [runShown_store]; exact hI db hdb

theorem IsDatabase.relationNames_preserves (h : b.IsDatabase view fails) :
    Preserves (fun s => I (view s)) b.relationNames :=
  Attempts.preserves h.relationNames fun _ hdb => hdb

end Preserves

end Backend

end Provenance

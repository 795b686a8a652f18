import Provenance.Proofs.Workspaces

/-!
# Bindings lost in failed commits

A commit takes the pending bindings before it stores them. When storing one of them fails, it and
those after it are no longer pending and not yet stored: they are *lost*. They stay visible in
memory. No later commit stores them, and a discard that finds nothing pending leaves them there,
until the variable is bound again, all bindings are forgotten, or the stored ones are read again.

Along any sequence of steps over a store whose calls may fail, the bindings in memory are the stored
ones overridden by the lost and the pending ones. So after a commit or a discard that succeeds, only
lost bindings can tell memory and store apart.
-/

namespace Provenance

open Store SymbolTable Workspace

/-- What can be done to a symbol table. -/
inductive TableStep where
  | bind (var name : String)
  | freshGraph
  | freshMetadata
  | clear
  | commit
  | discard
  deriving DecidableEq, Repr

namespace TableStep

variable {σ : Type}

def act (b : Backend σ) : TableStep → Action (Workspace σ) BackendError Unit
  | bind var name => modifySymbols fun t => (t.bind? var name).getD t
  | freshGraph => do let _ ← Workspace.freshGraph b
  | freshMetadata => do let _ ← Workspace.freshMetadata b
  | clear => modifySymbols SymbolTable.clear
  | commit => Workspace.commit b
  | discard => Workspace.discard b

/-- Neither the base graph nor the counter is bound. -/
def IsPlain : TableStep → Prop
  | bind var _ => var ≠ baseVariable ∧ var ≠ counterKey
  | _ => True

/-- The step is one after which nothing is to be pending. -/
def IsSettling : TableStep → Prop
  | commit => True
  | discard => True
  | _ => False

end TableStep

/-- Whether nothing is pending, neither a binding nor the wish to forget all. -/
def SymbolTable.isSettled (t : SymbolTable) : Bool := t.pending.isEmpty && !t.cleared

/-- A workspace with the bindings that its commits have lost. -/
structure Ledger where
  workspace : Workspace Counted
  lost : String → Option String

namespace Ledger

/-- The bindings in memory. -/
def bound (l : Ledger) (var : String) : Option String := l.workspace.symbols.bindings.find? var

/-- The bindings in the store. -/
def stored (l : Ledger) (var : String) : Option String := storedName? l.workspace.store.store var

/-- What is lost after a step that led from the ledger to another workspace. -/
def lostAfter (l : Ledger) (result : Except BackendError Unit) (after : Workspace Counted) :
    TableStep → String → Option String
  | .bind var _ => Function.update l.lost var none
  | .clear => fun _ => none
  | .commit => fun var =>
    match l.workspace.symbols.pending.find? var, after.symbols.pending.find? var with
    | some name, none => if storedName? after.store.store var = some name then none else some name
    | _, _ => l.lost var
  | .discard =>
    match result with
    | .ok _ => if l.workspace.symbols.isSettled then l.lost else fun _ => none
    | .error _ => l.lost
  | _ => l.lost

variable (faults : Nat → Option BackendError)

/-- Takes a step over a store that fails as planned. -/
def step (l : Ledger) (s : TableStep) : Except BackendError Unit × Ledger :=
  let (result, after) := (s.act (Backend.unreliable faults)).runFrom l.workspace
  (result, ⟨after, l.lostAfter result after s⟩)

/-- Takes steps, whether or not those before failed. -/
def run (l : Ledger) (steps : List TableStep) : Ledger :=
  steps.foldl (fun l s => (l.step faults s).2) l

/-- The invariant: stored bindings are overridden by lost ones and these by pending ones. -/
structure Sound (l : Ledger) : Prop where
  keeps : ∃ entries, Keeps l.workspace.store.store entries
  sorted : l.workspace.symbols.pending.Sorted
  noCounter : counterKey ∉ l.workspace.symbols.pending.map Prod.fst
  mirrors : ∀ var, l.bound var = (l.workspace.symbols.pending.find? var).or
    ((l.lost var).or (if l.workspace.symbols.cleared then none else l.stored var))

variable {faults} {l : Ledger}

/-! ## One step -/

theorem step_eq {s : TableStep} {result : Except BackendError Unit} {after : Workspace Counted}
    (h : (s.act (Backend.unreliable faults)).runFrom l.workspace = (result, after)) :
    l.step faults s = (result, ⟨after, l.lostAfter result after s⟩) := by
  rw [step, h]

/-- A step that changes neither the bindings nor what is pending or lost. -/
theorem Sound.congr (h : l.Sound) {l' : Ledger} (hlost : l'.lost = l.lost)
    (hbindings : l'.workspace.symbols.bindings = l.workspace.symbols.bindings)
    (hpending : l'.workspace.symbols.pending = l.workspace.symbols.pending)
    (hcleared : l'.workspace.symbols.cleared = l.workspace.symbols.cleared)
    (hkeeps : ∃ entries, Keeps l'.workspace.store.store entries)
    (hstored : l.workspace.symbols.cleared = false → ∀ var, l'.stored var = l.stored var) :
    l'.Sound where
  keeps := hkeeps
  sorted := by rw [hpending]; exact h.sorted
  noCounter := by rw [hpending]; exact h.noCounter
  mirrors var := by
    have hv := h.mirrors var
    rw [bound] at hv ⊢
    rw [hbindings, hpending, hcleared, hlost, hv]
    by_cases hc : l.workspace.symbols.cleared = true
    · simp [hc]
    · simp [hc, hstored (by simpa using hc)]

theorem Sound.bind (h : l.Sound) {var name : String} (hbase : var ≠ baseVariable)
    (hkey : var ≠ counterKey) : (l.step faults (.bind var name)).2.Sound := by
  have hact : ((TableStep.bind var name).act (Backend.unreliable faults)).runFrom l.workspace
      = (.ok (), ⟨{ l.workspace.symbols with
          bindings := l.workspace.symbols.bindings.insert var name
          pending := l.workspace.symbols.pending.insert var name }, l.workspace.store⟩) := by
    simp [TableStep.act, SymbolTable.bind?, hbase]
  rw [step_eq hact]
  refine ⟨h.keeps, h.sorted.insert var name, ?_, fun v => ?_⟩
  · simpa [OrderedMap.mem_keys_insert, Ne.symm hkey] using h.noCounter
  · have hv := h.mirrors v
    rw [bound, stored] at hv
    simp only [bound, stored, lostAfter, OrderedMap.find?_insert]
    by_cases he : v = var
    · simp [he]
    · simp [he, hv]

theorem Sound.clear (h : l.Sound) : (l.step faults .clear).2.Sound := by
  have hact : (TableStep.clear.act (Backend.unreliable faults)).runFrom l.workspace
      = (.ok (), ⟨l.workspace.symbols.clear, l.workspace.store⟩) := rfl
  rw [step_eq hact]
  exact ⟨h.keeps, List.Pairwise.nil, List.not_mem_nil, fun v => rfl⟩

/-- A step that only gives out a number. -/
theorem Sound.fresh (h : l.Sound) {s : TableStep}
    (hact : ((s.act (Backend.unreliable faults)).runFrom l.workspace).2
      = ((freshNumber (Backend.unreliable faults)).runFrom l.workspace).2)
    (hlost : ∀ result after, l.lostAfter result after s = l.lost) : (l.step faults s).2.Sound := by
  obtain ⟨entries, hk⟩ := h.keeps
  generalize hrun : (s.act (Backend.unreliable faults)).runFrom l.workspace = x at hact
  obtain ⟨result, after⟩ := x
  obtain ⟨-, e, t, ht, hv⟩ | ⟨t, ht, hk'⟩ :=
    freshNumber_spec (Backend.isDatabase_unreliable faults) hk
  · rw [ht] at hact
    obtain rfl : after = ⟨l.workspace.symbols, t⟩ := hact
    rw [step_eq hrun]
    exact h.congr (hlost _ _) rfl rfl rfl ⟨entries, by rw [hv]; exact hk⟩ fun _ v => by
      rw [stored, stored, hv]
  · rw [ht] at hact
    obtain rfl : after = ⟨{ l.workspace.symbols with
      counter := wordAfter l.workspace.symbols.counter }, t⟩ := hact
    rw [step_eq hrun]
    refine h.congr (hlost _ _) rfl rfl rfl ⟨_, hk'⟩ fun _ v => ?_
    rw [stored, stored, storedName?_put hk hk', if_neg fun hc => hc.2 hc.1]

/-- What a commit leaves: pending bindings that it took are stored or lost. -/
theorem Sound.commit (h : l.Sound) :
    (l.step faults .commit).2.Sound ∧ ((l.step faults .commit).1 = .ok () →
      (l.step faults .commit).2.workspace.symbols.isSettled = true ∧
        ((∀ var, l.lost var = none) → ∀ var, (l.step faults .commit).2.lost var = none)) := by
  obtain ⟨entries, hk⟩ := h.keeps
  obtain ⟨-, e, s, rows, hs, hk', -, hc⟩ | ⟨r, s, rows, hs, hk', hpart, hall, -⟩ :=
    commit_spec (Backend.isDatabase_unreliable faults) h.sorted.nodup hk
  · rw [step_eq (s := .commit) hs]
    refine ⟨h.congr ?_ rfl rfl rfl ⟨rows, hk'⟩ (by simp [hc]), fun he => nomatch he⟩
    funext var
    simp only [lostAfter]
    cases l.workspace.symbols.pending.find? var <;> rfl
  · rw [step_eq (s := .commit) hs]
    refine ⟨⟨⟨rows, hk'⟩, List.Pairwise.nil, List.not_mem_nil, fun var => ?_⟩, fun hr => ⟨rfl, ?_⟩⟩
    · have hv := h.mirrors var
      have hp := hpart var
      simp only [bound, stored, lostAfter] at hv ⊢
      cases hpending : l.workspace.symbols.pending.find? var with
      | none =>
        rw [hpending] at hv hp
        obtain hsame | ⟨-, hsome⟩ := hp
        · rw [hv, hsame]; rfl
        · cases hsome
      | some name =>
        rw [hpending] at hv
        by_cases hname : storedName? s.store var = some name
        · simp [hv, hname]
        · simp [hv, hname]
    · intro hlost var
      simp only [lostAfter]
      cases hpending : l.workspace.symbols.pending.find? var with
      | none => exact hlost var
      | some name =>
        have hvar : var ≠ counterKey := by
          rintro rfl
          rw [OrderedMap.find?_eq_none_iff.2 h.noCounter] at hpending
          cases hpending
        have hp := hall hr var hvar
        rw [hpending, Option.some_or] at hp
        simp [hp]

/-- What a discard leaves: nothing pending, if it succeeds. -/
theorem Sound.discard (h : l.Sound) :
    (l.step faults .discard).2.Sound ∧ ((l.step faults .discard).1 = .ok () →
      (l.step faults .discard).2.workspace.symbols.isSettled = true) := by
  obtain ⟨entries, hk⟩ := h.keeps
  obtain ⟨hs, hpending, hcleared⟩ | ⟨-, e, s, hs, hv⟩ | ⟨bindings, s, hs, hopen, hv, hread⟩ :=
    discard_spec (Backend.isDatabase_unreliable faults) hk
  · have hsettled : l.workspace.symbols.isSettled = true := by
      simp [SymbolTable.isSettled, hpending, hcleared]
    rw [step_eq (s := .discard) hs]
    exact ⟨h.congr (by simp [lostAfter, hsettled]) rfl rfl rfl h.keeps fun _ _ => rfl,
      fun _ => hsettled⟩
  · rw [step_eq (s := .discard) hs]
    exact ⟨h.congr rfl rfl rfl rfl ⟨entries, by rw [hv]; exact hk⟩ fun _ var => by
      rw [stored, stored, hv], fun he => nomatch he⟩
  · have hlost : ∀ after, l.lostAfter (.ok ()) after .discard = fun _ => none := fun _ => by
      simp [lostAfter, SymbolTable.isSettled, hopen]
    rw [step_eq (s := .discard) hs, hlost]
    refine ⟨⟨⟨entries, by rw [hv]; exact hk⟩, List.Pairwise.nil, List.not_mem_nil, fun var => ?_⟩,
      fun _ => rfl⟩
    rw [bound, stored, hread var, hv]
    rfl

theorem Sound.step (h : l.Sound) {s : TableStep} (hs : s.IsPlain) : (l.step faults s).2.Sound := by
  cases s with
  | bind var name => exact h.bind hs.1 hs.2
  | freshGraph =>
    refine h.fresh ?_ fun _ _ => rfl
    rw [TableStep.act, Action.runFrom_bind, runFrom_freshGraph]
    cases (freshNumber (Backend.unreliable faults)).runFrom l.workspace with
    | mk r w => cases r <;> rfl
  | freshMetadata =>
    refine h.fresh ?_ fun _ _ => rfl
    rw [TableStep.act, Action.runFrom_bind, runFrom_freshMetadata]
    cases (freshNumber (Backend.unreliable faults)).runFrom l.workspace with
    | mk r w => cases r <;> rfl
  | clear => exact h.clear
  | commit => exact h.commit.1
  | discard => exact h.discard.1

/-- Only a commit that fails loses bindings. -/
theorem Sound.lost_step (h : l.Sound) {s : TableStep} (hlost : ∀ var, l.lost var = none)
    (hs : s = .commit → (l.step faults s).1 = .ok ()) (var : String) :
    (l.step faults s).2.lost var = none := by
  cases s with
  | bind v name =>
    change Function.update l.lost v none var = none
    by_cases hv : var = v
    · rw [hv, Function.update_self]
    · rw [Function.update_of_ne hv, hlost]
  | freshGraph => exact hlost var
  | freshMetadata => exact hlost var
  | clear => rfl
  | commit => exact (h.commit.2 (hs rfl)).2 hlost var
  | discard =>
    generalize hact : (TableStep.discard.act (Backend.unreliable faults)).runFrom l.workspace = x
    obtain ⟨result, after⟩ := x
    rw [step_eq hact]
    cases result with
    | error e => exact hlost var
    | ok _ =>
      simp only [lostAfter]
      split
      · exact hlost var
      · rfl

/-! ## Runs -/

theorem Sound.run {steps : List TableStep} (hsteps : ∀ s ∈ steps, s.IsPlain) (h : l.Sound) :
    (l.run faults steps).Sound := by
  induction steps generalizing l with
  | nil => exact h
  | cons s steps ih =>
    exact ih (fun t ht => hsteps t (List.mem_cons_of_mem s ht)) (h.step (hsteps s List.mem_cons_self))

/-- Whether none of the commits of a run fails. -/
def Commits (faults : Nat → Option BackendError) (l : Ledger) (steps : List TableStep) : Prop :=
  ∀ before after, steps = before ++ .commit :: after →
    ((l.run faults before).step faults .commit).1 = .ok ()

theorem Sound.lost_run {steps : List TableStep} (hsteps : ∀ s ∈ steps, s.IsPlain) (h : l.Sound)
    (hlost : ∀ var, l.lost var = none) (hcommits : l.Commits faults steps) (var : String) :
    (l.run faults steps).lost var = none := by
  induction steps generalizing l with
  | nil => exact hlost var
  | cons s steps ih =>
    refine ih (fun t ht => hsteps t (List.mem_cons_of_mem s ht)) (h.step (hsteps s List.mem_cons_self))
      (h.lost_step hlost fun hs => by subst hs; exact hcommits [] steps rfl) fun before after heq => ?_
    exact hcommits (s :: before) after (by rw [heq]; rfl)

/-- A symbol table as it was loaded. -/
def loaded (t : SymbolTable) (s : Counted) : Ledger := ⟨⟨t, s⟩, fun _ => none⟩

theorem sound_loaded {db : Database} (hdb : Intact db) {t : SymbolTable} {s : Counted}
    (hload : (load (Backend.unreliable faults)).runFrom ⟨0, db⟩ = (.ok t, s)) :
    (loaded t s).Sound := by
  obtain ⟨e, s', hs, -⟩ | ⟨t', s', entries, hs, hk, -, hpending, hcleared, hbound, -⟩ :=
    load_spec (Backend.isDatabase_unreliable faults) (s := ⟨0, db⟩) hdb
  · rw [hs] at hload; cases hload
  · rw [hs] at hload
    cases hload
    refine ⟨⟨entries, hk⟩, ?_, ?_, fun var => ?_⟩
    · simp only [loaded, hpending]; exact List.Pairwise.nil
    · simp only [loaded, hpending]; exact List.not_mem_nil
    · simpa [loaded, bound, stored, hpending, hcleared] using hbound var

/-! ## A store that is full for one call -/

/-- The third call fails. -/
def fullOnce (n : Nat) : Option BackendError := if n = 2 then some (.other "disk full") else none

/-- The symbol table of a store without relations is loaded by the first two calls. -/
theorem load_empty : (load (Backend.unreliable fullOnce)).runFrom ⟨0, .empty⟩
    = (.ok ⟨[], [], false, 0⟩, ⟨2, Database.empty.add emptyRelation⟩) := by
  have hcreate : (Backend.memory.execute (.single createRelation)).runFrom .empty
      = (.ok "", Database.empty.add emptyRelation) := by
    simp only [Backend.memory, Backend.runShown, Action.runFrom_bind, Action.runFrom_of,
      Database.run_single_ok (apply_createRelation_absent (Database.table?_empty relation))]
    rfl
  simp only [load, Backend.perform, Action.runFrom_bind, runFrom_readStored, Backend.unreliable,
    Backend.orFail, Action.runFrom_of, fullOnce, hcreate]
  rfl

/-- The ledger of that store. -/
def started : Ledger := loaded ⟨[], [], false, 0⟩ ⟨2, Database.empty.add emptyRelation⟩

/-- A variable is bound; storing the binding fails. -/
def failedCommit : Ledger := started.run fullOnce [.bind "$a" "trace_1", .commit]

/-! ## Memory and store -/

/-- Over a store whose calls may fail, after any steps: once a commit or a discard succeeds, the
bindings in memory are the stored ones overridden by the lost ones. They are the stored ones just if
every lost binding is stored too, and so they are if no commit has failed. -/
theorem bound_of_settled (faults : Nat → Option BackendError) {db : Database} (hdb : Intact db)
    {t : SymbolTable} {s : Counted}
    (hload : (load (Backend.unreliable faults)).runFrom ⟨0, db⟩ = (.ok t, s))
    {steps : List TableStep} (hsteps : ∀ s ∈ steps, s.IsPlain) {last : TableStep}
    (hlast : last.IsSettling) {l : Ledger}
    (hok : ((loaded t s).run faults steps).step faults last = (.ok (), l)) :
    (∀ var, l.bound var = (l.lost var).or (l.stored var)) ∧
      ((∀ var, l.bound var = l.stored var) ↔
        ∀ var name, l.lost var = some name → l.stored var = some name) ∧
      ((loaded t s).Commits faults steps → ∀ var, l.bound var = l.stored var) := by
  have hsound : ((loaded t s).run faults steps).Sound := (sound_loaded hdb hload).run hsteps
  have hafter : l.Sound ∧ l.workspace.symbols.isSettled = true ∧
      ((∀ var, ((loaded t s).run faults steps).lost var = none) → ∀ var, l.lost var = none) := by
    cases last with
    | commit =>
      have h := @Sound.commit faults _ hsound
      rw [hok] at h
      exact ⟨h.1, h.2 rfl⟩
    | discard =>
      have h := @Sound.discard faults _ hsound
      have hl := fun hlost => @Sound.lost_step faults _ hsound .discard hlost nofun
      rw [hok] at h hl
      exact ⟨h.1, h.2 rfl, hl⟩
    | _ => exact hlast.elim
  obtain ⟨hl, hsettled, hlost⟩ := hafter
  obtain ⟨hpending, hcleared⟩ : l.workspace.symbols.pending = [] ∧ l.workspace.symbols.cleared = false := by
    simpa [SymbolTable.isSettled] using hsettled
  have heq : ∀ var, l.bound var = (l.lost var).or (l.stored var) := fun var => by
    have h := hl.mirrors var
    rwa [hpending, hcleared] at h
  refine ⟨heq, ⟨fun h var name hname => ?_, fun h var => ?_⟩, fun hcommits var => ?_⟩
  · rw [← h var, heq var, hname]; rfl
  · rw [heq var]
    cases hname : l.lost var with
    | none => rfl
    | some name => rw [h var name hname]; rfl
  · rw [heq var, hlost ((sound_loaded hdb hload).lost_run hsteps (fun _ => rfl) hcommits) var]; rfl

theorem bound_of_settled_fullOnce : (failedCommit.step fullOnce .commit).1 = .ok () ∧
    ∀ var, (failedCommit.step fullOnce .commit).2.bound var
      = ((failedCommit.step fullOnce .commit).2.lost var).or
        ((failedCommit.step fullOnce .commit).2.stored var) :=
  have hplain : ∀ s ∈ [TableStep.bind "$a" "trace_1", .commit], s.IsPlain := by
    simp [TableStep.IsPlain, baseVariable, counterKey]
  have hok : (failedCommit.step fullOnce .commit)
      = (.ok (), (failedCommit.step fullOnce .commit).2) := rfl
  have hlast : TableStep.commit.IsSettling := trivial
  ⟨rfl, (bound_of_settled fullOnce (.inl (Database.table?_empty relation)) load_empty hplain hlast
    hok).1⟩

/-- After a failed commit, the next one and a discard succeed and leave the store without a binding
that is visible in memory. -/
theorem settled_after_failed_commit :
    (load (Backend.unreliable fullOnce)).runFrom ⟨0, .empty⟩
        = (.ok started.workspace.symbols, started.workspace.store) ∧
      (started.run fullOnce [.bind "$a" "trace_1"] |>.step fullOnce .commit).1
        = .error (.other "disk full") ∧
      (failedCommit.step fullOnce .commit).1 = .ok () ∧
      (failedCommit.step fullOnce .commit).2.bound "$a" = some "trace_1" ∧
      (failedCommit.step fullOnce .commit).2.stored "$a" = none ∧
      (failedCommit.step fullOnce .discard).1 = .ok () ∧
      (failedCommit.step fullOnce .discard).2.bound "$a" = some "trace_1" ∧
      (failedCommit.step fullOnce .discard).2.stored "$a" = none :=
  ⟨load_empty, rfl, rfl, rfl, rfl, rfl, rfl, rfl⟩

end Ledger

end Provenance

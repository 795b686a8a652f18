import Provenance.Proofs.Queries
import Provenance.Proofs.Recording
import Provenance.Session

/-!
# What a query says to its store

The calls that a query makes, and their order, whatever the store replies: the symbol table is loaded;
the query is resolved, for which only the symbol table is used; if that succeeds, the instructions are
executed under the lock, up to the first that fails; and what no variable reaches is collected, once
the lock is free again. Which error is reported is part of it.
-/

namespace Provenance

open Store SymbolTable Action

namespace Exchange

/-- The counter is stored. -/
def IsNumbering : Exchange → Prop
  | executed r _ => ∃ n, r = .single (storeCounter n)
  | _ => False

/-- A binding or the counter is stored, or the relation of the bindings is made anew. -/
def IsCommitting : Exchange → Prop
  | executed r _ => r = Workspace.recreation ∨ ∃ var name, r = .single (storeBinding var name)
  | _ => False

/-- The call was to execute a request, and failed. -/
def FailsWith (e : BackendError) : Exchange → Prop
  | executed _ reply => reply = .error e
  | _ => False

/-- The relation of the bindings is created, unless it is there. -/
def creating (reply : Except BackendError String) : Exchange :=
  executed (.single createRelation) reply

/-- The relation of the bindings is read. -/
def reading (reply : Except BackendError (List (List String))) : Exchange :=
  queried readRequest reply

end Exchange

open Exchange

/-- The lock after some calls, unless one of them has to wait for it. -/
def Lock.follow (l : Lock) : List Exchange → Option Lock
  | [] => some l
  | .acquired :: said => l.acquire?.bind fun l => follow l said
  | .released :: said => follow l.release said
  | _ :: said => follow l said

namespace Session

variable {σ : Type} {b : Backend σ} {record : σ → List Exchange}

/-! ## The protocol -/

/-- The rows that are read, taken in. -/
def readRows (rows : List (List String)) : Except BackendError Stored :=
  rows.foldlM readRow ([], 0)

/-- The calls of a resolution. Numbers are stored as they are given out. Then the bindings are
committed, up to the first call that fails, or discarded. -/
inductive Resolving : List Exchange → Except QueryError Program → Prop
  | committed {numbers closing : List Exchange} {program : Program}
      (hnumbers : ∀ x ∈ numbers, x.IsNumbering) (hclosing : ∀ x ∈ closing, x.IsCommitting)
      (hok : ∀ x ∈ closing, ∀ e, ¬ x.FailsWith e) :
      Resolving (numbers ++ closing) (.ok program)
  | interrupted {numbers closing : List Exchange} {last : Exchange} {e : BackendError}
      (hnumbers : ∀ x ∈ numbers, x.IsNumbering) (hclosing : ∀ x ∈ closing, x.IsCommitting)
      (hok : ∀ x ∈ closing, ∀ e, ¬ x.FailsWith e) (hlast : last.IsCommitting)
      (hfails : last.FailsWith e) :
      Resolving (numbers ++ closing ++ [last]) (.error (.backend e))
  | discarded {numbers : List Exchange} {e : QueryError} (hnumbers : ∀ x ∈ numbers, x.IsNumbering) :
      Resolving numbers (.error e)
  | reread {numbers : List Exchange} {reply : Except BackendError (List (List String))}
      {e : QueryError} (hnumbers : ∀ x ∈ numbers, x.IsNumbering) :
      Resolving (numbers ++ [reading reply]) (.error e)

/-- The calls of an instruction that leads from one state to another. -/
structure Says (b : Backend σ) (record : σ → List Exchange) (s : σ) (i : Instruction)
    (said : List Exchange) (outcome : Except BackendError (Option Answer)) (s' : σ) : Prop where
  run : (i.execute b).runFrom s = (outcome, s')
  recorded : record s' = record s ++ said
  requests : ∀ x ∈ said, x.IsRequest
  tidied : Tidied said

/-- The calls of a program, one instruction after the other up to the first that fails, and its last
answer. -/
inductive Executing (b : Backend σ) (record : σ → List Exchange) :
    σ → Program → List Exchange → Except BackendError (Option Answer) → Prop
  | done {s : σ} : Executing b record s [] [] (.ok none)
  | failed {s s' : σ} {i : Instruction} {rest : Program} {said : List Exchange} {e : BackendError}
      (h : Says b record s i said (.error e) s') : Executing b record s (i :: rest) said (.error e)
  | step {s s' : σ} {i : Instruction} {rest : Program} {said more : List Exchange}
      {answer : Option Answer} {outcome : Except BackendError (Option Answer)}
      (h : Says b record s i said (.ok answer) s') (hrest : Executing b record s' rest more outcome) :
      Executing b record s (i :: rest) (said ++ more) (outcome.map fun later => later.or answer)

/-- The calls under the lock. There are none unless the query was resolved. -/
inductive Running (b : Backend σ) (record : σ → List Exchange) :
    σ → Except QueryError Program → List Exchange → Except QueryError Answer → Prop
  | unresolved {s : σ} {e : QueryError} : Running b record s (.error e) [] (.error e)
  | locked {s : σ} {program : Program} {said : List Exchange}
      {outcome : Except BackendError (Option Answer)}
      (h : Executing b record (b.acquire s) program said outcome) :
      Running b record s (.ok program) (acquired :: said ++ [released])
        ((outcome.map fun last => last.getD .ok).mapError .backend)

/-- The calls of a collection. -/
inductive Collecting (t : SymbolTable) : List Exchange → Except BackendError Nat → Prop
  | unlisted {e : BackendError} : Collecting t [listed (.error e)] (.error e)
  | nothing {names : List String} (h : names.filter t.isCollected = []) :
      Collecting t [listed (.ok names)] (.ok 0)
  | dropped {names : List String} {reply : Except BackendError String}
      (h : names.filter t.isCollected ≠ []) :
      Collecting t [listed (.ok names),
          executed (.lines ((names.filter t.isCollected).map Statement.discard)) reply]
        (reply.map fun _ => (names.filter t.isCollected).length)

/-- What is reported of two outcomes: the first error, or the answer. -/
def concluded (outcome : Except QueryError Answer) (collected : Except BackendError Nat) :
    Except QueryError Answer := do
  let answer ← outcome
  let _ ← collected.mapError QueryError.backend
  pure answer

/-- The calls of a query and its result. -/
inductive Conversation (b : Backend σ) (record : σ → List Exchange) (query : String) (s : σ) :
    List Exchange → Except QueryError Answer → Prop
  | unparsed {e : Query.ParseError} (h : Query.parse query = .error e) :
      Conversation b record query s [] (.error (.parse e))
  | uncreated {statements : List Query.Statement} {e : BackendError}
      (h : Query.parse query = .ok statements) :
      Conversation b record query s [creating (.error e)] (.error (.backend e))
  | unread {statements : List Query.Statement} {out : String}
      {reply : Except BackendError (List (List String))} {e : BackendError}
      (h : Query.parse query = .ok statements) (hrows : reply.bind readRows = .error e) :
      Conversation b record query s [creating (.ok out), reading reply] (.error (.backend e))
  | loaded {statements : List Query.Statement} {out : String} {rows : List (List String)}
      {stored : Stored} {s' : σ} {w : Workspace σ} {resolving running collecting : List Exchange}
      {resolved : Except QueryError Program} {outcome : Except QueryError Answer}
      {collected : Except BackendError Nat} (h : Query.parse query = .ok statements)
      (hrows : readRows rows = .ok stored)
      (hload : (SymbolTable.load b).runFrom s = (.ok ⟨stored.1, [], false, stored.2⟩, s'))
      (hresolve : (Resolution.resolve b statements).runFrom ⟨⟨stored.1, [], false, stored.2⟩, s'⟩
        = (resolved, w))
      (hsaid : record w.store = record s' ++ resolving) (hresolving : Resolving resolving resolved)
      (hrunning : Running b record w.store resolved running outcome)
      (hcollecting : Collecting w.symbols collecting collected)
      (hlock : Lock.free.follow
        ([creating (.ok out), reading (.ok rows)] ++ resolving ++ running) = some Lock.free) :
      Conversation b record query s
        ([creating (.ok out), reading (.ok rows)] ++ resolving ++ running ++ collecting)
        (concluded outcome collected)

/-! ## Loading -/

/-- Loading creates the relation and reads it, unless the creation fails. -/
theorem load_says (hb : b.Records record) (s : σ) :
    (∃ e s', (SymbolTable.load b).runFrom s = (.error e, s') ∧
        (record s' = record s ++ [creating (.error e)] ∨
          ∃ out reply, record s' = record s ++ [creating (.ok out), reading reply] ∧
            reply.bind readRows = .error e)) ∨
      ∃ out rows stored s', (SymbolTable.load b).runFrom s
          = (.ok ⟨stored.1, [], false, stored.2⟩, s') ∧ readRows rows = .ok stored ∧
        record s' = record s ++ [creating (.ok out), reading (.ok rows)] := by
  have hcreate := hb.execute (.single createRelation) s
  simp only [SymbolTable.load, Backend.perform, bind_assoc, runFrom_bind, runFrom_readStored]
  rcases hcreation : (b.execute (.single createRelation)).runFrom s with ⟨e | out, s₁⟩
  · rw [hcreation] at hcreate
    exact .inl ⟨e, s₁, rfl, .inl hcreate⟩
  · rw [hcreation] at hcreate
    have hread := hb.queryRows readRequest s₁
    simp only [runFrom_pure]
    rcases hreading : (b.queryRows readRequest).runFrom s₁ with ⟨reply, s₂⟩
    rw [hreading] at hread
    have hsaid : record s₂ = record s ++ [creating (.ok out), reading reply] := by
      rw [show record s₂ = record s₁ ++ [reading reply] from hread, hcreate, List.append_assoc]
      rfl
    rcases reply with e | rows
    · exact .inl ⟨e, s₂, rfl, .inr ⟨out, .error e, hsaid, rfl⟩⟩
    · rcases hrows : readRows rows with e | stored
      · have hfails : rows.foldlM readRow ([], 0) = .error e := hrows
        simp only [hfails]
        exact .inl ⟨e, s₂, rfl, .inr ⟨out, .ok rows, hsaid, hrows⟩⟩
      · have hok : rows.foldlM readRow ([], 0) = .ok stored := hrows
        simp only [hok]
        exact .inr ⟨out, rows, stored, s₂, rfl, hrows, hsaid⟩

/-! ## Resolving -/

theorem freshNumber_says (hb : b.Records record) (old : List Exchange) :
    Preserves (Since (fun w => record w.store) old fun _ said => ∀ x ∈ said, x.IsNumbering)
      (Workspace.freshNumber b) := by
  intro w ⟨numbers, (hw : record w.store = old ++ numbers), hnumbers⟩
  let next := wordAfter w.symbols.counter
  have hsaid := hb.execute (.single (storeCounter next)) w.store
  rw [hw, List.append_assoc] at hsaid
  refine ⟨numbers ++ [executed (.single (storeCounter next))
    ((b.execute (.single (storeCounter next))).runFrom w.store).1], ?_, ?_⟩
  · rw [← hsaid]
    simp only [Workspace.freshNumber, Workspace.send, Backend.perform, Workspace.storeLens,
      runFrom_bind, runFrom_get, runFrom_along, next]
    rcases (b.execute (.single (storeCounter (wordAfter w.symbols.counter)))).runFrom w.store
      with ⟨e | out, t⟩ <;> rfl
  · intro x hx
    rcases List.mem_append.1 hx with hx | hx
    · exact hnumbers x hx
    · rw [List.mem_singleton.1 hx]
      exact ⟨next, rfl⟩

/-- While statements are resolved, only the counter is stored. -/
theorem statements_say (hb : b.Records record) (ss : List Query.Statement) (w : Workspace σ) :
    ∃ numbers, record ((ss.forM (Resolution.statement b)).runFrom ⟨w, []⟩).2.workspace.store
        = record w.store ++ numbers ∧ ∀ x ∈ numbers, x.IsNumbering := by
  have hkept : Preserves (Resolution.OnWorkspace (Since (fun w => record w.store) (record w.store)
      fun _ said => ∀ x ∈ said, x.IsNumbering)) (ss.forM (Resolution.statement b)) :=
    .forM fun s _ => by
      have hfresh := freshNumber_says hb (record w.store)
      exact Resolution.statement_preserves hfresh (fun _ _ _ h _ _ _ => h) fun _ _ h => h
  exact hkept ⟨w, []⟩ ⟨[], by simp, fun x hx => absurd hx List.not_mem_nil⟩

/-- Calls of a commit that succeeded so far, or up to the last one. -/
def CommitSays (said : List Exchange) : Except BackendError Unit → Prop
  | .ok _ => (∀ x ∈ said, x.IsCommitting) ∧ ∀ x ∈ said, ∀ e, ¬ x.FailsWith e
  | .error e => ∃ before last, said = before ++ [last] ∧ (∀ x ∈ before, x.IsCommitting) ∧
      (∀ x ∈ before, ∀ e, ¬ x.FailsWith e) ∧ last.IsCommitting ∧ last.FailsWith e

theorem CommitSays.append {said more : List Exchange} {result : Except BackendError Unit}
    (h : CommitSays said (.ok ())) (hmore : CommitSays more result) :
    CommitSays (said ++ more) result := by
  rcases result with e | ⟨⟩
  · rcases hmore with ⟨before, last, rfl, hbefore, hok, hlast⟩
    refine ⟨said ++ before, last, by rw [List.append_assoc], ?_, ?_, hlast⟩
    · exact List.forall_mem_append.2 ⟨h.1, hbefore⟩
    · exact List.forall_mem_append.2 ⟨h.2, hok⟩
  · exact ⟨List.forall_mem_append.2 ⟨h.1, hmore.1⟩, List.forall_mem_append.2 ⟨h.2, hmore.2⟩⟩

/-- An action of a commit, from any workspace. -/
def Commits (record : σ → List Exchange) (a : Action (Workspace σ) BackendError Unit) : Prop :=
  ∀ w, ∃ said, record (a.runFrom w).2.store = record w.store ++ said ∧
    CommitSays said (a.runFrom w).1

theorem Commits.of_silent {a : Action (Workspace σ) BackendError Unit}
    (h : ∀ w, (a.runFrom w).1 = .ok () ∧ (a.runFrom w).2.store = w.store) : Commits record a := by
  intro w
  refine ⟨[], by rw [(h w).2, List.append_nil], ?_⟩
  rw [(h w).1]
  exact ⟨fun x hx => absurd hx List.not_mem_nil, fun x hx => absurd hx List.not_mem_nil⟩

theorem Commits.bind {a : Action (Workspace σ) BackendError Unit}
    {f : Unit → Action (Workspace σ) BackendError Unit} (ha : Commits record a)
    (hf : Commits record (f ())) : Commits record (a >>= f) := by
  intro w
  rcases ha w with ⟨said, hsaid, hcommits⟩
  rw [runFrom_bind]
  rcases hrun : a.runFrom w with ⟨e | ⟨⟩, w₁⟩
  · rw [hrun] at hsaid hcommits
    exact ⟨said, hsaid, hcommits⟩
  · rw [hrun] at hsaid hcommits
    rcases hf w₁ with ⟨more, hmore, hcommits'⟩
    refine ⟨said ++ more, ?_, hcommits.append hcommits'⟩
    rw [← List.append_assoc, ← show record w₁.store = _ from hsaid]
    exact hmore

theorem Commits.send (hb : b.Records record) {r : Request}
    (hr : r = Workspace.recreation ∨ ∃ var name, r = .single (storeBinding var name)) :
    Commits record (Workspace.send b r) := by
  intro w
  have hsaid := hb.execute r w.store
  simp only [Workspace.send, Backend.perform, Workspace.storeLens, runFrom_along, runFrom_bind]
  rcases hrun : (b.execute r).runFrom w.store with ⟨e | out, t⟩ <;> rw [hrun] at hsaid
  · refine ⟨_, hsaid, [], executed r (.error e), rfl, ?_, ?_, hr, rfl⟩ <;>
      exact fun x hx => absurd hx List.not_mem_nil
  · refine ⟨_, hsaid, ?_, ?_⟩
    · intro x hx
      rw [List.mem_singleton.1 hx]
      exact hr
    · intro x hx e he
      rw [List.mem_singleton.1 hx] at he
      cases he

theorem commits_forM {f : String × String → Action (Workspace σ) BackendError Unit}
    (hf : ∀ p, Commits record (f p)) (pending : List (String × String)) :
    Commits record (pending.forM f) := by
  induction pending with
  | nil => exact .of_silent fun w => ⟨rfl, rfl⟩
  | cons p pending ih =>
    rw [forM_cons]
    exact (hf p).bind ih

/-- A commit makes the relation anew if the bindings were forgotten, and stores what is pending. -/
theorem commit_says (hb : b.Records record) : Commits record (Workspace.commit b) := by
  have hclear : Commits record (Workspace.commitClear b) := by
    intro w
    simp only [Workspace.commitClear, runFrom_bind, runFrom_get]
    split
    · exact Commits.bind (.send hb (.inl rfl)) (Commits.bind (.send hb (.inr ⟨_, _, rfl⟩))
        (.of_silent fun w => ⟨rfl, rfl⟩)) w
    · exact Commits.of_silent (a := pure ()) (fun w => ⟨rfl, rfl⟩) w
  refine hclear.bind fun w => ?_
  simp only [runFrom_bind, runFrom_get]
  have hstore : ∀ p : String × String,
      Commits record (Workspace.send b (.single (storeBinding p.1 p.2))) :=
    fun p => .send hb (.inr ⟨p.1, p.2, rfl⟩)
  exact commits_forM hstore w.symbols.pending ⟨{ w.symbols with pending := [] }, w.store⟩

/-- A discard reads the relation, if at all. -/
theorem discard_says (hb : b.Records record) (w : Workspace σ) :
    record ((Workspace.discard b).runFrom w).2.store = record w.store ∨
      ∃ reply, record ((Workspace.discard b).runFrom w).2.store
        = record w.store ++ [reading reply] := by
  simp only [Workspace.discard, runFrom_bind, runFrom_get]
  split
  · exact .inl rfl
  · have hread := hb.queryRows readRequest w.store
    refine .inr ⟨((b.queryRows readRequest).runFrom w.store).1, ?_⟩
    rw [reading, ← hread]
    simp only [runFrom_bind, runFrom_along, Workspace.storeLens, runFrom_readStored]
    rcases (b.queryRows readRequest).runFrom w.store with ⟨e | rows, t⟩
    · rfl
    · dsimp only
      rcases rows.foldlM readRow ([], 0) with e | stored <;> rfl

theorem resolve_says (hb : b.Records record) (ss : List Query.Statement) (w : Workspace σ) :
    ∃ resolving, record ((Resolution.resolve b ss).runFrom w).2.store
        = record w.store ++ resolving ∧
      Resolving resolving ((Resolution.resolve b ss).runFrom w).1 := by
  rcases statements_say hb ss w with ⟨numbers, hsaid, hnumbers⟩
  rcases Resolution.resolve_cases b ss w with ⟨d, hd, -, hrun⟩ | ⟨e, d, hd, -, hrun, e', he'⟩
  · rw [hd] at hsaid
    rcases commit_says hb d.workspace with ⟨closing, hclosing, hcommits⟩
    rw [show record d.workspace.store = _ from hsaid, List.append_assoc] at hclosing
    refine ⟨numbers ++ closing, by rw [hrun]; exact hclosing, ?_⟩
    rw [hrun]
    rcases hcommit : ((Workspace.commit b).runFrom d.workspace).1 with e | ⟨⟩
    · rw [hcommit] at hcommits
      rcases hcommits with ⟨before, last, rfl, hbefore, hok, hlast, hfails⟩
      rw [← List.append_assoc]
      exact .interrupted hnumbers hbefore hok hlast hfails
    · rw [hcommit] at hcommits
      exact .committed hnumbers hcommits.1 hcommits.2
  · rw [hd] at hsaid
    rw [hrun, he']
    rcases discard_says hb d.workspace with hsame | ⟨reply, hread⟩
    · exact ⟨numbers, by rw [hsame]; exact hsaid, .discarded hnumbers⟩
    · rw [show record d.workspace.store = _ from hsaid, List.append_assoc] at hread
      exact ⟨_, hread, .reread hnumbers⟩

/-! ## Executing and collecting -/

theorem program_says (hb : b.Records record) (program : Program) (x : Execution σ) :
    ∃ said outcome, record ((program.execute b).runFrom x).2.store = record x.store ++ said ∧
      Executing b record x.store program said outcome ∧
      ((program.execute b).runFrom x).1 = outcome.map (fun _ => ()) ∧
      ∀ last, outcome = .ok last → ((program.execute b).runFrom x).2.answer = last.or x.answer := by
  induction program generalizing x with
  | nil => exact ⟨[], .ok none, by simp [Program.execute], .done, rfl, by rintro _ ⟨⟩; rfl⟩
  | cons i rest ih =>
    rcases i.execute_tidied hb x.store with ⟨said, hsaid, hrequests, htidied⟩
    simp only [Program.execute, runFrom_bind, runFrom_along, Execution.storeLens]
    rcases hrun : (i.execute b).runFrom x.store with ⟨e | answer, s⟩ <;> rw [hrun] at hsaid
    · have hsays : Says b record x.store i said (.error e) s := ⟨hrun, hsaid, hrequests, htidied⟩
      exact ⟨said, .error e, hsaid, .failed hsays, rfl, nofun⟩
    · have hsays : Says b record x.store i said (.ok answer) s := ⟨hrun, hsaid, hrequests, htidied⟩
      rcases ih (Execution.note answer ⟨s, x.answer⟩) with ⟨more, outcome, hmore, hrest, hresult, hlast⟩
      refine ⟨said ++ more, outcome.map fun later => later.or answer, ?_, .step hsays hrest, ?_, ?_⟩
      · rw [← List.append_assoc, ← show record s = _ from hsaid]
        exact hmore
      · refine hresult.trans ?_
        cases outcome <;> rfl
      · rcases outcome with e | later
        · nofun
        · rintro _ ⟨⟩
          refine (hlast later rfl).trans ?_
          rw [Execution.note, Option.or_assoc]

/-- A program is executed under the lock, which is given back however it ends. -/
theorem run_says (hb : b.Records record) (program : Program) (s : σ) :
    ∃ said outcome, record ((run b program).runFrom s).2
        = record s ++ (acquired :: said ++ [released]) ∧
      Executing b record (b.acquire s) program said outcome ∧
      ((run b program).runFrom s).1 = outcome := by
  rcases program_says hb program ⟨b.acquire s, none⟩ with ⟨said, outcome, hsaid, hexec, hresult, hlast⟩
  simp only [run, Backend.locked, runFrom_bind, runFrom_modify, runFrom_thenAlways, runFrom_of,
    hb.release]
  rcases hrun : (program.execute b).runFrom ⟨b.acquire s, none⟩ with ⟨e | ⟨⟩, x⟩
  all_goals
    rw [hrun] at hsaid hresult hlast
    refine ⟨said, outcome, ?_, hexec, ?_⟩
    · simp only [hsaid, hb.acquire]
      simp
  · rcases outcome with e' | last <;> cases hresult
    rfl
  · rcases outcome with e' | last <;> cases hresult
    simpa using (hlast last rfl)

theorem resolveAndRun_says (hb : b.Records record) (ss : List Query.Statement) (w : Workspace σ) :
    ∃ resolving running resolved w',
      (Resolution.resolve b ss).runFrom w = (resolved, w') ∧
      record w'.store = record w.store ++ resolving ∧ Resolving resolving resolved ∧
      Running b record w'.store resolved running ((resolveAndRun b ss).runFrom w).1 ∧
      record ((resolveAndRun b ss).runFrom w).2.store = record w.store ++ resolving ++ running ∧
      ((resolveAndRun b ss).runFrom w).2.symbols = w'.symbols := by
  rcases resolve_says hb ss w with ⟨resolving, hsaid, hresolving⟩
  simp only [resolveAndRun, runFrom_bind, runFrom_mapError, runFrom_along]
  rcases hresolve : (Resolution.resolve b ss).runFrom w with ⟨e | program, w'⟩
  all_goals rw [hresolve] at hsaid hresolving
  · exact ⟨resolving, [], _, w', rfl, hsaid, hresolving, .unresolved, by simpa using hsaid, rfl⟩
  · rcases run_says hb program w'.store with ⟨said, outcome, hrun, hexec, hresult⟩
    refine ⟨resolving, acquired :: said ++ [released], _, w', rfl, hsaid, hresolving, ?_⟩
    have hlocked := Running.locked hexec
    rw [show record w'.store = _ from hsaid] at hrun
    simp only [Workspace.storeLens]
    rcases hran : (run b program).runFrom w'.store with ⟨e | last, s⟩ <;> rw [hran] at hrun hresult
    all_goals
      cases hresult
      exact ⟨hlocked, hrun, rfl⟩

theorem collect_says (hb : b.Records record) (w : Workspace σ) :
    ∃ collecting, record ((Workspace.collect b).runFrom w).2.store = record w.store ++ collecting ∧
      Collecting w.symbols collecting ((Workspace.collect b).runFrom w).1 := by
  have hlist := hb.relationNames w.store
  simp only [Workspace.collect, runFrom_bind, runFrom_along, runFrom_get, Workspace.storeLens]
  rcases hlisted : b.relationNames.runFrom w.store with ⟨e | names, s⟩ <;> rw [hlisted] at hlist
  · exact ⟨_, hlist, .unlisted⟩
  · simp only
    by_cases hnone : names.filter w.symbols.isCollected = []
    · simp only [hnone, List.isEmpty_nil, if_true, runFrom_pure]
      exact ⟨_, hlist, .nothing hnone⟩
    · let drop := Request.lines ((names.filter w.symbols.isCollected).map Statement.discard)
      have hdrop := hb.execute drop s
      rw [show record s = _ from hlist, List.append_assoc] at hdrop
      simp only [List.isEmpty_iff, if_neg hnone, Workspace.send, Backend.perform, runFrom_along,
        Workspace.storeLens, runFrom_bind]
      refine ⟨[listed (.ok names), executed drop ((b.execute drop).runFrom s).1], ?_, ?_⟩
      · refine Eq.trans ?_ hdrop
        rcases (b.execute drop).runFrom s with ⟨e | out, t⟩ <;> rfl
      · rcases (b.execute drop).runFrom s with ⟨e | out, t⟩ <;> exact .dropped hnone

/-! ## The lock -/

theorem follow_append {l l' : Lock} {said more : List Exchange} (h : l.follow said = some l') :
    l.follow (said ++ more) = l'.follow more := by
  induction said generalizing l with
  | nil => cases h; rfl
  | cons x said ih =>
    cases x with
    | acquired =>
      rcases hl : l.acquire? with _ | l₁ <;> simp only [Lock.follow, hl, Option.bind] at h
      · cases h
      · simp only [List.cons_append, Lock.follow, hl, Option.bind]
        exact ih h
    | released => exact ih h
    | executed r reply => exact ih h
    | queried r reply => exact ih h
    | listed reply => exact ih h

/-- Requests leave the lock as it is. -/
theorem follow_requests {l : Lock} {said : List Exchange} (h : ∀ x ∈ said, x.IsRequest) :
    l.follow said = some l := by
  induction said with
  | nil => rfl
  | cons x said ih =>
    have hx := h x List.mem_cons_self
    have hrest := ih fun y hy => h y (List.mem_cons_of_mem x hy)
    cases x <;> first | exact hrest | cases hx

theorem Executing.requests {s : σ} {program : Program} {said : List Exchange}
    {outcome : Except BackendError (Option Answer)} (h : Executing b record s program said outcome) :
    ∀ x ∈ said, x.IsRequest := by
  induction h with
  | done => exact fun x hx => absurd hx List.not_mem_nil
  | failed hlast => exact hlast.requests
  | step hfirst _ ih => exact List.forall_mem_append.2 ⟨hfirst.requests, ih⟩

theorem Resolving.requests {said : List Exchange} {resolved : Except QueryError Program}
    (h : Resolving said resolved) : ∀ x ∈ said, x.IsRequest := by
  have hnumbering : ∀ x : Exchange, x.IsNumbering → x.IsRequest := by
    intro x hx
    cases x <;> trivial
  have hcommitting : ∀ x : Exchange, x.IsCommitting → x.IsRequest := by
    intro x hx
    cases x <;> trivial
  cases h with
  | committed hnumbers hclosing _ =>
    exact List.forall_mem_append.2 ⟨fun x hx => hnumbering x (hnumbers x hx),
      fun x hx => hcommitting x (hclosing x hx)⟩
  | interrupted hnumbers hclosing _ hlast _ =>
    refine forall_isRequest_append (List.forall_mem_append.2 ⟨?_, ?_⟩) (hcommitting _ hlast)
    · exact fun x hx => hnumbering x (hnumbers x hx)
    · exact fun x hx => hcommitting x (hclosing x hx)
  | discarded hnumbers => exact fun x hx => hnumbering x (hnumbers x hx)
  | reread hnumbers =>
    exact forall_isRequest_append (fun x hx => hnumbering x (hnumbers x hx)) trivial

/-- Whoever takes the lock has given it back at the end. -/
theorem Running.follow {s : σ} {resolved : Except QueryError Program} {said : List Exchange}
    {outcome : Except QueryError Answer} (h : Running b record s resolved said outcome) :
    Lock.free.follow said = some Lock.free := by
  cases h with
  | unresolved => rfl
  | locked hexec =>
    change Lock.follow ⟨true⟩ (_ ++ [released]) = _
    rw [follow_append (follow_requests hexec.requests)]
    rfl

/-! ## Queries -/

theorem runFrom_execute_loaded {s s' : σ} {query : String} {ss : List Query.Statement}
    {t : SymbolTable} (hparse : Query.parse query = .ok ss)
    (hload : (SymbolTable.load b).runFrom s = (.ok t, s')) :
    (execute b query).runFrom s =
      (concluded ((resolveAndRun b ss).runFrom ⟨t, s'⟩).1
          ((Workspace.collect b).runFrom ((resolveAndRun b ss).runFrom ⟨t, s'⟩).2).1,
        ((Workspace.collect b).runFrom ((resolveAndRun b ss).runFrom ⟨t, s'⟩).2).2.store) := by
  simp only [execute, hparse, withSymbols, runFrom_of, hload, runFrom_bind, runFrom_attempt,
    runFrom_mapError, runFrom_ofExcept]
  rcases (resolveAndRun b ss).runFrom ⟨t, s'⟩ with ⟨e | answer, w⟩
  · rfl
  · rcases (Workspace.collect b).runFrom w with ⟨e | n, w'⟩ <;> rfl

/-- Whatever the store replies, a query says to it what the protocol prescribes and has the result
that the protocol gives. -/
theorem conversation_execute (b : Backend σ) (query : String) (s : Recorded σ) :
    ∃ said, ((execute b.recorded query).runFrom s).2.record = s.record ++ said ∧
      Conversation b.recorded Recorded.record query s said
        ((execute b.recorded query).runFrom s).1 := by
  have hb := b.records_recorded
  rcases hparse : Query.parse query with e | ss
  · simp only [execute, hparse]
    exact ⟨[], (List.append_nil _).symm, .unparsed hparse⟩
  rcases load_says hb s with ⟨e, s', hload, hsaid⟩ | ⟨out, rows, stored, s', hload, hrows, hsaid⟩
  · simp only [execute, hparse, withSymbols, runFrom_of, hload]
    rcases hsaid with hsaid | ⟨out, reply, hsaid, hreply⟩
    · exact ⟨_, hsaid, .uncreated hparse⟩
    · exact ⟨_, hsaid, .unread hparse hreply⟩
  · rw [runFrom_execute_loaded hparse hload]
    rcases resolveAndRun_says hb ss ⟨⟨stored.1, [], false, stored.2⟩, s'⟩ with
      ⟨resolving, running, resolved, w, hresolve, hresolving, hresolved, hrunning, hran, hsymbols⟩
    rcases collect_says hb ((resolveAndRun b.recorded ss).runFrom
      ⟨⟨stored.1, [], false, stored.2⟩, s'⟩).2 with ⟨collecting, hcollect, hcollecting⟩
    rw [hsymbols] at hcollecting
    refine ⟨[creating (.ok out), reading (.ok rows)] ++ resolving ++ running ++ collecting, ?_,
      .loaded hparse hrows hload hresolve hresolving hresolved hrunning hcollecting ?_⟩
    · rw [hcollect, hran, hsaid]
      simp
    · rw [List.append_assoc]
      change Lock.free.follow (resolving ++ running) = _
      rw [follow_append (follow_requests hresolved.requests)]
      exact hrunning.follow

end Session

end Provenance

import Provenance.Proofs.Agreement
import Provenance.Proofs.ReadyQueries
import Provenance.Storage

/-!
# Queries and direct evaluation

Statement by statement, the program of a query and the direct evaluation of the query give the same
answers and leave the same under every variable, or both fail.
-/

namespace Provenance

open Query Store Action Resolution Meaning Direct Draft

variable {σ : Type} {b : Backend σ} {view : σ → Database} {k : Supply} {relations : List Table}

namespace Resolution

/-- What was added to a program leads from one state of a direct evaluation to the next, or fails. -/
def Advances (b : Backend σ) (view : σ → Database) (k : Supply) (relations : List Table) (d d' : Draft σ)
    (s : σ) (st : State) (r : Option State) : Prop :=
  ∃ more, d'.program = d.program ++ more ∧
    Program.Yields b more s (fun st' answers t =>
      st'.answers = st.answers ++ answers ∧ Shows view k relations st'.env d' t) r

variable {d d' d'' : Draft σ} {s : σ} {st : State}

/-- What expressions add, and then something that changes variables only. -/
theorem Advances.of_gives {α : Type} {P : α → σ → Prop} {r : Option α} {d₁ : Draft σ}
    (h : Gives b view k relations st.env d d₁ s P r) {f : α → Option State}
    (hf : ∀ x t, Shows view k relations st.env d₁ t → P x t → Advances b view k relations d₁ d' t st (f x))
    {more : Program} (hprogram : d'.program = d₁.program ++ more) :
    Advances b view k relations d d' s st (r.bind f) := by
  obtain ⟨first, hfirst, hyields⟩ := h
  refine ⟨first ++ more, by rw [hprogram, hfirst, List.append_assoc], hyields.bind ?_⟩
  rintro x answers t ⟨rfl, -, hshows, hx⟩
  obtain ⟨last, hlast, hyields'⟩ := hf x t hshows hx
  obtain rfl : last = more := List.append_cancel_left (hlast.symm.trans hprogram)
  exact hyields'

theorem Advances.bind {r : Option State} (h : Advances b view k relations d d' s st r)
    {f : State → Option State}
    (hf : ∀ st' t, Shows view k relations st'.env d' t → Advances b view k relations d' d'' t st' (f st'))
    {more : Program} (hprogram : d''.program = d'.program ++ more) :
    Advances b view k relations d d'' s st (r.bind f) := by
  obtain ⟨first, hfirst, hyields⟩ := h
  refine ⟨first ++ more, by rw [hprogram, hfirst, List.append_assoc], hyields.bind ?_⟩
  rintro st' answers t ⟨hanswers, hshows⟩
  obtain ⟨last, hlast, hyields'⟩ := hf st' t hshows
  obtain rfl : last = more := List.append_cancel_left (hlast.symm.trans hprogram)
  exact hyields'.mono fun st'' later u _ ⟨hlater, hshows'⟩ =>
    ⟨by rw [hlater, hanswers, List.append_assoc], hshows'⟩

/-- A change of the draft that adds no instruction. -/
theorem Advances.pure (hprogram : d'.program = d.program) {st' : State} (hanswers : st'.answers = st.answers)
    (hshows : Shows view k relations st'.env d' s) : Advances b view k relations d d' s st (some st') :=
  ⟨[], by rw [hprogram, List.append_nil], .done (.nil s) ⟨by rw [hanswers, List.append_nil], hshows⟩⟩

/-! ## Assignments -/

theorem of_holding?_of_isHandle (db : Database) {x : Value} (hx : x.IsHandle) :
    (Meaning.of db x).holding? = some (Holding.of db x.shown) := by
  cases x with
  | graph g => rfl
  | metadata m => rfl
  | integer n => simp [Value.IsHandle, Value.kind] at hx
  | text content => simp [Value.IsHandle, Value.kind] at hx

theorem assigned_gives (hb : b.IsDatabase view False) {pos : Position}
    {target : Variable} {op : AssignOp} {e : Expr} {x : Value}
    (h : (assigned b pos target op e).runFrom d = (.ok x, d'))
    (hroom : (Program.creations d'.program).length ≤ k.room) {env : Environment}
    (hshows : Shows view k relations env d s) :
    Gives b view k relations env d d' s (fun m t => Meaning.of (view t) x = m)
      (Direct.assigned relations env target op e) := by
  obtain ⟨hop, -, he⟩ | ⟨operator, name, operand, d₁, p, hop, hname, he, hp, hrun⟩ := assigned_ok h
  · rw [Direct.assigned, hop]
    exact evaluate_gives hb e he hroom hshows
  · have hext := (run_extends (planInfix_proper hp) hrun).1
    have hext' := (evaluate_extends e he).1
    have huses : (named target name).IsHandle → d.Uses k (named target name).shown := fun _ => by
      rw [named_shown]
      exact hshows.traced.lookup? k.base hname
    have hcurrent : (env target.name).map (ofKind target.kind)
        = some (Meaning.of (view s) (named target name)) := by
      rw [← hshows.env, Environment.of, hname, meaning_named]
      rfl
    rw [Direct.assigned, hop]
    show Gives b view k relations env d d' s _ (((env target.name).map (ofKind target.kind)).bind _)
    rw [hcurrent, Option.bind_some]
    refine ((evaluate_gives hb e he (hext.creations_le.trans hroom) hshows).mono fun m t hshares hm =>
      (⟨hm, hshares.meaning huses⟩ : _ ∧ Meaning.of (view t) (named target name) = _)).bind
        (fun m t hshows₁ ⟨hm, hold⟩ => ?_) hext
    rw [← hm, ← hold]
    have hpair : planPair operator (some (named target name)) [operand] = some p := hp
    refine run_gives hb (isOperation_planPair operator) hpair (fun v hv => ?_) hrun hroom hshows₁
    obtain hv | hv := hv
    · cases hv
      exact fun hhandle => (huses hhandle).extends hext'
    · obtain rfl := List.mem_singleton.1 hv
      exact evaluate_uses he hshows.traced

theorem assignment_advances (hb : b.IsDatabase view False) {pos : Position}
    {target : Variable} {op : AssignOp} {e : Expr}
    (h : (assign b pos target op e).runFrom d = (.ok (), d'))
    (hroom : (Program.creations d'.program).length ≤ k.room)
    (hshows : Shows view k relations st.env d s) :
    Advances b view k relations d d' s st (Direct.statement relations st (.assignment pos target op e)) := by
  obtain ⟨hbase, x, d₁, hx, rfl⟩ := assign_ok h
  have hhandle := kind_isHandle target (assigned_kind hx)
  have hknows := (assigned_extends hx).2
  refine .of_gives (assigned_gives hb hx hroom hshows) (fun m t hshows₁ hm => ?_) (List.append_nil _).symm
  rw [← hm, of_holding?_of_isHandle _ hhandle]
  refine .pure rfl rfl ⟨⟨fun var name hname => ?_, hshows₁.traced.targets⟩,
    hshows₁.allocates.of_creations rfl rfl, hshows₁.relations, funext fun var => ?_⟩
  · simp only [OrderedMap.find?_insert] at hname
    split at hname
    · cases hname
      exact hshows₁.traced.uses hknows
    · exact hshows₁.traced.names var name hname
  · have hold := congrFun hshows₁.env var
    simp only [Environment.of, SymbolTable.lookup?, OrderedMap.find?_insert] at hold ⊢
    by_cases hvar : var = target.name
    · rw [if_neg (hvar ▸ hbase), if_pos hvar, hvar, Function.update_self]
      rfl
    · rw [if_neg hvar, Function.update_of_ne hvar]
      exact hold

/-! ## Commands -/

/-- An instruction that reads a graph gives the answer that direct evaluation gives. -/
theorem reading_advances (hb : b.IsDatabase view False) {read : Graph → Instruction} (hread : IsReading read)
    {g : Graph} (hg : IsOwn g.name) (hshows : Shows view k relations st.env d s) :
    Advances b view k relations d { d with program := d.program ++ [read g] } s st
      ((Direct.answer relations (Meaning.of (view s) (.graph g)) read).map fun a =>
        { st with answers := st.answers ++ [a] }) := by
  refine ⟨[read g], rfl, ?_⟩
  have hcreates : ∀ name, ¬ Program.Creates [read g] name := by
    intro name hname
    have htarget := hread.target g
    obtain h | h := hname <;> rw [← List.mem_singleton.1 h] at htarget <;> cases htarget
  have hagrees := answer_agrees hb hread hg s
  rw [hshows.relations] at hagrees
  split at hagrees
  · next a heq =>
    obtain ⟨t, ht⟩ := hagrees
    have hreplies : Program.Replies b [read g] s [a] t := .cons ht (.nil t)
    have hshares : Shares (d.Uses k) (view s) (view t) := hreplies.shares hb
      (fun i hi => by
        rw [List.mem_singleton.1 hi]
        exact ⟨hread.native g, fun name hname => by rw [hread.target g] at hname; cases hname⟩)
      (fun i hi name hname => by
        rw [List.mem_singleton.1 hi, hread.target g] at hname
        cases hname)
      fun name hname => ⟨hshows.traced.isOwn hname, hcreates name⟩
    rw [heq]
    refine .done hreplies ⟨rfl, ⟨⟨fun var name hname => ?_, fun i hi => ?_⟩, ?_, ?_, ?_⟩⟩
    · exact (hshows.traced.names var name hname).imp_right fun hold => hold.append _
    · obtain hi | hi := List.mem_append.1 hi
      · exact hshows.traced.targets i hi
      · rw [List.mem_singleton.1 hi, hread.target g]
        intro name hname
        cases hname
    · refine hshows.allocates.of_creations rfl ?_
      have hnone : Program.creations [read g] = [] := List.filterMap_eq_nil_iff.2 fun i hi => by
        rw [List.mem_singleton.1 hi]
        exact creates?_of_target? (hread.target g)
      rw [Program.creations_append, hnone, List.append_nil]
    · exact hshares.relations.trans hshows.relations
    · exact (hshares.environment fun var name hvar => hshows.traced.lookup? k.base hvar).trans hshows.env
  · next heq =>
    obtain ⟨e, t, ht⟩ := hagrees
    rw [heq]
    exact .failed (.head ht [])

theorem environment_clear (t : SymbolTable) (db : Database) :
    Environment.of t.clear db = (Environment.of t db).cleared := by
  funext var
  by_cases hvar : var = baseVariable
  · simp [Environment.of, Environment.cleared, SymbolTable.lookup?, hvar]
  · simp only [Environment.of, Environment.cleared, SymbolTable.lookup?, if_neg hvar]
    rfl

theorem reset_advances (hshows : Shows view k relations st.env d s) :
    Advances b view k relations d { d with workspace.symbols := d.workspace.symbols.clear } s st
      (some { st with env := st.env.cleared }) := by
  refine .pure rfl rfl ⟨⟨?_, hshows.traced.targets⟩, hshows.allocates.of_creations rfl rfl,
    hshows.relations, ?_⟩
  · intro var name hname
    cases hname
  · rw [environment_clear, hshows.env]

/-- A command on values gives what direct evaluation gives on what they stand for. -/
theorem perform_advances (hb : b.IsDatabase view False) {command : Command} (hnative : command ≠ .native)
    {words : List String} {xs : List Value} {pos : Position}
    (h : (perform command words xs pos).runFrom d = (.ok (), d'))
    (hused : ∀ x ∈ xs, x.IsHandle → d.Uses k x.shown) (hshows : Shows view k relations st.env d s) :
    Advances b view k relations d d' s st
      (Direct.perform relations st command words (xs.map (Meaning.of (view s)))) := by
  have hown : ∀ {g : Graph}, .graph g ∈ xs → IsOwn g.name := fun hg =>
    hshows.traced.isOwn (hused _ hg (.inl rfl))
  unfold perform at h
  split at h
  · next g =>
    cases h
    exact reading_advances hb (isReading_exportGraph _ _ _) (hown List.mem_cons_self) hshows
  · next g file =>
    cases h
    exact reading_advances hb (isReading_exportGraph _ _ _) (hown List.mem_cons_self) hshows
  · next g =>
    cases h
    exact reading_advances hb isReading_stat (hown List.mem_cons_self) hshows
  · exact absurd rfl hnative
  · cases h
    exact reset_advances hshows
  · cases h

theorem command_advances (hb : b.IsDatabase view False) {pos : Position}
    {name : String} {arguments : List Expr} (hname : name ≠ Command.native.name)
    (h : (command b pos name arguments).runFrom d = (.ok (), d'))
    (hroom : (Program.creations d'.program).length ≤ k.room)
    (hshows : Shows view k relations st.env d s) :
    Advances b view k relations d d' s st (Direct.statement relations st (.command pos name arguments)) := by
  obtain ⟨command, words, others, xs, d₁, hfind, hsplit, hxs, hperform⟩ := command_ok h
  have hnative : command ≠ .native := by
    rintro rfl
    exact hname (name_of_find? hfind)
  obtain ⟨more, hprogram⟩ : ∃ more, d'.program = d₁.program ++ more := by
    obtain ⟨i, rfl, -⟩ | rfl := perform_ok hperform
    · exact ⟨[i], rfl⟩
    · exact ⟨[], (List.append_nil _).symm⟩
  rw [Direct.statement, hfind]
  show Advances b view k relations d d' s st ((splitKeywords command arguments).toOption.bind _)
  rw [hsplit]
  refine .of_gives (evaluateAll_gives hb others hxs ?_ hshows) (fun ms t hshows₁ hms => ?_) hprogram
  · rw [hprogram, Program.creations_append, List.length_append] at hroom
    omega
  · rw [← hms]
    exact perform_advances hb hnative hperform (evaluateAll_uses hxs hshows.traced) hshows₁

/-! ## Queries -/

theorem statement_advances (hb : b.IsDatabase view False)
    {statement : Query.Statement} (hnative : statement.isNative = false)
    (h : (Resolution.statement b statement).runFrom d = (.ok (), d'))
    (hroom : (Program.creations d'.program).length ≤ k.room)
    (hshows : Shows view k relations st.env d s) :
    Advances b view k relations d d' s st (Direct.statement relations st statement) := by
  cases statement with
  | assignment pos target op e => exact assignment_advances hb h hroom hshows
  | command pos name arguments =>
    refine command_advances hb ?_ h hroom hshows
    simpa [Query.Statement.isNative] using hnative

/-- Statements extend the program. -/
theorem statements_program {ss : List Query.Statement}
    (h : (ss.forM (Resolution.statement b)).runFrom d = (.ok (), d')) :
    ∃ more, d'.program = d.program ++ more := by
  have hgrows := statements_spends (b := b) ss d
  rw [h] at hgrows
  obtain ⟨k, more, -, -, hprogram, -⟩ := hgrows
  exact ⟨more, hprogram⟩

theorem statements_advance (hb : b.IsDatabase view False)
    {ss : List Query.Statement} (hnative : ∀ statement ∈ ss, statement.isNative = false)
    (h : (ss.forM (Resolution.statement b)).runFrom d = (.ok (), d'))
    (hroom : (Program.creations d'.program).length ≤ k.room)
    (hshows : Shows view k relations st.env d s) :
    Advances b view k relations d d' s st (ss.foldlM (Direct.statement relations) st) := by
  induction ss generalizing d s st with
  | nil =>
    cases h
    exact .pure rfl rfl hshows
  | cons statement ss ih =>
    rw [Action.forM_cons] at h
    obtain ⟨⟨⟩, d₁, hstatement, hss⟩ := bind_ok_iff.1 h
    obtain ⟨more, hprogram⟩ := statements_program hss
    rw [List.foldlM_cons]
    refine (statement_advances hb (hnative _ List.mem_cons_self) hstatement ?_ hshows).bind
      (fun st' t hshows₁ => ih (fun later hlater => hnative later (List.mem_cons_of_mem _ hlater)) hss
        hshows₁) hprogram
    rw [hprogram, Program.creations_append, List.length_append] at hroom
    omega

/-! ## Resolved queries -/

/-- A commit leaves the bindings in memory as they are. -/
theorem commit_bindings (bindings : OrderedMap String String) :
    Preserves (fun w : Workspace σ => w.symbols.bindings = bindings) (Workspace.commit b) := by
  have hsend : ∀ r, Preserves (fun w : Workspace σ => w.symbols.bindings = bindings) (Workspace.send b r) :=
    fun r => Preserves.along (I := fun _ => True) (fun _ _ => trivial) (fun _ _ => trivial) fun _ _ _ h => h
  refine .bind (.bind .read fun w => ?_) fun _ => .bind .read fun _ => .bind (.modify fun _ h => h)
    fun _ => .forM fun p _ => hsend _
  dsimp only
  split
  · exact (hsend _).bind fun _ => (hsend _).bind fun _ => .modify fun _ h => h
  · exact .pure _

/-- Resolution leaves what names stand for, and all known elements. -/
theorem resolve_shares (hb : b.IsDatabase view False) (ss : List Query.Statement) (w : Workspace σ) :
    Shares IsOwn (view w.store) (view ((resolve b ss).runFrom w).2.store) := by
  have hconfined := resolve_preserves hb (undisturbed_confined (view w.store)) ss w (.refl _ _)
  refine .of_tables (fun name hname side => hconfined.others _ ?_) fun table htable =>
    hconfined.others _ ?_
  · rw [IsBindings, sameName_comm, Graph.sameName_table_relation]
    exact Bool.false_ne_true
  · rw [IsBindings, sameName_of_isLower (by decide) (Cast.isLower_of_mem_knownTables htable)]
    revert table
    decide

/-- What a program that resolution makes yields over a store that does not fail, and of which no table has
changed since resolution. -/
theorem resolve_yields (hb : b.IsDatabase view False) {ss : List Query.Statement}
    (hnative : ∀ statement ∈ ss, statement.isNative = false) {w w' : Workspace σ} {program : Program}
    (k : Supply) (hcounter : w.symbols.counter = k.counter)
    (hbound : ∀ var name, w.symbols.bindings.find? var = some name → k.known name)
    (hresolve : (resolve b ss).runFrom w = (.ok program, w'))
    (hroom : (Program.creations program).length ≤ k.room) {s : σ} (hs : view s = view w'.store) :
    program.Yields b s (fun st answers t => st.answers = answers ∧
        Environment.of w'.symbols (view t) = st.env ∧
        (view t).baseRelations = (view w.store).baseRelations)
      (Direct.run (view w.store).baseRelations (Environment.of w.symbols (view w.store)) ss) := by
  obtain ⟨d, hd, hcommit, hprogram⟩ := resolve_ok hresolve
  have hshares := resolve_shares hb ss w
  have hbindings := commit_bindings (b := b) d.workspace.symbols.bindings d.workspace rfl
  rw [hresolve] at hshares
  rw [hcommit] at hbindings
  have hlookup : ∀ var name, w.symbols.lookup? var = some name → IsOwn name := by
    intro var name hvar
    rw [SymbolTable.lookup?] at hvar
    split at hvar
    · cases hvar; exact .inl rfl
    · exact k.own name (hbound var name hvar)
  have hshows : Shows view k (view w.store).baseRelations (Environment.of w.symbols (view w.store))
      ⟨w, []⟩ s :=
    ⟨⟨fun var name hname => .inl (hbound var name hname), by simp⟩,
      by rw [← hcounter]; exact .empty w, by rw [hs]; exact hshares.relations,
      by rw [hs]; exact hshares.environment hlookup⟩
  have hadvances : Advances b view k (view w.store).baseRelations ⟨w, []⟩ d s
      ⟨Environment.of w.symbols (view w.store), []⟩ _ :=
    statements_advance hb hnative hd (hprogram ▸ hroom) hshows
  obtain ⟨more, hmore, hyields⟩ := hadvances
  rw [List.nil_append, hprogram] at hmore
  rw [← hmore] at hyields
  refine hyields.mono fun st answers t _ hst => ?_
  obtain ⟨hanswers, hshows'⟩ := hst
  refine ⟨by rw [hanswers, List.nil_append], ?_, hshows'.relations⟩
  rw [← hshows'.env]
  funext var
  rw [Environment.of, Environment.of, SymbolTable.lookup?, SymbolTable.lookup?, hbindings]

/-- A graph of two vertices, bound to a variable. -/
def twoVertices : List Query.Statement :=
  [.assignment default ⟨"$a"⟩ .set (.call default "vertices" [.integer default 1, .integer default 2])]

/-- The workspace that they leave, from a fresh store. -/
def afterTwoVertices : Workspace Database :=
  ((Session.resolveAndRun Backend.memory twoVertices).runFrom
    ⟨⟨[], [], false, 0⟩, ((SymbolTable.load Backend.memory).runFrom Storage.fresh).2⟩).2

/-- The graph gets a second variable, and the first variable another graph, between two questions. -/
def sharedGraph : List Query.Statement :=
  [.assignment default ⟨"$b"⟩ .set (.var default ⟨"$a"⟩),
   .assignment default ⟨"$a"⟩ .subtract (.call default "vertices" [.integer default 1]),
   .command default "stat" [.var default ⟨"$a"⟩],
   .command default "stat" [.var default ⟨"$b"⟩]]

def sharedGraphProgram : Program :=
  [.createGraph ⟨"trace_2"⟩, .insertVertices ⟨"trace_2"⟩ [1], .createGraph ⟨"trace_3"⟩,
   .subtract ⟨"trace_3"⟩ ⟨"trace_1"⟩ ⟨"trace_2"⟩, .stat ⟨"trace_3"⟩, .stat ⟨"trace_1"⟩]

end Resolution

end Provenance

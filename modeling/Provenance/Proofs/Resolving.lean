import Provenance.Proofs.Planning

/-!
# What resolution leaves behind

Evaluating an expression extends the program and takes numbers; the bindings stay as they are. Every
name that a variable is bound to by a resolved query was bound before, is the base graph, or is
created in the program. Resolution touches no relation but that of the bindings.
-/

namespace Provenance

open Query Store

/-- Whether a program makes the tables of a name. -/
def Program.Creates (program : Program) (name : String) : Prop :=
  .createGraph ⟨name⟩ ∈ program ∨ .createMetadata ⟨name⟩ ∈ program

instance (program : Program) (name : String) : Decidable (program.Creates name) :=
  inferInstanceAs (Decidable (_ ∨ _))

theorem Program.Creates.append {p : Program} {name : String} (h : p.Creates name) (q : Program) :
    Program.Creates (p ++ q) name :=
  h.imp (List.mem_append_left q) (List.mem_append_left q)

/-- Whether a statement is a command that sends a text of the user. -/
def Query.Statement.isNative : Query.Statement → Bool
  | .command _ name _ => name == Command.native.name
  | .assignment .. => false

/-- Whether a statement is the command that forgets all bindings. -/
def Query.Statement.isReset : Query.Statement → Bool
  | .command _ name _ => name == Command.reset.name
  | .assignment .. => false

/-- The variable that a statement assigns to. -/
def Query.Statement.assigned? : Query.Statement → Option String
  | .assignment _ target _ _ => some target.name
  | .command .. => none

namespace Draft

variable {σ : Type} {d d' d'' : Draft σ}

/-- More instructions stand in the program and numbers were taken; all else is as before. -/
structure Extends (d d' : Draft σ) : Prop where
  symbols : d'.workspace.symbols
    = { d.workspace.symbols with counter := d'.workspace.symbols.counter }
  program : ∃ more, d'.program = d.program ++ more ∧
    ∀ i ∈ more, i.isNative = false ∧ ∀ t ∈ i.target?, IsGenerated t

theorem Extends.refl (d : Draft σ) : Extends d d := ⟨rfl, [], by simp, by simp⟩

theorem Extends.trans (h : Extends d d') (h' : Extends d' d'') : Extends d d'' := by
  obtain ⟨more, hp, hm⟩ := h.program
  obtain ⟨more', hp', hm'⟩ := h'.program
  refine ⟨by rw [h'.symbols, h.symbols], more ++ more', by rw [hp', hp, List.append_assoc], ?_⟩
  intro i hi
  exact (List.mem_append.1 hi).elim (hm i) (hm' i)

theorem Extends.lookup? (h : Extends d d') (var : String) :
    d'.workspace.symbols.lookup? var = d.workspace.symbols.lookup? var := by
  rw [h.symbols]; rfl

/-- A handle that a variable is bound to, or a new one that the program creates. -/
def Knows (d : Draft σ) (name : String) : Prop :=
  (∃ var, d.workspace.symbols.lookup? var = some name) ∨
    IsGenerated name ∧ Program.Creates d.program name

/-- Every name that a variable has is one of those known before or is created in the program; what is
written to are new handles. -/
structure Traced (known : String → Prop) (d : Draft σ) : Prop where
  names : ∀ var name, d.workspace.symbols.bindings.find? var = some name →
    known name ∨ Program.Creates d.program name
  targets : ∀ i ∈ d.program, ∀ t ∈ i.target?, IsGenerated t

theorem Traced.lookup? {known : String → Prop} (hbase : known Graph.base.name) (h : d.Traced known)
    {var name : String} (hname : d.workspace.symbols.lookup? var = some name) :
    known name ∨ Program.Creates d.program name := by
  rw [SymbolTable.lookup?] at hname
  split at hname
  · cases hname; exact .inl hbase
  · exact h.names var name hname

theorem Traced.extends {known : String → Prop} (h : d.Traced known) (hext : Extends d d') :
    d'.Traced known := by
  obtain ⟨more, hp, hm⟩ := hext.program
  refine ⟨fun var name hname => ?_, fun i hi => ?_⟩
  · rw [hext.symbols] at hname
    rw [hp]
    exact (h.names var name hname).imp_right fun hc => hc.append more
  · rw [hp] at hi
    exact (List.mem_append.1 hi).elim (h.targets i) fun hi => (hm i hi).2

end Draft

/-- A graph or metadata, not a number or a text. -/
def Value.IsHandle (v : Value) : Prop := v.kind = .graph ∨ v.kind = .metadata

namespace Resolution

open Draft

variable {σ : Type} {b : Backend σ} {d d' : Draft σ}

theorem freshNumber_ok {w w' : Workspace σ} {n : Int}
    (h : (Workspace.freshNumber b).runFrom w = (.ok n, w')) :
    n = SymbolTable.wordAfter w.symbols.counter ∧ w'.symbols = { w.symbols with counter := n } := by
  obtain ⟨w₁, _, hget, h⟩ := Action.bind_ok_iff.1 h
  cases hget
  obtain ⟨⟨⟩, w₂, hsend, h⟩ := Action.bind_ok_iff.1 h
  obtain ⟨⟨⟩, w₃, hmod, h⟩ := Action.bind_ok_iff.1 h
  have hsame : w₂.symbols = w.symbols := by
    simp only [Workspace.send, Action.runFrom_along, Workspace.storeLens, Prod.mk.injEq] at hsend
    rw [← hsend.2]
  cases hmod
  cases h
  exact ⟨rfl, by simp only [hsame]⟩

theorem run_extends {p : Plan} {x : Value} (hp : p.Proper) (h : (p.run b).runFrom d = (.ok x, d')) :
    Extends d d' ∧ d'.Knows x.shown := by
  obtain ⟨n, w, hfresh, rfl, rfl⟩ := p.run_ok h
  obtain ⟨-, hsymbols⟩ := freshNumber_ok hfresh
  have hgen : IsGenerated (p.value n).shown := by
    cases p
    · exact ⟨n, .inl rfl⟩
    · exact ⟨n, .inr rfl⟩
  refine ⟨⟨by rw [hsymbols], _, rfl, fun i hi => ?_⟩, .inr ?_⟩
  · obtain ⟨ht, hn⟩ := hp.targets n i hi
    refine ⟨hn, fun t h => ?_⟩
    rw [ht] at h
    cases h
    exact hgen
  · refine ⟨hgen, ?_⟩
    cases p with
    | graph fill => exact .inl (List.mem_append_right _ List.mem_cons_self)
    | metadata fill => exact .inr (List.mem_append_right _ List.mem_cons_self)

theorem named_shown (v : Variable) (name : String) : (named v name).shown = name := by
  unfold named; split <;> rfl

mutual

/-- An expression that is evaluated extends the program, and its value is known. -/
theorem evaluate_extends : ∀ (e : Expr) {d d' : Draft σ} {x : Value},
    (evaluate b e).runFrom d = (.ok x, d') → Extends d d' ∧ (x.IsHandle → d'.Knows x.shown)
  | .integer pos n, d, d', x, h => by
    rw [evaluate] at h; cases h; exact ⟨.refl _, by simp [Value.IsHandle, Value.kind]⟩
  | .text pos s, d, d', x, h => by
    rw [evaluate] at h; cases h; exact ⟨.refl _, by simp [Value.IsHandle, Value.kind]⟩
  | .name pos word, d, d', x, h => by rw [evaluate] at h; cases h
  | .var pos v, d, d', x, h => by
    rw [evaluate] at h
    obtain ⟨name, hname, rfl, rfl⟩ := valueOf_ok h
    exact ⟨.refl _, fun _ => .inl ⟨v.name, by rw [named_shown]; exact hname⟩⟩
  | .call pos function operands, d, d', x, h => by
    obtain ⟨o, values, d₁, p, -, hvalues, hp, hrun⟩ := evaluate_call_ok h
    obtain ⟨hext, hknown⟩ := run_extends (planCall_proper hp) hrun
    exact ⟨(evaluateAll_extends operands hvalues).trans hext, fun _ => hknown⟩
  | .apply pos subject operator operands, d, d', x, h => by
    cases hoperator : isInfix operator with
    | true =>
      obtain ⟨k, e, es, lhs, d₁, rhs, d₂, p, -, rfl, hlhs, hrhs, hp, hrun⟩ :=
        evaluate_infix_ok hoperator h
      obtain ⟨hext, hknown⟩ := run_extends (planInfix_proper hp) hrun
      exact ⟨((evaluate_extends subject hlhs).1.trans (evaluate_extends e hrhs).1).trans hext,
        fun _ => hknown⟩
    | false =>
      obtain ⟨o, value, d₁, values, d₂, p, -, hvalue, hvalues, hp, hrun⟩ :=
        evaluate_method_ok hoperator h
      obtain ⟨hext, hknown⟩ := run_extends (planCall_proper hp) hrun
      exact ⟨((evaluate_extends subject hvalue).1.trans (evaluateAll_extends operands hvalues)).trans
        hext, fun _ => hknown⟩

theorem evaluateAll_extends : ∀ (es : List Expr) {d d' : Draft σ} {xs : List Value},
    (evaluateAll b es).runFrom d = (.ok xs, d') → Extends d d'
  | [], d, d', xs, h => by rw [evaluateAll] at h; cases h; exact .refl _
  | e :: es, d, d', xs, h => by
    obtain ⟨y, d₁, ys, -, hy, hys⟩ := evaluateAll_cons_ok h
    exact (evaluate_extends e hy).1.trans (evaluateAll_extends es hys)

end

/-! ## Statements that succeed -/

theorem assigned_ok {pos : Position} {target : Variable} {op : AssignOp} {value : Expr} {x : Value}
    (h : (assigned b pos target op value).runFrom d = (.ok x, d')) :
    (op.operator? = none ∧ kindOf value = .ok target.kind ∧
        (evaluate b value).runFrom d = (.ok x, d')) ∨
      ∃ operator name operand d₁ p, op.operator? = some operator ∧
        d.workspace.symbols.lookup? target.name = some name ∧
        (evaluate b value).runFrom d = (.ok operand, d₁) ∧
        planInfix operator (named target name) operand = some p ∧
        (p.run b).runFrom d₁ = (.ok x, d') := by
  obtain ⟨kind, hkind, h⟩ := require_bind_ok h
  split at h
  · next hop =>
    split at h
    · next hk => exact .inl ⟨hop, by rw [hkind, hk], h⟩
    · cases h
  · next operator hop =>
    obtain ⟨name, hname, h⟩ := valueOf_bind_ok h
    obtain ⟨-, -, h⟩ := require_bind_ok h
    obtain ⟨operand, d₁, hoperand, h⟩ := Action.bind_ok_iff.1 h
    rw [combine_eq] at h
    cases hp : planInfix operator (named target name) operand with
    | none => rw [hp] at h; cases h
    | some p =>
      rw [hp] at h
      exact .inr ⟨operator, name, operand, d₁, p, hop, hname, hoperand, hp, h⟩

theorem kind_isHandle (v : Variable) {x : Value} (h : x.kind = v.kind) : x.IsHandle := by
  have := named_kind (v := v) ""
  unfold named at this
  split at this
  · exact .inr (h.trans this.symm)
  · exact .inl (h.trans this.symm)

/-- What an assignment does when it succeeds. -/
theorem assign_ok {pos : Position} {target : Variable} {op : AssignOp} {value : Expr}
    (h : (assign b pos target op value).runFrom d = (.ok (), d')) :
    target.name ≠ baseVariable ∧ ∃ x d₁, (assigned b pos target op value).runFrom d = (.ok x, d₁) ∧
      d' = { d₁ with workspace.symbols := { d₁.workspace.symbols with
        bindings := d₁.workspace.symbols.bindings.insert target.name x.shown
        pending := d₁.workspace.symbols.pending.insert target.name x.shown } } := by
  unfold assign at h
  split at h
  · cases h
  · next hbase =>
    obtain ⟨x, d₁, hx, h⟩ := Action.bind_ok_iff.1 h
    simp only [bindTo, Action.runFrom_bind, Action.runFrom_get, SymbolTable.bind?, if_neg hbase] at h
    cases h
    exact ⟨hbase, x, d₁, hx, rfl⟩

theorem assigned_extends {pos : Position} {target : Variable} {op : AssignOp} {value : Expr}
    {x : Value} (h : (assigned b pos target op value).runFrom d = (.ok x, d')) :
    Extends d d' ∧ d'.Knows x.shown := by
  obtain ⟨-, hkind, h⟩ | ⟨operator, name, operand, d₁, p, -, -, hoperand, hp, hrun⟩ := assigned_ok h
  · obtain ⟨hext, hknown⟩ := evaluate_extends value h
    rw [evaluate_kind value h] at hkind
    exact ⟨hext, hknown (kind_isHandle target (Except.ok.inj hkind))⟩
  · obtain ⟨hext, hknown⟩ := run_extends (planInfix_proper hp) hrun
    exact ⟨(evaluate_extends value hoperand).1.trans hext, hknown⟩

/-- What a command does when it succeeds: it adds an instruction that reads, or it forgets the
bindings. -/
theorem command_ok {pos : Position} {name : String} {arguments : List Expr}
    (h : (command b pos name arguments).runFrom d = (.ok (), d')) :
    ∃ c words others values d₁, Command.find? name = some c ∧
      splitKeywords c arguments = .ok (words, others) ∧
      (evaluateAll b others).runFrom d = (.ok values, d₁) ∧
      (perform c words values pos).runFrom d₁ = (.ok (), d') := by
  unfold command at h
  split at h
  · cases h
  · next c hc =>
    obtain ⟨⟨words, others⟩, hsplit, h⟩ := require_bind_ok h
    obtain ⟨-, -, h⟩ := require_bind_ok h
    obtain ⟨-, -, h⟩ := require_bind_ok h
    obtain ⟨-, -, h⟩ := require_bind_ok h
    obtain ⟨values, d₁, hvalues, h⟩ := Action.bind_ok_iff.1 h
    exact ⟨c, words, others, values, d₁, hc, hsplit, hvalues, h⟩

theorem perform_ok {c : Command} {words : List String} {values : List Value} {pos : Position}
    (h : (perform c words values pos).runFrom d = (.ok (), d')) :
    (∃ i, d' = { d with program := d.program ++ [i] } ∧ i.target? = none ∧
        (i.isNative = true → c = .native)) ∨
      d' = { d with workspace.symbols := d.workspace.symbols.clear } := by
  unfold perform at h
  split at h
  · cases h; exact .inl ⟨_, rfl, rfl, by simp [Instruction.isNative]⟩
  · cases h; exact .inl ⟨_, rfl, rfl, by simp [Instruction.isNative]⟩
  · cases h; exact .inl ⟨_, rfl, rfl, by simp [Instruction.isNative]⟩
  · cases h; exact .inl ⟨_, rfl, rfl, fun _ => rfl⟩
  · cases h; exact .inr rfl
  · cases h

theorem name_of_find? {name : String} {c : Command} (h : Command.find? name = some c) :
    name = c.name := by
  have := List.find?_some h
  exact (beq_iff_eq.1 this).symm

section Traced

variable {known : String → Prop}

theorem statement_traced (hbase : known Graph.base.name) {s : Query.Statement} (h : d.Traced known)
    (hok : (statement b s).runFrom d = (.ok (), d')) : d'.Traced known := by
  cases s with
  | assignment pos target op value =>
    obtain ⟨-, x, d₁, hx, rfl⟩ := assign_ok hok
    obtain ⟨hext, hknows⟩ := assigned_extends hx
    have h₁ := h.extends hext
    refine ⟨fun var name hname => ?_, h₁.targets⟩
    simp only [OrderedMap.find?_insert] at hname
    split at hname
    · cases hname
      obtain ⟨var, hvar⟩ | hnew := hknows
      · exact h₁.lookup? hbase hvar
      · exact .inr hnew.2
    · exact h₁.names var name hname
  | command pos name arguments =>
    obtain ⟨c, words, others, values, d₁, -, -, hvalues, hperform⟩ := command_ok hok
    have h₁ := h.extends (evaluateAll_extends others hvalues)
    obtain ⟨i, rfl, ht, -⟩ | rfl := perform_ok hperform
    · refine ⟨fun var name hname => (h₁.names var name hname).imp_right fun hc => hc.append [i],
        fun j hj => ?_⟩
      obtain hj | hj := List.mem_append.1 hj
      · exact h₁.targets j hj
      · rw [List.mem_singleton.1 hj, ht]
        rintro _ ⟨⟩
    · exact ⟨fun var name hname => (by cases hname), h₁.targets⟩

/-- A program has a text of the user only if a statement gave one. -/
theorem statement_native {s : Query.Statement} (hs : s.isNative = false)
    (hd : ∀ i ∈ d.program, i.isNative = false)
    (hok : (statement b s).runFrom d = (.ok (), d')) : ∀ i ∈ d'.program, i.isNative = false := by
  have hext : ∀ {d₁ : Draft σ}, Extends d d₁ → ∀ i ∈ d₁.program, i.isNative = false := by
    intro d₁ hext i hi
    obtain ⟨more, hp, hm⟩ := hext.program
    rw [hp] at hi
    exact (List.mem_append.1 hi).elim (hd i) fun hi => (hm i hi).1
  cases s with
  | assignment pos target op value =>
    obtain ⟨-, x, d₁, hx, rfl⟩ := assign_ok hok
    have h₁ := hext (assigned_extends hx).1
    exact h₁
  | command pos name arguments =>
    obtain ⟨c, words, others, values, d₁, hc, -, hvalues, hperform⟩ := command_ok hok
    have h₁ := hext (evaluateAll_extends others hvalues)
    obtain ⟨i, rfl, -, hnative⟩ | rfl := perform_ok hperform
    · intro j hj
      obtain hj | hj := List.mem_append.1 hj
      · exact h₁ j hj
      · rw [List.mem_singleton.1 hj, ← Bool.not_eq_true]
        intro hi
        rw [hnative hi] at hc
        simp [Query.Statement.isNative, name_of_find? hc] at hs
    · exact h₁

/-- What each statement preserves when it succeeds is preserved by all. -/
theorem statements_induction {P : Draft σ → Prop} {ss : List Query.Statement}
    (hstep : ∀ s ∈ ss, ∀ d d', P d → (statement b s).runFrom d = (.ok (), d') → P d')
    (hd : P d) (hok : (ss.forM (statement b)).runFrom d = (.ok (), d')) : P d' := by
  induction ss generalizing d with
  | nil => cases hok; exact hd
  | cons s ss ih =>
    rw [Action.forM_cons] at hok
    obtain ⟨⟨⟩, d₁, hs, hss⟩ := Action.bind_ok_iff.1 hok
    exact ih (fun t ht => hstep t (List.mem_cons_of_mem s ht))
      (hstep s List.mem_cons_self d d₁ hd hs) hss

end Traced

/-! ## What resolution preserves

A property of drafts is looked at that is preserved when a plan is carried out. It is preserved by all
of resolution, however that ends, if it is by new bindings, by forgetting them, and by the
instructions that only read. -/

section Preserves

open Action

variable {J : Draft σ → Prop}

theorem require_preserves {α : Type} (c : Checked α) : Preserves J (require c : Drafting σ α) :=
  .ofExcept _

theorem fail_preserves {α : Type} (e : ResolutionError) : Preserves J (fail e : Drafting σ α) :=
  .throw _

theorem valueOf_preserves (v : Variable) (pos : Position) :
    Preserves J (valueOf v pos : Drafting σ Value) := by
  refine .bind .read fun d => ?_
  split
  · exact fail_preserves _
  · exact .pure _

theorem combine_preserves (hrun : ∀ p : Plan, p.Proper → Preserves J (p.run b)) (operator : String)
    (lhs rhs : Value) (pos : Position) : Preserves J (combine b operator lhs rhs pos) := by
  rw [combine_eq]
  split
  · next p hp => exact hrun p (planInfix_proper hp)
  · exact fail_preserves _

theorem apply_preserves (hrun : ∀ p : Plan, p.Proper → Preserves J (p.run b)) (o : Operation)
    (subject : Option Value) (operands : List Value) (pos : Position) :
    Preserves J (apply b o subject operands pos) := by
  obtain ⟨p, hp, heq⟩ | ⟨-, e, heq⟩ := apply_cases b o subject operands pos
  · rw [heq]
    exact hrun p (planCall_proper hp)
  · rw [heq]
    exact fail_preserves e

mutual

theorem evaluate_preserves (hrun : ∀ p : Plan, p.Proper → Preserves J (p.run b)) :
    ∀ e : Expr, Preserves J (evaluate b e)
  | .integer pos n => by rw [evaluate]; exact .pure _
  | .text pos s => by rw [evaluate]; exact .pure _
  | .name pos word => by rw [evaluate]; exact fail_preserves _
  | .var pos v => by rw [evaluate]; exact valueOf_preserves v pos
  | .call pos function operands => by
    rw [evaluate]
    exact (require_preserves _).bind fun o => (require_preserves _).bind fun _ =>
      (require_preserves _).bind fun _ => (evaluateAll_preserves hrun operands).bind fun values =>
        apply_preserves hrun o none values pos
  | .apply pos subject operator operands => by
    rw [evaluate]
    split
    · refine (require_preserves _).bind fun _ => (evaluate_preserves hrun subject).bind fun lhs =>
        (evaluateFirst_preserves hrun operands).bind fun first => ?_
      split
      · exact fail_preserves _
      · exact combine_preserves hrun _ _ _ _
    · exact (require_preserves _).bind fun o => (require_preserves _).bind fun _ =>
        (require_preserves _).bind fun _ => (require_preserves _).bind fun _ =>
          (evaluate_preserves hrun subject).bind fun value =>
            (evaluateAll_preserves hrun operands).bind fun values =>
              apply_preserves hrun o (some value) values pos

theorem evaluateAll_preserves (hrun : ∀ p : Plan, p.Proper → Preserves J (p.run b)) :
    ∀ es : List Expr, Preserves J (evaluateAll b es)
  | [] => by rw [evaluateAll]; exact .pure _
  | e :: es => by
    rw [evaluateAll]
    exact (evaluate_preserves hrun e).bind fun _ => (evaluateAll_preserves hrun es).bind fun _ =>
      .pure _

theorem evaluateFirst_preserves (hrun : ∀ p : Plan, p.Proper → Preserves J (p.run b)) :
    ∀ es : List Expr, Preserves J (evaluateFirst b es)
  | [] => by rw [evaluateFirst]; exact .pure _
  | e :: es => by
    rw [evaluateFirst]
    exact (evaluate_preserves hrun e).bind fun _ => .pure _

end

theorem assigned_preserves (hrun : ∀ p : Plan, p.Proper → Preserves J (p.run b)) (pos : Position)
    (target : Variable) (op : AssignOp) (value : Expr) :
    Preserves J (assigned b pos target op value) := by
  refine (require_preserves _).bind fun kind => ?_
  split
  · split
    · exact evaluate_preserves hrun value
    · exact fail_preserves _
  · exact (valueOf_preserves target pos).bind fun _ => (require_preserves _).bind fun _ =>
      (evaluate_preserves hrun value).bind fun _ => combine_preserves hrun _ _ _ _

/-- A statement preserves what plans, new bindings, instructions that only read and forgetting the
bindings preserve. A new binding is of the variable that the statement assigns to, and to a name that
is bound already or that the program creates. -/
theorem statement_preserves_draft {s : Query.Statement}
    (hrun : ∀ p : Plan, p.Proper → Preserves J (p.run b))
    (hbind : ∀ d var name, J d → s.assigned? = some var → var ≠ baseVariable → d.Knows name →
      J { d with workspace.symbols := { d.workspace.symbols with
        bindings := d.workspace.symbols.bindings.insert var name
        pending := d.workspace.symbols.pending.insert var name } })
    (hread : ∀ i : Instruction, i.target? = none → ∀ d, J d →
      J { d with program := d.program ++ [i] })
    (hclear : s.isReset = true → ∀ d, J d →
      J { d with workspace.symbols := d.workspace.symbols.clear }) :
    Preserves J (statement b s) := by
  cases s with
  | assignment pos target op value =>
    intro d hd
    generalize hstatement : (statement b (.assignment pos target op value)).runFrom d = x
    obtain ⟨result, d'⟩ := x
    cases result with
    | ok _ =>
      obtain ⟨hbase, x, d₁, hx, rfl⟩ := assign_ok hstatement
      have h₁ := assigned_preserves hrun pos target op value d hd
      rw [hx] at h₁
      exact hbind _ _ _ h₁ rfl hbase (assigned_extends hx).2
    | error e =>
      have hsame : d' = d ∨ ∃ e', (assigned b pos target op value).runFrom d = (.error e', d') := by
        simp only [statement, assign] at hstatement
        split at hstatement
        · cases hstatement; exact .inl rfl
        · next hbase =>
          rw [runFrom_bind] at hstatement
          split at hstatement
          · simp [bindTo, runFrom_bind, SymbolTable.bind?, hbase] at hstatement
          · next e' t heq => cases hstatement; exact .inr ⟨_, heq⟩
      obtain rfl | ⟨e', he'⟩ := hsame
      · exact hd
      · have h₁ := assigned_preserves hrun pos target op value d hd
        rw [he'] at h₁
        exact h₁
  | command pos name arguments =>
    simp only [statement, command]
    split
    · exact fail_preserves _
    · next c hc =>
      refine (require_preserves _).bind fun (words, others) => (require_preserves _).bind fun _ =>
        (require_preserves _).bind fun _ => (require_preserves _).bind fun _ =>
          (evaluateAll_preserves hrun others).bind fun values => ?_
      unfold perform
      split
      · exact .modify (hread _ rfl)
      · exact .modify (hread _ rfl)
      · exact .modify (hread _ rfl)
      · exact .modify (hread _ rfl)
      · exact fun d hd => hclear (by simp [Query.Statement.isReset, name_of_find? hc]) _ hd
      · exact fail_preserves _

variable {I : Workspace σ → Prop}

/-- The property of the workspace of a draft. -/
abbrev OnWorkspace (I : Workspace σ → Prop) (d : Draft σ) : Prop := I d.workspace

theorem run_preserves (hfresh : Preserves I (Workspace.freshNumber b)) (p : Plan) :
    Preserves (OnWorkspace I) (p.run b) := by
  intro d hd
  have h := hfresh d.workspace hd
  rw [p.runFrom_run]
  split <;> next heq => rw [heq] at h; exact h

/-- A property of workspaces that new numbers, new bindings and forgetting them preserve. -/
theorem statement_preserves (hfresh : Preserves I (Workspace.freshNumber b)) {s : Query.Statement}
    (hbind : ∀ w var name, I w → s.assigned? = some var → var ≠ baseVariable →
      (IsGenerated name ∨ ∃ v, w.symbols.lookup? v = some name) →
      I { w with symbols := { w.symbols with
        bindings := w.symbols.bindings.insert var name
        pending := w.symbols.pending.insert var name } })
    (hclear : s.isReset = true → ∀ w, I w → I { w with symbols := w.symbols.clear }) :
    Preserves (OnWorkspace I) (statement b s) :=
  statement_preserves_draft (fun p _ => run_preserves hfresh p)
    (fun d var name hd hvar hbase hname => hbind d.workspace var name hd hvar hbase
      (hname.elim .inr fun hnew => .inl hnew.1))
    (fun _ _ _ hd => hd) fun hreset d hd => hclear hreset d.workspace hd

end Preserves

end Resolution

end Provenance

import Provenance.Proofs.Footprint
import Provenance.Proofs.Workspaces
import Provenance.Resolution.Resolve

/-!
# What resolution plans

The part of resolution that does not look at the store. An operation on values plans the making of a
graph or of metadata: what fills it, given its name. Resolving without an error is read as plans
carried out one after the other, each under a new name.
-/

namespace Provenance

open Query

/-- A graph or metadata to be made, with the instructions that fill it. -/
inductive Plan where
  | graph (fill : Graph → List Instruction)
  | metadata (fill : Metadata → Instruction)

namespace Plan

variable {σ : Type} {b : Backend σ}

/-- Carries out a plan under a new name. -/
def run (b : Backend σ) : Plan → Drafting σ Value
  | graph fill => Draft.newGraph b fill
  | metadata fill => Draft.newMetadata b fill

/-- The handle that is made under a number. -/
def value (n : Int) : Plan → Value
  | graph _ => .graph ⟨graphPrefix ++ Text.decimal n⟩
  | metadata _ => .metadata ⟨metadataPrefix ++ Text.decimal n⟩

/-- What makes the handle of a number. -/
def instructions (n : Int) : Plan → List Instruction
  | graph fill =>
    .createGraph ⟨graphPrefix ++ Text.decimal n⟩ :: fill ⟨graphPrefix ++ Text.decimal n⟩
  | metadata fill =>
    [.createMetadata ⟨metadataPrefix ++ Text.decimal n⟩, fill ⟨metadataPrefix ++ Text.decimal n⟩]

@[simp] theorem runFrom_push (i : Instruction) (d : Draft σ) :
    (Draft.push i).runFrom d = (.ok (), { d with program := d.program ++ [i] }) := rfl

/-- What fills a handle writes to it, creates none and sends no text of the user. -/
def Proper : Plan → Prop
  | .graph fill => ∀ t, ∀ i ∈ fill t,
    i.target? = some t.name ∧ i.isNative = false ∧ i.creates? = none
  | .metadata fill => ∀ t,
    (fill t).target? = some t.name ∧ (fill t).isNative = false ∧ (fill t).creates? = none

theorem Proper.targets {p : Plan} (h : p.Proper) (n : Int) :
    ∀ i ∈ p.instructions n, i.target? = some (p.value n).shown ∧ i.isNative = false := by
  cases p with
  | graph fill =>
    intro i hi
    obtain rfl | hi := List.mem_cons.1 hi
    · exact ⟨rfl, rfl⟩
    · exact ⟨(h _ i hi).1, (h _ i hi).2.1⟩
  | metadata fill =>
    intro i hi
    simp only [instructions, List.mem_cons, List.not_mem_nil, or_false] at hi
    obtain rfl | rfl := hi
    · exact ⟨rfl, rfl⟩
    · exact ⟨(h _).1, (h _).2.1⟩

/-- A plan creates its own handle and no other. -/
theorem Proper.creations {p : Plan} (h : p.Proper) (n : Int) :
    (p.instructions n).filterMap Instruction.creates? = [(p.value n).shown] := by
  cases p with
  | graph fill =>
    have hfill : (fill ⟨graphPrefix ++ Text.decimal n⟩).filterMap Instruction.creates? = [] :=
      List.filterMap_eq_nil_iff.2 fun i hi => (h _ i hi).2.2
    simp only [instructions, List.filterMap_cons, hfill]
    rfl
  | metadata fill =>
    have hfill : (fill ⟨metadataPrefix ++ Text.decimal n⟩).creates? = none := (h _).2.2
    simp only [instructions, List.filterMap_cons, hfill, List.filterMap_nil]
    rfl

theorem runFrom_forM_push (is : List Instruction) (d : Draft σ) :
    (is.forM Draft.push : Drafting σ Unit).runFrom d
      = (.ok (), { d with program := d.program ++ is }) := by
  induction is generalizing d with
  | nil => rw [List.append_nil]; rfl
  | cons i is ih => rw [Action.forM_cons, Action.runFrom_bind_ok (runFrom_push i d), ih]; simp

theorem runFrom_onWorkspace {α : Type} (a : Action (Workspace σ) BackendError α) (d : Draft σ) :
    (Draft.onWorkspace a).runFrom d = ((a.runFrom d.workspace).1.mapError .backend,
      { d with workspace := (a.runFrom d.workspace).2 }) := rfl

/-- A plan is carried out under the next number, if that is given out. -/
theorem runFrom_run (p : Plan) (d : Draft σ) :
    (p.run b).runFrom d = match (Workspace.freshNumber b).runFrom d.workspace with
      | (.ok n, w) => (.ok (p.value n), ⟨w, d.program ++ p.instructions n⟩)
      | (.error e, w) => (.error (.backend e), { d with workspace := w }) := by
  cases p with
  | graph fill =>
    simp only [run, Draft.newGraph, Action.runFrom_bind, runFrom_onWorkspace,
      Workspace.runFrom_freshGraph]
    cases (Workspace.freshNumber b).runFrom d.workspace with
    | mk r w =>
      cases r with
      | error e => rfl
      | ok n =>
        simp only [Except.mapError, runFrom_push, runFrom_forM_push, Action.runFrom_pure]
        simp [value, instructions]
  | metadata fill =>
    simp only [run, Draft.newMetadata, Action.runFrom_bind, runFrom_onWorkspace,
      Workspace.runFrom_freshMetadata]
    cases (Workspace.freshNumber b).runFrom d.workspace with
    | mk r w =>
      cases r with
      | error e => rfl
      | ok n => simp [Except.mapError, value, instructions]

theorem run_ok {p : Plan} {d d' : Draft σ} {v : Value} (h : (p.run b).runFrom d = (.ok v, d')) :
    ∃ n w, (Workspace.freshNumber b).runFrom d.workspace = (.ok n, w) ∧ v = p.value n ∧
      d' = ⟨w, d.program ++ p.instructions n⟩ := by
  rw [runFrom_run] at h
  split at h
  · next n w heq => cases h; exact ⟨n, w, heq, rfl, rfl⟩
  · cases h

end Plan

namespace Resolution

open Draft

variable {σ : Type} {b : Backend σ}

/-! ## Plans of operations -/

/-- What an infix operator plans on two values. -/
def planInfix (operator : String) (lhs rhs : Value) : Option Plan :=
  match operator, lhs, rhs with
  | "+", .graph x, .graph y => some (.graph fun t => [.union t x, .union t y])
  | "+", .metadata x, .metadata y => some (.metadata fun t => .overwriteMetadata t x y)
  | "&", .graph x, .graph y => some (.graph fun t => [.intersect t x y])
  | "-", .graph x, .graph y => some (.graph fun t => [.subtract t x y])
  | _, _, _ => none

/-- A plan that depends on a number that is not negative. -/
def planCounted (n : Int) (p : Plan) : Option Plan := if n < 0 then none else some p

/-- What a call plans on the values of its operands. -/
def planCall (o : Operation) (subject : Option Value) (operands : List Value) : Option Plan :=
  match o, subject, operands with
  | .vertices, none, values =>
    (allOf Value.integer? values).map fun ids => .graph fun t => [.insertVertices t ids]
  | .edges, none, values =>
    (allOf Value.integer? values).map fun ids => .graph fun t => [.insertEdges t ids]
  | .lineage, some (.graph g), [.graph start, .integer depth, .text spelling] =>
    (Direction.ofSpelling? spelling).bind fun direction =>
      planCounted depth (.graph fun t => [.lineage t g start depth direction])
  | .path, some (.graph g), [.graph source, .graph destination, .integer depth] =>
    planCounted depth (.graph fun t => [.path t g source destination depth])
  | .shortestPath, some (.graph g), [.graph source, .graph destination, .integer depth] =>
    planCounted depth (.graph fun t => [.shortestPath t g source destination depth])
  | .subgraph, some (.graph g), [.graph skeleton] => some (.graph fun t => [.subgraph t g skeleton])
  | .endpoints which, some (.graph g), [] => some (.graph fun t => [.endpoints t g which])
  | .collapse, some (.graph g), values =>
    (allOf Value.text? values).map fun fields => .graph fun t => [.collapse t g fields]
  | .limit, some (.graph g), [.integer bound] =>
    planCounted bound (.graph fun t => [.limit t g bound])
  | .distinct, some (.graph g), [] => some (.graph fun t => [.distinct t g])
  | .setMetadata coverage, some (.graph g), [.text name, .text value] =>
    some (.metadata fun t => .setMetadata t coverage g name value)
  | _, _, _ => none

theorem combine_eq (operator : String) (lhs rhs : Value) (pos : Position) :
    combine b operator lhs rhs pos = match planInfix operator lhs rhs with
      | some p => p.run b
      | none => fail (.unchecked operator pos) := by
  unfold combine
  split
  · rfl
  · rfl
  · rfl
  · rfl
  · next h₁ h₂ h₃ h₄ =>
    have hnone : planInfix operator lhs rhs = none := by
      unfold planInfix
      split
      · exact (h₁ _ _ rfl rfl rfl).elim
      · exact (h₂ _ _ rfl rfl rfl).elim
      · exact (h₃ _ _ rfl rfl rfl).elim
      · exact (h₄ _ _ rfl rfl rfl).elim
      · rfl
    rw [hnone]

/-- What follows a check of a number that fails, or that succeeds. -/
theorem requireCount_bind {α : Type} (quantity call : String) (n : Int) (pos : Position)
    (f : Unit → Drafting σ α) :
    requireCount quantity call n pos >>= f
      = if n < 0 then fail (.invalidArgument (.negative quantity call n) pos) else f () := by
  unfold requireCount
  split <;> rfl

/-- A call on values carries out what it plans, or fails because it plans nothing. -/
theorem apply_cases (b : Backend σ) (o : Operation) (subject : Option Value) (operands : List Value)
    (pos : Position) :
    (∃ p, planCall o subject operands = some p ∧ apply b o subject operands pos = p.run b) ∨
      planCall o subject operands = none ∧ ∃ e, apply b o subject operands pos = fail e := by
  have hcounted : ∀ (quantity call : String) (n : Int) (fill : Graph → List Instruction),
      (∃ q, planCounted n (.graph fill) = some q ∧
        (requireCount quantity call n pos >>= fun _ => newGraph b fill) = q.run b) ∨
        planCounted n (.graph fill) = none ∧
          ∃ e, (requireCount quantity call n pos >>= fun _ => newGraph b fill) = fail e := by
    intro quantity call n fill
    rw [requireCount_bind, planCounted]
    by_cases hn : n < 0
    · exact .inr ⟨if_pos hn, _, if_pos hn⟩
    · exact .inl ⟨.graph fill, if_neg hn, if_neg hn⟩
  unfold apply
  split
  · cases hids : allOf Value.integer? operands with
    | none => exact .inr ⟨by simp [planCall, hids], _, rfl⟩
    | some ids => exact .inl ⟨.graph fun t => [.insertVertices t ids], by simp [planCall, hids], rfl⟩
  · cases hids : allOf Value.integer? operands with
    | none => exact .inr ⟨by simp [planCall, hids], _, rfl⟩
    | some ids => exact .inl ⟨.graph fun t => [.insertEdges t ids], by simp [planCall, hids], rfl⟩
  · next g start depth spelling =>
    cases hd : Direction.ofSpelling? spelling with
    | none =>
      refine .inr ⟨by simp [planCall, hd], ?_⟩
      rw [requireCount_bind, requireDirection, hd]
      split <;> exact ⟨_, rfl⟩
    | some direction =>
      simp only [planCall, requireDirection, hd, Option.bind_some, pure_bind]
      exact hcounted _ _ _ _
  · exact hcounted _ _ _ _
  · exact hcounted _ _ _ _
  · exact .inl ⟨_, rfl, rfl⟩
  · exact .inl ⟨_, rfl, rfl⟩
  · cases hfields : allOf Value.text? operands with
    | none => exact .inr ⟨by simp [planCall, hfields], _, rfl⟩
    | some fields =>
      next g => exact .inl ⟨.graph fun t => [.collapse t g fields], by simp [planCall, hfields], rfl⟩
  · exact hcounted _ _ _ _
  · exact .inl ⟨_, rfl, rfl⟩
  · exact .inl ⟨_, rfl, rfl⟩
  · next h₁ h₂ h₈ h₃ h₄ h₅ h₆ h₇ h₉ h₁₀ h₁₁ =>
    refine .inr ⟨?_, _, rfl⟩
    unfold planCall
    split
    · exact (h₁ rfl rfl).elim
    · exact (h₂ rfl rfl).elim
    · exact (h₃ _ _ _ _ rfl rfl rfl).elim
    · exact (h₄ _ _ _ _ rfl rfl rfl).elim
    · exact (h₅ _ _ _ _ rfl rfl rfl).elim
    · exact (h₆ _ _ rfl rfl rfl).elim
    · exact (h₇ _ _ rfl rfl rfl).elim
    · exact (h₈ _ rfl rfl).elim
    · exact (h₉ _ _ rfl rfl rfl).elim
    · exact (h₁₀ _ rfl rfl rfl).elim
    · exact (h₁₁ _ _ _ _ rfl rfl rfl).elim
    · rfl

theorem apply_ok {o : Operation} {subject : Option Value} {operands : List Value} {pos : Position}
    {d d' : Draft σ} {v : Value} (h : (apply b o subject operands pos).runFrom d = (.ok v, d')) :
    ∃ p, planCall o subject operands = some p ∧ (p.run b).runFrom d = (.ok v, d') := by
  obtain ⟨p, hp, heq⟩ | ⟨-, e, heq⟩ := apply_cases b o subject operands pos
  · exact ⟨p, hp, by rw [← heq]; exact h⟩
  · rw [heq] at h
    cases h

/-! ## Evaluations that succeed -/

theorem require_ok_bind {α β : Type} (x : α) (f : α → Drafting σ β) : require (.ok x) >>= f = f x := rfl

theorem require_bind_ok {α β : Type} {c : Checked α} {f : α → Drafting σ β} {d d' : Draft σ} {x : β}
    (h : (require c >>= f).runFrom d = (.ok x, d')) :
    ∃ y, c = .ok y ∧ (f y).runFrom d = (.ok x, d') := by
  cases c with
  | error e => cases h
  | ok y => exact ⟨y, rfl, h⟩

/-- The value of a variable that is bound to a name. -/
def named (v : Variable) (name : String) : Value :=
  if v.kind = .metadata then .metadata ⟨name⟩ else .graph ⟨name⟩

theorem runFrom_valueOf (v : Variable) (pos : Position) (d : Draft σ) :
    (valueOf v pos).runFrom d = match d.workspace.symbols.lookup? v.name with
      | none => (.error (.resolution (.unknownVariable v.name pos)), d)
      | some name => (.ok (named v name), d) := by
  simp only [valueOf, Action.runFrom_bind, Action.runFrom_get]
  cases d.workspace.symbols.lookup? v.name <;> rfl

theorem valueOf_ok {v : Variable} {pos : Position} {d d' : Draft σ} {x : Value}
    (h : (valueOf v pos).runFrom d = (.ok x, d')) :
    ∃ name, d.workspace.symbols.lookup? v.name = some name ∧ x = named v name ∧ d' = d := by
  simp only [valueOf, Action.runFrom_bind, Action.runFrom_get] at h
  split at h
  · cases h
  · next name hname => cases h; exact ⟨name, hname, rfl, rfl⟩

theorem valueOf_bind_ok {α : Type} {v : Variable} {pos : Position} {f : Value → Drafting σ α}
    {d d' : Draft σ} {x : α} (h : (valueOf v pos >>= f).runFrom d = (.ok x, d')) :
    ∃ name, d.workspace.symbols.lookup? v.name = some name ∧
      (f (named v name)).runFrom d = (.ok x, d') := by
  obtain ⟨y, t, hy, h⟩ := Action.bind_ok_iff.1 h
  obtain ⟨name, hname, rfl, ht⟩ := valueOf_ok hy
  exact ⟨name, hname, by rw [← ht]; exact h⟩

section Ok

variable {d d' : Draft σ} {x : Value} {pos : Position} {operands : List Expr}

theorem evaluate_call_ok {function : String}
    (h : (evaluate b (.call pos function operands)).runFrom d = (.ok x, d')) :
    ∃ o values d₁ p, findOperation function false pos = .ok o ∧
      (evaluateAll b operands).runFrom d = (.ok values, d₁) ∧
      planCall o none values = some p ∧ (p.run b).runFrom d₁ = (.ok x, d') := by
  rw [evaluate] at h
  obtain ⟨o, ho, h⟩ := require_bind_ok h
  obtain ⟨-, -, h⟩ := require_bind_ok h
  obtain ⟨-, -, h⟩ := require_bind_ok h
  obtain ⟨values, d₁, hvalues, h⟩ := Action.bind_ok_iff.1 h
  obtain ⟨p, hp, hrun⟩ := apply_ok h
  exact ⟨o, values, d₁, p, ho, hvalues, hp, hrun⟩

theorem evaluate_infix_ok {subject : Expr} {operator : String} (hoperator : isInfix operator = true)
    (h : (evaluate b (.apply pos subject operator operands)).runFrom d = (.ok x, d')) :
    ∃ k e es lhs d₁ rhs d₂ p, kindOf (.apply pos subject operator operands) = .ok k ∧
      operands = e :: es ∧ (evaluate b subject).runFrom d = (.ok lhs, d₁) ∧
      (evaluate b e).runFrom d₁ = (.ok rhs, d₂) ∧ planInfix operator lhs rhs = some p ∧
      (p.run b).runFrom d₂ = (.ok x, d') := by
  rw [evaluate, if_pos hoperator] at h
  obtain ⟨k, hk, h⟩ := require_bind_ok h
  obtain ⟨lhs, d₁, hlhs, h⟩ := Action.bind_ok_iff.1 h
  obtain ⟨first, d₂, hfirst, h⟩ := Action.bind_ok_iff.1 h
  cases operands with
  | nil => cases hfirst; cases h
  | cons e es =>
    obtain ⟨rhs, _, hrhs, hpure⟩ := Action.bind_ok_iff.1 hfirst
    cases hpure
    simp only [combine_eq] at h
    cases hp : planInfix operator lhs rhs with
    | none => rw [hp] at h; cases h
    | some p =>
      rw [hp] at h
      exact ⟨k, e, es, lhs, d₁, rhs, _, p, hk, rfl, hlhs, hrhs, hp, h⟩

theorem evaluate_method_ok {subject : Expr} {operator : String} (hoperator : isInfix operator = false)
    (h : (evaluate b (.apply pos subject operator operands)).runFrom d = (.ok x, d')) :
    ∃ o value d₁ values d₂ p, findOperation operator true pos = .ok o ∧
      (evaluate b subject).runFrom d = (.ok value, d₁) ∧
      (evaluateAll b operands).runFrom d₁ = (.ok values, d₂) ∧
      planCall o (some value) values = some p ∧ (p.run b).runFrom d₂ = (.ok x, d') := by
  rw [evaluate, if_neg (by simp [hoperator])] at h
  obtain ⟨o, ho, h⟩ := require_bind_ok h
  obtain ⟨-, -, h⟩ := require_bind_ok h
  obtain ⟨-, -, h⟩ := require_bind_ok h
  obtain ⟨-, -, h⟩ := require_bind_ok h
  obtain ⟨value, d₁, hvalue, h⟩ := Action.bind_ok_iff.1 h
  obtain ⟨values, d₂, hvalues, h⟩ := Action.bind_ok_iff.1 h
  obtain ⟨p, hp, hrun⟩ := apply_ok h
  exact ⟨o, value, d₁, values, d₂, p, ho, hvalue, hvalues, hp, hrun⟩

theorem evaluateAll_cons_ok {e : Expr} {es : List Expr} {xs : List Value}
    (h : (evaluateAll b (e :: es)).runFrom d = (.ok xs, d')) :
    ∃ y d₁ ys, xs = y :: ys ∧ (evaluate b e).runFrom d = (.ok y, d₁) ∧
      (evaluateAll b es).runFrom d₁ = (.ok ys, d') := by
  rw [evaluateAll] at h
  obtain ⟨y, d₁, hy, h⟩ := Action.bind_ok_iff.1 h
  obtain ⟨ys, d₂, hys, h⟩ := Action.bind_ok_iff.1 h
  cases h
  exact ⟨y, d₁, ys, rfl, hy, hys⟩

end Ok

/-! ## Kinds -/

theorem planInfix_kind {operator : String} {lhs rhs : Value} {p : Plan} {n : Int}
    (h : planInfix operator lhs rhs = some p) : (p.value n).kind = lhs.kind := by
  unfold planInfix at h
  split at h <;> cases h <;> rfl

theorem planCounted_some {n : Int} {p q : Plan} (h : planCounted n p = some q) : q = p := by
  unfold planCounted at h
  split at h
  · cases h
  · exact (Option.some.inj h).symm

theorem planCall_kind {o : Operation} {subject : Option Value} {operands : List Value} {p : Plan}
    {n : Int} (h : planCall o subject operands = some p) :
    (p.value n).kind = o.signature.result := by
  unfold planCall at h
  split at h
  · obtain ⟨_, _, rfl⟩ := Option.map_eq_some_iff.1 h; rfl
  · obtain ⟨_, _, rfl⟩ := Option.map_eq_some_iff.1 h; rfl
  · obtain ⟨_, _, h⟩ := Option.bind_eq_some_iff.1 h; rw [planCounted_some h]; rfl
  · rw [planCounted_some h]; rfl
  · rw [planCounted_some h]; rfl
  · cases h; rfl
  · cases h; rfl
  · obtain ⟨_, _, rfl⟩ := Option.map_eq_some_iff.1 h; rfl
  · rw [planCounted_some h]; rfl
  · cases h; rfl
  · cases h; rfl
  · cases h

theorem named_kind {v : Variable} (name : String) : (named v name).kind = v.kind := by
  have hkind : v.kind = .graph ∨ v.kind = .metadata := by
    unfold Variable.kind
    cases v.name.toList.head? with
    | none => exact .inl rfl
    | some c =>
      simp only [Option.bind_some]
      unfold Kind.ofSigil?
      split <;> simp
  unfold named
  obtain hk | hk := hkind <;> simp [hk, Value.kind]

/-- The value of an expression has the kind that its syntax shows. -/
theorem evaluate_kind : ∀ (e : Expr) {d d' : Draft σ} {x : Value},
    (evaluate b e).runFrom d = (.ok x, d') → kindOf e = .ok x.kind
  | .integer pos n, d, d', x, h => by rw [evaluate] at h; cases h; rw [kindOf]; rfl
  | .text pos s, d, d', x, h => by rw [evaluate] at h; cases h; rw [kindOf]; rfl
  | .name pos word, d, d', x, h => by rw [evaluate] at h; cases h
  | .var pos v, d, d', x, h => by
    rw [evaluate] at h
    obtain ⟨name, -, rfl, -⟩ := valueOf_ok h
    rw [kindOf, named_kind]
  | .call pos function operands, d, d', x, h => by
    obtain ⟨o, values, d₁, p, ho, -, hp, hrun⟩ := evaluate_call_ok h
    obtain ⟨n, w, -, rfl, -⟩ := p.run_ok hrun
    rw [kindOf, ho, planCall_kind hp]
    rfl
  | .apply pos subject operator operands, d, d', x, h => by
    cases hoperator : isInfix operator with
    | true =>
      obtain ⟨k, e, es, lhs, d₁, rhs, d₂, p, hk, -, hlhs, -, hp, hrun⟩ := evaluate_infix_ok hoperator h
      obtain ⟨n, w, -, rfl, -⟩ := p.run_ok hrun
      rw [planInfix_kind hp]
      rw [kindOf, if_pos hoperator, evaluate_kind subject hlhs] at hk ⊢
      cases hfirst : kindOfFirst operands with
      | error error => rw [hfirst] at hk; cases hk
      | ok first =>
        cases first with
        | none => rfl
        | some rhs =>
          rw [hfirst] at hk
          cases hcheck : checkInfix operator lhs.kind rhs pos with
          | error error => simp [bind, Except.bind, hcheck] at hk
          | ok _ => simp [bind, Except.bind, hcheck, pure, Except.pure]
    | false =>
      obtain ⟨o, value, d₁, values, d₂, p, ho, -, -, hp, hrun⟩ := evaluate_method_ok hoperator h
      obtain ⟨n, w, -, rfl, -⟩ := p.run_ok hrun
      rw [kindOf, if_neg (by simp [hoperator]), ho, planCall_kind hp]
      rfl

/-! ## What plans are made of -/

theorem planInfix_proper {operator : String} {lhs rhs : Value} {p : Plan}
    (h : planInfix operator lhs rhs = some p) : p.Proper := by
  unfold planInfix at h
  split at h <;> cases h <;>
    simp [Plan.Proper, Instruction.target?, Instruction.isNative, Instruction.creates?]

theorem planCall_proper {o : Operation} {subject : Option Value} {operands : List Value} {p : Plan}
    (h : planCall o subject operands = some p) : p.Proper := by
  have hone : ∀ {fill : Graph → Instruction}, (∀ t, (fill t).target? = some t.name) →
      (∀ t, (fill t).isNative = false) → (∀ t, (fill t).creates? = none) →
      (Plan.graph fun t => [fill t]).Proper :=
    fun ht hn hc t i hi => by rw [List.mem_singleton.1 hi]; exact ⟨ht t, hn t, hc t⟩
  unfold planCall at h
  split at h
  · obtain ⟨_, _, rfl⟩ := Option.map_eq_some_iff.1 h; exact hone (fun _ => rfl) (fun _ => rfl) fun _ => rfl
  · obtain ⟨_, _, rfl⟩ := Option.map_eq_some_iff.1 h; exact hone (fun _ => rfl) (fun _ => rfl) fun _ => rfl
  · obtain ⟨_, _, h⟩ := Option.bind_eq_some_iff.1 h
    rw [planCounted_some h]; exact hone (fun _ => rfl) (fun _ => rfl) fun _ => rfl
  · rw [planCounted_some h]; exact hone (fun _ => rfl) (fun _ => rfl) fun _ => rfl
  · rw [planCounted_some h]; exact hone (fun _ => rfl) (fun _ => rfl) fun _ => rfl
  · cases h; exact hone (fun _ => rfl) (fun _ => rfl) fun _ => rfl
  · cases h; exact hone (fun _ => rfl) (fun _ => rfl) fun _ => rfl
  · obtain ⟨_, _, rfl⟩ := Option.map_eq_some_iff.1 h; exact hone (fun _ => rfl) (fun _ => rfl) fun _ => rfl
  · rw [planCounted_some h]; exact hone (fun _ => rfl) (fun _ => rfl) fun _ => rfl
  · cases h; exact hone (fun _ => rfl) (fun _ => rfl) fun _ => rfl
  · cases h; exact fun t => ⟨rfl, rfl, rfl⟩
  · cases h

end Resolution

end Provenance

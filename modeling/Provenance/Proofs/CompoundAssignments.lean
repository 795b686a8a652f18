import Mathlib.Data.List.Forall2
import Provenance.Proofs.Planning

/-!
# Compound assignments

A compound assignment stands for the assignment of an operation, with the variable itself as the
subject. The two are resolved differently: the one looks its variable up before it checks the kinds
and evaluates the operand, the other checks the whole operation first and evaluates the variable like
any other subject. They still end alike. Whatever fails before the operand is evaluated has changed
nothing, and from there on both take the same steps.
-/

namespace Provenance

/-! ## Actions that end alike -/

namespace Action

variable {σ ε α β : Type}

/-- From every state both actions fail, or both succeed with the same value; the state afterwards is
the same. -/
def Matches (a a' : Action σ ε α) : Prop :=
  ∀ s, (a.runFrom s).1.toOption = (a'.runFrom s).1.toOption ∧ (a.runFrom s).2 = (a'.runFrom s).2

namespace Matches

variable {a a' a'' : Action σ ε α}

theorem refl (a : Action σ ε α) : Matches a a := fun _ => ⟨rfl, rfl⟩

theorem trans (h : Matches a a') (h' : Matches a' a'') : Matches a a'' := fun s =>
  ⟨(h s).1.trans (h' s).1, (h s).2.trans (h' s).2⟩

theorem throw (e e' : ε) : Matches (throw e : Action σ ε α) (throw e') := fun _ => ⟨rfl, rfl⟩

/-- What comes after both may depend on their value. -/
theorem bind {f f' : α → Action σ ε β} (h : Matches a a') (hf : ∀ x, Matches (f x) (f' x)) :
    Matches (a >>= f) (a' >>= f') := by
  intro s
  obtain ⟨hresult, hstate⟩ := h s
  rw [runFrom_bind, runFrom_bind]
  generalize a.runFrom s = x at hresult hstate
  generalize a'.runFrom s = y at hresult hstate
  obtain ⟨r, t⟩ := x
  obtain ⟨r', t'⟩ := y
  obtain rfl : t = t' := hstate
  cases r with
  | error e =>
    cases r' with
    | error e' => exact ⟨rfl, rfl⟩
    | ok x' => cases hresult
  | ok x =>
    cases r' with
    | error e' => cases hresult
    | ok x' =>
      obtain rfl : x = x' := Option.some.inj hresult
      exact hf x t

theorem forM {γ : Type} {f f' : γ → Action σ ε PUnit} {xs ys : List γ}
    (h : List.Forall₂ (fun x y => Matches (f x) (f' y)) xs ys) : Matches (xs.forM f) (ys.forM f') := by
  induction h with
  | nil => exact .refl _
  | cons hxy _ ih => exact hxy.bind fun _ => ih

end Matches

end Action

namespace Resolution

open Query Store Draft Action SymbolTable

variable {σ : Type} (b : Backend σ)

/-! ## Positions -/

/-- Only the error of a check tells the position. -/
theorem require_checkInfix_matches (operator : String) (lhs rhs : Kind) (pos pos' : Position) :
    Matches (require (checkInfix operator lhs rhs pos) : Drafting σ Unit)
      (require (checkInfix operator lhs rhs pos')) := by
  unfold checkInfix
  split
  · exact .throw _ _
  · split
    · exact .throw _ _
    · exact .refl _

theorem valueOf_matches (v : Variable) (pos pos' : Position) :
    Matches (valueOf v pos : Drafting σ Value) (valueOf v pos') := by
  intro d
  rw [runFrom_valueOf, runFrom_valueOf]
  cases d.workspace.symbols.lookup? v.name <;> exact ⟨rfl, rfl⟩

theorem combine_matches (operator : String) (lhs rhs : Value) (pos pos' : Position) :
    Matches (combine b operator lhs rhs pos) (combine b operator lhs rhs pos') := by
  rw [combine_eq, combine_eq]
  cases planInfix operator lhs rhs with
  | none => exact .throw _ _
  | some p => exact .refl _

/-! ## The order of lookups and checks -/

/-- It does not matter whether a variable is looked up before a check or after it: neither changes
anything. -/
theorem valueOf_require_comm {α β : Type} (v : Variable) (pos : Position) (c : Checked α)
    (f : Value → α → Drafting σ β) :
    Matches (valueOf v pos >>= fun x => require c >>= f x)
      (require c >>= fun y => valueOf v pos >>= fun x => f x y) := by
  cases c with
  | ok y => exact .refl _
  | error e =>
    intro d
    have hfails : ((require (.error e) : Drafting σ α) >>= fun y =>
        valueOf v pos >>= fun x => f x y).runFrom d = (.error (.resolution e), d) := rfl
    rw [hfails, runFrom_bind, runFrom_valueOf]
    cases d.workspace.symbols.lookup? v.name <;> exact ⟨rfl, rfl⟩

/-! ## The two forms -/

variable {op : AssignOp} {operator : String}

theorem isInfix_of_operator? (h : op.operator? = some operator) : isInfix operator = true := by
  cases op <;> cases h <;> rfl

section Written

variable (target : Variable) (value : Expr) (p q : Position)

/-- The operation that a compound assignment stands for: the variable is the subject. -/
def writtenOut (operator : String) : Expr := .apply p (.var q target) operator [value]

theorem kindOf_writtenOut (h : isInfix operator = true) :
    kindOf (writtenOut target value p q operator)
      = kindOf value >>= fun kind => checkInfix operator target.kind kind p >>= fun _ =>
          .ok target.kind := by
  rw [writtenOut, kindOf, if_pos h, kindOf, kindOfFirst]
  cases kindOf value <;> rfl

/-- The kinds are checked twice before anything is evaluated, once for the assignment and once for the
operation. -/
theorem assigned_writtenOut (h : isInfix operator = true) (pos : Position) :
    assigned b pos target .set (writtenOut target value p q operator)
      = require (kindOf value) >>= fun kind =>
          require (checkInfix operator target.kind kind p) >>= fun _ =>
            valueOf target q >>= fun current =>
              evaluate b value >>= fun operand => combine b operator current operand p := by
  have hevaluate : evaluate b (writtenOut target value p q operator)
      = require (kindOf (writtenOut target value p q operator)) >>= fun _ =>
          valueOf target q >>= fun current =>
            evaluate b value >>= fun operand => combine b operator current operand p := by
    rw [writtenOut, evaluate, if_pos h]
    simp only [evaluate, evaluateFirst, bind_assoc, pure_bind]
  unfold assigned
  rw [hevaluate, kindOf_writtenOut target value p q h]
  cases kindOf value with
  | error e => rfl
  | ok kind =>
    have hkind : (Except.ok kind >>= fun kind => checkInfix operator target.kind kind p >>= fun _ =>
        (.ok target.kind : Checked Kind)) = checkInfix operator target.kind kind p >>= fun _ =>
          .ok target.kind := rfl
    rw [require_ok_bind, hkind]
    cases checkInfix operator target.kind kind p with
    | error e => rfl
    | ok _ => exact if_pos rfl

theorem assigned_compound (h : op.operator? = some operator) (pos : Position) :
    assigned b pos target op value
      = require (kindOf value) >>= fun kind => valueOf target pos >>= fun current =>
          require (checkInfix operator target.kind kind pos) >>= fun _ =>
            evaluate b value >>= fun operand => combine b operator current operand pos := by
  unfold assigned
  rw [h]

theorem assigned_matches (h : op.operator? = some operator) (pos pos' : Position) :
    Matches (assigned b pos target op value)
      (assigned b pos' target .set (writtenOut target value p q operator)) := by
  rw [assigned_compound b target value h, assigned_writtenOut b target value p q (isInfix_of_operator? h)]
  refine (Matches.refl _).bind fun kind => (valueOf_require_comm target pos _ _).trans ?_
  exact (require_checkInfix_matches operator _ _ pos p).bind fun _ =>
    (valueOf_matches target pos q).bind fun current => (Matches.refl _).bind fun operand =>
      combine_matches b operator current operand pos p

end Written

/-! ## Statements and queries -/

/-- One statement is the other, or it is the assignment that the other, a compound one, stands for.
The positions do not matter. -/
inductive StandsFor : Query.Statement → Query.Statement → Prop where
  | same (s : Query.Statement) : StandsFor s s
  | compound {op : AssignOp} {operator : String} (h : op.operator? = some operator)
      (target : Variable) (value : Expr) (pos pos' p q : Position) :
      StandsFor (.assignment pos target op value)
        (.assignment pos' target .set (.apply p (.var q target) operator [value]))

theorem StandsFor.matches {s s' : Query.Statement} (h : StandsFor s s') :
    Matches (statement b s) (statement b s') := by
  cases h with
  | same => exact .refl _
  | compound h target value pos pos' p q =>
    by_cases hbase : target.name = baseVariable
    · simp only [statement, assign, if_pos hbase]
      exact .refl _
    · simp only [statement, assign, if_neg hbase]
      exact (assigned_matches b target value p q h pos pos').bind fun _ => .refl _

/-- A query ends as it does with some of its compound assignments written out: both are resolved to
the same program or neither is resolved, and the bindings, the counter, what is pending and the store
are the same afterwards. -/
theorem resolve_writtenOut {ss ss' : List Query.Statement} (h : List.Forall₂ StandsFor ss ss') :
    Matches (ss.forM (statement b)) (ss'.forM (statement b)) ∧
      Matches (resolve b ss) (resolve b ss') := by
  have hstatements : Matches (ss.forM (statement b)) (ss'.forM (statement b)) :=
    .forM (h.imp fun _ _ hs => hs.matches b)
  refine ⟨hstatements, fun w => ?_⟩
  obtain ⟨hresult, hdraft⟩ := hstatements ⟨w, []⟩
  rw [resolve, resolve, runFrom_of, runFrom_of]
  generalize (ss.forM (statement b)).runFrom ⟨w, []⟩ = x at hresult hdraft
  generalize (ss'.forM (statement b)).runFrom ⟨w, []⟩ = y at hresult hdraft
  obtain ⟨r, d⟩ := x
  obtain ⟨r', d'⟩ := y
  obtain rfl : d = d' := hdraft
  cases r with
  | ok _ =>
    cases r' with
    | ok _ => exact ⟨rfl, rfl⟩
    | error e' => cases hresult
  | error e =>
    cases r' with
    | ok _ => cases hresult
    | error e' =>
      dsimp only
      generalize (Workspace.discard b).runFrom d.workspace = z
      obtain ⟨_ | _, _⟩ := z <;> exact ⟨rfl, rfl⟩

/-- `$a -= vertices(2)`, after `$a = vertices(1)`. -/
def subtracted : List Query.Statement :=
  [.assignment ⟨1, 1⟩ ⟨"$a"⟩ .set (.call ⟨1, 6⟩ "vertices" [.integer ⟨1, 15⟩ 1]),
    .assignment ⟨2, 1⟩ ⟨"$a"⟩ .subtract (.call ⟨2, 7⟩ "vertices" [.integer ⟨2, 16⟩ 2])]

/-- The same with `$a = $a - vertices(2)`. -/
def subtractedWrittenOut : List Query.Statement :=
  [.assignment ⟨1, 1⟩ ⟨"$a"⟩ .set (.call ⟨1, 6⟩ "vertices" [.integer ⟨1, 15⟩ 1]),
    .assignment ⟨2, 1⟩ ⟨"$a"⟩ .set (.apply ⟨2, 4⟩ (.var ⟨2, 1⟩ ⟨"$a"⟩) "-"
      [.call ⟨2, 7⟩ "vertices" [.integer ⟨2, 16⟩ 2]])]

theorem resolve_subtractedWrittenOut :
    List.Forall₂ StandsFor subtracted subtractedWrittenOut ∧
      Matches (resolve Backend.memory subtracted) (resolve Backend.memory subtractedWrittenOut) ∧
      ((resolve Backend.memory subtracted).runFrom
        ⟨⟨[], [], false, 0⟩, Database.empty.add emptyRelation⟩).1.toOption.isSome :=
  have hstands : List.Forall₂ StandsFor subtracted subtractedWrittenOut :=
    .cons (.same _) (.cons (.compound rfl _ _ _ _ _ _) .nil)
  ⟨hstands, (resolve_writtenOut Backend.memory hstands).2, by decide +kernel⟩

end Resolution

end Provenance

import Mathlib.Algebra.Group.Int.Defs
import Mathlib.Algebra.GroupWithZero.Nat
import Mathlib.Logic.Function.Iterate
import Provenance.Proofs.Resolving

/-!
# The numbers that resolution gives out

Resolving an expression gives out at most one number for each call and each operator in it, in
order, whether or not it succeeds. What it adds to the program creates handles with just these
numbers and writes to no others.
-/

namespace Provenance

open Query SymbolTable

/-! ## How many numbers -/

namespace Query

mutual

/-- The number of graphs and metadata that an expression makes. -/
def Expr.makings : Expr → Nat
  | .integer _ _ => 0
  | .text _ _ => 0
  | .name _ _ => 0
  | .var _ _ => 0
  | .call _ _ arguments => Expr.makingsAll arguments + 1
  | .apply _ subject _ operands => subject.makings + Expr.makingsAll operands + 1

def Expr.makingsAll : List Expr → Nat
  | [] => 0
  | e :: es => e.makings + Expr.makingsAll es

end

/-- A compound assignment makes one thing more than its expression. -/
def Statement.makings : Statement → Nat
  | .assignment _ _ op value => value.makings + (op.operator?.elim 0 fun _ => 1)
  | .command _ _ arguments => Expr.makingsAll arguments

def makings (statements : List Statement) : Nat := (statements.map Statement.makings).sum

end Query

/-- A name made from the number. -/
def IsNumbered (n : Int) (name : String) : Prop :=
  name = graphPrefix ++ Text.decimal n ∨ name = metadataPrefix ++ Text.decimal n

theorem IsNumbered.isGenerated {n : Int} {name : String} (h : IsNumbered n name) :
    IsGenerated name := ⟨n, h⟩

/-- A name has one number. -/
theorem IsNumbered.eq {m n : Int} {name : String} (h : IsNumbered m name) (h' : IsNumbered n name) :
    m = n := by
  have hcancel : ∀ {start : String} {m n : Int}, start ++ Text.decimal m = start ++ Text.decimal n →
      m = n := fun heq => Text.decimal_injective (String.ext (by
    simpa using congrArg String.toList heq))
  have hhead : ∀ {m n : Int}, graphPrefix ++ Text.decimal m ≠ metadataPrefix ++ Text.decimal n := by
    intro m n heq
    simpa [graphPrefix, metadataPrefix] using congrArg (fun s => s.toList.head?) heq
  obtain rfl | rfl := h <;> obtain h' | h' := h'
  · exact hcancel h'
  · exact (hhead h').elim
  · exact (hhead h'.symm).elim
  · exact hcancel h'

namespace Draft

variable {σ : Type} {b : Backend σ}

/-- At most `n` numbers were given out. The instructions that were added create handles with these
numbers and write to no others. -/
def Grows (n : Nat) (d d' : Draft σ) : Prop :=
  ∃ k more, k ≤ n ∧
    d'.workspace.symbols.counter = wordAfter^[k] d.workspace.symbols.counter ∧
    d'.program = d.program ++ more ∧
    (∀ i ∈ more, ∀ t ∈ i.target?, Program.Creates more t) ∧
    ∀ name, Program.Creates more name →
      ∃ j, 1 ≤ j ∧ j ≤ k ∧ IsNumbered (wordAfter^[j] d.workspace.symbols.counter) name

namespace Grows

variable {m n : Nat} {d d' d'' : Draft σ}

theorem refl (n : Nat) (d : Draft σ) : Grows n d d :=
  ⟨0, [], Nat.zero_le n, rfl, by simp, by simp, fun _ h => by simp [Program.Creates] at h⟩

theorem mono (h : Grows m d d') (hmn : m ≤ n) : Grows n d d' := by
  obtain ⟨k, more, hk, hrest⟩ := h
  exact ⟨k, more, hk.trans hmn, hrest⟩

theorem creates_append {p q : Program} {name : String} :
    Program.Creates (p ++ q) name ↔ Program.Creates p name ∨ Program.Creates q name := by
  simp only [Program.Creates, List.mem_append]
  tauto

theorem trans (h : Grows m d d') (h' : Grows n d' d'') : Grows (m + n) d d'' := by
  obtain ⟨k, more, hk, hcounter, hprogram, htargets, hnumbers⟩ := h
  obtain ⟨k', more', hk', hcounter', hprogram', htargets', hnumbers'⟩ := h'
  refine ⟨k + k', more ++ more', Nat.add_le_add hk hk', ?_, ?_, fun i hi t ht => ?_,
    fun name hname => ?_⟩
  · rw [hcounter', hcounter, ← Function.iterate_add_apply, Nat.add_comm]
  · rw [hprogram', hprogram, List.append_assoc]
  · rw [creates_append]
    exact (List.mem_append.1 hi).imp (fun hi => htargets i hi t ht) fun hi => htargets' i hi t ht
  · obtain hname | hname := creates_append.1 hname
    · obtain ⟨j, hj, hjk, hnumbered⟩ := hnumbers name hname
      exact ⟨j, hj, by omega, hnumbered⟩
    · obtain ⟨j, hj, hjk, hnumbered⟩ := hnumbers' name hname
      rw [hcounter, ← Function.iterate_add_apply] at hnumbered
      exact ⟨j + k, by omega, by omega, hnumbered⟩

/-- The bindings do not matter. -/
theorem of_counter (hcounter : d'.workspace.symbols.counter = d.workspace.symbols.counter)
    (hprogram : d'.program = d.program) : Grows n d d' :=
  ⟨0, [], Nat.zero_le n, hcounter, by simpa using hprogram, by simp,
    fun _ h => by simp [Program.Creates] at h⟩

/-- An instruction that only reads is added. -/
theorem of_reading {i : Instruction} (hi : i.target? = none) :
    Grows n d { d with program := d.program ++ [i] } := by
  have hcreates : ∀ name, ¬ Program.Creates [i] name := by
    rintro name (h | h) <;> rw [← List.mem_singleton.1 h] at hi <;> cases hi
  exact ⟨0, [i], Nat.zero_le n, rfl, rfl, by simp [hi], fun name h => (hcreates name h).elim⟩

end Grows

/-- The action gives out at most `n` numbers, however it ends. -/
def Spends {α : Type} (n : Nat) (a : Drafting σ α) : Prop := ∀ d, Grows n d (a.runFrom d).2

namespace Spends

variable {α β : Type} {m n : Nat}

theorem pure (x : α) : Spends n (pure x : Drafting σ α) := fun d => .refl n d

theorem ofExcept (r : Except QueryError α) : Spends n (.ofExcept r : Drafting σ α) :=
  fun d => .refl n d

theorem require (c : Except ResolutionError α) : Spends n (Draft.require c : Drafting σ α) :=
  ofExcept _

theorem fail (e : ResolutionError) : Spends n (Draft.fail e : Drafting σ α) := fun d => .refl n d

theorem bind {a : Drafting σ α} {f : α → Drafting σ β} (ha : Spends m a)
    (hf : ∀ x, Spends n (f x)) : Spends (m + n) (a >>= f) := by
  intro d
  have h := ha d
  rw [Action.runFrom_bind]
  split
  · next x t heq => rw [heq] at h; exact h.trans (hf x t)
  · next e t heq => rw [heq] at h; exact h.mono (Nat.le_add_right m n)

theorem bind_pure {a : Drafting σ α} (ha : Spends n a) (f : α → β) :
    Spends n (a >>= fun x => Pure.pure (f x)) := by
  simpa using ha.bind fun x => pure (n := 0) (f x)

/-- A check in front gives out no number. -/
theorem check {c : Except ResolutionError α} {f : α → Drafting σ β} (hf : ∀ x, Spends n (f x)) :
    Spends n (Draft.require c >>= f) := by
  simpa using (require (n := 0) c).bind hf

theorem freshNumber_error {w w' : Workspace σ} {e : BackendError}
    (h : (Workspace.freshNumber b).runFrom w = (.error e, w')) : w'.symbols = w.symbols := by
  rw [Workspace.freshNumber, Action.runFrom_bind_ok (Action.runFrom_get w), Action.runFrom_bind] at h
  split at h
  · cases h
  · next heq =>
    cases h
    exact (congrArg (fun r => r.2.symbols) heq).symm

/-- A plan takes one number. -/
theorem run {p : Plan} (hp : p.Proper) : Spends 1 (p.run b) := by
  intro d
  rw [p.runFrom_run]
  split
  · next n w hfresh =>
    obtain ⟨rfl, hw⟩ := Resolution.freshNumber_ok hfresh
    have hcreates : ∀ name, Program.Creates (p.instructions (wordAfter d.workspace.symbols.counter))
        name → name = (p.value (wordAfter d.workspace.symbols.counter)).shown := fun name h =>
      h.elim (fun h => Option.some.inj (hp.targets _ _ h).1)
        fun h => Option.some.inj (hp.targets _ _ h).1
    refine ⟨1, _, le_rfl, by rw [hw]; rfl, rfl, fun i hi t ht => ?_, fun name hname =>
      ⟨1, le_rfl, le_rfl, ?_⟩⟩
    · rw [(hp.targets _ i hi).1] at ht
      cases ht
      cases p with
      | graph fill => exact .inl List.mem_cons_self
      | metadata fill => exact .inr List.mem_cons_self
    · rw [hcreates name hname]
      cases p with
      | graph fill => exact .inl rfl
      | metadata fill => exact .inr rfl
  · next e w hfresh => exact .of_counter (by rw [freshNumber_error hfresh]) rfl

end Spends

end Draft

namespace Resolution

open Draft

variable {σ : Type} {b : Backend σ}

theorem valueOf_spends (v : Variable) (pos : Position) : Spends 0 (valueOf v pos : Drafting σ Value) := by
  intro d
  rw [valueOf, Action.runFrom_bind_ok (Action.runFrom_get d)]
  cases d.workspace.symbols.lookup? v.name <;> exact .refl 0 d

theorem combine_spends (operator : String) (lhs rhs : Value) (pos : Position) :
    Spends 1 (combine b operator lhs rhs pos) := by
  rw [combine_eq]
  split
  · next p hp => exact .run (planInfix_proper hp)
  · exact .fail _

theorem apply_spends (o : Operation) (subject : Option Value) (operands : List Value)
    (pos : Position) : Spends 1 (apply b o subject operands pos) := by
  obtain ⟨p, hp, heq⟩ | ⟨-, e, heq⟩ := apply_cases b o subject operands pos
  · rw [heq]
    exact .run (planCall_proper hp)
  · rw [heq]
    exact .fail e

/-! ## Expressions -/

mutual

/-- However an expression's evaluation ends, it gives out no more numbers than there are things
that it makes. -/
theorem evaluate_spends : ∀ e : Expr, Spends e.makings (evaluate b e)
  | .integer pos n => by rw [evaluate]; exact .pure _
  | .text pos s => by rw [evaluate]; exact .pure _
  | .name pos word => by rw [evaluate]; exact .fail _
  | .var pos v => by rw [evaluate]; exact valueOf_spends v pos
  | .call pos function operands => by
    rw [evaluate]
    exact .check fun o => .check fun _ => .check fun _ =>
      (evaluateAll_spends operands).bind fun values => apply_spends o none values pos
  | .apply pos subject operator operands => by
    rw [evaluate, Expr.makings, Nat.add_assoc]
    split
    · refine .check fun _ => (evaluate_spends subject).bind fun lhs =>
        (evaluateFirst_spends operands).bind fun first => ?_
      split
      · exact .fail _
      · exact combine_spends _ _ _ _
    · exact .check fun o => .check fun _ => .check fun _ => .check fun _ =>
        (evaluate_spends subject).bind fun value =>
          (evaluateAll_spends operands).bind fun values => apply_spends o (some value) values pos

theorem evaluateAll_spends : ∀ es : List Expr, Spends (Expr.makingsAll es) (evaluateAll b es)
  | [] => by rw [evaluateAll]; exact .pure _
  | e :: es => by
    rw [evaluateAll, Expr.makingsAll]
    exact (evaluate_spends e).bind fun _ => (evaluateAll_spends es).bind_pure _

theorem evaluateFirst_spends : ∀ es : List Expr, Spends (Expr.makingsAll es) (evaluateFirst b es)
  | [] => by rw [evaluateFirst]; exact .pure _
  | e :: es => by
    rw [evaluateFirst, Expr.makingsAll]
    exact (evaluate_spends e).bind fun _ => .pure _

end

/-! ## Statements -/

theorem assigned_spends (pos : Position) (target : Variable) (op : AssignOp) (value : Expr) :
    Spends (Statement.assignment pos target op value).makings (assigned b pos target op value) := by
  unfold assigned
  refine .check fun kind => ?_
  rw [Statement.makings]
  cases op.operator? with
  | none =>
    dsimp only
    split
    · exact evaluate_spends value
    · exact .fail _
  | some operator =>
    have hrest : ∀ current, Spends (value.makings + 1) (do
        Draft.require (checkInfix operator target.kind kind pos)
        let operand ← evaluate b value
        combine b operator current operand pos) := fun current =>
      .check fun _ => (evaluate_spends value).bind fun _ => combine_spends _ _ _ _
    simpa using (valueOf_spends target pos).bind hrest

theorem perform_spends (c : Command) (words : List String) (values : List Value) (pos : Position) :
    Spends 0 (perform c words values pos : Drafting σ Unit) := by
  unfold perform
  split
  · exact fun d => .of_reading rfl
  · exact fun d => .of_reading rfl
  · exact fun d => .of_reading rfl
  · exact fun d => .of_reading rfl
  · exact fun d => .of_counter rfl rfl
  · exact .fail _

theorem makingsAll_splitKeywords {c : Command} {arguments others : List Expr} {words : List String}
    (h : splitKeywords c arguments = .ok (words, others)) :
    Expr.makingsAll others ≤ Expr.makingsAll arguments := by
  induction arguments generalizing words with
  | nil => cases h; exact le_rfl
  | cons e es ih =>
    unfold splitKeywords at h
    split at h
    · next heq =>
      cases heq
      split at h
      · cases hes : splitKeywords c es with
        | error e => rw [hes] at h; cases h
        | ok parts =>
          rw [hes] at h
          cases h
          exact (ih hes).trans (by simp [Expr.makingsAll])
      · cases h
    · cases h; exact le_rfl

theorem statement_spends (s : Statement) : Spends s.makings (statement b s) := by
  cases s with
  | assignment pos target op value =>
    simp only [statement, assign]
    split
    · exact .fail _
    · refine (assigned_spends pos target op value).bind (n := 0) fun v d => ?_
      rw [bindTo, Action.runFrom_bind_ok (Action.runFrom_get d)]
      cases hbind : d.workspace.symbols.bind? target.name v.shown with
      | none => exact .refl 0 d
      | some symbols =>
        refine .of_counter ?_ rfl
        rw [SymbolTable.bind?] at hbind
        split at hbind
        · cases hbind
        · cases hbind; rfl
  | command pos name arguments =>
    simp only [statement, command]
    split
    · exact .fail _
    · next c _ =>
      intro d
      rw [Action.runFrom_bind]
      cases hsplit : splitKeywords c arguments with
      | error e => exact .refl _ d
      | ok parts =>
        obtain ⟨words, others⟩ := parts
        have hrest : Spends (Expr.makingsAll others + 0) (do
            Draft.require (checkKeywords c words others pos)
            Draft.require (checkArity name (.exactly c.operands.length) others.length pos)
            Draft.require (checkOperands name 0 c.operands others)
            let values ← evaluateAll b others
            perform c words values pos) :=
          .check fun _ => .check fun _ => .check fun _ => (evaluateAll_spends others).bind fun values =>
            perform_spends c words values pos
        exact (hrest d).mono (makingsAll_splitKeywords hsplit)

/-- However the resolution of statements ends, it gives out no more numbers than there are things
that they make. -/
theorem statements_spends (ss : List Query.Statement) :
    Spends (Query.makings ss) (ss.forM (statement b)) := by
  induction ss with
  | nil => exact .pure _
  | cons s ss ih =>
    rw [Action.forM_cons, Query.makings, List.map_cons, List.sum_cons]
    exact (statement_spends s).bind fun _ => ih

end Resolution

end Provenance

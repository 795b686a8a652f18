import Provenance.Proofs.Following
import Provenance.Proofs.Positions
import Provenance.Proofs.ReliableTables
import Provenance.Proofs.Resolving

/-!
# Resolution that is resumed

Positions are for messages only: whether a statement can be resolved, and the instructions that it is
resolved to, depend on the rest of its syntax, on what variables are bound to and on the counter. So the
statements behind a place in a query are resolved there as they are in a query of their own, provided that
this finds the bindings and the counter in the store.
-/

namespace Provenance

open Query Store Action SymbolTable Workspace

namespace Resolution

/-! ## Checks -/

theorem toOption_bind {α β : Type} (c : Checked α) (f : α → Checked β) :
    (c >>= f).toOption = c.toOption.bind fun x => (f x).toOption := by
  cases c <;> rfl

theorem findOperation_toOption (name : String) (onGraph : Bool) (pos : Position) :
    (findOperation name onGraph pos).toOption = Operation.find? name onGraph := by
  unfold findOperation
  split <;> simp [*, Except.toOption]

theorem checkInfix_toOption (operator : String) (lhs rhs : Kind) (pos pos' : Position) :
    (checkInfix operator lhs rhs pos).toOption = (checkInfix operator lhs rhs pos').toOption := by
  unfold checkInfix
  split
  · rfl
  · split <;> rfl

theorem checkArity_toOption (name : String) (expected : Arity) (found : Nat) (pos pos' : Position) :
    (checkArity name expected found pos).toOption = (checkArity name expected found pos').toOption := by
  unfold checkArity
  split <;> rfl

mutual

theorem kindOf_bare : ∀ e : Expr, (kindOf e.bare).toOption = (kindOf e).toOption
  | .integer _ _ => by rw [Expr.bare, kindOf, kindOf]
  | .text _ _ => by rw [Expr.bare, kindOf, kindOf]
  | .name _ _ => by rw [Expr.bare, kindOf, kindOf]; rfl
  | .var _ _ => by rw [Expr.bare, kindOf, kindOf]
  | .call pos function _ => by
    rw [Expr.bare, kindOf, kindOf, toOption_bind, toOption_bind, findOperation_toOption,
      findOperation_toOption]
  | .apply pos subject operator operands => by
    rw [Expr.bare, kindOf, kindOf]
    split
    · rw [toOption_bind, toOption_bind, kindOf_bare subject]
      refine Option.bind_congr fun lhs _ => ?_
      rw [toOption_bind, toOption_bind, kindOfFirst_bares operands]
      refine Option.bind_congr fun first _ => ?_
      cases first with
      | none => rfl
      | some rhs => rw [toOption_bind, toOption_bind, checkInfix_toOption]
    · rw [toOption_bind, toOption_bind, findOperation_toOption, findOperation_toOption]

theorem kindOfFirst_bares : ∀ es : List Expr, (kindOfFirst (Expr.bares es)).toOption = (kindOfFirst es).toOption
  | [] => by rw [Expr.bares]
  | e :: _ => by rw [Expr.bares, kindOfFirst, kindOfFirst, toOption_bind, toOption_bind, kindOf_bare e]

end

theorem checkOperands_bares (call : String) (index : Nat) (kinds : List Kind) (es : List Expr) :
    (checkOperands call index kinds (Expr.bares es)).toOption
      = (checkOperands call index kinds es).toOption := by
  induction es generalizing index kinds with
  | nil => rw [Expr.bares]
  | cons e es ih =>
    rw [Expr.bares]
    cases kinds with
    | nil => rfl
    | cons expected later =>
      rw [checkOperands, checkOperands, toOption_bind, toOption_bind, kindOf_bare]
      refine Option.bind_congr fun found _ => ?_
      split
      · exact ih _ _
      · rfl

theorem checkReceiver_bare (method : String) (subject : Expr) :
    (checkReceiver method subject.bare).toOption = (checkReceiver method subject).toOption := by
  rw [checkReceiver, checkReceiver, toOption_bind, toOption_bind, kindOf_bare]
  refine Option.bind_congr fun found _ => ?_
  split <;> rfl

theorem checkKeywords_toOption (c : Command) (words : List String) (es es' : List Expr) (pos pos' : Position) :
    (checkKeywords c words es pos).toOption = (checkKeywords c words es' pos').toOption := by
  unfold checkKeywords
  split
  · rfl
  · split <;> rfl

theorem splitKeywords_bares (c : Command) (es : List Expr) :
    (splitKeywords c (Expr.bares es)).toOption
      = (splitKeywords c es).toOption.map fun (words, others) => (words, Expr.bares others) := by
  induction es with
  | nil => rfl
  | cons e es ih =>
    cases e with
    | name pos word =>
      rw [Expr.bares, Expr.bare, splitKeywords, splitKeywords]
      split
      · rw [toOption_bind, toOption_bind, ih]
        cases splitKeywords c es with
        | error e => rfl
        | ok found => rfl
      · rfl
    | integer pos n => rfl
    | text pos s => rfl
    | var pos v => rfl
    | call pos function arguments => rfl
    | apply pos subject operator operands => rfl

end Resolution

/-! ## Drafts that resemble each other -/

variable {σ : Type} {b : Backend σ} {view : σ → Database}

namespace Draft

/-- Variables are bound to the same names, the counter is the same, and the bindings can be stored. The
program of the first draft has some instructions more at its beginning. -/
structure Resembles (view : σ → Database) (before : Program) (d d' : Draft σ) : Prop where
  program : d.program = before ++ d'.program
  bindings : ∀ var, d.workspace.symbols.bindings.find? var = d'.workspace.symbols.bindings.find? var
  counter : d.workspace.symbols.counter = d'.workspace.symbols.counter
  keeps : ∃ entries, Keeps (view d.workspace.store) entries
  keeps' : ∃ entries, Keeps (view d'.workspace.store) entries

namespace Resembles

variable {before : Program} {d d' d'' : Draft σ}

theorem refl (h : ∃ entries, Keeps (view d.workspace.store) entries) : Resembles view [] d d :=
  ⟨rfl, fun _ => rfl, rfl, h, h⟩

theorem symm (h : Resembles view [] d d') : Resembles view [] d' d :=
  ⟨h.program.symm, fun var => (h.bindings var).symm, h.counter.symm, h.keeps', h.keeps⟩

theorem trans (h : Resembles view before d d') (h' : Resembles view [] d' d'') :
    Resembles view before d d'' :=
  ⟨by rw [h.program, h'.program, List.nil_append], fun var => (h.bindings var).trans (h'.bindings var),
    h.counter.trans h'.counter, h.keeps, h'.keeps'⟩

theorem congr (h : Resembles view [] d d') (h' : Resembles view before d' d'') :
    Resembles view before d d'' :=
  ⟨by rw [h.program, List.nil_append, h'.program], fun var => (h.bindings var).trans (h'.bindings var),
    h.counter.trans h'.counter, h.keeps, h'.keeps'⟩

theorem lookup? (h : Resembles view before d d') (var : String) :
    d.workspace.symbols.lookup? var = d'.workspace.symbols.lookup? var := by
  rw [SymbolTable.lookup?, SymbolTable.lookup?, h.bindings]

end Resembles

end Draft

namespace Resolution

open Draft

variable {before : Program}

theorem run_follows (hb : b.IsDatabase view False) (p : Plan) :
    Follows (Resembles view before) (Resembles view before) (p.run b) (p.run b) := by
  intro d d' h
  obtain ⟨entries, hk⟩ := h.keeps
  obtain ⟨entries', hk'⟩ := h.keeps'
  obtain ⟨s, hs, hkept⟩ := freshNumber_reliable hb hk
  obtain ⟨s', hs', hkept'⟩ := freshNumber_reliable hb hk'
  rw [Plan.runFrom_run, Plan.runFrom_run, hs, hs', ← h.counter]
  refine .inr ⟨_, _, _, rfl, rfl, ?_, h.bindings, rfl, ⟨_, hkept⟩, ⟨_, hkept'⟩⟩
  rw [h.program, List.append_assoc]

theorem fail_follows {α : Type} (e e' : ResolutionError) :
    Follows (Resembles view before) (Resembles view before) (fail e : Drafting σ α) (fail e') :=
  fun d d' _ => .inl ⟨_, _, d, d', rfl, rfl⟩

theorem require_follows {α : Type} {c c' : Checked α} (h : c.toOption = c'.toOption) :
    Follows (Resembles view before) (Resembles view before) (require c : Drafting σ α) (require c') := by
  intro d d' hd
  obtain ⟨e, e', rfl, rfl⟩ | ⟨x, rfl, rfl⟩ := Store.toOption_cases h
  · exact .inl ⟨_, _, d, d', rfl, rfl⟩
  · exact .inr ⟨x, d, d', rfl, rfl, hd⟩

theorem valueOf_follows (v : Variable) (pos pos' : Position) :
    Follows (Resembles view before) (Resembles view before) (valueOf v pos : Drafting σ Value) (valueOf v pos') := by
  intro d d' h
  simp only [valueOf, runFrom_bind, runFrom_get, h.lookup?]
  cases d'.workspace.symbols.lookup? v.name with
  | none => exact .inl ⟨_, _, d, d', rfl, rfl⟩
  | some name => exact .inr ⟨_, d, d', rfl, rfl, h⟩

theorem combine_follows (hb : b.IsDatabase view False) (operator : String) (lhs rhs : Value) (pos pos' : Position) :
    Follows (Resembles view before) (Resembles view before) (combine b operator lhs rhs pos)
      (combine b operator lhs rhs pos') := by
  rw [combine_eq, combine_eq]
  split
  · exact run_follows hb _
  · exact fail_follows _ _

theorem apply_follows (hb : b.IsDatabase view False) (o : Operation) (subject : Option Value)
    (operands : List Value) (pos pos' : Position) :
    Follows (Resembles view before) (Resembles view before) (apply b o subject operands pos)
      (apply b o subject operands pos') := by
  obtain ⟨p, hp, heq⟩ | ⟨hnone, e, heq⟩ := apply_cases b o subject operands pos
  · obtain ⟨p', hp', heq'⟩ | ⟨hnone', -⟩ := apply_cases b o subject operands pos'
    · rw [hp] at hp'
      cases hp'
      rw [heq, heq']
      exact run_follows hb p
    · rw [hp] at hnone'
      cases hnone'
  · obtain ⟨p', hp', -⟩ | ⟨-, e', heq'⟩ := apply_cases b o subject operands pos'
    · rw [hnone] at hp'
      cases hp'
    · rw [heq, heq']
      exact fail_follows e e'

mutual

theorem evaluate_bare (hb : b.IsDatabase view False) : ∀ e : Expr,
    Follows (Resembles view before) (Resembles view before) (evaluate b e) (evaluate b e.bare)
  | .integer _ _ => by rw [Expr.bare, evaluate, evaluate]; exact .pure _
  | .text _ _ => by rw [Expr.bare, evaluate, evaluate]; exact .pure _
  | .name _ _ => by rw [Expr.bare, evaluate, evaluate]; exact fail_follows _ _
  | .var pos v => by rw [Expr.bare, evaluate, evaluate]; exact valueOf_follows v pos _
  | .call pos function operands => by
    rw [Expr.bare, evaluate, evaluate, Expr.bares_eq_map, List.length_map, ← Expr.bares_eq_map]
    refine (require_follows ?_).bind fun o => (require_follows (checkArity_toOption _ _ _ _ _)).bind fun _ =>
      (require_follows (checkOperands_bares _ _ _ _).symm).bind fun _ => (evaluateAll_bares hb operands).bind
        fun values => apply_follows hb o none values _ _
    rw [findOperation_toOption, findOperation_toOption]
  | .apply pos subject operator operands => by
    rw [Expr.bare, evaluate, evaluate, Expr.bares_eq_map, List.length_map, ← Expr.bares_eq_map]
    split
    · refine (require_follows ?_).bind fun _ => (evaluate_bare hb subject).bind fun lhs =>
        (evaluateFirst_bares hb operands).bind fun first => ?_
      · exact (kindOf_bare (.apply pos subject operator operands)).symm
      · cases first with
        | none => exact fail_follows _ _
        | some rhs => exact combine_follows hb _ _ _ _ _
    · refine (require_follows ?_).bind fun o => (require_follows (checkArity_toOption _ _ _ _ _)).bind fun _ =>
        (require_follows (checkReceiver_bare _ _).symm).bind fun _ =>
          (require_follows (checkOperands_bares _ _ _ _).symm).bind fun _ => (evaluate_bare hb subject).bind
            fun value => (evaluateAll_bares hb operands).bind fun values => apply_follows hb o _ values _ _
      rw [findOperation_toOption, findOperation_toOption]

theorem evaluateAll_bares (hb : b.IsDatabase view False) : ∀ es : List Expr,
    Follows (Resembles view before) (Resembles view before) (evaluateAll b es) (evaluateAll b (Expr.bares es))
  | [] => by rw [Expr.bares, evaluateAll]; exact .pure _
  | e :: es => by
    rw [Expr.bares, evaluateAll, evaluateAll]
    exact (evaluate_bare hb e).bind fun value => (evaluateAll_bares hb es).bind fun values => .pure _

theorem evaluateFirst_bares (hb : b.IsDatabase view False) : ∀ es : List Expr,
    Follows (Resembles view before) (Resembles view before) (evaluateFirst b es) (evaluateFirst b (Expr.bares es))
  | [] => by rw [Expr.bares, evaluateFirst]; exact .pure _
  | e :: _ => by
    rw [Expr.bares, evaluateFirst, evaluateFirst]
    exact (evaluate_bare hb e).bind fun value => .pure _

end

theorem assigned_bare (hb : b.IsDatabase view False) (pos : Position) (target : Variable) (op : AssignOp)
    (e : Expr) : Follows (Resembles view before) (Resembles view before) (assigned b pos target op e)
      (assigned b default target op e.bare) := by
  unfold assigned
  refine (require_follows (kindOf_bare e).symm).bind fun kind => ?_
  split
  · split
    · exact evaluate_bare hb e
    · exact fail_follows _ _
  · exact (valueOf_follows target pos _).bind fun current => (require_follows (checkInfix_toOption _ _ _ _ _)).bind
      fun _ => (evaluate_bare hb e).bind fun operand => combine_follows hb _ _ _ _ _

theorem bindTo_follows (target : Variable) (value : Value) :
    Follows (Resembles view before) (Resembles view before) (bindTo target value : Drafting σ Unit) (bindTo target value) := by
  intro d d' h
  simp only [bindTo, SymbolTable.bind?, runFrom_bind, runFrom_get]
  by_cases hbase : target.name = baseVariable
  · rw [if_pos hbase, if_pos hbase]
    exact .inl ⟨_, _, d, d', rfl, rfl⟩
  · rw [if_neg hbase, if_neg hbase]
    refine .inr ⟨_, _, _, rfl, rfl, h.program, fun var => ?_, h.counter, h.keeps, h.keeps'⟩
    dsimp only
    rw [OrderedMap.find?_insert, OrderedMap.find?_insert, h.bindings]

theorem push_follows (i : Instruction) :
    Follows (Resembles view before) (Resembles view before) (push i : Drafting σ Unit) (push i) :=
  .modify fun _ _ h => ⟨by rw [h.program, List.append_assoc], h.bindings, h.counter, h.keeps, h.keeps'⟩

theorem perform_follows (c : Command) (words : List String) (values : List Value) (pos pos' : Position) :
    Follows (Resembles view before) (Resembles view before) (perform c words values pos : Drafting σ Unit)
      (perform c words values pos') := by
  unfold perform
  split
  · exact push_follows _
  · exact push_follows _
  · exact push_follows _
  · exact push_follows _
  · exact fun d d' h => .inr ⟨_, _, _, rfl, rfl, h.program, fun _ => rfl, h.counter, h.keeps, h.keeps'⟩
  · exact fail_follows _ _

theorem command_bare (hb : b.IsDatabase view False) (pos : Position) (name : String) (arguments : List Expr) :
    Follows (Resembles view before) (Resembles view before) (command b pos name arguments)
      (command b default name (Expr.bares arguments)) := by
  unfold command
  split
  · exact fail_follows _ _
  · next c _ =>
    have hsplit := splitKeywords_bares c arguments
    cases hfound : splitKeywords c arguments with
    | error e =>
      cases hfound' : splitKeywords c (Expr.bares arguments) with
      | error e' => exact fun d d' _ => .inl ⟨_, _, d, d', rfl, rfl⟩
      | ok found => rw [hfound, hfound'] at hsplit; cases hsplit
    | ok found =>
      cases hfound' : splitKeywords c (Expr.bares arguments) with
      | error e' => rw [hfound, hfound'] at hsplit; cases hsplit
      | ok found' =>
        obtain ⟨words, others⟩ := found
        rw [hfound, hfound'] at hsplit
        cases hsplit
        show Follows _ _ (require (checkKeywords c words others pos) >>= _)
          (require (checkKeywords c words (Expr.bares others) default) >>= _)
        rw [Expr.bares_eq_map, List.length_map, ← Expr.bares_eq_map]
        exact (require_follows (checkKeywords_toOption _ _ _ _ _ _)).bind fun _ =>
          (require_follows (checkArity_toOption _ _ _ _ _)).bind fun _ =>
            (require_follows (checkOperands_bares _ _ _ _).symm).bind fun _ =>
              (evaluateAll_bares hb others).bind fun values => perform_follows c words values _ _

theorem statement_bare (hb : b.IsDatabase view False) (s : Query.Statement) :
    Follows (Resembles view before) (Resembles view before) (statement b s) (statement b s.bare) := by
  cases s with
  | assignment pos target op e =>
    show Follows _ _ (assign b pos target op e) (assign b default target op e.bare)
    unfold assign
    split
    · exact fail_follows _ _
    · exact (assigned_bare hb pos target op e).bind fun value => bindTo_follows target value
  | command pos name arguments => exact command_bare hb pos name arguments

/-- Statements that are the same but for their positions are resolved alike on drafts that resemble each
other. -/
theorem statement_follows (hb : b.IsDatabase view False) {s s' : Query.Statement} (h : s.Alike s') :
    Follows (Resembles view before) (Resembles view before) (statement b s) (statement b s') := by
  intro d d' hd
  have hfirst := statement_bare hb s d d' hd
  have hsecond := statement_bare hb s' d' d' (Resembles.refl hd.keeps')
  rw [← h] at hsecond
  obtain ⟨e, e', t, t', ht, ht'⟩ | ⟨x, t, t', ht, ht', hR⟩ := hfirst
  · obtain ⟨e₁, e₂, u, u', hu, hu'⟩ | ⟨y, u, u', hu, hu', -⟩ := hsecond
    · exact .inl ⟨e, e₁, t, u, ht, hu⟩
    · rw [ht'] at hu'
      cases hu'
  · obtain ⟨e₁, e₂, u, u', hu, hu'⟩ | ⟨y, u, u', hu, hu', hR'⟩ := hsecond
    · rw [ht'] at hu'
      cases hu'
    · rw [ht'] at hu'
      cases hu'
      exact .inr ⟨x, t, u, ht, hu, hR.trans hR'.symm⟩

theorem statements_follow (hb : b.IsDatabase view False) {ss ss' : List Query.Statement}
    (h : List.Forall₂ Query.Statement.Alike ss ss') :
    Follows (Resembles view before) (Resembles view before) (ss.forM (statement b)) (ss'.forM (statement b)) := by
  induction h with
  | nil => exact .pure _
  | cons hs _ ih =>
    rw [Action.forM_cons, Action.forM_cons]
    exact (statement_follows hb hs).bind fun _ => ih

end Resolution

end Provenance

import Mathlib.Logic.Function.Iterate
import Provenance.Proofs.Resolving
import Provenance.Proofs.ReliableTables
import Provenance.Query.Grammar

/-!
# Operands of the wrong kind

The kinds of the operands of an operation are checked before any of them is evaluated. The checks of
one operation do not look into its operands: what is wrong inside an operand is found when this
operand is evaluated, and the operands to its left have got their names by then. So a mismatch leaves
as many names allocated as operations stand in front of the one whose check fails, and none if there
are no such operations.
-/

namespace Provenance

open Query Store SymbolTable

/-- An operand has not the kind that is expected of it. -/
def ResolutionError.IsMismatch : ResolutionError → Prop
  | .typeMismatch .. => True
  | _ => False

/-! ## Tallies -/

/-- The number of the names that an evaluation allocates if its checks succeed. If one does not, the
number of those that are allocated before this check, and its error. -/
abbrev Tally := Except (Nat × ResolutionError) Nat

namespace Tally

/-- One evaluation after the other. -/
def next : Tally → Tally → Tally
  | .error e, _ => .error e
  | .ok n, .ok m => .ok (n + m)
  | .ok n, .error (m, e) => .error (n + m, e)

/-- A check, and then an evaluation. -/
def after {α : Type} (c : Resolution.Checked α) (t : α → Tally) : Tally :=
  match c with
  | .ok x => t x
  | .error e => .error (0, e)

theorem after_bind {α β : Type} (c : Resolution.Checked α) (g : α → Resolution.Checked β)
    (t : β → Tally) : after (c >>= g) t = after c fun x => after (g x) t := by
  cases c <;> rfl

theorem next_zero (t : Tally) : t.next (.ok 0) = t := by cases t <;> rfl

theorem zero_next (t : Tally) : next (.ok 0) t = t := by
  rcases t with ⟨n, e⟩ | n <;> simp [next]

end Tally

namespace Resolution

/-- The checks of a call, in their order. A method stands on a subject. -/
def checkCall (name : String) (subject : Option Expr) (operands : List Expr) (pos : Position) :
    Checked Operation := do
  let o ← findOperation name subject.isSome pos
  checkArity name o.signature.arity operands.length pos
  match subject with
  | none => pure ()
  | some e => checkReceiver name e
  checkOperands name 0 o.signature.operands operands
  pure o

mutual

/-- The names for an expression: one for each operation, after those for what it works on. -/
def tally : Expr → Tally
  | .integer _ _ => .ok 0
  | .text _ _ => .ok 0
  | .name _ _ => .ok 0
  | .var _ _ => .ok 0
  | .call pos function operands =>
    .after (checkCall function none operands pos) fun _ => (tallyAll operands).next (.ok 1)
  | .apply pos subject operator operands =>
    if isInfix operator then
      .after (kindOf (.apply pos subject operator operands)) fun _ =>
        (tally subject).next ((tallyFirst operands).next (.ok 1))
    else
      .after (checkCall operator (some subject) operands pos) fun _ =>
        (tally subject).next ((tallyAll operands).next (.ok 1))

def tallyAll : List Expr → Tally
  | [] => .ok 0
  | e :: es => (tally e).next (tallyAll es)

def tallyFirst : List Expr → Tally
  | [] => .ok 0
  | e :: _ => tally e

end

/-- The checks of an assignment. -/
def checkAssigned (pos : Position) (target : Variable) (op : AssignOp) (value : Expr) :
    Checked Unit := do
  let kind ← kindOf value
  match op.operator? with
  | none =>
    if kind = target.kind then pure ()
    else .error (.typeMismatch (.assignedTo target.name) [target.kind] kind value.pos)
  | some operator => checkInfix operator target.kind kind pos

/-- The checks of a command, and its words and arguments. -/
def checkCommand (pos : Position) (c : Command) (name : String) (arguments : List Expr) :
    Checked (List String × List Expr) := do
  let (words, others) ← splitKeywords c arguments
  checkKeywords c words others pos
  checkArity name (.exactly c.operands.length) others.length pos
  checkOperands name 0 c.operands others
  pure (words, others)

/-- The names for a statement. -/
def tallyStatement : Query.Statement → Tally
  | .assignment pos target op value =>
    .after (checkAssigned pos target op value) fun _ =>
      (tally value).next (.ok (op.operator?.elim 0 fun _ => 1))
  | .command pos name arguments =>
    match Command.find? name with
    | none => .ok 0
    | some c => .after (checkCommand pos c name arguments) fun (_, others) => tallyAll others

end Resolution

/-! ## Numbers that are given out -/

namespace Workspace

variable {σ : Type} (b : Backend σ)

/-- So many new numbers, each of which is stored. -/
def freshNumbers : Nat → Action (Workspace σ) BackendError Unit
  | 0 => pure ()
  | n + 1 => do
    let _ ← freshNumber b
    freshNumbers n

theorem freshNumbers_add (m n : Nat) :
    freshNumbers b (m + n) = freshNumbers b m >>= fun _ => freshNumbers b n := by
  induction m with
  | zero => rw [Nat.zero_add]; rfl
  | succ m ih => rw [Nat.succ_add, freshNumbers, ih, freshNumbers, bind_assoc]

theorem freshNumbers_counter {n : Nat} {w w' : Workspace σ}
    (h : (freshNumbers b n).runFrom w = (.ok (), w')) :
    w'.symbols = { w.symbols with counter := wordAfter^[n] w.symbols.counter } := by
  induction n generalizing w with
  | zero => cases h; rfl
  | succ n ih =>
    obtain ⟨_, w₁, hfresh, h⟩ := Action.bind_ok_iff.1 h
    obtain ⟨rfl, hsymbols⟩ := Resolution.freshNumber_ok hfresh
    rw [ih h, hsymbols]
    rfl

/-- A discard leaves the counter, whatever it reads. -/
theorem discard_counter (w : Workspace σ) :
    ((discard b).runFrom w).2.symbols.counter = w.symbols.counter := by
  have hpreserved : Action.Preserves (fun w' => w'.symbols.counter = w.symbols.counter) (discard b) := by
    refine .bind .read fun w' => ?_
    dsimp only
    split
    · exact .pure _
    · exact (Action.Preserves.along (I := fun _ => True) (fun _ _ => trivial) (fun _ _ => trivial)
        fun _ _ _ h => h).bind fun _ => .modify fun _ h => h
  exact hpreserved w rfl

end Workspace

namespace Resolution

open Draft Workspace

variable {σ α β : Type} {b : Backend σ}

/-! ## Actions with a tally -/

/-- If the action fails with a mismatch, then the tally has this mismatch, and so many names are
allocated as it says. -/
def MistypedAt (b : Backend σ) (a : Drafting σ α) (t : Tally) : Prop :=
  ∀ d d' e, a.runFrom d = (.error (.resolution e), d') → e.IsMismatch →
    ∃ n, t = .error (n, e) ∧ (freshNumbers b n).runFrom d.workspace = (.ok (), d'.workspace)

/-- And if the action succeeds, then so many names are allocated as the tally says. -/
structure Tallied (b : Backend σ) (a : Drafting σ α) (t : Tally) : Prop where
  ok : ∀ d d' x, a.runFrom d = (.ok x, d') →
    ∃ n, t = .ok n ∧ (freshNumbers b n).runFrom d.workspace = (.ok (), d'.workspace)
  mistyped : MistypedAt b a t

section Rules

variable {a : Drafting σ α} {f : α → Drafting σ β} {t u : Tally}

theorem MistypedAt.bind (ha : Tallied b a t) (hf : ∀ x, MistypedAt b (f x) u) :
    MistypedAt b (a >>= f) (t.next u) := by
  intro d d' e h hmismatch
  rw [Action.runFrom_bind] at h
  split at h
  · next x d₁ hx =>
    obtain ⟨n, rfl, hn⟩ := ha.ok d d₁ x hx
    obtain ⟨m, rfl, hm⟩ := hf x d₁ d' e h hmismatch
    exact ⟨n + m, rfl, by rw [freshNumbers_add, Action.runFrom_bind_ok hn, hm]⟩
  · next e' d₁ hx =>
    cases h
    obtain ⟨n, rfl, hn⟩ := ha.mistyped d d' e hx hmismatch
    exact ⟨n, rfl, hn⟩

/-- A failure of a check. -/
theorem MistypedAt.failed (e : ResolutionError) :
    MistypedAt b (fail e : Drafting σ α) (.error (0, e)) := by
  intro d d' e' h _
  cases h
  exact ⟨0, rfl, rfl⟩

/-- A failure that is no mismatch. -/
theorem MistypedAt.fail {e : ResolutionError} (he : ¬ e.IsMismatch) (t : Tally) :
    MistypedAt b (fail e : Drafting σ α) t := by
  intro d d' e' h hmismatch
  cases h
  exact (he hmismatch).elim

theorem MistypedAt.check {c : Checked α} {t : α → Tally} (hf : ∀ x, MistypedAt b (f x) (t x)) :
    MistypedAt b (require c >>= f) (.after c t) := by
  cases c with
  | ok x => exact hf x
  | error e => exact .failed e

namespace Tallied

theorem pure (x : α) : Tallied b (pure x : Drafting σ α) (.ok 0) where
  ok _ _ _ h := by cases h; exact ⟨0, rfl, rfl⟩
  mistyped _ _ _ h := by cases h

theorem failed (e : ResolutionError) : Tallied b (fail e : Drafting σ α) (.error (0, e)) where
  ok _ _ _ h := by cases h
  mistyped := .failed e

theorem fail {e : ResolutionError} (he : ¬ e.IsMismatch) (t : Tally) :
    Tallied b (fail e : Drafting σ α) t where
  ok _ _ _ h := by cases h
  mistyped := .fail he t

theorem bind (ha : Tallied b a t) (hf : ∀ x, Tallied b (f x) u) : Tallied b (a >>= f) (t.next u) where
  ok d d' y h := by
    obtain ⟨x, d₁, hx, h⟩ := Action.bind_ok_iff.1 h
    obtain ⟨n, rfl, hn⟩ := ha.ok d d₁ x hx
    obtain ⟨m, rfl, hm⟩ := (hf x).ok d₁ d' y h
    exact ⟨n + m, rfl, by rw [freshNumbers_add, Action.runFrom_bind_ok hn, hm]⟩
  mistyped := .bind ha fun x => (hf x).mistyped

theorem bind_pure (ha : Tallied b a t) (f : α → β) :
    Tallied b (a >>= fun x => Pure.pure (f x)) t := by
  simpa only [Tally.next_zero] using ha.bind fun x => pure (f x)

theorem check {c : Checked α} {t : α → Tally} (hf : ∀ x, Tallied b (f x) (t x)) :
    Tallied b (require c >>= f) (.after c t) where
  ok d d' y h := by
    obtain ⟨x, rfl, h⟩ := require_bind_ok h
    exact (hf x).ok d d' y h
  mistyped := .check fun x => (hf x).mistyped

theorem valueOf (v : Variable) (pos : Position) :
    Tallied b (valueOf v pos : Drafting σ Value) (.ok 0) where
  ok d d' x h := by
    obtain ⟨_, _, _, rfl⟩ := valueOf_ok h
    exact ⟨0, rfl, rfl⟩
  mistyped d d' e h := by
    simp only [Resolution.valueOf, Action.runFrom_bind, Action.runFrom_get] at h
    split at h
    · cases h; exact False.elim
    · cases h

/-- What is planned gets one name. -/
theorem run (p : Plan) : Tallied b (p.run b) (.ok 1) where
  ok d d' x h := by
    obtain ⟨n, w, hfresh, -, rfl⟩ := p.run_ok h
    exact ⟨1, rfl, by rw [freshNumbers, Action.runFrom_bind_ok hfresh]; rfl⟩
  mistyped d d' e h := by
    rw [p.runFrom_run] at h
    split at h <;> cases h

theorem newGraph (fill : Graph → List Instruction) : Tallied b (newGraph b fill) (.ok 1) :=
  .run (.graph fill)

theorem newMetadata (fill : Metadata → Instruction) : Tallied b (newMetadata b fill) (.ok 1) :=
  .run (.metadata fill)

theorem combine (operator : String) (lhs rhs : Value) (pos : Position) :
    Tallied b (combine b operator lhs rhs pos) (.ok 1) := by
  rw [combine_eq]
  cases planInfix operator lhs rhs with
  | none => exact .fail id _
  | some p => exact .run p

theorem requireCount (quantity call : String) (n : Int) (pos : Position)
    {f : Unit → Drafting σ α} (hf : Tallied b (f ()) t) :
    Tallied b (requireCount quantity call n pos >>= f) t := by
  rw [requireCount_bind]
  split
  · exact .fail id _
  · exact hf

theorem requireDirection (spelling : String) (pos : Position) {f : Direction → Drafting σ α}
    (hf : ∀ direction, Tallied b (f direction) t) :
    Tallied b (requireDirection spelling pos >>= f) t := by
  unfold Resolution.requireDirection
  split
  · exact hf _
  · exact .fail id _

/-- A call on values has no kinds to check any more. -/
theorem apply (o : Operation) (subject : Option Value) (operands : List Value) (pos : Position) :
    Tallied b (apply b o subject operands pos) (.ok 1) := by
  unfold Resolution.apply
  split
  · split
    · exact .newGraph _
    · exact .fail id _
  · split
    · exact .newGraph _
    · exact .fail id _
  · exact .requireCount _ _ _ _ (.requireDirection _ _ fun _ => .newGraph _)
  · exact .requireCount _ _ _ _ (.newGraph _)
  · exact .requireCount _ _ _ _ (.newGraph _)
  · exact .newGraph _
  · exact .newGraph _
  · split
    · exact .newGraph _
    · exact .fail id _
  · exact .requireCount _ _ _ _ (.newGraph _)
  · exact .newGraph _
  · exact .newMetadata _
  · exact .fail id _

end Tallied

end Rules

/-! ## Expressions -/

/-- Checks one after the other are one check. -/
theorem require_bind {γ : Type} (c : Checked α) (g : α → Checked β) (f : β → Drafting σ γ) :
    require (c >>= g) >>= f = require c >>= fun x => require (g x) >>= f := by
  cases c <;> rfl

theorem require_pure (x : α) (f : α → Drafting σ β) : require (pure x) >>= f = f x := rfl

theorem evaluate_call_eq (pos : Position) (function : String) (operands : List Expr) :
    evaluate b (.call pos function operands)
      = require (checkCall function none operands pos) >>= fun o =>
          evaluateAll b operands >>= fun values => Resolution.apply b o none values pos := by
  simp only [evaluate, checkCall, require_bind, require_pure, Option.isSome_none]

theorem evaluate_method_eq (pos : Position) (subject : Expr) {operator : String}
    (h : isInfix operator = false) (operands : List Expr) :
    evaluate b (.apply pos subject operator operands)
      = require (checkCall operator (some subject) operands pos) >>= fun o =>
          evaluate b subject >>= fun value => evaluateAll b operands >>= fun values =>
            Resolution.apply b o (some value) values pos := by
  simp only [evaluate, h, checkCall, require_bind, require_pure, Option.isSome_some,
    Bool.false_eq_true, if_false]

mutual

theorem evaluate_tallied : ∀ e : Expr, Tallied b (evaluate b e) (tally e)
  | .integer pos n => by rw [evaluate, tally]; exact .pure _
  | .text pos s => by rw [evaluate, tally]; exact .pure _
  | .name pos word => by rw [evaluate, tally]; exact .fail id _
  | .var pos v => by rw [evaluate, tally]; exact .valueOf v pos
  | .call pos function operands => by
    rw [evaluate_call_eq, tally]
    exact .check fun o => (evaluateAll_tallied operands).bind fun values => .apply o none values pos
  | .apply pos subject operator operands => by
    cases hoperator : isInfix operator with
    | true =>
      rw [evaluate, tally, if_pos hoperator, if_pos hoperator]
      refine .check fun _ => (evaluate_tallied subject).bind fun lhs =>
        (evaluateFirst_tallied operands).bind fun first => ?_
      cases first with
      | none => exact .fail id _
      | some rhs => exact .combine operator lhs rhs pos
    | false =>
      rw [evaluate_method_eq pos subject hoperator, tally, hoperator]
      exact .check fun o => (evaluate_tallied subject).bind fun value =>
        (evaluateAll_tallied operands).bind fun values => .apply o (some value) values pos

theorem evaluateAll_tallied : ∀ es : List Expr, Tallied b (evaluateAll b es) (tallyAll es)
  | [] => by rw [evaluateAll, tallyAll]; exact .pure _
  | e :: es => by
    rw [evaluateAll, tallyAll]
    exact (evaluate_tallied e).bind fun _ => (evaluateAll_tallied es).bind_pure _

theorem evaluateFirst_tallied : ∀ es : List Expr, Tallied b (evaluateFirst b es) (tallyFirst es)
  | [] => by rw [evaluateFirst, tallyFirst]; exact .pure _
  | e :: _ => by
    rw [evaluateFirst, tallyFirst]
    exact (evaluate_tallied e).bind_pure _

end

/-! ## Statements -/

theorem assigned_tallied (pos : Position) (target : Variable) (op : AssignOp) (value : Expr) :
    Tallied b (assigned b pos target op value) (tallyStatement (.assignment pos target op value)) := by
  unfold assigned
  rw [tallyStatement, checkAssigned, Tally.after_bind]
  refine .check fun kind => ?_
  cases op.operator? with
  | none =>
    dsimp only
    split
    · exact (Tally.next_zero (tally value)).symm ▸ evaluate_tallied value
    · exact .failed _
  | some operator =>
    -- The variable is looked up before the check, which allocates nothing.
    rw [← Tally.zero_next (Tally.after _ _)]
    exact (Tallied.valueOf target pos).bind fun current => .check fun _ =>
      (evaluate_tallied value).bind fun operand => .combine operator current operand pos

theorem assign_mistypedAt (pos : Position) (target : Variable) (op : AssignOp) (value : Expr) :
    MistypedAt b (assign b pos target op value) (tallyStatement (.assignment pos target op value)) := by
  unfold assign
  split
  · exact .fail id _
  · rw [← Tally.next_zero (tallyStatement _)]
    refine .bind (assigned_tallied pos target op value) fun v d d' e h => ?_
    simp only [bindTo, Action.runFrom_bind, Action.runFrom_get] at h
    split at h
    · cases h; exact False.elim
    · cases h

theorem perform_mistypedAt (c : Command) (words : List String) (values : List Value) (pos : Position) :
    MistypedAt b (perform c words values pos : Drafting σ Unit) (.ok 0) := by
  intro d d' e h
  unfold perform at h
  split at h <;> cases h
  exact False.elim

theorem command_eq {c : Command} {name : String} (h : Command.find? name = some c) (pos : Position)
    (arguments : List Expr) :
    command b pos name arguments = require (checkCommand pos c name arguments) >>= fun x =>
      evaluateAll b x.2 >>= fun values => perform c x.1 values pos := by
  simp only [command, h, checkCommand, require_bind, require_pure]

theorem command_mistypedAt (pos : Position) (name : String) (arguments : List Expr) :
    MistypedAt b (command b pos name arguments) (tallyStatement (.command pos name arguments)) := by
  rw [tallyStatement]
  cases hc : Command.find? name with
  | none =>
    rw [command, hc]
    exact .fail id _
  | some c =>
    rw [command_eq hc]
    refine .check fun x => ?_
    obtain ⟨words, others⟩ := x
    dsimp only
    rw [← Tally.next_zero (tallyAll others)]
    exact .bind (evaluateAll_tallied others) fun values => perform_mistypedAt c words values pos

theorem statement_mistypedAt (s : Query.Statement) : MistypedAt b (statement b s) (tallyStatement s) := by
  cases s with
  | assignment pos target op value => exact assign_mistypedAt pos target op value
  | command pos name arguments => exact command_mistypedAt pos name arguments

/-- A statement that fails with a mismatch leaves as many names allocated as its tally says: one for each
operation that is evaluated before the one whose check fails. Apart from these, and from what was
pending before, it leaves all as it was; without any such operation it stores nothing. -/
theorem resolve_mistyped {s : Query.Statement} {w w' : Workspace σ} {e : ResolutionError}
    (he : e.IsMismatch) (h : (resolve b [s]).runFrom w = (.error (.resolution e), w')) :
    ∃ n w₁, tallyStatement s = .error (n, e) ∧ (freshNumbers b n).runFrom w = (.ok (), w₁) ∧
      (discard b).runFrom w₁ = (.ok (), w') ∧
      w'.symbols.counter = wordAfter^[n] w.symbols.counter := by
  have hstatements : ∀ d result d', (statement b s).runFrom d = (result, d') →
      ([s].forM (statement b)).runFrom d = (result, d') := by
    intro d result d' hs
    rw [Action.forM_cons, Action.runFrom_bind, hs]
    cases result <;> rfl
  rcases hs : (statement b s).runFrom ⟨w, []⟩ with ⟨result, d⟩
  rw [resolve, Action.runFrom_of, hstatements _ _ _ hs] at h
  cases result with
  | ok _ =>
    dsimp only at h
    split at h <;> cases h
  | error e' =>
    dsimp only at h
    split at h
    · next w₂ hdiscard =>
      cases h
      obtain ⟨n, htally, hn⟩ := statement_mistypedAt s _ _ _ hs he
      refine ⟨n, d.workspace, htally, hn, hdiscard, ?_⟩
      have hcounter := discard_counter (b := b) d.workspace
      rw [hdiscard, freshNumbers_counter b hn] at hcounter
      exact hcounter
    · cases h

/-- `$a = vertices(1) + $base.limit('x')` -/
def mistypedLate : Query.Statement :=
  .assignment ⟨1, 1⟩ ⟨"$a"⟩ .set (.apply ⟨1, 18⟩
    (.call ⟨1, 6⟩ "vertices" [.integer ⟨1, 15⟩ 1]) "+"
    [.apply ⟨1, 26⟩ (.var ⟨1, 20⟩ ⟨"$base"⟩) "limit" [.text ⟨1, 32⟩ "x"]])

/-- A workspace in which nothing is bound yet. -/
def unbound : Workspace Database := ⟨⟨[], [], false, 0⟩, Database.empty.add emptyRelation⟩

/-- What is wrong with the operand of the method. -/
def textForInteger : ResolutionError := .typeMismatch (.argument 0 "limit") [.integer] .text ⟨1, 32⟩

theorem resolve_mistyped_late :
    textForInteger.IsMismatch ∧ ∃ w', (resolve Backend.memory [mistypedLate]).runFrom unbound
        = (.error (.resolution textForInteger), w') ∧
      ∃ n w₁, tallyStatement mistypedLate = .error (n, textForInteger) ∧
        (freshNumbers Backend.memory n).runFrom unbound = (.ok (), w₁) ∧
        (discard Backend.memory).runFrom w₁ = (.ok (), w') ∧
        w'.symbols.counter = wordAfter^[n] unbound.symbols.counter := by
  have hrun : ((resolve Backend.memory [mistypedLate]).runFrom unbound).1
      = .error (.resolution textForInteger) := by decide +kernel
  exact ⟨trivial, _, Prod.ext hrun rfl, resolve_mistyped trivial (Prod.ext hrun rfl)⟩

/-- The left operand of the sum has got its name, and its number is stored, before the kinds that the
method is called with are checked. -/
theorem mistyped_allocates :
    unbound.symbols.counter = 0 ∧ storedCounter? unbound.store = some 0 ∧
      ∃ s w', Query.parse "$a = vertices(1) + $base.limit('x')" = .ok [s] ∧
        (resolve Backend.memory [s]).runFrom unbound = (.error (.resolution textForInteger), w') ∧
        w'.symbols.counter = 1 ∧ storedCounter? w'.store = some 1 := by
  have hrun : (Query.parse "$a = vertices(1) + $base.limit('x')").toOption.map (fun ss =>
      (ss.length, ((resolve Backend.memory ss).runFrom unbound).1,
        ((resolve Backend.memory ss).runFrom unbound).2.symbols.counter,
        storedCounter? ((resolve Backend.memory ss).runFrom unbound).2.store))
      = some (1, .error (.resolution textForInteger), 1, some 1) := by decide +kernel
  refine ⟨rfl, by decide +kernel, ?_⟩
  cases hparse : Query.parse "$a = vertices(1) + $base.limit('x')" with
  | error e =>
    rw [hparse] at hrun
    cases hrun
  | ok ss =>
    rw [hparse] at hrun
    simp only [Except.toOption, Option.map_some, Option.some.injEq, Prod.mk.injEq] at hrun
    obtain ⟨hlength, hfails, hcounters⟩ := hrun
    obtain ⟨s, rfl⟩ := List.length_eq_one_iff.1 hlength
    exact ⟨s, _, rfl, Prod.ext hfails rfl, hcounters⟩

end Resolution

end Provenance

import Provenance.Proofs.Printing

/-!
# What a parsed query looks like

Whatever text a query is read from, its integer literals are 64-bit words, its names are identifiers
and its variables begin with a sigil. This is followed through the grammar: each scan yields only
values with a property, if its parts do. A property of expressions has to be shown once for each way
to build one.
-/

namespace Provenance.Query

/-! ## Scans -/

namespace Scan

variable {α β : Type} {P : α → Prop} {Q : β → Prop}

/-- All values that a scan gives have the property. -/
def Yields (p : Scan α) (P : α → Prop) : Prop := ∀ s a t, p s = .ok (a, t) → P a

namespace Yields

variable {p q : Scan α}

theorem pure {a : α} (h : P a) : Yields (pure a) P := by
  rintro s b t hb
  cases hb
  exact h

theorem miss : Yields (miss : Scan α) P := nofun

theorem stop (what : Expectation) : Yields (stop what : Scan α) P := nofun

theorem bind {f : α → Scan β} (hp : Yields p P) (hf : ∀ a, P a → Yields (f a) Q) :
    Yields (p >>= f) Q := by
  intro s b t h
  cases hs : p s with
  | error e => simp [Bind.bind, StateT.bind, Except.bind, hs] at h
  | ok r =>
    simp only [Bind.bind, StateT.bind, Except.bind, hs] at h
    exact hf r.1 (hp s r.1 r.2 hs) r.2 b t h

/-- What does not depend on the value before. -/
theorem after {f : α → Scan β} (hf : ∀ a, Yields (f a) Q) : Yields (p >>= f) Q :=
  bind (P := fun _ => True) (fun _ _ _ _ => trivial) fun a _ => hf a

theorem mono {P' : α → Prop} (hp : Yields p P) (h : ∀ a, P a → P' a) : Yields p P' :=
  fun s a t ha => h a (hp s a t ha)

theorem commit (hp : Yields p P) : Yields (commit p) P := by
  intro s a t h
  unfold Scan.commit at h
  split at h
  · next heq => cases h; exact hp _ _ _ heq
  · cases h

theorem expecting {what : Expectation} (hp : Yields p P) : Yields (expecting what p) P := by
  intro s a t h
  unfold Scan.expecting at h
  split at h
  · next heq => cases h; exact hp _ _ _ heq
  · cases h

theorem either (hp : Yields p P) (hq : Yields q P) : Yields (either p q) P := by
  intro s a t h
  unfold Scan.either at h
  split at h
  · next heq => cases h; exact hp _ _ _ heq
  · split at h
    · cases h
    · exact hq _ _ _ h

theorem option (hp : Yields p P) : Yields (option p) fun o => ∀ a ∈ o, P a := by
  intro s o t h
  unfold Scan.option at h
  split at h
  · next a _ heq =>
    cases h
    rintro b hb
    cases hb
    exact hp _ _ _ heq
  · split at h
    · cases h
    · cases h; exact nofun

theorem repeatUpTo (hp : Yields p P) (n : Nat) {found : List α} (hfound : ∀ a ∈ found, P a)
    {s : Cursor} {as : List α} {t : Cursor} (h : repeatUpTo p n found s = .ok (as, t)) :
    ∀ a ∈ as, P a := by
  induction n generalizing found s with
  | zero => cases h; simpa using hfound
  | succ n ih =>
    rw [Scan.repeatUpTo] at h
    split at h
    · next a _ heq =>
      exact ih (fun b hb => (List.mem_cons.1 hb).elim (fun hb => hb ▸ hp _ _ _ heq) (hfound b)) h
    · split at h
      · cases h
      · cases h; simpa using hfound

theorem many (hp : Yields p P) : Yields (many p) fun as => ∀ a ∈ as, P a :=
  fun _ _ _ h => hp.repeatUpTo _ (by simp) h

theorem foldlM {f : β → α → Scan β} {as : List α} (has : ∀ a ∈ as, P a)
    (hf : ∀ b a, Q b → P a → Yields (f b a) Q) {b : β} (hb : Q b) : Yields (as.foldlM f b) Q := by
  induction as generalizing b with
  | nil => exact pure hb
  | cons a as ih =>
    rw [List.foldlM_cons]
    exact bind (hf b a hb (has a List.mem_cons_self)) fun c hc =>
      ih (fun x hx => has x (List.mem_cons_of_mem a hx)) hc

end Yields

end Scan

/-! ## Expressions -/

/-- A variable that begins with a sigil. -/
def Variable.HasSigil (v : Variable) : Prop :=
  ∃ c, v.name.toList.head? = some c ∧ (Kind.ofSigil? c).isSome = true

mutual

/-- All integers of an expression are words. -/
def Expr.HasWords : Expr → Prop
  | .integer _ n => Text.isWord n = true
  | .text _ _ => True
  | .name _ _ => True
  | .var _ _ => True
  | .call _ _ arguments => Expr.AllHaveWords arguments
  | .apply _ subject _ operands => subject.HasWords ∧ Expr.AllHaveWords operands

def Expr.AllHaveWords : List Expr → Prop
  | [] => True
  | e :: es => e.HasWords ∧ Expr.AllHaveWords es

end

theorem Expr.allHaveWords_of_forall {es : List Expr} (h : ∀ e ∈ es, e.HasWords) :
    Expr.AllHaveWords es := by
  induction es with
  | nil => exact trivial
  | cons e es ih => exact ⟨h e List.mem_cons_self, ih fun x hx => h x (List.mem_cons_of_mem e hx)⟩

/-- All integers of a statement are words, and what it assigns to begins with a sigil. -/
def Statement.IsReadable : Statement → Prop
  | .assignment _ target _ value => target.HasSigil ∧ value.HasWords
  | .command _ _ arguments => Expr.AllHaveWords arguments

/-! ## Words -/

open Scan

theorem charWhere_yields (accepts : Char → Bool) : Yields (charWhere accepts) fun c => accepts c = true := by
  intro s c t h
  unfold charWhere at h
  split at h
  · cases h
  · split at h
    · next haccepts => cases h; exact haccepts
    · cases h

theorem run_yields (accepts : Char → Bool) : Yields (run accepts) fun cs => cs.all accepts = true := by
  intro s cs t h
  cases h
  exact List.all_takeWhile

theorem identifier_yields : Yields identifier fun word => isIdentifier word.toList = true :=
  (charWhere_yields isNameStart).bind fun first hfirst => (run_yields isNameChar).bind fun others hothers => by
    refine .pure ?_
    rw [String.toList_ofList, isIdentifier, hfirst, hothers]
    rfl

theorem variableName_yields : Yields variableName fun v => isVariable v.name.toList = true := by
  intro s v t h
  unfold variableName at h
  split at h
  · cases h
  · next c r _ =>
    split at h
    · next hc =>
      dsimp only at h
      split at h
      · cases h
      · next hword =>
        cases h
        rw [Bool.not_eq_true] at hword
        rw [String.toList_ofList, isVariable, hc, List.all_takeWhile, hword]
        rfl
    · cases h

/-- Digits without a sign denote a word that is not negative. -/
theorem word?_digits {ds : List Char} (hdigits : ds.all Text.isDigit = true) {n : Int}
    (h : Text.word? ds = some n) : 0 ≤ n ∧ Text.isWord n = true := by
  obtain ⟨hvalue, hword⟩ := Option.filter_eq_some_iff.1 h
  refine ⟨?_, hword⟩
  split at hvalue
  · cases hdigits
  all_goals
    rw [Option.map_id'] at hvalue
    obtain ⟨k, -, hk⟩ := Option.bind_eq_some_iff.1 hvalue
    cases hk
    exact Int.natCast_nonneg k

theorem integerLiteral_yields : Yields integerLiteral fun n => 0 ≤ n ∧ Text.isWord n = true := by
  intro s n t h
  unfold integerLiteral at h
  dsimp only at h
  split at h
  · cases h
  · split at h
    · next hword => cases h; exact word?_digits List.all_takeWhile hword
    · cases h

/-! ## Expressions -/

/-- An expression has a property if its parts do, as far as a text can be read as it. -/
structure Expr.IsBuilt (P : Expr → Prop) : Prop where
  integer {pos : Position} {n : Int} (hnonneg : 0 ≤ n) (hword : Text.isWord n = true) : P (.integer pos n)
  text {pos : Position} {s : String} : P (.text pos s)
  name {pos : Position} {word : String} (hword : isIdentifier word.toList = true) : P (.name pos word)
  var {pos : Position} {v : Variable} (hv : isVariable v.name.toList = true) : P (.var pos v)
  call {pos : Position} {function : String} {arguments : List Expr} (hfunction : isIdentifier function.toList = true)
    (hparts : ∀ e ∈ arguments, P e) (hheight : (Expr.call pos function arguments).height ≤ maxHeight) :
    P (.call pos function arguments)
  method {pos : Position} {subject : Expr} {method : String} {arguments : List Expr}
    (hmethod : isIdentifier method.toList = true) (hsubject : P subject) (hparts : ∀ e ∈ arguments, P e)
    (hheight : (Expr.apply pos subject method arguments).height ≤ maxHeight) : P (.apply pos subject method arguments)
  operator {pos : Position} {lhs rhs : Expr} {operator : String} (hoperator : isInfix operator = true) (hlhs : P lhs)
    (hrhs : P rhs) (hheight : (Expr.apply pos lhs operator [rhs]).height ≤ maxHeight) :
    P (.apply pos lhs operator [rhs])

theorem measured_yields {P : Expr → Prop} {e : Expr} (h : e.height ≤ maxHeight → P e) : Yields (measured e) P := by
  unfold measured
  split
  · exact .stop _
  · next hheight => exact .pure (h (Nat.le_of_not_lt hheight))

section Layers

variable {P : Expr → Prop} {inside : Bool} {inner : Option (Scan Expr)} (hP : Expr.IsBuilt P)
  (hinner : ∀ p ∈ inner, Yields p P)

include hP hinner

omit hP in
theorem enter_yields : Yields (enter inner) fun p => Yields p P := by
  unfold enter
  split
  · exact .pure (hinner _ rfl)
  · exact .stop _

omit hP in
theorem callArguments_yields : Yields (callArguments inside inner) fun arguments => ∀ e ∈ arguments, P e := by
  have hend : ∀ {p : Scan Unit} (arguments : List Expr), (∀ e ∈ arguments, P e) →
      Yields (p >>= fun _ => Pure.pure arguments) fun arguments => ∀ e ∈ arguments, P e :=
    fun _ harguments => .after fun _ => .pure harguments
  refine .after fun _ => .after fun _ => (enter_yields hinner).bind fun argument hargument =>
    .commit (hargument.option.bind fun first hfirst => ?_)
  cases first with
  | none => exact (Yields.pure (List.forall_mem_nil _)).bind hend
  | some first =>
    refine (Yields.many (.after fun _ => .after fun _ => hargument)).bind fun others hothers => ?_
    exact (Yields.pure (List.forall_mem_cons.2 ⟨hfirst first rfl, hothers⟩)).bind hend

theorem primary_yields : Yields (primary inside inner) P := by
  refine .after fun _ => .after fun pos => .expecting ?_
  refine .either (variableName_yields.bind fun v hv => .pure (hP.var hv)) ?_
  refine .either (integerLiteral_yields.bind fun n hn => .pure (hP.integer hn.1 hn.2)) ?_
  refine .either (.after fun _ => .pure hP.text) ?_
  refine .either (identifier_yields.bind fun word hword =>
    (callArguments_yields hinner).option.bind fun found hfound => ?_) ?_
  · cases found with
    | none => exact .pure (hP.name hword)
    | some arguments => exact measured_yields fun hheight => hP.call hword (hfound arguments rfl) hheight
  · exact .after fun _ => (enter_yields hinner).bind fun expression hexpression =>
      .commit (hexpression.bind fun e he => .after fun _ => .pure he)

theorem methodChain_yields : Yields (methodChain inside inner) P := by
  have hcall : Yields (methodCall inside inner) fun call =>
      isIdentifier call.2.1.toList = true ∧ ∀ e ∈ call.2.2, P e :=
    .after fun _ => .after fun _ => identifier_yields.expecting.bind fun word hword =>
      (callArguments_yields hinner).bind fun arguments harguments => .pure ⟨hword, harguments⟩
  refine (primary_yields hP hinner).bind fun subject hsubject =>
    (Yields.many (.after fun _ => .after fun _ => hcall.commit)).bind fun calls hcalls => ?_
  refine Yields.foldlM hcalls (fun e (pos, word, arguments) he hc => ?_) hsubject
  exact measured_yields fun hheight => hP.method hc.1 he hc.2 hheight

omit hP hinner in
theorem infixOperator_yields {symbols : List Char} (hsymbols : ∀ c ∈ symbols, isInfix c.toString = true) :
    Yields (infixOperator inside symbols) fun found => isInfix found.2 = true := by
  refine .after fun _ => .after fun pos => (charWhere_yields _).bind fun symbol hsymbol => .after fun found => ?_
  cases found with
  | none => exact .pure (hsymbols symbol (List.contains_iff_mem.1 hsymbol))
  | some _ => exact .miss

omit hinner in
theorem infixChain_yields {symbols : List Char} (hsymbols : ∀ c ∈ symbols, isInfix c.toString = true)
    {operand : Scan Expr} (h : Yields operand P) : Yields (infixChain inside symbols operand) P := by
  have hnext : Yields (do
      let found ← infixOperator inside symbols
      let rhs ← commit operand
      Pure.pure (found.1, found.2, rhs))
      fun found : Position × String × Expr => isInfix found.2.1 = true ∧ P found.2.2 :=
    (infixOperator_yields hsymbols).bind fun found hfound => h.commit.bind fun rhs hrhs => .pure ⟨hfound, hrhs⟩
  refine h.bind fun first hfirst => hnext.many.bind fun others hothers => ?_
  refine Yields.foldlM hothers (fun e found he hc => ?_) hfirst
  exact measured_yields fun hheight => hP.operator hc.1 he hc.2 hheight

theorem expressionWith_yields : Yields (expressionWith inside inner) P :=
  infixChain_yields hP (List.all_eq_true.1 (by decide))
    (infixChain_yields hP (List.all_eq_true.1 (by decide)) (methodChain_yields hP hinner))

end Layers

theorem expressionIn_yields {P : Expr → Prop} (hP : Expr.IsBuilt P) (room : Nat) :
    ∀ inside, Yields (expressionIn room inside) P := by
  induction room with
  | zero => exact fun inside => expressionWith_yields hP (by simp)
  | succ room ih =>
    refine fun inside => expressionWith_yields hP fun p hp => ?_
    cases hp
    exact ih true

/-! ## Statements -/

/-- The words of a statement are well formed, and its expressions have a property. -/
def Statement.IsOver (P : Expr → Prop) : Statement → Prop
  | .assignment _ target _ value => isVariable target.name.toList = true ∧ P value
  | .command _ name arguments => isIdentifier name.toList = true ∧ ∀ e ∈ arguments, P e

section Statements

variable {P : Expr → Prop} (hP : Expr.IsBuilt P)
include hP

theorem statement_yields : Yields statement (Statement.IsOver P) := by
  have hexpression : Yields expression P := expressionIn_yields hP _ _
  refine .after fun pos => .expecting (.either ?_ ?_)
  · exact variableName_yields.bind fun target htarget => .after fun op =>
      hexpression.commit.bind fun value hvalue => .pure ⟨htarget, hvalue⟩
  · refine identifier_yields.bind fun name hname => hexpression.option.bind fun found hfound => ?_
    cases found with
    | none => exact .pure ⟨hname, List.forall_mem_nil _⟩
    | some first =>
      exact (Yields.many (.after fun _ => hexpression)).bind fun others hothers =>
        .pure ⟨hname, List.forall_mem_cons.2 ⟨hfound first rfl, hothers⟩⟩

theorem statementsUpTo_yields (n : Nat) :
    Yields (statementsUpTo n) fun ss => ∀ s ∈ ss, s.IsOver P := by
  induction n with
  | zero => exact .pure (by simp)
  | succ n ih =>
    refine .after fun _ => .after fun ended => ?_
    split
    · exact .pure (by simp)
    · exact (statement_yields hP).commit.bind fun first hfirst => .after fun _ => ih.bind fun others hothers =>
        .pure (List.forall_mem_cons.2 ⟨hfirst, hothers⟩)

/-- All expressions of a query have a property that passes from parts to the whole. -/
theorem isOver_of_parse {source : String} {ss : List Statement} (h : parse source = .ok ss) :
    ∀ s ∈ ss, s.IsOver P := by
  unfold parse at h
  split at h
  · next heq => cases h; exact statementsUpTo_yields hP _ _ _ _ heq
  · cases h

end Statements

theorem Expr.isBuilt_hasWords : Expr.IsBuilt Expr.HasWords where
  integer _ hword := hword
  text := trivial
  name _ := trivial
  var _ := trivial
  call _ hparts _ := Expr.allHaveWords_of_forall hparts
  method _ hsubject hparts _ := ⟨hsubject, Expr.allHaveWords_of_forall hparts⟩
  operator _ hlhs hrhs _ := ⟨hlhs, hrhs, trivial⟩

theorem Variable.hasSigil_of_isVariable {v : Variable} (h : isVariable v.name.toList = true) : v.HasSigil := by
  unfold isVariable at h
  split at h
  · cases h
  · next c cs heq =>
    simp only [Bool.and_eq_true] at h
    exact ⟨c, by rw [heq]; rfl, h.1.1⟩

/-- Every statement of a query is readable, from whatever text it was read. -/
theorem isReadable_of_parse {source : String} {ss : List Statement} (h : parse source = .ok ss) :
    ∀ s ∈ ss, s.IsReadable := by
  intro s hs
  have hover := isOver_of_parse Expr.isBuilt_hasWords h s hs
  cases s with
  | assignment pos target op value => exact hover.imp_left Variable.hasSigil_of_isVariable
  | command pos name arguments => exact Expr.allHaveWords_of_forall hover.2

end Provenance.Query

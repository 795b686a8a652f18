import Provenance.Proofs.Positions
import Provenance.Proofs.Words

/-!
# Texts in other places

What is read of a text does not depend on where the text stands, only the positions in it do. Two cursors
before the same text are *displaced* against one another by a relation that survives each character; a scan
that starts from the one does what it does from the other, in success and in failure, with the positions moved.

The relation need not move anything. Of a cursor and itself, as long as it lies behind some place in the text,
the same lemmas say that scans only go forward.
-/

namespace Provenance.Query

namespace Cursor

/-- From the first cursor one comes to the second one. -/
def Precedes (s t : Cursor) : Prop := ∃ n, t = s.skip n

theorem skip_of_rest_nil {s : Cursor} (h : s.rest = []) (n : Nat) : s.skip n = s := by
  induction n with
  | zero => rfl
  | succ n ih => rw [skip, next_of_rest_nil h, ih]

namespace Precedes

variable {s t u : Cursor}

theorem skip (s : Cursor) (n : Nat) : s.Precedes (s.skip n) := ⟨n, rfl⟩

theorem trans (hst : s.Precedes t) (htu : t.Precedes u) : s.Precedes u := by
  obtain ⟨m, rfl⟩ := hst
  obtain ⟨n, rfl⟩ := htu
  exact ⟨m + n, (skip_add m n s).symm⟩

/-- How far one went can be read off what is left. -/
theorem eq_skip (h : s.Precedes t) : t = s.skip (s.rest.length - t.rest.length) := by
  obtain ⟨n, rfl⟩ := h
  rw [rest_skip, List.length_drop]
  obtain hlt | hle := Nat.lt_or_ge s.rest.length n
  · have hrest : (s.skip s.rest.length).rest = [] := by rw [rest_skip, List.drop_length]
    rw [Nat.sub_eq_zero_of_le (Nat.le_of_lt hlt), Nat.sub_zero, ← Nat.add_sub_cancel' (Nat.le_of_lt hlt),
      skip_add, skip_of_rest_nil hrest]
  · rw [Nat.sub_sub_self hle]

end Precedes

end Cursor

/-- How cursors before the same text may stand to one another, and how their positions differ. -/
structure Displacement where
  places : Cursor → Cursor → Prop
  move : Position → Position
  rest : ∀ {s s'}, places s s' → s'.rest = s.rest
  position : ∀ {s s'}, places s s' → s'.position = move s.position
  next : ∀ {s s'}, places s s' → places s.next s'.next

namespace Displacement

variable (d : Displacement)

theorem skip {s s' : Cursor} (h : d.places s s') (n : Nat) : d.places (s.skip n) (s'.skip n) := by
  induction n generalizing s s' with
  | zero => exact h
  | succ n ih => exact ih (d.next h)

theorem ahead {s s' : Cursor} (h : d.places s s') : s'.ahead = s.ahead := by
  rw [Cursor.ahead_eq, Cursor.ahead_eq, d.rest h]

/-- The places behind a cursor, each related to itself. -/
def along (start : Cursor) : Displacement where
  places s s' := s' = s ∧ start.Precedes s
  move := id
  rest h := congrArg Cursor.rest h.1
  position h := congrArg Cursor.position h.1
  next h := ⟨congrArg Cursor.next h.1, h.2.trans (.skip _ 1)⟩

end Displacement

namespace Scan

variable {d : Displacement} {α β γ δ : Type} {g : α → β} {h : γ → δ}

/-- The second outcome is the first one, displaced. -/
inductive Echo (d : Displacement) (g : α → β) : Except Setback (α × Cursor) → Except Setback (β × Cursor) → Prop
  | read {a : α} {t t' : Cursor} (ht : d.places t t') : Echo d g (.ok (a, t)) (.ok (g a, t'))
  | setback {committed : Bool} {place place' : Cursor} {expected : Option Expectation}
    (hplace : d.places place place') :
    Echo d g (.error ⟨committed, place, expected⟩) (.error ⟨committed, place', expected⟩)

/-- From displaced cursors the two scans have displaced outcomes. -/
def Echoes (d : Displacement) (g : α → β) (p : Scan α) (p' : Scan β) : Prop :=
  ∀ ⦃s s' : Cursor⦄, d.places s s' → Echo d g (p s) (p' s')

namespace Echoes

variable {p q : Scan α} {p' q' : Scan β}

theorem pure (a : α) : Echoes d g (pure a) (pure (g a)) := fun _ _ hs => .read hs

theorem miss : Echoes d g miss miss := fun _ _ hs => .setback hs

theorem stop (what : Expectation) : Echoes d g (stop what) (stop what) := fun _ _ hs => .setback hs

theorem here : Echoes d d.move here here := fun s s' hs => by
  unfold Scan.here
  rw [d.position hs]
  exact .read hs

theorem atEnd : Echoes d id atEnd atEnd := fun s s' hs => by
  unfold Scan.atEnd
  rw [d.rest hs]
  exact .read hs

theorem bind {f : α → Scan γ} {f' : β → Scan δ} (hp : Echoes d g p p') (hf : ∀ a, Echoes d h (f a) (f' (g a))) :
    Echoes d h (p >>= f) (p' >>= f') := by
  intro s s' hs
  simp only [Bind.bind, StateT.bind, Except.bind]
  have hecho := hp hs
  generalize p s = o, p' s' = o' at hecho
  cases hecho with
  | read ht => exact hf _ ht
  | setback hplace => exact .setback hplace

theorem commit (hp : Echoes d g p p') : Echoes d g (commit p) (commit p') := by
  intro s s' hs
  unfold Scan.commit
  have hecho := hp hs
  generalize p s = o, p' s' = o' at hecho
  cases hecho with
  | read ht => exact .read ht
  | setback hplace => exact .setback hplace

theorem expecting (what : Expectation) (hp : Echoes d g p p') :
    Echoes d g (expecting what p) (expecting what p') := by
  intro s s' hs
  unfold Scan.expecting
  have hecho := hp hs
  generalize p s = o, p' s' = o' at hecho
  cases hecho with
  | read ht => exact .read ht
  | setback hplace => exact .setback hplace

theorem either (hp : Echoes d g p p') (hq : Echoes d g q q') : Echoes d g (either p q) (either p' q') := by
  intro s s' hs
  unfold Scan.either
  have hecho := hp hs
  generalize p s = o, p' s' = o' at hecho
  cases hecho with
  | read ht => exact .read ht
  | @setback committed _ _ _ hplace =>
    cases committed with
    | true => exact .setback hplace
    | false => exact hq hs

theorem option (hp : Echoes d g p p') : Echoes d (Option.map g) (option p) (option p') := by
  intro s s' hs
  unfold Scan.option
  have hecho := hp hs
  generalize p s = o, p' s' = o' at hecho
  cases hecho with
  | read ht => exact .read ht
  | @setback committed _ _ _ hplace =>
    cases committed with
    | true => exact .setback hplace
    | false => exact .read hs

theorem repeatUpTo (hp : Echoes d g p p') (n : Nat) (found : List α) :
    Echoes d (List.map g) (repeatUpTo p n found) (repeatUpTo p' n (found.map g)) := by
  intro s s' hs
  induction n generalizing found s s' with
  | zero =>
    rw [Scan.repeatUpTo, Scan.repeatUpTo, ← List.map_reverse]
    exact .read hs
  | succ n ih =>
    rw [Scan.repeatUpTo, Scan.repeatUpTo]
    have hecho := hp hs
    generalize p s = o, p' s' = o' at hecho
    cases hecho with
    | read ht => exact ih _ ht
    | @setback committed _ _ _ hplace =>
      cases committed with
      | true => exact .setback hplace
      | false =>
        rw [← List.map_reverse]
        exact .read hs

theorem many (hp : Echoes d g p p') : Echoes d (List.map g) (many p) (many p') := by
  intro s s' hs
  unfold Scan.many
  rw [d.ahead hs]
  exact hp.repeatUpTo _ [] hs

theorem foldlM {f : γ → α → Scan γ} {f' : δ → β → Scan δ} (hf : ∀ c a, Echoes d h (f c a) (f' (h c) (g a)))
    (as : List α) (c : γ) : Echoes d h (as.foldlM f c) ((as.map g).foldlM f' (h c)) := by
  induction as generalizing c with
  | nil => exact pure c
  | cons a as ih =>
    rw [List.map_cons, List.foldlM_cons, List.foldlM_cons]
    exact (hf c a).bind ih

/-! ### Words -/

theorem charWhere (accepts : Char → Bool) : Echoes d id (charWhere accepts) (charWhere accepts) := by
  intro s s' hs
  unfold Scan.charWhere
  rw [d.rest hs]
  split
  · exact .setback hs
  · split
    · exact .read (d.next hs)
    · exact .setback hs

theorem char (c : Char) : Echoes d id (char c) (char c) := by
  rw [char_eq]
  exact (charWhere _).bind fun _ => .pure (g := id) ()

theorem chars (cs : List Char) : Echoes d id (chars cs) (chars cs) := by
  intro s s' hs
  unfold Scan.chars
  rw [d.rest hs]
  split
  · exact .read (d.skip hs _)
  · exact .setback hs

theorem run (accepts : Char → Bool) : Echoes d id (run accepts) (run accepts) := by
  intro s s' hs
  unfold Scan.run
  rw [d.rest hs]
  exact .read (d.skip hs _)

theorem filler (passes : Char → Bool) : Echoes d id (filler passes) (filler passes) := by
  intro s s' hs
  unfold Query.filler
  rw [d.rest hs]
  exact .read (d.skip hs _)

end Echoes

end Scan

open Scan

variable {d : Displacement}

theorem gap_echoes (inside : Bool) : Echoes d id (gap inside) (gap inside) := .filler _

theorem identifier_echoes : Echoes d id identifier identifier :=
  (Echoes.charWhere _).bind fun _ => (Echoes.run _).bind fun _ => .pure (g := id) _

theorem variableName_echoes : Echoes d id variableName variableName := by
  intro s s' hs
  unfold variableName
  rw [d.rest hs]
  split
  · exact .setback hs
  · split
    · dsimp only
      split
      · exact .setback hs
      · exact .read (d.skip hs _)
    · exact .setback hs

theorem integerLiteral_echoes : Echoes d id integerLiteral integerLiteral := by
  intro s s' hs
  unfold integerLiteral
  rw [d.rest hs]
  dsimp only
  split
  · exact .setback hs
  · split
    · exact .read (d.skip hs _)
    · exact .setback hs

theorem quotedLiteral_echoes (quote : Char) : Echoes d id (quotedLiteral quote) (quotedLiteral quote) := by
  refine (Echoes.char quote).bind fun _ => Echoes.bind (g := id) (fun s s' hs => ?_) fun _ =>
    ((Echoes.char quote).expecting _).commit.bind fun _ => .pure (g := id) _
  rw [d.rest hs]
  split
  · exact .read (d.skip hs _)
  · exact .read hs
  · exact .setback (d.skip hs _)

theorem textLiteral_echoes : Echoes d id textLiteral textLiteral :=
  (quotedLiteral_echoes _).either (quotedLiteral_echoes _)

/-! ## Expressions -/

theorem measured_echoes (e : Expr) : Echoes d (Expr.moved d.move) (measured e) (measured (e.moved d.move)) := by
  unfold measured
  rw [Expr.height_moved]
  split
  · exact .stop _
  · exact .pure e

section Layers

variable {inside : Bool} {inner : Option (Scan Expr)} (hinner : ∀ p ∈ inner, Echoes d (Expr.moved d.move) p p)

include hinner

theorem enter_echoes {α β : Type} {g : α → β} {f : Scan Expr → Scan α} {f' : Scan Expr → Scan β}
    (hf : ∀ p, Echoes d (Expr.moved d.move) p p → Echoes d g (f p) (f' p)) :
    Echoes d g (enter inner >>= f) (enter inner >>= f') := by
  unfold enter
  split
  · exact hf _ (hinner _ rfl)
  · exact fun _ _ hs => .setback hs

omit hinner in
theorem closing_echoes {α β : Type} {g : α → β} (what : Expectation) (a : α) :
    Echoes d g (expecting what (gap true >>= fun _ => char ')') >>= fun _ => pure a)
      (expecting what (gap true >>= fun _ => char ')') >>= fun _ => pure (g a)) :=
  (((gap_echoes true).bind fun _ => .char ')').expecting what).bind fun _ => .pure a

theorem callArguments_echoes : Echoes d (List.map (Expr.moved d.move)) (callArguments inside inner)
    (callArguments inside inner) := by
  refine (gap_echoes inside).bind fun _ => (Echoes.char '(').bind fun _ => enter_echoes hinner fun argument hargument =>
    .commit (hargument.option.bind fun first => ?_)
  cases first with
  | none => exact (Echoes.pure (g := List.map (Expr.moved d.move)) []).bind (closing_echoes _)
  | some first =>
    refine (Echoes.many ((gap_echoes true).bind fun _ => (Echoes.char ',').bind fun _ => hargument)).bind
      fun others => ?_
    exact (Echoes.pure (g := List.map (Expr.moved d.move)) (first :: others)).bind (closing_echoes _)

theorem group_echoes : Echoes d (Expr.moved d.move) (group inner) (group inner) :=
  (Echoes.char '(').bind fun _ => enter_echoes hinner fun _ hexpression =>
    .commit (hexpression.bind fun e => closing_echoes _ e)

theorem callOrName_echoes (pos : Position) : Echoes d (Expr.moved d.move) (callOrName inside inner pos)
    (callOrName inside inner (d.move pos)) := by
  refine identifier_echoes.bind fun word => (callArguments_echoes hinner).option.bind fun found => ?_
  cases found with
  | none => exact .pure (Expr.name pos word)
  | some arguments =>
    have hcall := measured_echoes (d := d) (.call pos word arguments)
    rwa [Expr.moved, Expr.allMoved_eq_map] at hcall

theorem primary_echoes : Echoes d (Expr.moved d.move) (primary inside inner) (primary inside inner) :=
  (gap_echoes inside).bind fun _ => Echoes.here.bind fun pos => .expecting _ <|
    .either (variableName_echoes.bind fun v => .pure (Expr.var pos v)) <|
    .either (integerLiteral_echoes.bind fun n => .pure (Expr.integer pos n)) <|
    .either (textLiteral_echoes.bind fun s => .pure (Expr.text pos s)) <|
    .either (callOrName_echoes hinner pos) (group_echoes hinner)

theorem methodChain_echoes : Echoes d (Expr.moved d.move) (methodChain inside inner) (methodChain inside inner) := by
  have hcall : Echoes d (Prod.map d.move (Prod.map id (List.map (Expr.moved d.move)))) (methodCall inside inner)
      (methodCall inside inner) :=
    (gap_echoes inside).bind fun _ => Echoes.here.bind fun pos => (identifier_echoes.expecting _).bind fun word =>
      (callArguments_echoes hinner).bind fun arguments => .pure (pos, word, arguments)
  refine (primary_echoes hinner).bind fun subject => (Echoes.many ((gap_echoes inside).bind fun _ =>
    (Echoes.char '.').bind fun _ => hcall.commit)).bind fun calls => .foldlM (fun e call => ?_) calls subject
  have happly := measured_echoes (d := d) (.apply call.1 e call.2.1 call.2.2)
  rwa [Expr.moved, Expr.allMoved_eq_map] at happly

omit hinner in
theorem infixChain_echoes (symbols : List Char) {operand : Scan Expr}
    (hoperand : Echoes d (Expr.moved d.move) operand operand) :
    Echoes d (Expr.moved d.move) (infixChain inside symbols operand) (infixChain inside symbols operand) := by
  have hoperator : Echoes d (Prod.map d.move id) (infixOperator inside symbols) (infixOperator inside symbols) := by
    refine (gap_echoes inside).bind fun _ => Echoes.here.bind fun pos => (Echoes.charWhere _).bind fun symbol =>
      (Echoes.char '=').option.bind fun found => ?_
    cases found with
    | none => exact .pure (pos, symbol.toString)
    | some _ => exact .miss
  have hstep : Echoes d (Prod.map d.move (Prod.map id (Expr.moved d.move)))
      (do
        let found ← infixOperator inside symbols
        let rhs ← commit operand
        pure (found.1, found.2, rhs))
      (do
        let found ← infixOperator inside symbols
        let rhs ← commit operand
        pure (found.1, found.2, rhs)) :=
    hoperator.bind fun found => hoperand.commit.bind fun rhs => .pure (found.1, found.2, rhs)
  exact hoperand.bind fun first => hstep.many.bind fun others =>
    .foldlM (fun e step => measured_echoes (.apply step.1 e step.2.1 [step.2.2])) others first

theorem expressionWith_echoes :
    Echoes d (Expr.moved d.move) (expressionWith inside inner) (expressionWith inside inner) :=
  infixChain_echoes _ (infixChain_echoes _ (methodChain_echoes hinner))

end Layers

theorem expressionIn_echoes (room : Nat) :
    ∀ inside, Echoes d (Expr.moved d.move) (expressionIn room inside) (expressionIn room inside) := by
  induction room with
  | zero => exact fun inside => expressionWith_echoes (by simp)
  | succ room ih =>
    refine fun inside => expressionWith_echoes fun p hp => ?_
    cases hp
    exact ih true

theorem expression_echoes : Echoes d (Expr.moved d.move) expression expression := expressionIn_echoes _ _

/-! ## Statements -/

theorem assignOp_echoes : Echoes d id assignOp assignOp := by
  have hops : ∀ ops : List AssignOp, Echoes d id
      (ops.foldr (fun op other => either (do chars op.spelling.toList; pure op) other) miss)
      (ops.foldr (fun op other => either (do chars op.spelling.toList; pure op) other) miss) := by
    intro ops
    induction ops with
    | nil => exact .miss
    | cons op ops ih => exact .either ((Echoes.chars _).bind fun _ => .pure (g := id) op) ih
  exact hops _

theorem assignment_echoes (pos : Position) :
    Echoes d (Statement.moved d.move) (assignment pos) (assignment (d.move pos)) :=
  variableName_echoes.bind fun target => (((gap_echoes false).bind fun _ => assignOp_echoes).expecting _).commit.bind
    fun op => expression_echoes.commit.bind fun value => .pure (Statement.assignment pos target op value)

theorem command_echoes (pos : Position) :
    Echoes d (Statement.moved d.move) (command pos) (command (d.move pos)) := by
  refine identifier_echoes.bind fun name => expression_echoes.option.bind fun found => ?_
  cases found with
  | none => exact .pure (Statement.command pos name [])
  | some first =>
    have hcomma : Echoes d id (gap false >>= fun _ => char ',') (gap false >>= fun _ => char ',') :=
      (gap_echoes false).bind fun _ => .char ','
    exact (Echoes.many (hcomma.option.bind fun _ => expression_echoes)).bind fun others =>
      .pure (Statement.command pos name (first :: others))

theorem statement_echoes : Echoes d (Statement.moved d.move) statement statement :=
  Echoes.here.bind fun pos => .expecting _ ((assignment_echoes pos).either (command_echoes pos))

theorem endOfStatement_echoes : Echoes d id endOfStatement endOfStatement := by
  refine (gap_echoes false).bind fun _ => Echoes.atEnd.bind fun ended => ?_
  cases ended with
  | true => exact .pure (g := id) ()
  | false => exact (Echoes.char '\n').either (.char ';')

/-- The statements of a text that stands in another place. -/
theorem statementsUpTo_echoes (n : Nat) :
    Echoes d (List.map (Statement.moved d.move)) (statementsUpTo n) (statementsUpTo n) := by
  induction n with
  | zero => exact .pure []
  | succ n ih =>
    refine (Echoes.filler _).bind fun _ => Echoes.atEnd.bind fun ended => ?_
    cases ended with
    | true => exact .pure []
    | false =>
      exact statement_echoes.commit.bind fun first => (endOfStatement_echoes.expecting _).commit.bind fun _ =>
        ih.bind fun others => .pure (first :: others)

/-! ## Scans go forward -/

theorem precedes_of_echoes {α β : Type} {s t : Cursor} {g : α → β} {p : Scan α} {p' : Scan β} {a : α}
    (h : Echoes (.along s) g p p') (ha : p s = .ok (a, t)) : s.Precedes t := by
  have hecho : Echo (.along s) g (p s) (p' s) := h ⟨rfl, .skip s 0⟩
  rw [ha] at hecho
  generalize p' s = o at hecho
  cases hecho with
  | read ht => exact ht.2

theorem statement_precedes {s t : Cursor} {a : Statement} (h : statement s = .ok (a, t)) : s.Precedes t :=
  precedes_of_echoes statement_echoes h

theorem endOfStatement_precedes {s t : Cursor} (h : endOfStatement s = .ok ((), t)) : s.Precedes t :=
  precedes_of_echoes endOfStatement_echoes h

end Provenance.Query

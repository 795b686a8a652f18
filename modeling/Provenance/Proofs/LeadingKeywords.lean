import Mathlib
import Provenance.Proofs.JoinedTexts
import Provenance.Proofs.PrintedQueries

/-!
# Leading keywords

The arguments of a command may have a keyword in front of them. What stands behind the keyword is read as it is
read without the keyword, only further to the right: unless it begins with a parenthesis, for then the keyword is
read as the name of a function.
-/

namespace Provenance.Query

open Scan Cursor

/-! ## Repetition -/

namespace Scan

variable {α : Type} {p : Scan α}

/-- A scan that always reads something is never repeated more often than there are characters. -/
theorem repeatUpTo_room (h : Reads 1 p) {m n : Nat} {found : List α} {s : Cursor} (hm : s.rest.length < m)
    (hn : s.rest.length < n) : repeatUpTo p m found s = repeatUpTo p n found s := by
  induction m generalizing n found s with
  | zero => omega
  | succ m ih =>
    obtain _ | n := n
    · omega
    rw [repeatUpTo, repeatUpTo]
    split
    · next a t ha =>
      have hread := h _ _ _ ha
      exact ih (by omega) (by omega)
    · rfl

theorem repeatUpTo_found (n : Nat) (found : List α) (s : Cursor) :
    repeatUpTo p n found s = (repeatUpTo p n [] s).map (Prod.map (found.reverse ++ ·) id) := by
  induction n generalizing found s with
  | zero => simp [repeatUpTo, Except.map]
  | succ n ih =>
    rw [repeatUpTo, repeatUpTo]
    split
    · next a t _ =>
      rw [ih (a :: found), ih [a]]
      cases repeatUpTo p n [] t <;> simp [Except.map, Prod.map]
    · split <;> simp [Except.map]

theorem many_cons (h : Reads 1 p) {s t : Cursor} {a : α} (ha : p s = .ok (a, t)) :
    many p s = (many p t).map (Prod.map (a :: ·) id) := by
  have hread := h _ _ _ ha
  have hroom : repeatUpTo p s.ahead [] t = repeatUpTo p (t.ahead + 1) [] t := by
    refine repeatUpTo_room h ?_ ?_ <;> rw [Cursor.ahead_eq] <;> omega
  rw [many, repeatUpTo, ha]
  dsimp only
  rw [repeatUpTo_found, hroom]
  rfl

theorem Echo.of_ok {β : Type} {d : Displacement} {g : α → β} {a : α} {t : Cursor} {o : Except Setback (β × Cursor)}
    (h : Echo d g (.ok (a, t)) o) : ∃ t', o = .ok (g a, t') ∧ d.places t t' := by
  cases h with
  | read ht => exact ⟨_, rfl, ht⟩

end Scan

/-! ## Further to the right -/

/-- The same place when the first line begins with so many more characters. -/
def Position.pushed (n : Nat) (pos : Position) : Position :=
  if pos.line = 1 then ⟨1, pos.column + n⟩ else pos

theorem Position.after_pushed {pos : Position} (hline : 1 ≤ pos.line) (n : Nat) (c : Char) :
    (pos.pushed n).after c = (pos.after c).pushed n := by
  obtain ⟨line, column⟩ := pos
  by_cases hc : c = '\n'
  · have hnext : line ≠ 0 := Nat.ne_of_gt hline
    by_cases h : line = 1 <;> simp [after, pushed, hc, h, hnext]
  · by_cases h : line = 1 <;> simp [after, pushed, hc, h, Nat.add_right_comm]

/-- Within a line the columns are counted. -/
theorem Position.afterAll_of_line {cs : List Char} (h : '\n' ∉ cs) (pos : Position) :
    pos.afterAll cs = ⟨pos.line, pos.column + cs.length⟩ := by
  induction cs generalizing pos with
  | nil => rfl
  | cons c cs ih =>
    rw [List.mem_cons, not_or] at h
    rw [afterAll, List.foldl_cons, ← afterAll, ih h.2, after, if_neg (Ne.symm h.1), List.length_cons]
    simp only [Position.mk.injEq, true_and]
    omega

/-- The same texts, the first line of the one so much further to the right. -/
def Displacement.pushed (n : Nat) : Displacement where
  places s s' := s'.rest = s.rest ∧ s'.position = s.position.pushed n ∧ 1 ≤ s.position.line
  move := Position.pushed n
  rest h := h.1
  position h := h.2.1
  next := by
    rintro s s' ⟨hrest, hposition, hline⟩
    refine ⟨by rw [Cursor.rest_next, Cursor.rest_next, hrest], ?_⟩
    cases hcases : s.rest with
    | nil =>
      rw [Cursor.next_of_rest_nil hcases, Cursor.next_of_rest_nil (hrest.trans hcases)]
      exact ⟨hposition, hline⟩
    | cons c r =>
      rw [Cursor.position_next hcases, Cursor.position_next (hrest.trans hcases), hposition,
        Position.after_pushed hline]
      refine ⟨rfl, ?_⟩
      unfold Position.after
      split
      · exact Nat.le_add_left _ _
      · exact hline

/-! ## The arguments of a command -/

theorem furtherArgument_reads : Reads 1 furtherArgument :=
  (Reads.option (gap_reads 0 ((Reads.char _).mono (Nat.zero_le _)))).after fun _ => expression_reads

theorem furtherArgument_echoes {d : Displacement} : Echoes d (Expr.moved d.move) furtherArgument furtherArgument := by
  have hcomma : Echoes d id (gap false >>= fun _ => char ',') (gap false >>= fun _ => char ',') :=
    (gap_echoes false).bind fun _ => .char ','
  exact hcomma.option.bind fun _ => expression_echoes

/-- The arguments of a command. -/
def operands : Scan (List Expr) := listed expression furtherArgument pure

theorem operands_echoes {d : Displacement} : Echoes d (List.map (Expr.moved d.move)) operands operands := by
  refine expression_echoes.option.bind fun found => ?_
  cases found with
  | none => exact .pure (g := List.map (Expr.moved d.move)) []
  | some first =>
    exact furtherArgument_echoes.many.bind fun others => .pure (g := List.map (Expr.moved d.move)) (first :: others)

theorem operands_cons_iff {s t : Cursor} {e : Expr} {es : List Expr} :
    operands s = .ok (e :: es, t) ↔ ∃ u, expression s = .ok (e, u) ∧ many furtherArgument u = .ok (es, t) := by
  unfold operands listed
  rw [bind_ok_iff]
  constructor
  · rintro ⟨found, u, hfound, h⟩
    obtain ⟨first, rfl, hfirst⟩ | ⟨rfl, -, -⟩ := Persists.option_ok hfound
    · obtain ⟨others, v, hothers, h⟩ := bind_ok_iff.1 h
      cases h
      exact ⟨u, hfirst, hothers⟩
    · cases h
  · rintro ⟨u, hfirst, hothers⟩
    exact ⟨_, u, Persists.option_of_ok hfirst, (bind_ok hothers).trans rfl⟩

theorem listed_bind {β : Type} (argument step : Scan Expr) (f : List Expr → Scan β) (s : Cursor) :
    listed argument step f s = (listed argument step pure >>= f) s := by
  unfold listed
  simp only [bind_assoc]
  refine bind_congr_ok fun found t _ => ?_
  cases found with
  | none => rfl
  | some first => simp

section Command

variable {name k : List Char} (hname : isIdentifier name = true) (hk : EndsWord k)
include hname hk

theorem command_ok_iff {pos pos' : Position} {s : Statement} {t : Cursor} :
    command pos (before (name ++ k) pos') = .ok (s, t) ↔
      ∃ es, operands (before k (pos'.afterAll name)) = .ok (es, t) ∧ s = .command pos (String.ofList name) es := by
  have hcommand : command pos (before (name ++ k) pos')
      = listed expression furtherArgument (fun es => pure (.command pos (String.ofList name) es))
          (before k (pos'.afterAll name)) := by
    rw [command, bind_ok (identifier_before hname hk pos')]
    rfl
  rw [hcommand, listed_bind, bind_ok_iff]
  constructor
  · rintro ⟨es, u, hes, h⟩
    cases h
    exact ⟨es, hes, rfl⟩
  · rintro ⟨es, hes, rfl⟩
    exact ⟨es, t, hes, rfl⟩

theorem statement_command_iff {pos : Position} {s : Statement} {t : Cursor} :
    statement (before (name ++ k) pos) = .ok (s, t) ↔
      ∃ es, operands (before k (pos.afterAll name)) = .ok (es, t) ∧ s = .command pos (String.ofList name) es := by
  rw [statement, bind_ok (here_before _ _), expecting_ok_iff,
    Persists.either_of_misses (assignment_misses hname k pos)]
  exact command_ok_iff hname hk

/-- What a text that begins with a command is read as. -/
theorem parse_command_iff {ss : List Statement} :
    parse (String.ofList (name ++ k)) = .ok ss ↔
      ∃ es t u others v, operands (before k (Position.start.afterAll name)) = .ok (es, t) ∧
        endOfStatement t = .ok ((), u) ∧ statements u = .ok (others, v) ∧
        ss = .command .start (String.ofList name) es :: others := by
  obtain ⟨c, cs, hcs, hc, -⟩ := isIdentifier_iff.1 hname
  have hink : ∀ c' ∈ (name ++ k).head?, IsInk c' ∧ c' ≠ ';' := by
    rw [hcs]
    rintro _ ⟨⟩
    refine ⟨isInk_of_isNameChar (isNameChar_of_isNameStart hc), ?_⟩
    rintro rfl
    exact absurd hc (by decide)
  have hne : ¬ (name ++ k).isEmpty = true := by
    rw [hcs]
    exact Bool.false_ne_true
  have hstatements : statements (.ofList (name ++ k)) = (do
      let first ← commit statement
      commit (expecting .endOfStatement endOfStatement)
      let others ← statementsUpTo (name ++ k).length
      pure (first :: others)) (before (name ++ k) .start) := by
    have hread := statementsUpTo_before (show IsFiller passesBetween [] from .nil) hink (name ++ k).length .start
    rw [List.nil_append, if_neg hne] at hread
    exact hread
  have hroom : ∀ {s t u : Cursor} {first : Statement}, s = before (name ++ k) .start → statement s = .ok (first, t) →
      endOfStatement t = .ok ((), u) → statementsUpTo (name ++ k).length u = statements u := by
    rintro s t u first rfl hfirst hend
    have h₁ : t.rest.length + 1 ≤ (name ++ k).length := statement_reads _ _ _ hfirst
    have h₂ := endOfStatement_reads _ _ _ hend
    refine statementsUpTo_room ?_ ?_
    · omega
    · rw [Cursor.ahead_eq]
      omega
  rw [parse_eq_ok_iff, String.toList_ofList, hstatements]
  constructor
  · rintro ⟨w, h⟩
    obtain ⟨first, t, hfirst, h⟩ := bind_ok_iff.1 h
    obtain ⟨⟨⟩, u, hend, h⟩ := bind_ok_iff.1 h
    obtain ⟨others, v, hothers, h⟩ := bind_ok_iff.1 h
    cases h
    rw [commit_ok_iff] at hfirst
    rw [commit_ok_iff, expecting_ok_iff] at hend
    obtain ⟨es, hes, rfl⟩ := (statement_command_iff hname hk).1 hfirst
    exact ⟨es, t, u, others, _, hes, hend, hroom rfl hfirst hend ▸ hothers, rfl⟩
  · rintro ⟨es, t, u, others, v, hes, hend, hothers, rfl⟩
    have hfirst := (statement_command_iff hname hk).2 ⟨es, hes, rfl⟩
    refine ⟨v, ?_⟩
    rw [bind_ok (commit_ok_iff.2 hfirst), bind_ok (commit_ok_iff.2 (expecting_ok_iff.2 hend)),
      bind_ok ((hroom rfl hfirst hend).trans hothers)]
    rfl

end Command

/-! ## Keywords -/

theorem endsWord_blank (k : List Char) : EndsWord (' ' :: k) := by
  rintro _ ⟨⟩
  decide

theorem afterGap_blank (inside : Bool) (k : List Char) : afterGap inside (' ' :: k) = afterGap inside k := by
  have hblank : passesInside inside ' ' = true := by cases inside <;> decide
  exact afterGap_of_isFiller (show IsFiller (passesInside inside) [' '] from .char hblank (by decide) .nil) k

theorem feed_notMem_identifier {word : List Char} (hword : isIdentifier word = true) : '\n' ∉ word := by
  obtain ⟨c, cs, rfl, hc, hcs⟩ := isIdentifier_iff.1 hword
  rw [List.mem_cons, not_or]
  refine ⟨?_, fun hmem => absurd (List.all_eq_true.1 hcs _ hmem) (by decide)⟩
  rintro rfl
  exact absurd hc (by decide)

/-- What no expression begins with. -/
theorem bars_of_mem_stops {c : Char} (hc : c ∈ ['.', '&', '+', '-', ',']) : Bars c := by
  simp only [List.mem_cons, List.not_mem_nil, or_false] at hc
  obtain rfl | rfl | rfl | rfl | rfl := hc
  all_goals exact ⟨rfl, by decide, by decide, by decide, by decide⟩

/-- Where an expression can be read, something stands that expressions begin with. -/
theorem head_of_expression {k : List Char} {pos : Position} {r : Expr × Cursor}
    (h : expression (before k pos) = .ok r) {c : Char} (hc : c ∈ (afterGap false k).head?) : ¬ Bars c := by
  intro hbars
  rw [expression_eq] at h
  have hmisses : Misses (scanAt 0 0) (before k pos) := by
    refine scanAt_misses (fun d hd => ?_) 0 pos
    cases hc.symm.trans hd
    exact hbars
  obtain ⟨e, he, -⟩ := hmisses
  cases h.symm.trans he

/-- A word is a bare name, unless something follows that goes on with it. -/
theorem expression_keyword {keyword : String} (hkeyword : isIdentifier keyword.toList = true) {k : List Char}
    (hk : Behind 0 (stopsAt 0) k) (pos : Position) :
    expression (before (' ' :: (keyword.toList ++ k)) pos) =
      .ok (.name (pos.after ' ') keyword, before k (pos.afterAll (' ' :: keyword.toList))) := by
  have hblank : passesInside (decide (0 < 0)) ' ' = true := by decide
  have hlaid : Laid [⟨0, .word keyword.toList⟩] [(⟨[' '], '\x27'⟩, ⟨0, .word keyword.toList⟩)] :=
    .cons ⟨.char hblank (by decide) .nil, .inl rfl⟩ .nil
  have hheight : (Expr.name default keyword).height ≤ maxHeight := Nat.le_of_ble_eq_true rfl
  have hrecovers : Recovers (scanAt 0 0) 0 (stopsAt 0) [⟨0, .word keyword.toList⟩] (.name default keyword) :=
    (AsChain.of_primary (recovers_name hkeyword default) (Nat.zero_le _) hheight).recovers (Nat.zero_le _) hheight
  obtain ⟨e, ⟨halike, hpositions⟩, hread⟩ := hrecovers hlaid hk pos
  obtain ⟨pos', rfl⟩ : ∃ pos', e = .name pos' keyword := by
    cases e <;> cases halike
    exact ⟨_, rfl⟩
  cases hpositions
  have hprint : printAll [((⟨[' '], '\x27'⟩ : Space), (⟨0, .word keyword.toList⟩ : Token))]
      = ' ' :: keyword.toList := by
    simp [printAll, Printed.print, Printed.spelling, Form.spelling]
  rw [hprint] at hread
  rw [expression_eq]
  exact hread

/-- Behind a gap and without a comma, the next argument is an expression. -/
theorem furtherArgument_of_expression {k : List Char} {pos : Position} {e : Expr} {t : Cursor}
    (h : expression (before k pos) = .ok (e, t)) : furtherArgument (before k pos) = .ok (e, t) := by
  have hmisses : Misses (do gap false; char ',') (before k pos) := by
    refine gap_misses (fun pos => char_misses (fun c hc => ?_) pos) pos
    rintro rfl
    exact head_of_expression h hc (bars_of_mem_stops (by decide))
  rw [furtherArgument, bind_ok (Persists.option_of_misses hmisses), h]

/-! ## Names in front of parentheses -/

theorem measured_ok {e e' : Expr} {s t : Cursor} (h : measured e s = .ok (e', t)) : e' = e ∧ t = s := by
  unfold measured at h
  split at h <;> cases h
  exact ⟨rfl, rfl⟩

/-- A chain is its first operand, or what was grown from it. -/
theorem chain_ok {α : Type} {head : Scan Expr} {step : Scan α} {grow : Expr → α → Expr} {s t : Cursor} {e : Expr}
    (h : chain head step grow s = .ok (e, t)) : (∃ u, head s = .ok (e, u)) ∨ ∃ e' a, e = grow e' a := by
  obtain ⟨first, u, hfirst, h⟩ := bind_ok_iff.1 h
  obtain ⟨others, v, -, h⟩ := bind_ok_iff.1 h
  obtain rfl | ⟨others, a, rfl⟩ := others.eq_nil_or_concat
  · cases h
    exact .inl ⟨u, hfirst⟩
  · rw [List.concat_eq_append, List.foldlM_append] at h
    obtain ⟨e', w, -, h⟩ := bind_ok_iff.1 h
    obtain ⟨e'', x, h, hpure⟩ := bind_ok_iff.1 h
    cases hpure
    exact .inr ⟨e', a, (measured_ok h).1⟩

/-- A bare name is read as a primary. -/
theorem primary_of_expression {s t : Cursor} {pos : Position} {word : String}
    (h : expression s = .ok (.name pos word, t)) : ∃ u, primary false (innerAt 0) s = .ok (.name pos word, u) := by
  rw [expression_eq] at h
  have hsum : chain (scanAt 0 1) (infixStep false ['+', '-'] (scanAt 0 1)) joined s = .ok (.name pos word, t) := h
  obtain ⟨u, h⟩ | ⟨_, _, hgrown⟩ := chain_ok hsum
  · have hmeet : chain (scanAt 0 2) (infixStep false ['&'] (scanAt 0 2)) joined s = .ok (.name pos word, u) := h
    obtain ⟨v, h⟩ | ⟨_, _, hgrown⟩ := chain_ok hmeet
    · have hmethods : chain (scanAt 0 3) (methodStep false (innerAt 0)) called s = .ok (.name pos word, v) := h
      obtain h | ⟨_, _, hgrown⟩ := chain_ok hmethods
      · exact h
      · cases hgrown
    · cases hgrown
  · cases hgrown

/-- Once the parenthesis is open, the arguments of a call are read or the parse ends. -/
theorem callArguments_firm {k : List Char} (hk : (afterGap false k).head? = some '(') (pos : Position) :
    ¬ Misses (callArguments false (innerAt 0)) (before k pos) := by
  obtain ⟨u, hgap, hrest⟩ := gap_ok false (before k pos)
  rw [rest_before] at hrest
  obtain ⟨r, hr⟩ := List.head?_eq_some_iff.1 hk
  have hopen : char '(' u = .ok ((), u.next) := by
    rw [char, hrest, hr]
    rfl
  have henter : enter (innerAt 0) u.next = .ok (scanAt 1 0, u.next) := by
    rw [innerAt_of_lt (by decide)]
    rfl
  rw [callArguments, Misses, bind_ok hgap, bind_ok hopen, bind_ok henter]
  exact Firm.commit _ _

/-- A word in front of a parenthesis is no bare name. -/
theorem expression_ne_name {keyword : String} (hkeyword : isIdentifier keyword.toList = true) {k : List Char}
    (hk : (afterGap false k).head? = some '(') (hends : EndsWord k) (pos pos' : Position) (word : String) (t : Cursor) :
    expression (before (' ' :: (keyword.toList ++ k)) pos) ≠ .ok (.name pos' word, t) := by
  intro h
  obtain ⟨u, h⟩ := primary_of_expression h
  obtain ⟨c, cs, hcs, hc, -⟩ := isIdentifier_iff.1 hkeyword
  have hink : IsInk c := isInk_of_isNameChar (isNameChar_of_isNameStart hc)
  have hgap : gap false (before (' ' :: (keyword.toList ++ k)) pos)
      = .ok ((), before (keyword.toList ++ k) (pos.after ' ')) := by
    rw [hcs]
    exact gap_before (show IsFiller (passesInside false) [' '] from .char (by decide) (by decide) .nil) hink _ pos
  rw [primary, bind_ok hgap, bind_ok (here_before _ _), expecting_ok_iff] at h
  have halternatives : alternatives false (innerAt 0) (pos.after ' ')
      (before (keyword.toList ++ k) (pos.after ' ')) = _ := alternatives_identifier hkeyword k _ _
  obtain h | ⟨-, h⟩ := Persists.either_ok (halternatives.symm.trans h)
  · rw [callOrName, bind_ok (identifier_before hkeyword hends _)] at h
    obtain ⟨found, v, hfound, h⟩ := bind_ok_iff.1 h
    obtain ⟨arguments, rfl, -⟩ | ⟨rfl, -, hmisses⟩ := Persists.option_ok hfound
    · cases (measured_ok h).1
    · exact callArguments_firm hk _ hmisses
  · obtain ⟨⟨⟩, v, hopen, -⟩ := bind_ok_iff.1 h
    have hrest := char_rest hopen
    rw [rest_before, hcs, List.cons_append, List.cons.injEq] at hrest
    obtain ⟨rfl, -⟩ := hrest
    exact absurd hc (by decide)

/-! ## Commands with a keyword -/

section Keyword

variable {name keyword : String} (hname : isIdentifier name.toList = true)
  (hkeyword : isIdentifier keyword.toList = true)
include hname hkeyword

/-- Where the arguments of a command begin without the keyword, and where they begin behind it. -/
theorem places_arguments (k : List Char) :
    (Displacement.pushed (keyword.length + 1)).places (before k (Position.start.afterAll name.toList))
      (before k ((Position.start.afterAll name.toList).afterAll (' ' :: keyword.toList))) := by
  have hword : '\n' ∉ ' ' :: keyword.toList := by
    rw [List.mem_cons, not_or]
    exact ⟨by decide, feed_notMem_identifier hkeyword⟩
  rw [Position.afterAll_of_line hword, Position.afterAll_of_line (feed_notMem_identifier hname)]
  exact ⟨rfl, rfl, Nat.le_refl _⟩

/-- Behind a keyword the arguments of a command are read as without it, unless they begin with a parenthesis. -/
theorem parse_keyword {operand : String} {e : Expr} {es : List Expr}
    (h : parse (name ++ " " ++ operand) = .ok [.command .start name (e :: es)]) :
    parse (name ++ " " ++ keyword ++ " " ++ operand) = .ok [.command .start name
        (.name ⟨1, name.length + 2⟩ keyword :: (e :: es).map (Expr.moved (.pushed (keyword.length + 1))))]
      ↔ (afterGap false operand.toList).head? ≠ some '(' := by
  have hplain : name ++ " " ++ operand = String.ofList (name.toList ++ ' ' :: operand.toList) := by
    simp [← String.toList_inj]
  have hlonger : name ++ " " ++ keyword ++ " " ++ operand
      = String.ofList (name.toList ++ ' ' :: (keyword.toList ++ ' ' :: operand.toList)) := by
    simp [← String.toList_inj]
  rw [hplain, parse_command_iff hname (endsWord_blank _)] at h
  obtain ⟨_, t, u, _, v, hoperands, hend, hothers, heq⟩ := h
  rw [String.ofList_toList] at heq
  cases heq
  obtain ⟨w, hfirst, -⟩ := operands_cons_iff.1 hoperands
  rw [hlonger, parse_command_iff hname (endsWord_blank _), String.ofList_toList]
  constructor
  · rintro ⟨_, t', u', _, v', hlonger, -, -, heq⟩ hopen
    cases heq
    obtain ⟨w', hword, -⟩ := operands_cons_iff.1 hlonger
    rw [← afterGap_blank] at hopen
    exact expression_ne_name hkeyword hopen (endsWord_blank _) _ _ _ _ hword
  · intro hopen
    -- all that stood behind the name of the command stands behind the keyword
    have hplaces := places_arguments hname hkeyword (' ' :: operand.toList)
    obtain ⟨t', hoperands', ht⟩ := (hoperands ▸ operands_echoes hplaces).of_ok
    obtain ⟨u', hend', hu⟩ := (hend ▸ endOfStatement_echoes ht).of_ok
    have hothers' := statementsUpTo_echoes (u.ahead + 1) hu
    rw [show statementsUpTo (u.ahead + 1) u = _ from hothers] at hothers'
    obtain ⟨v', hothers', -⟩ := hothers'.of_ok
    rw [← Displacement.ahead _ hu] at hothers'
    -- the keyword is the first argument, and the others follow without a comma
    have hbehind : Behind 0 (stopsAt 0) (' ' :: operand.toList) := by
      refine ⟨endsWord_blank _, fun c hc hmem => ?_⟩
      obtain rfl | hmem := List.mem_cons.1 hmem
      · rw [decide_eq_false (Nat.lt_irrefl 0), afterGap_blank] at hc
        exact hopen hc
      · refine head_of_expression hfirst hc (bars_of_mem_stops ?_)
        exact List.mem_append_left [','] hmem
    have hword := expression_keyword hkeyword hbehind (Position.start.afterAll name.toList)
    rw [List.map_cons] at hoperands'
    obtain ⟨w', hfirst', hfurther⟩ := operands_cons_iff.1 hoperands'
    have hmany := many_cons furtherArgument_reads (furtherArgument_of_expression hfirst')
    rw [hfurther] at hmany
    have hposition : (Position.start.afterAll name.toList).after ' ' = ⟨1, name.length + 2⟩ := by
      rw [Position.afterAll_of_line (feed_notMem_identifier hname), String.length_toList, Position.after,
        if_neg (by decide), Position.start, Nat.add_comm 1]
    rw [hposition] at hword
    exact ⟨_, t', u', [], v', operands_cons_iff.2 ⟨_, hword, hmany⟩, hend', hothers', rfl⟩

end Keyword

/-- What stands on the first line is moved, a call goes on below it, and the commas are optional. -/
theorem parse_keyword_call :
    parse ("export" ++ " " ++ "edges(1,\n 2) 'out.dot'") = .ok [.command .start "export"
        [.call ⟨1, 8⟩ "edges" [.integer ⟨1, 14⟩ 1, .integer ⟨2, 2⟩ 2], .text ⟨2, 5⟩ "out.dot"]] ∧
      parse ("export" ++ " " ++ "force" ++ " " ++ "edges(1,\n 2) 'out.dot'") = .ok [.command .start "export"
        [.name ⟨1, 8⟩ "force", .call ⟨1, 14⟩ "edges" [.integer ⟨1, 20⟩ 1, .integer ⟨2, 2⟩ 2],
          .text ⟨2, 5⟩ "out.dot"]] := by
  have hplain : parse ("export" ++ " " ++ "edges(1,\n 2) 'out.dot'") = .ok [.command .start "export"
      [.call ⟨1, 8⟩ "edges" [.integer ⟨1, 14⟩ 1, .integer ⟨2, 2⟩ 2], .text ⟨2, 5⟩ "out.dot"]] := by cbv
  exact ⟨hplain, (parse_keyword (by decide) (show isIdentifier "force".toList = true by decide) hplain).2 (by decide)⟩

/-- In front of a parenthesis the keyword becomes a function that is called. -/
theorem keyword_called :
    parse ("dump" ++ " " ++ "($a)") = .ok [.command .start "dump" [.var ⟨1, 7⟩ ⟨"$a"⟩]] ∧
      parse ("dump" ++ " " ++ "force" ++ " " ++ "($a)") = .ok [.command .start "dump"
        [.call ⟨1, 6⟩ "force" [.var ⟨1, 13⟩ ⟨"$a"⟩]]] := by
  constructor <;> cbv

end Provenance.Query

import Provenance.Proofs.PrintedChains

/-!
# Reading printed expressions

An expression is read back from its printed tokens. That is shown by induction on the expression: its tokens
are a chain on each level on which they are printed, inside any number of parentheses.
-/

namespace Provenance.Query

open Scan Cursor

variable {k : List Char} {pos : Position} {d : Nat}

/-! ## First characters -/

theorem ofSigil?_of_isNameChar {c : Char} (h : isNameChar c = true) : Kind.ofSigil? c = none := by
  unfold Kind.ofSigil?
  split
  · exact absurd h (by decide)
  · exact absurd h (by decide)
  · rfl

theorem isNameChar_of_isNameStart {c : Char} (h : isNameStart c = true) : isNameChar c = true := by
  rw [isNameStart, Bool.or_eq_true] at h
  rw [isNameChar, Bool.or_eq_true, Bool.or_eq_true]
  exact h.imp_left .inl

theorem not_isDigit_of_isNameStart {c : Char} (h : isNameStart c = true) : Text.isDigit c = false := by
  rw [← Bool.not_eq_true]
  intro hdigit
  simp only [isNameStart, isLetter, Text.isDigit, Char.le_def, UInt32.le_iff_toNat_le, Bool.or_eq_true,
    Bool.and_eq_true, decide_eq_true_eq, beq_iff_eq] at h hdigit
  obtain (h | h) | rfl := h
  · exact absurd (Nat.le_trans h.1 hdigit.2) (by decide)
  · exact absurd (Nat.le_trans h.1 hdigit.2) (by decide)
  · exact absurd hdigit.2 (by decide)

theorem head_identifier {word : List Char} (h : isIdentifier word = true) : ∃ c ∈ word.head?, IsInk c := by
  obtain ⟨c, cs, rfl, hc, -⟩ := isIdentifier_iff.1 h
  exact ⟨c, rfl, isInk_of_isNameChar (isNameChar_of_isNameStart hc)⟩

theorem head_variable {word : List Char} (h : isVariable word = true) : ∃ c ∈ word.head?, IsInk c := by
  obtain ⟨c, cs, rfl, hc, -, -⟩ := isVariable_iff.1 h
  refine ⟨c, rfl, ?_⟩
  unfold Kind.ofSigil? at hc
  split at hc
  · decide
  · decide
  · cases hc

theorem head_decimal {n : Int} (hn : 0 ≤ n) :
    ∃ c cs, (Text.decimal n).toList = c :: cs ∧ Text.isDigit c = true := by
  obtain ⟨m, rfl⟩ := Int.eq_ofNat_of_zero_le hn
  have hdigits : (Text.decimal m).toList = Nat.toDigits 10 m := by
    rw [show Text.decimal m = Text.natural m from rfl, Text.natural, String.toList_ofList]
  cases hcs : Nat.toDigits 10 m with
  | nil => exact absurd hcs Nat.toDigits_ne_nil
  | cons c cs => exact ⟨c, cs, hdigits.trans hcs, Text.isDigit_of_mem_toDigits (hcs ▸ List.mem_cons_self)⟩

/-- No expression begins with the character. -/
structure Bars (c : Char) : Prop where
  sigil : Kind.ofSigil? c = none
  digit : Text.isDigit c = false
  quote : c ≠ '\x27' ∧ c ≠ '\x22'
  nameStart : isNameStart c = false
  parenthesis : c ≠ '('

/-! ## Tokens and gaps -/

theorem after_token (pos : Position) (s : Space) (form : Form) (ws : List Printed) :
    pos.afterAll (printAll ((s, ⟨d, form⟩) :: ws))
      = ((pos.afterAll s.gap).afterAll (form.spelling s.quote)).afterAll (printAll ws) := by
  rw [printAll_cons, Printed.print, Position.afterAll_append, Position.afterAll_append]
  rfl

theorem after_sign (pos : Position) (s : Space) (c : Char) (ws : List Printed) :
    pos.afterAll (printAll ((s, ⟨d, .sign [c]⟩) :: ws)) = ((pos.afterAll s.gap).after c).afterAll (printAll ws) :=
  after_token pos s (.sign [c]) ws

theorem nodePositions_sign (pos : Position) (s : Space) (c : Char) (ws : List Printed) :
    nodePositions pos ((s, ⟨d, .sign [c]⟩) :: ws) = nodePositions ((pos.afterAll s.gap).after c) ws := by
  rw [nodePositions, Printed.print, Position.afterAll_append]
  rfl

theorem nodePositions_node (pos : Position) (s : Space) {form : Form} (hform : form.isNode = true)
    (ws : List Printed) : nodePositions pos ((s, ⟨d, form⟩) :: ws)
      = pos.afterAll s.gap :: nodePositions ((pos.afterAll s.gap).afterAll (form.spelling s.quote)) ws := by
  rw [nodePositions, Printed.print, Position.afterAll_append, if_pos hform]
  rfl

/-- The gap in front of a token is skipped. -/
theorem gap_token {s : Space} {form : Form} (hs : s.Suits ⟨d, form⟩)
    (hform : ∃ c ∈ (form.spelling s.quote).head?, IsInk c) (ws : List Printed) (k : List Char) (pos : Position) :
    gap (decide (0 < d)) (before (printAll ((s, ⟨d, form⟩) :: ws) ++ k) pos)
      = .ok ((), before (form.spelling s.quote ++ (printAll ws ++ k)) (pos.afterAll s.gap)) := by
  obtain ⟨c, hc, hink⟩ := hform
  obtain ⟨cs, hcs⟩ := List.head?_eq_some_iff.1 hc
  rw [print_token, hcs, List.cons_append]
  exact gap_before hs.gap hink _ pos

theorem here_before (cs : List Char) (pos : Position) : here (before cs pos) = .ok (pos, before cs pos) := rfl

/-! ## Primaries -/

/-- What may stand behind the gap in front of a primary. -/
def alternatives (inside : Bool) (inner : Option (Scan Expr)) (pos : Position) : Scan Expr :=
  either (do return .var pos (← variableName)) <|
  either (do return .integer pos (← integerLiteral)) <|
  either (do return .text pos (← textLiteral)) <|
  either (callOrName inside inner pos) <|
  group inner

section Alternatives

variable {inside : Bool} {inner : Option (Scan Expr)}

theorem alternatives_of_sigil (h : ∀ c ∈ k.head?, Kind.ofSigil? c = none) (pos pos' : Position) :
    alternatives inside inner pos' (before k pos) =
      (either (do return .integer pos' (← integerLiteral)) <| either (do return .text pos' (← textLiteral)) <|
        either (callOrName inside inner pos') <| group inner) (before k pos) :=
  Persists.either_of_misses (bind_misses_iff.2 (.inl (variableName_misses (fun c hc => by rw [h c hc]; rfl) pos)))

theorem alternatives_of_digit (hsigil : ∀ c ∈ k.head?, Kind.ofSigil? c = none)
    (hdigit : ∀ c ∈ k.head?, Text.isDigit c = false) (pos pos' : Position) :
    alternatives inside inner pos' (before k pos) =
      (either (do return .text pos' (← textLiteral)) <| either (callOrName inside inner pos') <| group inner)
        (before k pos) := by
  rw [alternatives_of_sigil hsigil,
    Persists.either_of_misses (bind_misses_iff.2 (.inl (integerLiteral_misses hdigit pos)))]

theorem alternatives_of_quote (hsigil : ∀ c ∈ k.head?, Kind.ofSigil? c = none)
    (hdigit : ∀ c ∈ k.head?, Text.isDigit c = false) (hquote : ∀ c ∈ k.head?, c ≠ '\x27' ∧ c ≠ '\x22')
    (pos pos' : Position) : alternatives inside inner pos' (before k pos) =
      either (callOrName inside inner pos') (group inner) (before k pos) := by
  rw [alternatives_of_digit hsigil hdigit,
    Persists.either_of_misses (bind_misses_iff.2 (.inl (textLiteral_misses hquote pos)))]

theorem alternatives_misses (h : ∀ c ∈ k.head?, Bars c) (pos pos' : Position) :
    Misses (alternatives inside inner pos') (before k pos) := by
  have hname : Misses (callOrName inside inner pos') (before k pos) :=
    bind_misses_iff.2 (.inl (identifier_misses (fun c hc => (h c hc).nameStart) pos))
  rw [Misses, alternatives_of_quote (fun c hc => (h c hc).sigil) (fun c hc => (h c hc).digit)
    (fun c hc => (h c hc).quote), Persists.either_of_misses hname]
  exact bind_misses_iff.2 (.inl (char_misses (fun c hc => (h c hc).parenthesis) pos))

theorem primary_misses (h : ∀ c ∈ (afterGap inside k).head?, Bars c) (pos : Position) :
    Misses (primary inside inner) (before k pos) := by
  refine gap_misses (fun pos => bind_misses_iff.2 (.inr ⟨pos, _, rfl, ?_⟩)) pos
  exact Persists.expecting_misses.2 (alternatives_misses h pos pos)

end Alternatives

/-- No expression is read where none can begin. -/
theorem scanAt_misses (h : ∀ c ∈ (afterGap (decide (0 < d)) k).head?, Bars c) (level : Nat) (pos : Position) :
    Misses (scanAt d level) (before k pos) := by
  have hprimary : Misses (scanAt d 3) (before k pos) := primary_misses h pos
  have hmethod : Misses (scanAt d 2) (before k pos) := bind_misses_iff.2 (.inl hprimary)
  have hinfix : Misses (scanAt d 1) (before k pos) := bind_misses_iff.2 (.inl hmethod)
  match level with
  | 0 => exact bind_misses_iff.2 (.inl hinfix)
  | 1 => exact hinfix
  | 2 => exact hmethod
  | _ + 3 => exact hprimary

/-- An expression does not begin with `=`, so an operator in front of it is no assignment operator. -/
theorem head_ne_equals {level : Nat} {r : Expr × Cursor} (h : scanAt d level (before k pos) = .ok r) :
    ∀ c ∈ k.head?, c ≠ '=' := by
  rintro c hc rfl
  obtain ⟨k, rfl⟩ := List.head?_eq_some_iff.1 hc
  have hbars : ∀ c ∈ (afterGap (decide (0 < d)) ('=' :: k)).head?, Bars c := by
    rw [afterGap_ink (by decide)]
    rintro _ ⟨⟩
    exact ⟨rfl, by decide, by decide, by decide, by decide⟩
  obtain ⟨e, he, -⟩ := scanAt_misses hbars level pos
  rw [h] at he
  cases he

/-- A primary is read behind its gap. -/
theorem primary_token {s : Space} {form : Form} (hs : s.Suits ⟨d, form⟩)
    (hform : ∃ c ∈ (form.spelling s.quote).head?, IsInk c) {ws : List Printed} {pos : Position} {e : Expr}
    (h : alternatives (decide (0 < d)) (innerAt d) (pos.afterAll s.gap)
        (before (form.spelling s.quote ++ (printAll ws ++ k)) (pos.afterAll s.gap))
      = .ok (e, before k (pos.afterAll (printAll ((s, ⟨d, form⟩) :: ws))))) :
    scanAt d 3 (before (printAll ((s, ⟨d, form⟩) :: ws) ++ k) pos)
      = .ok (e, before k (pos.afterAll (printAll ((s, ⟨d, form⟩) :: ws)))) := by
  show primary _ _ _ = _
  rw [primary, bind_ok (gap_token hs hform ws k pos)]
  exact expecting_ok_iff.2 h

/-! ## Parentheses -/

section Parentheses

variable (pos : Position) (s s' : Space) (vs : List Printed)

theorem after_parenthesized : pos.afterAll (printAll ((s, ⟨d, .sign ['(']⟩) :: (vs ++ [(s', ⟨d + 1, .sign [')']⟩)])))
    = (((pos.afterAll s.gap).after '(').afterAll (printAll vs)).afterAll (printAll [(s', ⟨d + 1, .sign [')']⟩)]) := by
  rw [after_sign, printAll_append, Position.afterAll_append]

theorem nodePositions_parenthesized :
    nodePositions pos ((s, ⟨d, .sign ['(']⟩) :: (vs ++ [(s', ⟨d + 1, .sign [')']⟩)]))
      = nodePositions ((pos.afterAll s.gap).after '(') vs := by
  rw [nodePositions_sign, nodePositions_append, nodePositions_sign, nodePositions, List.append_nil]

end Parentheses

theorem Laid.exists_parenthesized {ts : List Token} {ws : List Printed} (h : Laid (parenthesized d ts) ws) :
    ∃ s vs s', ws = (s, ⟨d, .sign ['(']⟩) :: (vs ++ [(s', ⟨d + 1, .sign [')']⟩)]) ∧
      s.Suits ⟨d, .sign ['(']⟩ ∧ Laid ts vs ∧ s'.Suits ⟨d + 1, .sign [')']⟩ := by
  obtain _ | ⟨hs, h⟩ := h
  obtain ⟨vs, vs', rfl, hvs, hvs'⟩ := h.exists_append
  obtain _ | ⟨hs', hvs'⟩ := hvs'
  cases hvs'
  exact ⟨_, vs, _, rfl, hs, hvs, hs'⟩

/-! ## Lists of expressions -/

theorem behind_further {stops : List Char} (hstops : ',' ∉ stops) {level : Nat} {es : List Expr} {ws : List Printed}
    (hws : Laid (Expr.furtherTokens d level es) ws) (hk : Behind d stops k) : Behind d stops (printAll ws ++ k) := by
  cases es with
  | nil =>
    cases hws
    exact hk
  | cons e es =>
    obtain _ | ⟨hs, hws⟩ := hws
    exact behind_mark hs rfl ⟨by decide, by decide⟩ _ k hstops

/-- The step reads a comma and then an expression. -/
def ReadsComma (d : Nat) (step : Scan Expr) : Prop :=
  ∀ ⦃s : Space⦄, s.Suits ⟨d, .sign [',']⟩ → ∀ ws k pos,
    step (before (printAll ((s, ⟨d, .sign [',']⟩) :: ws) ++ k) pos)
      = scanAt d 0 (before (printAll ws ++ k) ((pos.afterAll s.gap).after ','))

/-- Expressions behind commas are read one after the other. -/
theorem steps_further {step : Scan Expr} (hstep : ReadsComma d step) {es : List Expr}
    (hes : ∀ e ∈ es, Recovers (scanAt d 0) d (stopsAt 0) (e.tokens d 0) e) {ws : List Printed}
    (hws : Laid (Expr.furtherTokens d 0 es) ws) (hk : Behind d (stopsAt 0) k) (pos : Position) :
    ∃ es', ArePlaced es pos ws es' ∧ Steps step k pos (printAll ws) es' := by
  induction es generalizing ws pos with
  | nil =>
    cases hws
    exact ⟨[], ⟨.nil, rfl⟩, .nil pos⟩
  | cons e es ih =>
    obtain _ | @⟨s, _, _, _, hs, hws⟩ := hws
    obtain ⟨vs, vs', rfl, hvs, hvs'⟩ := hws.exists_append
    rw [List.forall_mem_cons] at hes
    obtain ⟨e', he', hread⟩ := hes.1 hvs (behind_further (by decide) hvs' hk) ((pos.afterAll s.gap).after ',')
    obtain ⟨es', hes', hsteps⟩ := ih hes.2 hvs' (((pos.afterAll s.gap).after ',').afterAll (printAll vs))
    refine ⟨e' :: es', ⟨.cons he'.alike hes'.alike, ?_⟩, ?_⟩
    · rw [Expr.positionsOfAll, he'.positions, hes'.positions, nodePositions_sign, nodePositions_append]
    · rw [← List.cons_append, printAll_append]
      refine .cons ?_ ?_ ?_
      · rw [hstep hs, hread, after_sign]
      · simp [printAll_cons, Printed.print, Printed.spelling, Form.spelling]
      · rwa [after_sign]

/-- Reads a list of expressions, which may be empty, and goes on. -/
def listed {β : Type} (argument step : Scan Expr) (f : List Expr → Scan β) : Scan β := do
  match ← option argument with
  | none => f []
  | some first =>
    let others ← many step
    f (first :: others)

/-- Expressions with commas between them are read where no further one follows. -/
theorem listed_tokens {step : Scan Expr} (hstep : ReadsComma d step) {es : List Expr}
    (hes : ∀ e ∈ es, Recovers (scanAt d 0) d (stopsAt 0) (e.tokens d 0) e) {ws : List Printed}
    (hws : Laid (Expr.furtherTokens d 0 es).tail ws) (hk : Behind d (stopsAt 0) k)
    (hbars : ∀ c ∈ (afterGap (decide (0 < d)) k).head?, Bars c) (hend : ∀ pos, Misses step (before k pos))
    (pos : Position) :
    ∃ es', ArePlaced es pos ws es' ∧ ∀ {β : Type} (f : List Expr → Scan β),
      listed (scanAt d 0) step f (before (printAll ws ++ k) pos) = f es' (before k (pos.afterAll (printAll ws))) := by
  cases es with
  | nil =>
    cases hws
    exact ⟨[], ⟨.nil, rfl⟩, fun f => bind_ok (Persists.option_of_misses (scanAt_misses hbars 0 pos))⟩
  | cons e es =>
    obtain ⟨vs, vs', rfl, hvs, hvs'⟩ := Laid.exists_append hws
    rw [List.forall_mem_cons] at hes
    obtain ⟨e', he', hread⟩ := hes.1 hvs (behind_further (by decide) hvs' hk) pos
    obtain ⟨es', hes', hsteps⟩ := steps_further hstep hes.2 hvs' hk (pos.afterAll (printAll vs))
    refine ⟨e' :: es', ⟨.cons he'.alike hes'.alike, ?_⟩, fun f => ?_⟩
    · rw [Expr.positionsOfAll, he'.positions, hes'.positions, nodePositions_append]
    · rw [printAll_append, List.append_assoc, listed, bind_ok (Persists.option_of_ok hread)]
      dsimp only
      rw [bind_ok (hsteps.many (hend _)), Position.afterAll_append]

theorem commaStep_readsComma : ReadsComma (d + 1) (do gap true; char ','; scanAt (d + 1) 0) := by
  intro s hs ws k pos
  have hgap := gap_token hs ⟨',', rfl, by decide⟩ ws k pos
  rw [decide_eq_true (Nat.succ_pos d)] at hgap
  rw [bind_ok hgap]
  exact bind_ok (char_before _ _ _)

/-- The end of a list in parentheses. -/
theorem closing_token {s : Space} (hs : s.Suits ⟨d + 1, .sign [')']⟩) (k : List Char) (pos : Position) :
    (do gap true; char ')') (before (printAll [(s, ⟨d + 1, .sign [')']⟩)] ++ k) pos)
      = .ok ((), before k (pos.afterAll (printAll [(s, ⟨d + 1, .sign [')']⟩)]))) := by
  have hgap := gap_token hs ⟨')', rfl, by decide⟩ [] k pos
  rw [decide_eq_true (Nat.succ_pos d)] at hgap
  rw [bind_ok hgap, after_token]
  exact char_before _ _ _

/-- The arguments of a call are read, whatever follows. -/
theorem callArguments_tokens (hd : d < maxNesting) {es : List Expr}
    (hes : ∀ e ∈ es, Recovers (scanAt (d + 1) 0) (d + 1) (stopsAt 0) (e.tokens (d + 1) 0) e) {ws : List Printed}
    (hws : Laid (parenthesized d (Expr.furtherTokens (d + 1) 0 es).tail) ws) (k : List Char) (pos : Position) :
    ∃ es', ArePlaced es pos ws es' ∧ callArguments (decide (0 < d)) (innerAt d) (before (printAll ws ++ k) pos)
      = .ok (es', before k (pos.afterAll (printAll ws))) := by
  obtain ⟨s, vs, s', rfl, hs, hvs, hs'⟩ := hws.exists_parenthesized
  have hclosing : Behind (d + 1) (',' :: stopsAt 0) (printAll [(s', ⟨d + 1, .sign [')']⟩)] ++ k) :=
    behind_mark hs' rfl ⟨by decide, by decide⟩ [] k (by decide)
  have hafter : afterGap (decide (0 < d + 1)) (printAll [(s', ⟨d + 1, .sign [')']⟩)] ++ k) = ')' :: k := by
    rw [print_token, afterGap_of_isFiller hs'.gap]
    exact afterGap_ink (by decide) _ _
  have hend : ∀ pos, Misses (do gap true; char ','; scanAt (d + 1) 0)
      (before (printAll [(s', ⟨d + 1, .sign [')']⟩)] ++ k) pos) :=
    gap_misses fun pos => bind_misses_iff.2 (.inl (char_misses
      (fun c hc heq => hclosing.stops c (by rwa [decide_eq_true (Nat.succ_pos d)]) (heq ▸ List.mem_cons_self)) pos))
  obtain ⟨es', hes', hread⟩ := listed_tokens commaStep_readsComma hes hvs (hclosing.mono (List.subset_cons_self _ _))
    (by rw [hafter]; rintro _ ⟨⟩; exact ⟨rfl, by decide, by decide, by decide, by decide⟩) hend
    ((pos.afterAll s.gap).after '(')
  refine ⟨es', ⟨hes'.alike, ?_⟩, ?_⟩
  · rw [hes'.positions, nodePositions_parenthesized]
  · rw [callArguments, bind_ok (gap_token hs ⟨'(', rfl, by decide⟩ _ k pos),
      Form.spelling_sign, List.singleton_append,
      bind_ok (char_before _ _ _), innerAt_of_lt hd, printAll_append, List.append_assoc]
    refine commit_ok_iff.2 ((hread fun arguments => do
      expecting .argumentsEnd do
        gap true
        char ')'
      pure arguments).trans ?_)
    rw [bind_ok (expecting_ok_iff.2 (closing_token hs' k _)), after_parenthesized]
    rfl

/-! ## Operands -/

theorem recovers_leaf {form : Form} {e : Position → Expr} (hnode : form.isNode = true)
    (halike : ∀ pos pos', (e pos).Alike (e pos')) (hpositions : ∀ pos, (e pos).positions = [pos])
    (hform : ∀ quote, quote = '\x27' ∨ quote = '\x22' → ∃ c ∈ (form.spelling quote).head?, IsInk c)
    (hread : ∀ ⦃quote⦄, quote = '\x27' ∨ quote = '\x22' → ∀ ⦃k⦄, Behind d (stopsAt 3) k → ∀ pos,
      alternatives (decide (0 < d)) (innerAt d) pos (before (form.spelling quote ++ k) pos)
        = .ok (e pos, before k (pos.afterAll (form.spelling quote)))) (pos : Position) :
    Recovers (scanAt d 3) d (stopsAt 3) [⟨d, form⟩] (e pos) := by
  intro ws hws k hk pos'
  obtain _ | @⟨s, _, _, _, hs, hws⟩ := hws
  cases hws
  refine ⟨e (pos'.afterAll s.gap), ⟨halike _ _, ?_⟩, primary_token hs (hform _ hs.quote) ?_⟩
  · rw [hpositions, nodePositions_node _ _ hnode, nodePositions]
  · rw [after_token]
    exact hread hs.quote hk _

theorem recovers_variable {v : Variable} (hv : isVariable v.name.toList = true) (pos : Position) :
    Recovers (scanAt d 3) d (stopsAt 3) [⟨d, .word v.name.toList⟩] (.var pos v) := by
  refine recovers_leaf (e := fun pos => .var pos v) rfl (fun _ _ => rfl) (fun _ => rfl) (fun _ _ => ?_)
    (fun _ _ k hk pos => ?_) pos
  · exact head_variable hv
  refine Persists.either_of_ok ((bind_ok (variableName_before hv hk.endsWord pos)).trans ?_)
  rw [String.ofList_toList]
  rfl

theorem recovers_integer {n : Int} (hn : 0 ≤ n) (hword : Text.isWord n = true) (pos : Position) :
    Recovers (scanAt d 3) d (stopsAt 3) [⟨d, .word (Text.decimal n).toList⟩] (.integer pos n) := by
  obtain ⟨c, cs, hcs, hc⟩ := head_decimal hn
  refine recovers_leaf (e := fun pos => .integer pos n) rfl (fun _ _ => rfl) (fun _ => rfl)
    (fun _ _ => ⟨c, by rw [Form.spelling, hcs]; rfl, (isSolid_of_isDigit hc).isInk⟩) (fun _ _ k hk pos => ?_) pos
  have hsigil : ∀ a ∈ ((Text.decimal n).toList ++ k).head?, Kind.ofSigil? a = none := by
    rw [hcs]
    rintro _ ⟨⟩
    exact ofSigil?_of_isNameChar (isNameChar_of_isDigit hc)
  rw [Form.spelling, alternatives_of_sigil hsigil]
  exact Persists.either_of_ok (bind_ok (integerLiteral_before hn hword hk.endsWord pos))

theorem recovers_text (value : String) (pos : Position) :
    Recovers (scanAt d 3) d (stopsAt 3) [⟨d, .text value.toList⟩] (.text pos value) := by
  refine recovers_leaf (e := fun pos => .text pos value) rfl (fun _ _ => rfl) (fun _ => rfl) (fun quote hquote => ?_)
    (fun quote hquote k _ pos => ?_) pos
  · obtain rfl | rfl := hquote
    all_goals exact ⟨_, rfl, by decide⟩
  · have hhead : ∀ c ∈ ((Form.text value.toList).spelling quote ++ k).head?,
        Kind.ofSigil? c = none ∧ Text.isDigit c = false := by
      rintro _ ⟨⟩
      obtain rfl | rfl := hquote
      all_goals decide
    rw [alternatives_of_digit (fun c hc => (hhead c hc).1) (fun c hc => (hhead c hc).2)]
    refine Persists.either_of_ok ((bind_ok (textLiteral_before hquote value.toList k pos)).trans ?_)
    rw [String.ofList_toList]
    rfl

/-- A name or a call is tried for an identifier. -/
theorem alternatives_identifier {inside : Bool} {inner : Option (Scan Expr)} {word : List Char}
    (hword : isIdentifier word = true) (k : List Char) (pos pos' : Position) :
    alternatives inside inner pos' (before (word ++ k) pos)
      = either (callOrName inside inner pos') (group inner) (before (word ++ k) pos) := by
  obtain ⟨c, cs, rfl, hc, -⟩ := isIdentifier_iff.1 hword
  apply alternatives_of_quote
  all_goals rintro _ ⟨⟩
  · exact ofSigil?_of_isNameChar (isNameChar_of_isNameStart hc)
  · exact not_isDigit_of_isNameStart hc
  · refine ⟨?_, ?_⟩
    all_goals rintro rfl
    all_goals exact absurd hc (by decide)

theorem recovers_name {word : String} (hword : isIdentifier word.toList = true) (pos : Position) :
    Recovers (scanAt d 3) d (stopsAt 3) [⟨d, .word word.toList⟩] (.name pos word) := by
  refine recovers_leaf (e := fun pos => .name pos word) rfl (fun _ _ => rfl) (fun _ => rfl)
    (fun _ _ => ?_) (fun _ _ k hk pos => ?_) pos
  · exact head_identifier hword
  have hcall : ∀ pos, Misses (callArguments (decide (0 < d)) (innerAt d)) (before k pos) :=
    gap_misses fun pos => bind_misses_iff.2 (.inl (char_misses
      (fun c hc heq => hk.stops c hc (heq ▸ List.mem_cons_self)) pos))
  rw [Form.spelling, alternatives_identifier hword]
  refine Persists.either_of_ok ?_
  rw [callOrName, bind_ok (identifier_before hword hk.endsWord pos), bind_ok (Persists.option_of_misses (hcall _)),
    String.ofList_toList]
  rfl

theorem measured_of_le {e : Expr} (h : e.height ≤ maxHeight) (s : Cursor) : measured e s = .ok (e, s) := by
  rw [measured, if_neg (Nat.not_lt.2 h)]
  rfl

theorem endsWord_parenthesized {ts : List Token} {ws : List Printed} (hws : Laid (parenthesized d ts) ws)
    (k : List Char) : EndsWord (printAll ws ++ k) := by
  obtain ⟨s, vs, s', rfl, hs, -, -⟩ := hws.exists_parenthesized
  exact endsWord_mark hs rfl ⟨by decide, by decide⟩ _ k

theorem recovers_call {function : String} (hfunction : isIdentifier function.toList = true) (hd : d < maxNesting)
    {es : List Expr} (hes : ∀ e ∈ es, Recovers (scanAt (d + 1) 0) (d + 1) (stopsAt 0) (e.tokens (d + 1) 0) e)
    {level : Nat} {pos : Position} (hheight : (Expr.call pos function es).height ≤ maxHeight) :
    Recovers (scanAt d 3) d (stopsAt 3) ((Expr.call pos function es).tokens d level) (.call pos function es) := by
  intro ws hws k _ pos'
  obtain _ | @⟨s, _, _, ws, hs, hws⟩ := hws
  obtain ⟨es', hes', hread⟩ := callArguments_tokens hd hes hws k
    ((pos'.afterAll s.gap).afterAll function.toList)
  have halike := Expr.Alike.call pos (pos'.afterAll s.gap) function hes'.alike
  refine ⟨_, ⟨halike, ?_⟩, primary_token hs (head_identifier hfunction) ?_⟩
  · rw [Expr.positions, hes'.positions, nodePositions_node _ _ rfl]
    rfl
  · rw [Form.spelling, alternatives_identifier hfunction]
    refine Persists.either_of_ok ?_
    rw [callOrName, bind_ok (identifier_before hfunction (endsWord_parenthesized hws k) _),
      bind_ok (Persists.option_of_ok hread), String.ofList_toList, after_token]
    exact measured_of_le (halike.height ▸ hheight) _

theorem recovers_group (hd : d < maxNesting) {ts : List Token} {e : Expr}
    (he : Recovers (scanAt (d + 1) 0) (d + 1) (stopsAt 0) ts e) :
    Recovers (scanAt d 3) d (stopsAt 3) (parenthesized d ts) e := by
  intro ws hws k _ pos
  obtain ⟨s, vs, s', rfl, hs, hvs, hs'⟩ := hws.exists_parenthesized
  obtain ⟨e', he', hread⟩ := he hvs (k := printAll [(s', ⟨d + 1, .sign [')']⟩)] ++ k)
    (behind_mark hs' rfl ⟨by decide, by decide⟩ [] k (by decide)) ((pos.afterAll s.gap).after '(')
  refine ⟨e', ⟨he'.alike, ?_⟩, primary_token hs ⟨'(', rfl, by decide⟩ ?_⟩
  · rw [he'.positions, nodePositions_parenthesized]
  · have hname : ∀ r pos pos', Misses (callOrName (decide (0 < d)) (innerAt d) pos') (before ('(' :: r) pos) :=
      fun r pos _ => bind_misses_iff.2 (.inl (identifier_misses (by rintro _ ⟨⟩; decide) pos))
    rw [Form.spelling_sign, List.singleton_append,
      alternatives_of_quote (by rintro _ ⟨⟩; decide) (by rintro _ ⟨⟩; decide) (by rintro _ ⟨⟩; decide),
      Persists.either_of_misses (hname _ _ _), group, bind_ok (char_before _ _ _), innerAt_of_lt hd, printAll_append,
      List.append_assoc]
    refine commit_ok_iff.2 ((bind_ok hread).trans ?_)
    rw [bind_ok (expecting_ok_iff.2 (closing_token hs' k _)), after_parenthesized]
    rfl

/-! ## Operators -/

theorem asChain_method {subject : Expr} {ts : List Token} (hsubject : AsChain d 2 ts subject) {operator : String}
    (hoperator : isIdentifier operator.toList = true) (hd : d < maxNesting) {es : List Expr}
    (hes : ∀ e ∈ es, Recovers (scanAt (d + 1) 0) (d + 1) (stopsAt 0) (e.tokens (d + 1) 0) e) (pos : Position) :
    AsChain d 2 (ts ++ ⟨d, .sign ['.']⟩ :: ⟨d, .word operator.toList⟩
      :: parenthesized d (Expr.furtherTokens (d + 1) 0 es).tail) (.apply pos subject operator es) := by
  intro ws hws k _ pos'
  obtain ⟨vs, vs', rfl, hvs, hvs'⟩ := Laid.exists_append hws
  obtain _ | @⟨s, _, _, _, hs, hvs'⟩ := hvs'
  obtain _ | @⟨s', _, _, vs', hs', hvs'⟩ := hvs'
  obtain ⟨e', he', hchain⟩ := hsubject hvs (behind_mark hs rfl ⟨by decide, by decide⟩ _ k (by decide)) pos'
  obtain ⟨es', hes', hread⟩ := callArguments_tokens hd hes hvs' k
    (((((pos'.afterAll (printAll vs)).afterAll s.gap).after '.').afterAll s'.gap).afterAll operator.toList)
  refine ⟨called e' (((((pos'.afterAll (printAll vs)).afterAll s.gap).after '.').afterAll s'.gap), operator, es'),
    ⟨.apply _ _ he'.alike operator hes'.alike, ?_⟩, ?_⟩
  · rw [called, Expr.positions, he'.positions, hes'.positions, nodePositions_append, nodePositions_sign,
      nodePositions_node _ _ rfl]
    rfl
  · rw [printAll_append]
    refine hchain.snoc (by simp [printAll_cons, Printed.print, Printed.spelling, Form.spelling]) ?_
    rw [methodStep, bind_ok (gap_token hs ⟨'.', rfl, by decide⟩ _ k _),
      Form.spelling_sign, List.singleton_append, bind_ok (char_before _ _ _)]
    refine commit_ok_iff.2 ?_
    rw [methodCall, bind_ok (gap_token hs' (head_identifier hoperator) _ k _), bind_ok (here_before _ _)]
    refine (bind_ok (expecting_ok_iff.2 (identifier_before hoperator (endsWord_parenthesized hvs' k) _))).trans ?_
    refine (bind_ok hread).trans ?_
    rw [String.ofList_toList, Position.afterAll_append, after_sign, after_token]
    rfl

theorem recoversChain_infix {level : Nat} {symbols : List Char} {c : Char} (hc : c ∈ symbols) (hmark : IsMark c)
    (hstops : c ∉ stopsAt level) {subject operand : Expr} {ts ts' : List Token}
    (hsubject : RecoversChain (scanAt d level) (infixStep (decide (0 < d)) symbols (scanAt d level)) joined d
      (stopsAt level) ts subject)
    (hoperand : Recovers (scanAt d level) d (stopsAt level) ts' operand) (pos : Position) :
    RecoversChain (scanAt d level) (infixStep (decide (0 < d)) symbols (scanAt d level)) joined d (stopsAt level)
      (ts ++ ⟨d, .operator [c]⟩ :: ts') (.apply pos subject c.toString [operand]) := by
  intro ws hws k hk pos'
  obtain ⟨vs, vs', rfl, hvs, hvs'⟩ := Laid.exists_append hws
  obtain _ | @⟨s, _, _, vs', hs, hvs'⟩ := hvs'
  obtain ⟨e', he', hchain⟩ := hsubject hvs (behind_mark hs rfl hmark _ k hstops) pos'
  obtain ⟨o', ho', hread⟩ := hoperand hvs' hk (((pos'.afterAll (printAll vs)).afterAll s.gap).after c)
  refine ⟨joined e' ((pos'.afterAll (printAll vs)).afterAll s.gap, c.toString, o'),
    ⟨.apply _ _ he'.alike _ (.cons ho'.alike .nil), ?_⟩, ?_⟩
  · rw [joined, Expr.positions, he'.positions, Expr.positionsOfAll, ho'.positions, nodePositions_append,
      nodePositions_node _ _ rfl, Expr.positionsOfAll, List.append_nil]
    rfl
  · rw [printAll_append]
    refine hchain.snoc (by simp [printAll_cons, Printed.print, Printed.spelling, Form.spelling]) ?_
    have hoperator : infixOperator (decide (0 < d)) symbols
        (before (printAll ((s, ⟨d, .operator [c]⟩) :: vs') ++ k) (pos'.afterAll (printAll vs)))
        = .ok (((pos'.afterAll (printAll vs)).afterAll s.gap, c.toString),
          before (printAll vs' ++ k) (((pos'.afterAll (printAll vs)).afterAll s.gap).after c)) := by
      rw [infixOperator, bind_ok (gap_token hs ⟨c, rfl, hmark.ink⟩ _ k _), bind_ok (here_before _ _),
        Form.spelling_operator, List.singleton_append, bind_ok (charWhere_before (List.contains_iff_mem.2 hc) _ _),
        bind_ok (Persists.option_of_misses (char_misses (head_ne_equals hread) _))]
      rfl
    rw [infixStep, bind_ok hoperator]
    refine (bind_ok (commit_ok_iff.2 hread)).trans ?_
    rw [Position.afterAll_append, after_token]
    rfl

/-! ## Expressions -/

theorem Expr.mem_furtherTokens {e : Expr} {t : Token} {level : Nat} (ht : t ∈ e.tokens d level) {es : List Expr}
    (he : e ∈ es) : t ∈ (furtherTokens d level es).tail := by
  induction es with
  | nil => cases he
  | cons a es ih =>
    show t ∈ a.tokens d level ++ furtherTokens d level es
    obtain rfl | he := List.mem_cons.1 he
    · exact List.mem_append_left _ ht
    · exact List.mem_append_right _ (List.mem_of_mem_tail (ih he))

theorem Expr.arePrintable_iff {es : List Expr} : arePrintable es = true ↔ ∀ e ∈ es, e.isPrintable = true := by
  induction es with
  | nil => simp [arePrintable]
  | cons e es ih => simp [arePrintable, ih]

theorem Expr.height_le_tallest {e : Expr} {es : List Expr} (he : e ∈ es) : e.height ≤ tallest es := by
  induction es with
  | nil => cases he
  | cons a es ih =>
    rw [tallest]
    obtain rfl | he := List.mem_cons.1 he
    · exact Nat.le_max_left _ _
    · exact Nat.le_trans (ih he) (Nat.le_max_right _ _)

/-- Parentheses that are closed again have been opened. -/
theorem depths_parenthesized {ts : List Token} (h : ∀ t ∈ parenthesized d ts, t.depth ≤ maxNesting) :
    d < maxNesting ∧ ∀ t ∈ ts, t.depth ≤ maxNesting := by
  refine ⟨h ⟨d + 1, .sign [')']⟩ ?_, fun t ht => h t ?_⟩
  · simp [parenthesized]
  · simp [parenthesized, ht]

/-- The expression is read back on each level. -/
def IsReadBack (e : Expr) : Prop :=
  e.isPrintable = true → e.height ≤ maxHeight → ∀ ⦃d level⦄, level ≤ 2 →
    (∀ t ∈ e.tokens d level, t.depth ≤ maxNesting) → AsChain d level (e.tokens d level) e

theorem IsReadBack.recovers {e : Expr} (h : IsReadBack e) (hprintable : e.isPrintable = true)
    (hheight : e.height ≤ maxHeight) {level : Nat} (hlevel : level ≤ 2)
    (hdepths : ∀ t ∈ e.tokens d level, t.depth ≤ maxNesting) :
    Recovers (scanAt d level) d (stopsAt level) (e.tokens d level) e :=
  (h hprintable hheight hlevel hdepths).recovers hlevel hheight

theorem recovers_each {es : List Expr} (hes : ∀ e ∈ es, IsReadBack e) (hprintable : Expr.arePrintable es = true)
    (hheight : Expr.tallest es ≤ maxHeight) {level : Nat} (hlevel : level ≤ 2)
    (hdepths : ∀ t ∈ (Expr.furtherTokens d level es).tail, t.depth ≤ maxNesting) :
    ∀ e ∈ es, Recovers (scanAt d level) d (stopsAt level) (e.tokens d level) e := fun e he =>
  (hes e he).recovers (Expr.arePrintable_iff.1 hprintable e he) (Nat.le_trans (Expr.height_le_tallest he) hheight)
    hlevel fun t ht => hdepths t (Expr.mem_furtherTokens ht he)

theorem isReadBack_call (pos : Position) (function : String) {arguments : List Expr}
    (h : ∀ e ∈ arguments, IsReadBack e) : IsReadBack (.call pos function arguments) := by
  intro hprintable hheight d level hlevel hdepths
  rw [Expr.isPrintable, Bool.and_eq_true] at hprintable
  have htallest : Expr.tallest arguments ≤ maxHeight := by
    rw [Expr.height] at hheight
    omega
  rw [Expr.tokens, List.forall_mem_cons] at hdepths
  obtain ⟨hd, hdepths⟩ := depths_parenthesized hdepths.2
  exact .of_primary (recovers_call hprintable.1 hd (recovers_each h hprintable.2 htallest (by decide) hdepths) hheight)
    hlevel hheight

theorem isReadBack_method (pos : Position) {subject : Expr} (hsubject : IsReadBack subject) {operator : String}
    (hoperator : isInfix operator = false) {operands : List Expr} (h : ∀ e ∈ operands, IsReadBack e) :
    IsReadBack (.apply pos subject operator operands) := by
  intro hprintable hheight d level hlevel hdepths
  simp only [Expr.isPrintable, hoperator, Bool.and_eq_true] at hprintable
  obtain ⟨⟨hprintable, hoperands⟩, hidentifier⟩ := hprintable
  have hheights : subject.height ≤ maxHeight ∧ Expr.tallest operands ≤ maxHeight := by
    rw [Expr.height] at hheight
    omega
  have htokens : (Expr.apply pos subject operator operands).tokens d level = subject.tokens d 2
      ++ ⟨d, .sign ['.']⟩ :: ⟨d, .word operator.toList⟩
        :: parenthesized d (Expr.furtherTokens (d + 1) 0 operands).tail := by
    rw [Expr.tokens, hoperator]
    rfl
  rw [htokens, List.forall_mem_append, List.forall_mem_cons, List.forall_mem_cons] at hdepths
  obtain ⟨hdepths, -, -, hfurther⟩ := hdepths
  obtain ⟨hd, hfurther⟩ := depths_parenthesized hfurther
  rw [htokens]
  exact (asChain_method (hsubject hprintable hheights.1 (Nat.le_refl _) hdepths) hidentifier hd
    (recovers_each h hoperands hheights.2 (by decide) hfurther) pos).lower hlevel (Nat.le_refl _) hheight

/-- The symbols of a level. -/
def symbolsAt : Nat → List Char
  | 0 => ['+', '-']
  | _ => ['&']

theorem exists_symbol {operator : String} (h : isInfix operator = true) :
    ∃ c ∈ symbolsAt (precedence operator), operator = c.toString ∧ operator.toList = [c] ∧ IsMark c ∧
      c ∉ stopsAt (precedence operator + 1) ∧ precedence operator ≤ 1 := by
  simp only [isInfix, Bool.or_eq_true, beq_iff_eq] at h
  obtain (rfl | rfl) | rfl := h
  · exact ⟨'+', by decide, rfl, rfl, ⟨by decide, by decide⟩, by decide, by decide⟩
  · exact ⟨'-', by decide, rfl, rfl, ⟨by decide, by decide⟩, by decide, by decide⟩
  · exact ⟨'&', by decide, rfl, rfl, ⟨by decide, by decide⟩, by decide, by decide⟩

/-- An infix operator with its operands, without parentheses around it. -/
theorem asChain_infix {operator : String} (hoperator : isInfix operator = true) {subject operand : Expr}
    {ts ts' : List Token} (hsubject : AsChain d (precedence operator) ts subject)
    (hoperand : Recovers (scanAt d (precedence operator + 1)) d (stopsAt (precedence operator + 1)) ts' operand)
    (pos : Position) : AsChain d (precedence operator) (ts ++ ⟨d, .operator operator.toList⟩ :: ts')
      (.apply pos subject operator [operand]) := by
  obtain ⟨c, hc, hstring, hlist, hmark, hstops, hlevel⟩ := exists_symbol hoperator
  generalize precedence operator = level at *
  rw [hlist, hstring]
  match level with
  | 0 => exact recoversChain_infix hc hmark hstops hsubject hoperand pos
  | 1 => exact recoversChain_infix hc hmark hstops hsubject hoperand pos

theorem isReadBack_infix (pos : Position) {subject : Expr} (hsubject : IsReadBack subject) {operator : String}
    (hoperator : isInfix operator = true) {operands : List Expr} (h : ∀ e ∈ operands, IsReadBack e) :
    IsReadBack (.apply pos subject operator operands) := by
  intro hprintable hheight d level hlevel hdepths
  simp only [Expr.isPrintable, hoperator, Bool.and_eq_true, if_true, beq_iff_eq] at hprintable
  obtain ⟨⟨hprintable, hoperands⟩, hlength⟩ := hprintable
  obtain ⟨operand, rfl⟩ := List.length_eq_one_iff.1 hlength
  have hle : precedence operator ≤ 1 := by
    unfold precedence
    split <;> decide
  have hheights : subject.height ≤ maxHeight ∧ Expr.tallest [operand] ≤ maxHeight := by
    rw [Expr.height] at hheight
    omega
  -- the operator without parentheses around it, inside any number of them
  have hchain : ∀ d, (∀ t ∈ subject.tokens d (precedence operator) ++ ⟨d, .operator operator.toList⟩
        :: (Expr.furtherTokens d (precedence operator + 1) [operand]).tail, t.depth ≤ maxNesting) →
      AsChain d (precedence operator) (subject.tokens d (precedence operator) ++ ⟨d, .operator operator.toList⟩
        :: (Expr.furtherTokens d (precedence operator + 1) [operand]).tail) (.apply pos subject operator [operand]) := by
    intro d hdepths
    rw [List.forall_mem_append, List.forall_mem_cons] at hdepths
    have hoperand := recovers_each h hoperands hheights.2 (by omega) hdepths.2.2 operand (List.mem_singleton_self _)
    have htokens : (Expr.furtherTokens d (precedence operator + 1) [operand]).tail
        = operand.tokens d (precedence operator + 1) := List.append_nil _
    rw [htokens]
    exact asChain_infix hoperator (hsubject hprintable hheights.1 (by omega) hdepths.1) hoperand pos
  rw [Expr.tokens, if_pos hoperator] at hdepths ⊢
  by_cases hlevel' : precedence operator < level
  · rw [if_pos hlevel'] at hdepths ⊢
    obtain ⟨hd, hdepths⟩ := depths_parenthesized hdepths
    have hinner := (hchain (d + 1) hdepths).lower (Nat.zero_le _) (by omega) hheight
    exact .of_primary (recovers_group hd (hinner.recovers (Nat.zero_le _) hheight)) hlevel hheight
  · rw [if_neg hlevel'] at hdepths ⊢
    exact (hchain d hdepths).lower (Nat.le_of_not_lt hlevel') (by omega) hheight

mutual

theorem isReadBack : ∀ e : Expr, IsReadBack e
  | .integer pos n => fun hprintable hheight d level hlevel _ => by
    rw [Expr.isPrintable, Bool.and_eq_true, decide_eq_true_eq] at hprintable
    exact .of_primary (recovers_integer hprintable.1 hprintable.2 pos) hlevel hheight
  | .text pos value => fun _ hheight d level hlevel _ => .of_primary (recovers_text value pos) hlevel hheight
  | .name pos word => fun hprintable hheight d level hlevel _ =>
    .of_primary (recovers_name hprintable pos) hlevel hheight
  | .var pos v => fun hprintable hheight d level hlevel _ =>
    .of_primary (recovers_variable hprintable pos) hlevel hheight
  | .call pos function arguments => isReadBack_call pos function (areReadBack arguments)
  | .apply pos subject operator operands => by
    have hsubject := isReadBack subject
    have hoperands := areReadBack operands
    cases hoperator : isInfix operator with
    | true => exact isReadBack_infix pos hsubject hoperator hoperands
    | false => exact isReadBack_method pos hsubject hoperator hoperands

theorem areReadBack : ∀ es : List Expr, ∀ e ∈ es, IsReadBack e
  | [] => nofun
  | e :: es => List.forall_mem_cons.2 ⟨isReadBack e, areReadBack es⟩

end

end Provenance.Query

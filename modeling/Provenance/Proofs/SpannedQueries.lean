import Provenance.Proofs.SpannedTexts

/-!
# Queries and the texts they span

A query that is parsed spans its whole text: its statements are written one behind the other, with the separators
between them, and the nodes stand at the positions that the index of lines gives for what is left of the text there.
-/

namespace Provenance.Query

open Scan

section Spans

variable (place : List Char → Position)

/-- The statement is written at the front of a text, and the rest of the text is left. -/
inductive Statement.Spans : List Char → Statement → List Char → Prop
  | assignment {target : Variable} {op : AssignOp} {value : Expr} {r r₁ r₂ : List Char}
    (htarget : isVariable target.name.toList = true) (hends : EndsWord r)
    (hop : afterGap false r = op.spelling.toList ++ r₁) (hvalue : Expr.Spans place false 0 r₁ value r₂) :
    Spans (target.name.toList ++ r) (.assignment (place (target.name.toList ++ r)) target op value) r₂
  | command {name : String} {arguments : List Expr} {r r₁ : List Char} (hname : isIdentifier name.toList = true)
    (hends : EndsWord r)
    (harguments : Listed (fun r r₁ => r₁ = r ∨ IsComma false r r₁) (Expr.Spans place false 0) arguments r r₁) :
    Spans (name.toList ++ r) (.command (place (name.toList ++ r)) name arguments) r₁

/-- What is left behind the separators at the front of a text. -/
def afterSeparators (r : List Char) : List Char := r.drop (fillerLength passesBetween false r)

/-- The text consists of these statements. A statement ends with the text or at a line feed or a `;`. -/
inductive Spanned : List Char → List Statement → Prop
  | nil {r : List Char} (hend : afterSeparators r = []) : Spanned r []
  | cons {r r₁ r₂ : List Char} {s : Statement} {ss : List Statement} (hs : s.Spans place (afterSeparators r) r₁)
    (hend : (afterGap false r₁ = [] ∧ r₂ = []) ∨ ∃ c, (c = '\n' ∨ c = ';') ∧ afterGap false r₁ = c :: r₂)
    (hss : Spanned r₂ ss) : Spanned r (s :: ss)

end Spans

variable {place : List Char → Position}

/-! ## Statements -/

theorem chars_follows (cs : List Char) : Follows place (fun r _ r₁ => r = cs ++ r₁) (chars cs) :=
  .of_echoes (fun _ => .chars cs) fun s t _ h => by
    unfold chars at h
    split at h
    · next hprefix =>
      cases h
      obtain ⟨r, hr⟩ := List.isPrefixOf_iff_prefix.1 hprefix
      rw [Cursor.rest_skip, ← hr, List.drop_left]
    · cases h

theorem assignOp_follows : Follows place (fun r op r₁ => r = op.spelling.toList ++ r₁) assignOp := by
  unfold assignOp
  induction AssignOp.all with
  | nil => exact fun _ _ _ _ h => nomatch h
  | cons op ops ih => exact .either ((chars_follows _).bind fun _ _ => .pure fun _ h => h) ih

theorem assignment_follows (pos : Position) :
    Follows place (fun r s r₁ => pos = place r → s.Spans place r r₁) (assignment pos) := by
  refine variableName_follows.bind fun r target => Follows.bind
    ((assignOp_follows.gap false).expecting .assignmentOperator).commit fun r₁ op =>
    expression_follows.commit.bind fun r₂ value => .pure ?_
  rintro r₃ hvalue hop ⟨htarget, hends, rfl⟩ rfl
  exact .assignment htarget hends hop hvalue

theorem furtherArgument_follows : Follows place (fun r e r₂ => ∃ r₁, (r₁ = r ∨ IsComma false r r₁) ∧
    Expr.Spans place false 0 r₁ e r₂) furtherArgument := by
  refine ((char_follows ',').gap false).option.bind fun r found => expression_follows.mono ?_
  rintro r₁ e r₂ he (⟨-, -, hcomma⟩ | ⟨-, hnone⟩)
  · exact ⟨r₁, .inr hcomma, he⟩
  · exact ⟨r₁, .inl hnone, he⟩

theorem command_follows (pos : Position) :
    Follows place (fun r s r₁ => pos = place r → s.Spans place r r₁) (command pos) := by
  refine identifier_follows.bind fun r name => listed_follows
    (f := fun arguments => pure (Statement.command pos name arguments)) expression_follows furtherArgument_follows
    fun r₁ arguments => .pure ?_
  rintro r₂ harguments ⟨hname, hends, rfl⟩ rfl
  exact .command hname hends harguments

theorem statement_follows : Follows place (fun r s r₁ => s.Spans place r r₁) statement :=
  here_follows.bind fun _ pos => .expecting .statement <|
    .either ((assignment_follows pos).mono fun _ _ _ h hpos => by obtain ⟨rfl, rfl⟩ := hpos; exact h rfl)
      ((command_follows pos).mono fun _ _ _ h hpos => by obtain ⟨rfl, rfl⟩ := hpos; exact h rfl)

/-- The statements of a text, if there is room for all of them. -/
theorem statementsUpTo_spanned {n : Nat} {s t : Cursor} {ss : List Statement} (hs : s.Keeps place)
    (hn : s.rest.length < n) (h : statementsUpTo n s = .ok (ss, t)) : Spanned place s.rest ss := by
  induction n generalizing s ss with
  | zero => omega
  | succ n ih =>
    have hrest : (s.skip (fillerLength passesBetween false s.rest)).rest = afterSeparators s.rest :=
      Cursor.rest_skip _ _
    obtain ⟨hempty, rfl, rfl⟩ | ⟨-, first, u, v, others, hfirst, hend, hshorter, hothers, rfl⟩ := statementsUpTo_ok h
    · exact .nil (hrest ▸ hempty)
    · obtain ⟨hu, hspans⟩ := statement_follows (hs.of_precedes (.skip s _)) hfirst
      have hv := hu.of_precedes (endOfStatement_precedes hend)
      exact .cons (hrest ▸ hspans) (endOfStatement_ok hend) (ih hv (by omega) hothers)

/-! ## Positions -/

theorem precedes_of_setback {α β : Type} {s : Cursor} {g : α → β} {p : Scan α} {p' : Scan β} {e : Setback}
    (h : Echoes (.along s) g p p') (he : p s = .error e) : s.Precedes e.place := by
  have hecho : Echo (.along s) g (p s) (p' s) := h ⟨rfl, .skip s 0⟩
  rw [he] at hecho
  generalize p' s = o at hecho
  cases hecho with
  | setback hplace => exact hplace.2

theorem LineIndex.keeps (source : String) : (Cursor.ofList source.toList).Keeps (LineIndex.ofText source).position := by
  intro n
  have hskip : (Cursor.ofList source.toList).skip n
      = .before (source.toList.drop n) (Position.start.afterAll (source.toList.take n)) := Cursor.skip_before _ _ _
  rw [hskip, Cursor.rest_before, LineIndex.position_ofText (List.take_append_drop n _).symm, ← Position.afterAll_start]
  rfl

/-- A syntax error has the position that the index finds for what is left of the text there. -/
theorem parse_error_position {source : String} {e : ParseError} (h : parse source = .error e) :
    ∃ before after, source.toList = before ++ after ∧ e.position = (LineIndex.ofText source).position after ∧
      e.found = after.head? := by
  obtain ⟨setback, hread, rfl⟩ := parse_eq_error_iff.1 h
  obtain ⟨n, hplace⟩ := precedes_of_setback (statementsUpTo_echoes _) hread
  refine ⟨source.toList.take n, source.toList.drop n, (List.take_append_drop n _).symm, ?_⟩
  have hrest : setback.place.rest = source.toList.drop n := by rw [hplace, Cursor.rest_skip]; rfl
  rw [← hrest, hplace]
  exact ⟨LineIndex.keeps source n, rfl⟩

/-- The index finds the position that counting finds, and the nodes of a query have these positions. -/
theorem indexed_positions (source : String) :
    (∀ before after, source.toList = before ++ after →
      (LineIndex.ofText source).position after = .counted before) ∧
    ∀ ss, parse source = .ok ss → Spanned (LineIndex.ofText source).position source.toList ss := by
  refine ⟨fun before after h => LineIndex.position_ofText h, fun ss h => ?_⟩
  obtain ⟨t, h⟩ := parse_eq_ok_iff.1 h
  exact statementsUpTo_spanned (LineIndex.keeps source) (Nat.lt_succ_self _) h

/-- Several lines, on some of which characters have several bytes. -/
def mixedQuery : String := "# é\n$a += edges('ö', # 𝒫\n 1) & $b.limit(2)\nstat $a"

def mixedStatements : List Statement := [
  .assignment ⟨2, 1⟩ ⟨"$a"⟩ .union (.apply ⟨3, 5⟩ (.call ⟨2, 7⟩ "edges" [.text ⟨2, 13⟩ "ö", .integer ⟨3, 2⟩ 1])
    "&" [.apply ⟨3, 10⟩ (.var ⟨3, 7⟩ ⟨"$b"⟩) "limit" [.integer ⟨3, 16⟩ 2]]),
  .command ⟨4, 1⟩ "stat" [.var ⟨4, 6⟩ ⟨"$a"⟩]]

/-- Characters are counted, and each node stands where it is written. -/
theorem indexed_positions_mixed :
    mixedQuery.toList = "# é\n$a += edges('ö'".toList ++ ", # 𝒫\n 1) & $b.limit(2)\nstat $a".toList ∧
      (LineIndex.ofText mixedQuery).position ", # 𝒫\n 1) & $b.limit(2)\nstat $a".toList = ⟨2, 16⟩ ∧
      parse mixedQuery = .ok mixedStatements ∧
      Spanned (LineIndex.ofText mixedQuery).position mixedQuery.toList mixedStatements := by
  have hsplit : mixedQuery.toList
      = "# é\n$a += edges('ö'".toList ++ ", # 𝒫\n 1) & $b.limit(2)\nstat $a".toList := by decide
  have hparse : parse mixedQuery = .ok mixedStatements := by cbv
  obtain ⟨hcounted, hspanned⟩ := indexed_positions mixedQuery
  exact ⟨hsplit, (hcounted _ _ hsplit).trans (by decide), hparse, hspanned _ hparse⟩

end Provenance.Query

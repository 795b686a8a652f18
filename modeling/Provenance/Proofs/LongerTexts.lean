import Provenance.Proofs.Words

/-!
# Statements in longer texts

A statement is read alike from a text and from that text with a line feed and more behind it. At the end of the
first text a scan inside parentheses may go on with what follows; but then the first text leaves a parenthesis
open, and cannot be read at all.
-/

namespace Provenance.Query

open Scan

variable {x : List Char}

/-! ## Expressions -/

theorem measured_persists (stuck : List Char → Prop) (e : Expr) : Persists x stuck (measured e) := by
  unfold measured
  split
  · exact .stop _
  · exact .pure _

theorem measured_firm (e : Expr) : Firm (measured e) := by
  unfold measured
  split
  · exact .stop _
  · exact .pure _

theorem measured_stays (stuck : List Char → Prop) (e : Expr) : Stays stuck (measured e) := by
  unfold measured
  split
  · exact .stop _
  · exact .pure _

theorem measured_reads (e : Expr) : Reads 0 (measured e) := by
  unfold measured
  split
  · exact .stop _
  · exact .pure _

/-- A first operand, and then steps that each make the expression taller. -/
theorem chain_steady {α : Type} {inside : Bool} {first : Scan Expr} {step : Scan α}
    (hfirst : Steady x inside first) (hstep : Steady x inside step) (f : Expr → α → Expr) :
    Steady x inside (do let e ← first; let as ← many step; as.foldlM (fun e a => measured (f e a)) e) :=
  hfirst.bind (fun e => hstep.many.reads.bind (fun as => (Persists.foldlM (fun _ _ => measured_persists _ _)
      (fun _ _ => measured_firm _) (fun _ _ => measured_stays _ _) as e).reads)
      fun _ => .foldlM (fun _ _ => measured_stays _ _) _ _)
    (fun e => (Firm.many _).bind fun as => .foldlM (fun _ _ => measured_firm _) as e)
    (fun e => hstep.balks.stays.many.bind fun as => .foldlM (fun _ _ => measured_stays _ _) as e)
    fun e => (Reads.many (hstep.reads_one.mono (Nat.zero_le _))).after fun as =>
      .foldlM (fun _ _ => measured_reads _) as e

/-- A closing parenthesis behind a gap. -/
theorem closing_rereads (hx : Breaks x) (what : Expectation) :
    Rereads x never (expecting what (gap true >>= fun _ => char ')')) :=
  (gap_rereads hx (fun _ => Reads.char _) (char_persists hx (by decide)).reads).expecting what

theorem closing_balks (what : Expectation) :
    Balks (StuckIn true) (expecting what (gap true >>= fun _ => char ')')) := by
  have hx : Breaks [] := nofun
  exact (gap_balks (char_steady hx (by decide)).balks).expecting what

theorem afterGap_comma (inside : Bool) (r : List Char) : afterGap inside (',' :: r) = ',' :: r := by
  cases inside <;> rfl

section Layers

variable {inside : Bool} {inner : Option (Scan Expr)}

theorem enter_persists {α : Type} {f : Scan Expr → Scan α} (h : ∀ p ∈ inner, Persists x never (f p)) :
    Persists x never (enter inner >>= f) := by
  unfold enter
  split
  · exact h _ rfl
  · refine ⟨fun _ _ _ _ _ ha => (nomatch ha), fun _ hm => ?_⟩
    obtain ⟨e, he, hc⟩ := hm
    cases he
    cases hc

theorem enter_reads {α : Type} {n : Nat} {f : Scan Expr → Scan α} (h : ∀ p ∈ inner, Reads n (f p)) :
    Reads n (enter inner >>= f) := by
  unfold enter
  split
  · exact h _ rfl
  · exact nofun

variable (hx : Breaks x) (hinner : ∀ p ∈ inner, Steady x true p)

include hx

/-- A comma and one more argument. Where the text ends behind the comma, the comma is not read, and the
scan is stuck before it. -/
theorem furtherArgument_steady {p : Scan Expr} (hp : Steady x true p) :
    Steady x true (do gap true; char ','; p) := by
  have hcomma := char_persists hx (show ',' ≠ '\n' by decide)
  have hreads : Reads 1 (char ',' >>= fun _ => p) := (Reads.char _).first fun _ => hp.reads_one.mono (Nat.zero_le _)
  refine ⟨gap_persists hx (fun _ => hreads) ⟨hcomma.of_never.reads.bind (fun _ => hp.reads)
    fun _ => hp.balks.stays, fun hs hm => ?_⟩, fun s e t hs h => ?_, gap_reads 1 hreads⟩
  · obtain hm | ⟨⟨⟩, t, ht, hm⟩ := bind_misses_iff.1 hm
    · exact .inl (bind_misses_iff.2 (.inl ((hcomma.misses hs hm).resolve_right nofun)))
    · obtain ⟨t', ht', hrest⟩ := (hcomma.reads hs ht).resolve_right nofun
      refine (hp.misses hrest hm).imp (fun hm' => bind_misses_iff.2 (.inr ⟨(), t', ht', hm'⟩)) fun hstuck => ?_
      rw [char_rest ht]
      exact ⟨rfl, .comma (afterGap_comma _ _) hstuck.2⟩
  · obtain ⟨u, hu, hrest⟩ := gap_ok true s
    rw [bind_ok hu] at h
    obtain ⟨⟨⟩, v, hv, h⟩ := bind_ok_iff.1 h
    rw [← stuckIn_afterGap_iff, ← hrest, char_rest hv] at hs
    obtain ⟨-, hended | ⟨hcomma, hlater⟩⟩ := hs
    · rw [afterGap_comma] at hended
      cases hended
    · rw [afterGap_comma] at hcomma
      cases hcomma
      exact hp.balks v e t ⟨rfl, hlater⟩ h

include hinner

theorem callArguments_steady :
    Steady x inside (callArguments inside inner) := by
  have hclosing : ∀ as : List Expr, Rereads x never
      (expecting .argumentsEnd (do gap true; char ')') >>= fun _ => pure as) := fun as =>
    (closing_rereads hx _).bind (fun _ => (Persists.pure as).reads) fun _ => stays_never _
  have hbalks : ∀ as : List Expr, Balks (StuckIn true)
      (expecting .argumentsEnd (do gap true; char ')') >>= fun _ => pure as) := fun as =>
    (closing_balks _).bind _
  have hreads : ∀ as : List Expr, Reads 0
      (expecting .argumentsEnd (do gap true; char ')') >>= fun _ => pure as) := fun as =>
    .after (gap_reads 0 ((Reads.char _).mono (Nat.zero_le _))).expecting fun _ => .pure as
  refine .gap hx (.word ((char_persists hx (by decide)).after fun _ => enter_persists fun p hp => ?_)
    (fun s as t h => ?_) ((Reads.char _).first fun _ => enter_reads fun p hp => .commit ?_))
  · have hargument := hinner p hp
    refine .commit (hargument.toPersists.option.reads.closed (fun o => ?_) fun o => ?_)
    · cases o with
      | none => exact hclosing []
      | some first =>
        exact (furtherArgument_steady hx hargument).many.reads.closed (fun _ => hclosing _) fun _ => hbalks _
    · cases o with
      | none => exact hbalks []
      | some first => exact (furtherArgument_steady hx hargument).balks.stays.many.balks fun _ => hbalks _
  · obtain ⟨⟨⟩, u, hu, -⟩ := bind_ok_iff.1 h
    exact ⟨_, _, char_rest hu, by decide⟩
  · have hargument := hinner p hp
    refine .after (.option (hargument.reads_one.mono (Nat.zero_le _))) fun o => ?_
    cases o with
    | none => exact hreads []
    | some first =>
      exact .after (.many ((furtherArgument_steady hx hargument).reads_one.mono (Nat.zero_le _))) fun _ => hreads _

theorem group_steady : Steady x inside (group inner) := by
  refine .word ((char_persists hx (by decide)).after fun _ => enter_persists fun p hp => ?_)
    (fun s as t h => ?_) ((Reads.char _).first fun _ => enter_reads fun p hp => .commit ?_)
  · exact .commit ((hinner p hp).reads.closed (fun e => (closing_rereads hx _).bind
      (fun _ => (Persists.pure e).reads) fun _ => stays_never _) fun e => (closing_balks _).bind _)
  · obtain ⟨⟨⟩, u, hu, -⟩ := bind_ok_iff.1 h
    exact ⟨_, _, char_rest hu, by decide⟩
  · exact ((hinner p hp).reads_one.mono (Nat.zero_le _)).after fun e =>
      .after (gap_reads 0 ((Reads.char _).mono (Nat.zero_le _))).expecting fun _ => .pure e

/-- A function call or a name. -/
theorem callOrName_steady (pos : Position) : Steady x inside (callOrName inside inner pos) := by
  have harguments : Steady x inside (callArguments inside inner) := callArguments_steady hx hinner
  refine (identifier_steady hx).bind (fun word => harguments.toPersists.option.reads.bind (fun found => ?_)
    fun found => ?_) (fun word => (Firm.option _).bind fun found => ?_)
    (fun word => harguments.balks.stays.option.bind fun found => ?_)
    fun word => (Reads.option (harguments.reads_one.mono (Nat.zero_le _))).after fun found => ?_
  · cases found with
    | none => exact (Persists.pure _).reads
    | some arguments => exact (measured_persists _ _).reads
  · cases found with
    | none => exact .pure _
    | some arguments => exact measured_stays _ _
  · cases found with
    | none => exact .pure _
    | some arguments => exact measured_firm _
  · cases found with
    | none => exact .pure _
    | some arguments => exact measured_stays _ _
  · cases found with
    | none => exact .pure _
    | some arguments => exact measured_reads _

theorem primary_steady : Steady x inside (primary inside inner) :=
  .gap hx <| .here fun pos => .expecting _ <|
    .either ((variableName_steady hx).map _) <|
    .either ((integerLiteral_steady hx).map _) <|
    .either ((textLiteral_steady hx).map _) <|
    .either (callOrName_steady hx hinner pos) (group_steady hx hinner)

/-- A method call behind its point. -/
theorem methodCall_steady : Steady x inside (commit (methodCall inside inner)) := by
  have harguments : Steady x inside (callArguments inside inner) := callArguments_steady hx hinner
  have hidentifier : Steady x inside identifier := identifier_steady hx
  have hword := hidentifier.expecting .methodName
  refine .commit (gap_rereads hx (fun _ => ?_) (Persists.here.reads.bind (fun pos => hword.reads.bind
    (fun word => harguments.reads.bind (fun as => (Persists.pure _).reads) fun _ => .pure _)
    fun _ => (harguments.balks.bind _).stays) fun _ => (hword.balks.bind _).stays))
    (gap_balks fun s as t hs h => hword.balks.bind (fun word => callArguments inside inner >>= fun arguments =>
      pure (s.position, word, arguments)) s as t hs h) (gap_reads 1 ?_)
  all_goals exact .after .here fun _ => hword.reads_one.first fun _ =>
    (harguments.reads_one.mono (Nat.zero_le _)).first fun _ => .pure _

theorem methodChain_steady : Steady x inside (methodChain inside inner) := by
  have hcall : Steady x inside (commit (methodCall inside inner)) := methodCall_steady hx hinner
  have hstep : Steady x inside (do gap inside; char '.'; commit (methodCall inside inner)) :=
    .gap hx ((char_steady hx (by decide)).bind (fun _ => hcall.reads)
      (fun _ => .commit _) (fun _ => hcall.balks.stays) fun _ => hcall.reads_one.mono (Nat.zero_le _))
  exact chain_steady (primary_steady hx hinner) hstep fun e call => .apply call.1 e call.2.1 call.2.2

omit hinner in
theorem infixOperator_steady {symbols : List Char} (hsymbols : ∀ c ∈ symbols, IsSolid c) :
    Steady x inside (infixOperator inside symbols) := by
  have hsolid : ∀ c, symbols.contains c = true → IsSolid c := fun c hc => hsymbols c (List.contains_iff_mem.1 hc)
  refine .gap hx (.here fun pos => .word ((charWhere_persists hx ?_).after fun symbol =>
    (char_persists hx (by decide)).option.after fun o => ?_) (fun s a t h => ?_)
    ((Reads.charWhere _).first fun symbol => (Reads.option ((Reads.char _).mono (Nat.zero_le _))).after fun o => ?_))
  · rw [← Bool.not_eq_true]
    intro hc
    exact absurd (hsolid _ hc).1 (by decide)
  · cases o with
    | none => exact .pure _
    | some _ => exact .miss
  · obtain ⟨c, u, hc, -⟩ := bind_ok_iff.1 h
    obtain ⟨r, hrest, hcontains⟩ := charWhere_head hc
    exact ⟨c, r, hrest, hsolid c hcontains⟩
  · cases o with
    | none => exact .pure _
    | some _ => exact .miss

omit hinner in
theorem infixChain_steady {symbols : List Char} {operand : Scan Expr}
    (hsymbols : ∀ c ∈ symbols, IsSolid c) (h : Steady x inside operand) :
    Steady x inside (infixChain inside symbols operand) := by
  have hstep : Steady x inside (do
      let found ← infixOperator inside symbols
      let rhs ← commit operand
      pure (found.1, found.2, rhs)) :=
    (infixOperator_steady hx hsymbols).bind (fun _ => h.reads.commit.bind (fun _ => (Persists.pure _).reads)
      fun _ => .pure _) (fun _ => (Firm.commit _).bind fun _ => .pure _) (fun _ => (h.balks.commit.bind _).stays)
      fun _ => (h.reads_one.mono (Nat.zero_le _)).commit.first fun _ => .pure _
  exact chain_steady h hstep fun e a => .apply a.1 e a.2.1 [a.2.2]

theorem expressionWith_steady :
    Steady x inside (expressionWith inside inner) := by
  refine infixChain_steady hx (fun c hc => ?_) (infixChain_steady hx (fun c hc => ?_)
    (methodChain_steady hx hinner))
  · simp only [List.mem_cons, List.not_mem_nil, or_false] at hc
    obtain rfl | rfl := hc
    all_goals decide
  · rw [List.mem_singleton.1 hc]
    decide

end Layers

theorem expressionIn_steady (hx : Breaks x) (room : Nat) :
    ∀ inside, Steady x inside (expressionIn room inside) := by
  induction room with
  | zero => exact fun inside => expressionWith_steady hx (by simp)
  | succ room ih =>
    refine fun inside => expressionWith_steady hx fun p hp => ?_
    cases hp
    exact ih true

/-! ## Statements -/

/-- Outside parentheses no scan is ever stuck. -/
theorem Steady.plain {α : Type} {p : Scan α} (h : Steady x false p) : Persists x never p := h.toPersists.mono nofun

theorem gap_plain {α : Type} {f : Scan α} (hx : Breaks x) (h : Persists x never f) :
    Persists x never (gap false >>= fun _ => f) :=
  (gap_persists hx nofun h.of_never).mono nofun

theorem expression_plain (hx : Breaks x) : Persists x never expression := (expressionIn_steady hx _ _).plain

theorem expression_reads : Reads 1 expression := (expressionIn_steady (x := []) nofun _ _).reads_one

theorem assignOp_persists (hx : Breaks x) : Persists x never assignOp := by
  have hops : ∀ ops : List AssignOp, (∀ op ∈ ops, '\n' ∉ op.spelling.toList) → Persists x never
      (ops.foldr (fun op other => either (do chars op.spelling.toList; pure op) other) miss) := by
    intro ops hops
    induction ops with
    | nil => exact .miss
    | cons op ops ih =>
      exact .either ((chars_persists hx (hops op List.mem_cons_self)).after fun _ => .pure op)
        (ih fun o ho => hops o (List.mem_cons_of_mem op ho)) nofun
  exact hops _ (by decide)

theorem assignment_persists (hx : Breaks x) (pos : Position) : Persists x never (assignment pos) :=
  (variableName_persists hx).after fun _ =>
    (Persists.commit ((gap_plain hx (assignOp_persists hx)).reads.expecting _)).after fun _ =>
      (Persists.commit (expression_plain hx).reads).after fun _ => .pure _

theorem command_persists (hx : Breaks x) (pos : Position) : Persists x never (command pos) := by
  refine (identifier_persists hx).after fun name => (expression_plain hx).option.after fun found => ?_
  cases found with
  | none => exact .pure _
  | some first =>
    have hcomma := (gap_plain hx (char_persists hx (show ',' ≠ '\n' by decide))).option
    refine ((hcomma.after fun _ => expression_plain hx).many ?_ nofun).after fun others => .pure _
    exact (Reads.option (gap_reads 0 ((Reads.char _).mono (Nat.zero_le _)))).after fun _ => expression_reads

theorem statement_persists (hx : Breaks x) : Persists x never statement :=
  Persists.here.after fun pos => ((assignment_persists hx pos).either (command_persists hx pos) nofun).expecting _

theorem assignOp_reads : Reads 0 assignOp := by
  have hops : ∀ ops : List AssignOp, Reads 0
      (ops.foldr (fun op other => either (do chars op.spelling.toList; pure op) other) miss) := by
    intro ops
    induction ops with
    | nil => exact .miss
    | cons op ops ih => exact .either ((Reads.chars _).after fun _ => .pure op) ih
  exact hops _

theorem statement_reads : Reads 1 statement := by
  refine .after .here fun pos => .expecting (.either ?_ ?_)
  · exact variableName_reads.first fun target => (gap_reads 0 assignOp_reads).expecting.commit.after fun op =>
      (expression_reads.mono (Nat.zero_le _)).commit.after fun value => .pure _
  · refine (Reads.charWhere isNameStart).first (fun c => (Reads.run isNameChar).after fun _ => .pure _)
      |>.first fun name => (expression_reads.mono (Nat.zero_le _)).option.after fun found => ?_
    cases found with
    | none => exact .pure _
    | some first =>
      have hcomma : Reads 0 (gap false >>= fun _ => char ',') := gap_reads 0 ((Reads.char ',').mono (Nat.zero_le _))
      exact (Reads.many (hcomma.option.after fun _ => expression_reads.mono (Nat.zero_le _))).after fun _ => .pure _

/-! ## Statement by statement -/

theorem endOfStatement_eq (s : Cursor) : ∃ u, u.rest = afterGap false s.rest ∧
    endOfStatement s = if u.rest.isEmpty then .ok ((), u) else either (char '\n') (char ';') u := by
  obtain ⟨u, hu, hrest⟩ := gap_ok false s
  refine ⟨u, hrest, ?_⟩
  rw [endOfStatement, bind_ok hu, bind_ok (p := atEnd) rfl]
  split <;> rfl

/-- A statement ends at the end of the text, or at one of two characters, which is read. -/
theorem endOfStatement_ok {s t : Cursor} (h : endOfStatement s = .ok ((), t)) :
    (afterGap false s.rest = [] ∧ t.rest = []) ∨
      ∃ c, (c = '\n' ∨ c = ';') ∧ afterGap false s.rest = c :: t.rest := by
  obtain ⟨u, hrest, heq⟩ := endOfStatement_eq s
  rw [heq] at h
  rw [← hrest]
  split at h
  · next hempty =>
    cases h
    exact .inl ⟨List.isEmpty_iff.1 hempty, List.isEmpty_iff.1 hempty⟩
  · obtain h | ⟨-, h⟩ := Persists.either_ok h
    · exact .inr ⟨_, .inl rfl, char_rest h⟩
    · exact .inr ⟨_, .inr rfl, char_rest h⟩

theorem endOfStatement_reads : Reads 0 endOfStatement := by
  intro s a t h
  have hgap : (afterGap false s.rest).length ≤ s.rest.length := by
    rw [afterGap, List.length_drop]
    omega
  obtain ⟨-, hnil⟩ | ⟨c, -, hcons⟩ := endOfStatement_ok h
  · rw [hnil]
    exact Nat.zero_le _
  · rw [hcons, List.length_cons] at hgap
    omega

theorem endOfStatement_cons {s : Cursor} {c : Char} {r : List Char} (hc : c = '\n' ∨ c = ';')
    (h : afterGap false s.rest = c :: r) : ∃ t, endOfStatement s = .ok ((), t) ∧ t.rest = r := by
  obtain ⟨u, hrest, heq⟩ := endOfStatement_eq s
  rw [h] at hrest
  refine ⟨u.next, ?_, by rw [Cursor.rest_next, hrest]; rfl⟩
  rw [heq, hrest]
  obtain rfl | rfl := hc
  all_goals simp [Scan.either, char, hrest, Scan.miss]

/-- What is read of a text depends on what is left behind the separators at its front. -/
theorem statementsUpTo_eq (n : Nat) (s : Cursor) :
    statementsUpTo (n + 1) s =
      let u := s.skip (fillerLength (fun c => Text.isBlank c || c == ';') false s.rest)
      if u.rest.isEmpty then .ok ([], u)
      else (do
        let first ← commit statement
        commit (expecting .endOfStatement endOfStatement)
        let others ← statementsUpTo n
        pure (first :: others) : Scan (List Statement)) u := by
  rw [statementsUpTo, bind_ok (p := separators) rfl, bind_ok (p := atEnd) rfl]
  dsimp only
  split <;> rfl

/-- Nothing is left behind the separators, or a statement is read there, its end, and what follows. -/
theorem statementsUpTo_ok {n : Nat} {s t : Cursor} {ss : List Statement} (h : statementsUpTo (n + 1) s = .ok (ss, t)) :
    let u := s.skip (fillerLength (fun c => Text.isBlank c || c == ';') false s.rest)
    (u.rest = [] ∧ ss = [] ∧ t = u) ∨ u.rest ≠ [] ∧ ∃ first v w others, statement u = .ok (first, v) ∧
      endOfStatement v = .ok ((), w) ∧ w.rest.length < s.rest.length ∧ statementsUpTo n w = .ok (others, t) ∧
      ss = first :: others := by
  intro u
  rw [statementsUpTo_eq] at h
  dsimp only at h
  split at h
  · next hempty =>
    cases h
    exact .inl ⟨List.isEmpty_iff.1 hempty, rfl, rfl⟩
  · next hne =>
    obtain ⟨first, v, hfirst, h⟩ := bind_ok_iff.1 h
    obtain ⟨⟨⟩, w, hend, h⟩ := bind_ok_iff.1 h
    obtain ⟨others, x, hothers, h⟩ := bind_ok_iff.1 h
    cases h
    rw [commit_ok_iff] at hfirst
    rw [commit_ok_iff, expecting_ok_iff] at hend
    have hshorter : w.rest.length < s.rest.length := by
      have h₁ := statement_reads _ _ _ hfirst
      have h₂ := endOfStatement_reads _ _ _ hend
      have h₃ := Reads.skip (k := fillerLength (fun c => Text.isBlank c || c == ';') false s.rest) (s := s)
      omega
    exact .inr ⟨mt List.isEmpty_iff.2 hne, first, v, w, others, hfirst, hend, hshorter, hothers, rfl⟩

end Provenance.Query

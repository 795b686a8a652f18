import Mathlib.Data.List.Chain
import Provenance.Proofs.LongerTexts
import Provenance.Proofs.PrintedExpressions

/-!
# Reading printed queries

Parsing undoes printing: whatever the layout, the statements are read back, and each node is given the
position at which its token is printed.
-/

namespace Provenance.Query

open Scan Cursor

variable {k : List Char} {pos : Position}

/-! ## The end of a statement -/

namespace StatementLayout

variable {l : StatementLayout} {s : Statement} {isLast : Bool}

/-- What stands between a statement and its ending. -/
def trail (l : StatementLayout) : List Char := l.blanks ++ l.comment.elim [] ('#' :: ·)

theorem rest_eq (l : StatementLayout) : l.rest = l.trail ++ (l.ending.spelling ++ l.below) :=
  List.append_assoc ..

/-- What may stand behind the trail of a statement. -/
def Closes (l : StatementLayout) (k : List Char) : Prop :=
  ∀ c ∈ k.head?, c = '\n' ∨ c = ';' ∧ l.comment = none

theorem Suits.fillerLength_trail (hl : l.Suits s isLast) (hk : l.Closes k) :
    fillerLength (passesInside false) false (l.trail ++ k) = l.trail.length := by
  rw [trail, List.append_assoc, fillerLength_of_isFiller (isFiller_of_forall hl.blanks),
    List.length_append]
  congr 1
  cases hcomment : l.comment with
  | none =>
    cases k with
    | nil => rfl
    | cons c k =>
      obtain rfl | ⟨rfl, -⟩ := hk c rfl
      · rfl
      · exact fillerLength_ink (by decide) false k
  | some body =>
    have hfeed : fillerLength (passesInside false) true k = 0 := by
      cases k with
      | nil => rfl
      | cons c k =>
        obtain rfl | ⟨-, hnone⟩ := hk c rfl
        · rfl
        · rw [hcomment] at hnone
          cases hnone
    rw [Option.elim, List.cons_append, fillerLength, if_pos rfl, fillerLength_comment (hl.comment body hcomment).1,
      hfeed, List.length_cons]
    omega

theorem Suits.afterGap_trail (hl : l.Suits s isLast) (hk : l.Closes k) : afterGap false (l.trail ++ k) = k := by
  have hdrop : afterGap false (l.trail ++ k)
      = (l.trail ++ k).drop (fillerLength (passesInside false) false (l.trail ++ k)) := rfl
  rw [hdrop, hl.fillerLength_trail hk, List.drop_left]

theorem Suits.gap_trail (hl : l.Suits s isLast) (hk : l.Closes k) (pos : Position) :
    gap false (before (l.trail ++ k) pos) = .ok ((), before k (pos.afterAll l.trail)) := by
  have hskip : gap false (before (l.trail ++ k) pos) = .ok ((), (before (l.trail ++ k) pos).skip
      (fillerLength (passesInside false) false (l.trail ++ k))) := rfl
  rw [hskip, hl.fillerLength_trail hk, skip_length]

theorem Suits.endsWord_trail (hl : l.Suits s isLast) (hk : l.Closes k) : EndsWord (l.trail ++ k) := by
  rw [trail, List.append_assoc]
  refine .filler (isFiller_of_forall hl.blanks) ?_
  cases l.comment with
  | none =>
    intro c hc
    obtain rfl | ⟨rfl, -⟩ := hk c hc
    all_goals decide
  | some body =>
    rintro _ ⟨⟩
    decide

theorem Closes.bars (hk : l.Closes k) : ∀ c ∈ k.head?, Bars c := by
  intro c hc
  obtain rfl | ⟨rfl, -⟩ := hk c hc
  all_goals exact ⟨rfl, by decide, by decide, by decide, by decide⟩

theorem Suits.behind_trail (hl : l.Suits s isLast) (hk : l.Closes k) : Behind 0 (stopsAt 0) (l.trail ++ k) := by
  refine ⟨hl.endsWord_trail hk, fun c hc => ?_⟩
  rw [decide_eq_false (Nat.lt_irrefl 0), hl.afterGap_trail hk] at hc
  obtain rfl | ⟨rfl, -⟩ := hk c hc
  all_goals decide

/-- The ending is followed by filler and further statements, unless it is that of the last statement. -/
theorem Suits.closes_ending (hl : l.Suits s isLast) {r : List Char} (hr : isLast = true → r = []) :
    l.Closes (l.ending.spelling ++ (l.below ++ r)) := by
  intro c hc
  cases hending : l.ending with
  | lineFeed =>
    rw [hending] at hc
    cases hc
    exact .inl rfl
  | semicolon =>
    rw [hending] at hc
    cases hc
    refine .inr ⟨rfl, Option.eq_none_iff_forall_not_mem.2 fun body hbody => ?_⟩
    exact (hl.comment body hbody).2 hending
  | endOfText =>
    obtain ⟨hlast, hbelow⟩ := hl.ending hending
    rw [hending, hbelow, hr hlast] at hc
    cases hc

theorem ending_before {c : Char} (hc : c = '\n' ∨ c = ';') (r : List Char) (pos : Position) :
    either (char '\n') (char ';') (before (c :: r) pos) = .ok ((), before r (pos.after c)) := by
  obtain rfl | rfl := hc
  · exact Persists.either_of_ok (char_before _ _ _)
  · have hmisses : Misses (char '\n') (before (';' :: r) pos) := char_misses (by rintro _ ⟨⟩; decide) pos
    rw [Persists.either_of_misses hmisses, char_before]

theorem Suits.endOfStatement (hl : l.Suits s isLast) {r : List Char} (hr : isLast = true → r = []) (pos : Position) :
    endOfStatement (before (l.rest ++ r) pos)
      = .ok ((), before (l.below ++ r) (pos.afterAll (l.trail ++ l.ending.spelling))) := by
  rw [rest_eq, List.append_assoc, List.append_assoc, Query.endOfStatement,
    bind_ok (hl.gap_trail (hl.closes_ending hr) pos), Position.afterAll_append]
  cases hending : l.ending with
  | lineFeed => exact (bind_ok (p := atEnd) rfl).trans (ending_before (.inl rfl) _ _)
  | semicolon => exact (bind_ok (p := atEnd) rfl).trans (ending_before (.inr rfl) _ _)
  | endOfText =>
    obtain ⟨hlast, hbelow⟩ := hl.ending hending
    rw [hbelow, hr hlast]
    rfl

end StatementLayout

/-! ## Statements -/

theorem laid_zip {spaces : List Space} {ts : List Token} (hlength : spaces.length = ts.length)
    (h : ∀ w ∈ spaces.zip ts, w.1.Suits w.2) : Laid ts (spaces.zip ts) := by
  induction spaces generalizing ts with
  | nil =>
    obtain rfl := List.length_eq_zero_iff.1 hlength.symm
    exact .nil
  | cons s spaces ih =>
    cases ts with
    | nil => cases hlength
    | cons t ts =>
      rw [List.zip_cons_cons, List.forall_mem_cons] at h
      exact .cons h.1 (ih (Nat.succ.inj hlength) h.2)

theorem StatementLayout.Suits.laid {l : StatementLayout} {s : Statement} {isLast : Bool} (hl : l.Suits s isLast) :
    Laid s.tokens (l.printed s) := laid_zip hl.length hl.spaces

/-- The statement with the positions at which its nodes are printed. -/
structure Statement.IsPlaced (s : Statement) (pos : Position) (ws : List Printed) (s' : Statement) : Prop where
  alike : s.Alike s'
  positions : s'.positions = nodePositions pos ws

theorem assignOp_before (op : AssignOp) (r : List Char) (pos : Position) :
    assignOp (before (op.spelling.toList ++ r) pos) = .ok (op, before r (pos.afterAll op.spelling.toList)) := by
  cases op with
  | set => rfl
  | union => rfl
  | subtract => rfl
  | intersect => rfl

theorem assignment_tokens {target : Variable} {op : AssignOp} {value : Expr}
    (htarget : isVariable target.name.toList = true)
    (hvalue : Recovers (scanAt 0 0) 0 (stopsAt 0) (value.tokens 0 0) value) {ws : List Printed}
    (hws : Laid (⟨0, .sign op.spelling.toList⟩ :: value.tokens 0 0) ws) (hk : Behind 0 (stopsAt 0) k)
    (node pos : Position) :
    ∃ s', (Statement.assignment node target op value).Alike s' ∧
      s'.positions = pos :: nodePositions (pos.afterAll target.name.toList) ws ∧
      assignment pos (before (target.name.toList ++ (printAll ws ++ k)) pos)
        = .ok (s', before k ((pos.afterAll target.name.toList).afterAll (printAll ws))) := by
  obtain _ | @⟨s, _, _, ws, hs, hws⟩ := hws
  obtain ⟨c, cs, hcs, hmark⟩ : ∃ c cs, op.spelling.toList = c :: cs ∧ IsMark c := by
    cases op with
    | set => exact ⟨'=', [], rfl, by decide, by decide⟩
    | union => exact ⟨'+', ['='], rfl, by decide, by decide⟩
    | subtract => exact ⟨'-', ['='], rfl, by decide, by decide⟩
    | intersect => exact ⟨'&', ['='], rfl, by decide, by decide⟩
  have hends : EndsWord (printAll ((s, ⟨0, .sign op.spelling.toList⟩) :: ws) ++ k) :=
    endsWord_mark hs hcs hmark ws k
  obtain ⟨e', he', hread⟩ := hvalue hws hk
    (((pos.afterAll target.name.toList).afterAll s.gap).afterAll op.spelling.toList)
  refine ⟨.assignment pos target op e', .assignment _ _ _ _ he'.alike, ?_, ?_⟩
  · rw [Statement.positions, he'.positions, nodePositions, Printed.print, Position.afterAll_append]
    rfl
  · have hgap := gap_token hs ⟨c, by rw [Form.spelling_sign, hcs]; rfl, hmark.ink⟩ ws k
      (pos.afterAll target.name.toList)
    have hop : (do gap false; assignOp) (before (printAll ((s, ⟨0, .sign op.spelling.toList⟩) :: ws) ++ k)
        (pos.afterAll target.name.toList)) = .ok (op, before (printAll ws ++ k)
          (((pos.afterAll target.name.toList).afterAll s.gap).afterAll op.spelling.toList)) :=
      (bind_ok hgap).trans (assignOp_before op _ _)
    rw [assignment, bind_ok (variableName_before htarget hends pos), String.ofList_toList,
      bind_ok (commit_ok_iff.2 (expecting_ok_iff.2 hop)), expression_eq, bind_ok (commit_ok_iff.2 hread), after_token]
    rfl

/-- A further argument of a command. -/
def furtherArgument : Scan Expr := do
  let _ ← option do
    gap false
    char ','
  expression

theorem furtherArgument_readsComma : ReadsComma 0 furtherArgument := by
  intro s hs ws k pos
  have hcomma : (do gap false; char ',') (before (printAll ((s, ⟨0, .sign [',']⟩) :: ws) ++ k) pos)
      = .ok ((), before (printAll ws ++ k) ((pos.afterAll s.gap).after ',')) :=
    (bind_ok (gap_token hs ⟨',', rfl, by decide⟩ ws k pos)).trans (char_before _ _ _)
  rw [furtherArgument, bind_ok (Persists.option_of_ok hcomma), expression_eq]

theorem furtherArgument_misses (hbars : ∀ c ∈ (afterGap false k).head?, Bars c)
    (hcomma : ∀ c ∈ (afterGap false k).head?, c ≠ ',') (pos : Position) : Misses furtherArgument (before k pos) := by
  have hnone : Misses (do gap false; char ',') (before k pos) := gap_misses (fun pos => char_misses hcomma pos) pos
  rw [furtherArgument, Misses, bind_ok (Persists.option_of_misses hnone), expression_eq]
  exact scanAt_misses (d := 0) hbars 0 pos

theorem command_tokens {name : String} (hname : isIdentifier name.toList = true) {arguments : List Expr}
    (harguments : ∀ e ∈ arguments, Recovers (scanAt 0 0) 0 (stopsAt 0) (e.tokens 0 0) e) {ws : List Printed}
    (hws : Laid (Expr.furtherTokens 0 0 arguments).tail ws) (hends : EndsWord (printAll ws ++ k))
    (hk : Behind 0 (stopsAt 0) k) (hbars : ∀ c ∈ (afterGap false k).head?, Bars c)
    (hcomma : ∀ c ∈ (afterGap false k).head?, c ≠ ',') (node pos : Position) :
    ∃ s', (Statement.command node name arguments).Alike s' ∧
      s'.positions = pos :: nodePositions (pos.afterAll name.toList) ws ∧
      command pos (before (name.toList ++ (printAll ws ++ k)) pos)
        = .ok (s', before k ((pos.afterAll name.toList).afterAll (printAll ws))) := by
  obtain ⟨es', hes', hread⟩ := listed_tokens furtherArgument_readsComma harguments hws hk hbars
    (furtherArgument_misses hbars hcomma) (pos.afterAll name.toList)
  refine ⟨.command pos name es', .command _ _ _ hes'.alike, ?_, ?_⟩
  · rw [Statement.positions, hes'.positions]
  · rw [command, bind_ok (identifier_before hname hends pos), String.ofList_toList]
    rw [← expression_eq] at hread
    exact hread fun es => pure (Statement.command pos name es)

/-! ## First tokens -/

theorem ne_nil_of_isIdentifier {word : List Char} (h : isIdentifier word = true) : word ≠ [] := by
  rintro rfl
  cases h

theorem ne_nil_of_isVariable {word : List Char} (h : isVariable word = true) : word ≠ [] := by
  rintro rfl
  cases h

theorem Expr.exists_first (e : Expr) (h : e.isPrintable = true) (d level : Nat) : ∃ t ts,
    e.tokens d level = t :: ts ∧ ∀ quote, t.form.spelling quote ≠ [] := by
  cases e with
  | integer pos n =>
    rw [isPrintable, Bool.and_eq_true, decide_eq_true_eq] at h
    obtain ⟨c, cs, hcs, -⟩ := head_decimal h.1
    refine ⟨_, [], rfl, fun _ hnil => ?_⟩
    cases hcs.symm.trans hnil
  | text pos value => exact ⟨_, [], rfl, fun _ => List.cons_ne_nil _ _⟩
  | name pos word => exact ⟨_, [], rfl, fun _ => ne_nil_of_isIdentifier h⟩
  | var pos v => exact ⟨_, [], rfl, fun _ => ne_nil_of_isVariable h⟩
  | call pos function arguments =>
    rw [isPrintable, Bool.and_eq_true] at h
    exact ⟨_, _, rfl, fun _ => ne_nil_of_isIdentifier h.1⟩
  | apply pos subject operator operands =>
    rw [isPrintable, Bool.and_eq_true, Bool.and_eq_true] at h
    have hsubject : ∀ d level ts, ∃ t ts', subject.tokens d level ++ ts = t :: ts' ∧
        ∀ quote, t.form.spelling quote ≠ [] := by
      intro d level ts
      obtain ⟨t, ts', ht, hspelling⟩ := subject.exists_first h.1.1 d level
      exact ⟨t, ts' ++ ts, by rw [ht, List.cons_append], hspelling⟩
    rw [tokens]
    split
    · split
      · exact ⟨_, _, rfl, fun _ => List.cons_ne_nil _ _⟩
      · exact hsubject _ _ _
    · exact hsubject _ _ _

/-- A word ends where a token stands that does not fuse with it. -/
theorem endsWord_of_apart {w : Printed} (hw : w.1.Suits w.2) (hspelling : w.spelling ≠ [])
    (hapart : (∃ c ∈ w.spelling.head?, isNameChar c = true) → w.1.gap ≠ []) (ws : List Printed) (k : List Char) :
    EndsWord (printAll (w :: ws) ++ k) := by
  have hgap : EndsWord w.1.gap := by
    have h := EndsWord.filler hw.gap (k := []) nofun
    rwa [List.append_nil] at h
  rw [printAll_cons, Printed.print, List.append_assoc]
  cases h : w.1.gap with
  | cons c gap =>
    rw [h] at hgap
    exact hgap
  | nil =>
    obtain ⟨c, cs, hcs⟩ := List.exists_cons_of_ne_nil hspelling
    rw [hcs] at hapart ⊢
    rintro _ ⟨⟩
    rw [← Bool.not_eq_true]
    exact fun hc => hapart ⟨c, rfl, hc⟩ h

/-- The first token of a statement stands at its beginning. -/
theorem StatementLayout.Suits.exists_printed {l : StatementLayout} {s : Statement} {isLast : Bool}
    (hl : l.Suits s isLast) {t : Token} {ts : List Token} (ht : s.tokens = t :: ts) :
    ∃ quote ws, l.printed s = (⟨[], quote⟩, t) :: ws ∧ Laid ts ws ∧
      ∀ w ∈ ws.head?, Printed.Fuses (⟨[], quote⟩, t) w → w.1.gap ≠ [] := by
  have hlaid := hl.laid
  have happart := hl.apart
  obtain ⟨⟨gap, quote⟩, spaces, hspaces⟩ : ∃ space spaces, l.spaces = space :: spaces := by
    refine List.exists_cons_of_length_pos ?_
    rw [hl.length, ht]
    exact Nat.succ_pos _
  obtain rfl : gap = [] := hl.first ⟨gap, quote⟩ (by rw [hspaces]; rfl)
  have hprinted : l.printed s = (⟨[], quote⟩, t) :: spaces.zip ts := by
    rw [printed, hspaces, ht, List.zip_cons_cons]
  rw [hprinted, ht] at hlaid
  rw [hprinted, List.isChain_cons] at happart
  obtain _ | ⟨-, hlaid⟩ := hlaid
  exact ⟨quote, _, hprinted, hlaid, happart.1⟩

theorem last_identifier {word : List Char} (h : isIdentifier word = true) :
    ∃ c ∈ word.getLast?, isNameChar c = true := by
  have hne := ne_nil_of_isIdentifier h
  obtain ⟨c, cs, rfl, hc, hcs⟩ := isIdentifier_iff.1 h
  have hall : ∀ a ∈ c :: cs, isNameChar a = true :=
    List.forall_mem_cons.2 ⟨isNameChar_of_isNameStart hc, List.all_eq_true.1 hcs⟩
  exact ⟨_, List.getLast?_eq_some_getLast hne, hall _ (List.getLast_mem hne)⟩

/-- The name of a command is kept apart from its arguments. -/
theorem endsWord_arguments {v : Printed} {name : List Char} (hname : isIdentifier name = true)
    (hv : v.spelling = name) {arguments : List Expr} (hprintable : Expr.arePrintable arguments = true)
    {ws : List Printed} (hws : Laid (Expr.furtherTokens 0 0 arguments).tail ws)
    (hapart : ∀ w ∈ ws.head?, v.Fuses w → w.1.gap ≠ []) (hk : EndsWord k) : EndsWord (printAll ws ++ k) := by
  cases arguments with
  | nil =>
    cases hws
    exact hk
  | cons e es =>
    have he := Expr.arePrintable_iff.1 hprintable e List.mem_cons_self
    obtain ⟨t, ts, ht, hspelling⟩ := e.exists_first he 0 0
    rw [Expr.furtherTokens, List.tail_cons, ht] at hws
    obtain _ | @⟨space, _, _, _, hs, -⟩ := hws
    exact endsWord_of_apart (w := (space, t)) hs (hspelling _) (fun hhead => hapart _ rfl ⟨hv ▸ last_identifier hname, hhead⟩) _ k

theorem assignment_misses {name : List Char} (hname : isIdentifier name = true) (k : List Char) (pos : Position) :
    Misses (assignment pos) (before (name ++ k) pos) := by
  obtain ⟨c, cs, rfl, hc, -⟩ := isIdentifier_iff.1 hname
  refine bind_misses_iff.2 (.inl (variableName_misses ?_ pos))
  rintro _ ⟨⟩
  rw [ofSigil?_of_isNameChar (isNameChar_of_isNameStart hc)]
  rfl

/-- A statement is read up to what stands behind it. -/
theorem statement_print {s : Statement} (hprintable : s.isPrintable = true) (hheight : s.height ≤ maxHeight)
    (hdepths : ∀ t ∈ s.tokens, t.depth ≤ maxNesting) {l : StatementLayout} {isLast : Bool} (hl : l.Suits s isLast)
    {r : List Char} (hr : isLast = true → r = []) (pos : Position) :
    ∃ s', s.Alike s' ∧ s'.positions = nodePositions pos (l.printed s) ∧
      statement (before (l.print s ++ r) pos)
        = .ok (s', before (l.rest ++ r) (pos.afterAll (printAll (l.printed s)))) := by
  have hcloses := hl.closes_ending hr
  have hrest : l.rest ++ r = l.trail ++ (l.ending.spelling ++ (l.below ++ r)) := by
    rw [StatementLayout.rest_eq, List.append_assoc, List.append_assoc]
  have hbehind : Behind 0 (stopsAt 0) (l.rest ++ r) := hrest ▸ hl.behind_trail hcloses
  have hafter : afterGap false (l.rest ++ r) = l.ending.spelling ++ (l.below ++ r) := by
    rw [hrest, hl.afterGap_trail hcloses]
  rw [StatementLayout.print, List.append_assoc]
  cases s with
  | assignment node target op value =>
    rw [Statement.isPrintable, Bool.and_eq_true] at hprintable
    rw [Statement.tokens, List.forall_mem_cons, List.forall_mem_cons] at hdepths
    obtain ⟨quote, ws, hws, hlaid, -⟩ := hl.exists_printed rfl
    have hvalue := (isReadBack value).recovers hprintable.2 hheight (Nat.zero_le _) hdepths.2.2
    obtain ⟨s', halike, hpositions, hread⟩ := assignment_tokens hprintable.1 hvalue hlaid hbehind node pos
    refine ⟨s', halike, ?_, ?_⟩
    · rw [hpositions, hws]
      rfl
    · rw [hws, print_token, statement, bind_ok (here_before _ _), after_token]
      exact expecting_ok_iff.2 (Persists.either_of_ok hread)
  | command node name arguments =>
    rw [Statement.isPrintable, Bool.and_eq_true] at hprintable
    rw [Statement.tokens, List.forall_mem_cons] at hdepths
    obtain ⟨quote, ws, hws, hlaid, hapart⟩ := hl.exists_printed rfl
    have harguments := recovers_each (areReadBack arguments) hprintable.2 hheight (Nat.zero_le _) hdepths.2
    have hends := endsWord_arguments hprintable.1 rfl hprintable.2 hlaid hapart hbehind.endsWord
    have hcomma : ∀ c ∈ (afterGap false (l.rest ++ r)).head?, c ≠ ',' := by
      rw [hafter]
      intro c hc
      obtain rfl | ⟨rfl, -⟩ := hcloses c hc
      all_goals decide
    obtain ⟨s', halike, hpositions, hread⟩ := command_tokens hprintable.1 harguments hlaid hends hbehind
      (by rw [hafter]; exact hcloses.bars) hcomma node pos
    refine ⟨s', halike, ?_, ?_⟩
    · rw [hpositions, hws]
      rfl
    · rw [hws, print_token, statement, bind_ok (here_before _ _), after_token]
      exact expecting_ok_iff.2 ((Persists.either_of_misses (assignment_misses hprintable.1 _ pos)).trans hread)

/-- A statement begins with a word. -/
theorem Statement.exists_first {s : Statement} (h : s.isPrintable = true) :
    ∃ c cs ts, s.tokens = ⟨0, .word (c :: cs)⟩ :: ts ∧ IsInk c ∧ c ≠ ';' := by
  cases s with
  | assignment _ target op value =>
    rw [isPrintable, Bool.and_eq_true] at h
    obtain ⟨c, cs, hcs, hc, -⟩ := isVariable_iff.1 h.1
    refine ⟨c, cs, _, by rw [tokens, hcs], ?_, ?_⟩
    · obtain ⟨d, hd, hink⟩ := head_variable h.1
      rw [hcs] at hd
      cases hd
      exact hink
    · rintro rfl
      cases hc
  | command _ name arguments =>
    rw [isPrintable, Bool.and_eq_true] at h
    obtain ⟨c, cs, hcs, hc, -⟩ := isIdentifier_iff.1 h.1
    refine ⟨c, cs, _, by rw [tokens, hcs], isInk_of_isNameChar (isNameChar_of_isNameStart hc), ?_⟩
    rintro rfl
    exact absurd hc (by decide)

theorem StatementLayout.Suits.head_print {s : Statement} (hprintable : s.isPrintable = true) {l : StatementLayout}
    {isLast : Bool} (hl : l.Suits s isLast) : ∃ c cs, printAll (l.printed s) = c :: cs ∧ IsInk c ∧ c ≠ ';' := by
  obtain ⟨c, cs, ts, hts, hc⟩ := Statement.exists_first hprintable
  obtain ⟨quote, ws, hws, -⟩ := hl.exists_printed hts
  exact ⟨c, cs ++ printAll ws, by rw [hws]; rfl, hc⟩

/-! ## Queries -/

theorem separators_before {filler : List Char} (hfiller : IsFiller passesBetween filler)
    (hk : ∀ c ∈ k.head?, IsInk c ∧ c ≠ ';') (pos : Position) :
    (before (filler ++ k) pos).skip (fillerLength passesBetween false (filler ++ k))
      = before k (pos.afterAll filler) := by
  have hzero : fillerLength passesBetween false k = 0 := by
    cases k with
    | nil => rfl
    | cons c k =>
      obtain ⟨⟨hblank, hhash⟩, hsemicolon⟩ := hk c rfl
      rw [fillerLength, if_neg hhash, passesBetween, hblank, beq_eq_false_iff_ne.2 hsemicolon]
      rfl
  rw [fillerLength_of_isFiller hfiller, hzero, Nat.add_zero, skip_length]

/-- The statements behind filler. -/
theorem statementsUpTo_before {filler : List Char} (hfiller : IsFiller passesBetween filler)
    (hk : ∀ c ∈ k.head?, IsInk c ∧ c ≠ ';') (n : Nat) (pos : Position) :
    statementsUpTo (n + 1) (before (filler ++ k) pos) =
      if k.isEmpty then .ok ([], before k (pos.afterAll filler))
      else (do
        let first ← commit statement
        commit (expecting .endOfStatement endOfStatement)
        let others ← statementsUpTo n
        pure (first :: others)) (before k (pos.afterAll filler)) := by
  have hskip := separators_before hfiller hk pos
  have heq := statementsUpTo_eq n (before (filler ++ k) pos)
  unfold passesBetween at hskip
  rw [rest_before, hskip] at heq
  exact heq

theorem printStatements_nil (ls : List StatementLayout) : Layout.printStatements ls [] = [] := by
  cases ls <;> rfl

open Layout in
theorem statementsUpTo_print {ls : List StatementLayout} {ss : List Statement} (hls : SuitAll ls ss)
    (hprintable : ∀ s ∈ ss, s.isPrintable = true) (hheight : ∀ s ∈ ss, s.height ≤ maxHeight)
    (hdepths : ∀ s ∈ ss, ∀ t ∈ s.tokens, t.depth ≤ maxNesting) {filler : List Char}
    (hfiller : IsFiller passesBetween filler) {n : Nat} (hn : (filler ++ printStatements ls ss).length < n)
    (pos : Position) :
    ∃ ss' t, statementsUpTo n (before (filler ++ printStatements ls ss) pos) = .ok (ss', t) ∧
      List.Forall₂ Statement.Alike ss ss' ∧
      ss'.flatMap Statement.positions = statementPositions (pos.afterAll filler) ls ss := by
  induction ss generalizing ls filler n pos with
  | nil =>
    obtain _ | n := n
    · cases hn
    rw [printStatements_nil, statementsUpTo_before hfiller (by rintro _ ⟨⟩)]
    refine ⟨[], _, rfl, .nil, ?_⟩
    cases ls <;> rfl
  | cons s ss ih =>
    obtain _ | n := n
    · cases hn
    match ls, hls with
    | l :: ls, ⟨hl, hls⟩ =>
      rw [List.forall_mem_cons] at hprintable hheight hdepths
      have hr : ss.isEmpty = true → printStatements ls ss = [] := by
        intro h
        rw [List.isEmpty_iff.1 h, printStatements_nil]
      obtain ⟨c, cs, hcs, hc⟩ := hl.head_print hprintable.1
      have htext : printStatements (l :: ls) (s :: ss) = c :: (cs ++ l.rest ++ printStatements ls ss) := by
        rw [printStatements, StatementLayout.print, hcs]
        rfl
      have hlength : (l.below ++ printStatements ls ss).length < n := by
        rw [htext, StatementLayout.rest_eq] at hn
        simp only [List.length_append, List.length_cons] at hn ⊢
        omega
      obtain ⟨s', halike, hpositions, hread⟩ :=
        statement_print hprintable.1 hheight.1 hdepths.1 hl hr (pos.afterAll filler)
      have hend := hl.endOfStatement hr ((pos.afterAll filler).afterAll (printAll (l.printed s)))
      obtain ⟨ss', t, hothers, halikes, hfurther⟩ := ih hls hprintable.2 hheight.2 hdepths.2 hl.below hlength
        (((pos.afterAll filler).afterAll (printAll (l.printed s))).afterAll (l.trail ++ l.ending.spelling))
      refine ⟨s' :: ss', t, ?_, .cons halike halikes, ?_⟩
      · have hink : ∀ c ∈ (printStatements (l :: ls) (s :: ss)).head?, IsInk c ∧ c ≠ ';' := by
          rw [htext]
          rintro _ ⟨⟩
          exact hc
        have hne : ¬ (printStatements (l :: ls) (s :: ss)).isEmpty = true := by
          rw [htext]
          exact Bool.false_ne_true
        rw [statementsUpTo_before hfiller hink, if_neg hne, printStatements, bind_ok (commit_ok_iff.2 hread),
          bind_ok (commit_ok_iff.2 (expecting_ok_iff.2 hend)), bind_ok hothers]
        rfl
      · rw [List.flatMap_cons, hpositions, hfurther, statementPositions, StatementLayout.print,
          StatementLayout.rest_eq, ← Position.afterAll_append, ← Position.afterAll_append, List.append_assoc]

/-- Parsing undoes printing: under every layout the statements are read back, with the positions at which their
nodes are printed. -/
theorem parse_print {ss : List Statement} (hprintable : ∀ s ∈ ss, s.isPrintable = true)
    (hheight : ∀ s ∈ ss, s.height ≤ maxHeight) (hdepths : ∀ s ∈ ss, ∀ t ∈ s.tokens, t.depth ≤ maxNesting)
    {layout : Layout} (hlayout : layout.Suits ss) :
    ∃ ss', parse (layout.print ss) = .ok ss' ∧ List.Forall₂ Statement.Alike ss ss' ∧
      ss'.flatMap Statement.positions = layout.positions ss := by
  obtain ⟨ss', t, hread, halike, hpositions⟩ := statementsUpTo_print hlayout.2 hprintable hheight hdepths hlayout.1
    (Nat.lt_succ_self _) .start
  refine ⟨ss', ?_, halike, hpositions⟩
  have hstatements : statements (.ofList (layout.print ss).toList) = .ok (ss', t) := by
    rw [Layout.print, String.toList_ofList]
    exact hread
  rw [parse, hstatements]

/-- An assignment of an expression with nested parentheses, and a command with a method call. -/
def sampleQuery : List Statement :=
  [.assignment default ⟨"$a"⟩ .union (.apply default (.var default ⟨"@b"⟩) "&" [.apply default (.integer default 1) "+"
      [.call default "f" [.integer default 7, .text default "it's"]]]),
    .command default "print" [.apply default (.var default ⟨"$a"⟩) "x" []]]

/-- Comments above the query, inside its parentheses and behind its first statement. -/
def sampleLayout : Layout :=
  let bare : Space := ⟨[], '\x22'⟩
  let blank : Space := ⟨[' '], '\x22'⟩
  { above := "# first\n".toList
    statements :=
      [{ spaces := [bare, blank, blank, blank, blank, bare, ⟨['\n'], '\x22'⟩, ⟨"# one\n".toList, '\x22'⟩, bare, bare,
          bare, ⟨[' '], '\x27'⟩, bare, bare]
         blanks := [' ']
         comment := some "done".toList
         ending := .lineFeed
         below := "\n;".toList },
       { spaces := [bare, blank, bare, bare, bare, bare]
         blanks := []
         comment := none
         ending := .endOfText
         below := [] }] }

theorem parse_print_sample :
    ∃ ss, parse "# first\n$a += @b & (1\n+# one\nf(7, 'it\\'s')) #done\n\n;print $a.x()" = .ok ss ∧
      List.Forall₂ Statement.Alike sampleQuery ss ∧
      ss.flatMap Statement.positions = [⟨2, 1⟩, ⟨2, 7⟩, ⟨2, 10⟩, ⟨2, 13⟩, ⟨3, 1⟩, ⟨4, 1⟩, ⟨4, 3⟩, ⟨4, 6⟩, ⟨6, 2⟩, ⟨6, 8⟩,
        ⟨6, 11⟩] := by
  have htext : sampleLayout.print sampleQuery
      = "# first\n$a += @b & (1\n+# one\nf(7, 'it\\'s')) #done\n\n;print $a.x()" := by decide
  have hpositions : sampleLayout.positions sampleQuery = [⟨2, 1⟩, ⟨2, 7⟩, ⟨2, 10⟩, ⟨2, 13⟩, ⟨3, 1⟩, ⟨4, 1⟩, ⟨4, 3⟩,
      ⟨4, 6⟩, ⟨6, 2⟩, ⟨6, 8⟩, ⟨6, 11⟩] := rfl
  rw [← htext, ← hpositions]
  exact parse_print (by decide) (by decide) (by decide) (by decide)

end Provenance.Query

import Provenance.Proofs.Numerals
import Provenance.Proofs.Printing
import Provenance.Proofs.Words

/-!
# Reading printed tokens

What the scans of the grammar do with the gap in front of a token and with the token itself, whatever follows:
as long as the following text does not go on with the same word, exactly the token is read.
-/

namespace Provenance.Query

open Scan

/-! ## Places in a text -/

theorem Position.afterAll_append (p : Position) (cs cs' : List Char) :
    p.afterAll (cs ++ cs') = (p.afterAll cs).afterAll cs' := List.foldl_append

namespace Cursor

/-- The place in front of a text. -/
def before (cs : List Char) (pos : Position) : Cursor := ⟨cs, cs.length, pos, (ofList cs).ahead_eq⟩

theorem rest_before (cs : List Char) (pos : Position) : (before cs pos).rest = cs := rfl

theorem next_before (c : Char) (r : List Char) (pos : Position) :
    (before (c :: r) pos).next = before r (pos.after c) := rfl

theorem skip_before (n : Nat) (cs : List Char) (pos : Position) :
    (before cs pos).skip n = before (cs.drop n) (pos.afterAll (cs.take n)) := by
  induction n generalizing cs pos with
  | zero => rfl
  | succ n ih =>
    cases cs with
    | nil => rw [skip, show (before [] pos).next = before [] pos from rfl, ih, List.drop_nil, List.take_nil]; rfl
    | cons c cs => rw [skip, next_before, ih]; rfl

theorem skip_length (cs r : List Char) (pos : Position) :
    (before (cs ++ r) pos).skip cs.length = before r (pos.afterAll cs) := by
  rw [skip_before, List.drop_left, List.take_left]

end Cursor

open Cursor

variable {cs k : List Char} {pos : Position}

/-! ## Gaps -/

theorem fillerLength_comment {passes : Char → Bool} {body : List Char} (h : '\n' ∉ body) (r : List Char) :
    fillerLength passes true (body ++ r) = body.length + fillerLength passes true r := by
  induction body with
  | nil => simp
  | cons c body ih =>
    rw [List.mem_cons, not_or] at h
    rw [List.cons_append, fillerLength, if_neg (Ne.symm h.1), ih h.2, List.length_cons]
    omega

/-- Filler is skipped as a whole, and then what follows it. -/
theorem fillerLength_of_isFiller {passes : Char → Bool} (h : IsFiller passes cs) (r : List Char) :
    fillerLength passes false (cs ++ r) = cs.length + fillerLength passes false r := by
  induction h with
  | nil => simp
  | char hc hhash _ ih =>
    rw [List.cons_append, fillerLength, if_neg hhash, if_pos hc, ih, List.length_cons]
    omega
  | comment hbody hfeed _ ih =>
    rw [List.cons_append, fillerLength, if_pos rfl, List.append_assoc, fillerLength_comment hbody, List.cons_append,
      fillerLength, if_pos rfl, if_pos hfeed, ih]
    simp only [List.length_cons, List.length_append]
    omega

theorem passesInside_hash (inside : Bool) : passesInside inside '#' = false := by cases inside <;> decide

theorem isFiller_of_forall {inside : Bool} (h : ∀ c ∈ cs, passesInside inside c = true) :
    IsFiller (passesInside inside) cs := by
  induction cs with
  | nil => exact .nil
  | cons c cs ih =>
    rw [List.forall_mem_cons] at h
    refine .char h.1 ?_ (ih h.2)
    rintro rfl
    rw [passesInside_hash] at h
    cases h.1

/-- A character that no gap and no comment begins with. -/
def IsInk (c : Char) : Prop := Text.isBlank c = false ∧ c ≠ '#'

instance (c : Char) : Decidable (IsInk c) := inferInstanceAs (Decidable (_ ∧ _))

theorem IsSolid.isInk {c : Char} (h : IsSolid c) : IsInk c := ⟨not_isBlank_of_isSolid h, h.2.2.1⟩

theorem fillerLength_ink {c : Char} (h : IsInk c) (inside : Bool) (r : List Char) :
    fillerLength (passesInside inside) false (c :: r) = 0 := by
  rw [fillerLength, if_neg h.2, passesInside, h.1]
  rfl

/-- A gap is skipped up to the token behind it. -/
theorem gap_before {inside : Bool} {gap : List Char} (hgap : IsFiller (passesInside inside) gap) {c : Char}
    (hc : IsInk c) (r : List Char) (pos : Position) :
    Query.gap inside (before (gap ++ c :: r) pos) = .ok ((), before (c :: r) (pos.afterAll gap)) := by
  have hlength : fillerLength (passesInside inside) false (gap ++ c :: r) = gap.length := by
    rw [fillerLength_of_isFiller hgap, fillerLength_ink hc, Nat.add_zero]
  have hskip : Query.gap inside (before (gap ++ c :: r) pos)
      = .ok ((), (before (gap ++ c :: r) pos).skip (fillerLength (passesInside inside) false (gap ++ c :: r))) := rfl
  rw [hskip, hlength, skip_length]

theorem afterGap_of_isFiller {inside : Bool} {gap : List Char} (hgap : IsFiller (passesInside inside) gap)
    (r : List Char) : afterGap inside (gap ++ r) = afterGap inside r := by
  have hlength := fillerLength_of_isFiller hgap r
  have hdrop : afterGap inside (gap ++ r) = (gap ++ r).drop (fillerLength (passesInside inside) false (gap ++ r)) := rfl
  rw [hdrop, hlength, List.drop_append, List.drop_eq_nil_of_le (Nat.le_add_right _ _), List.nil_append,
    Nat.add_sub_cancel_left]
  rfl

theorem afterGap_ink {c : Char} (h : IsInk c) (inside : Bool) (r : List Char) : afterGap inside (c :: r) = c :: r := by
  have hdrop : afterGap inside (c :: r) = (c :: r).drop (fillerLength (passesInside inside) false (c :: r)) := rfl
  rw [hdrop, fillerLength_ink h, List.drop_zero]

/-- What misses behind a gap. -/
theorem gap_misses {α : Type} {p : Scan α} {inside : Bool}
    (h : ∀ pos, Misses p (before (afterGap inside k) pos)) (pos : Position) :
    Misses (gap inside >>= fun _ => p) (before k pos) := by
  have hgap : gap inside (before k pos) = .ok ((), before (afterGap inside k)
      (pos.afterAll (k.take (fillerLength (passesInside inside) false k)))) :=
    congrArg (fun s => Except.ok ((), s)) (skip_before _ k pos)
  exact bind_misses_iff.2 (.inr ⟨(), _, hgap, h _⟩)

/-! ## Words -/

/-- No word goes on with the text. -/
def EndsWord (k : List Char) : Prop := ∀ c ∈ k.head?, isNameChar c = false

theorem takeWhile_word {p : Char → Bool} (hp : ∀ c, p c = true → isNameChar c = true) (hcs : cs.all p = true)
    (hk : EndsWord k) : (cs ++ k).takeWhile p = cs := by
  rw [List.takeWhile_append_of_pos (List.all_eq_true.1 hcs)]
  cases k with
  | nil => simp
  | cons c r =>
    have hc : p c = false := by
      rw [← Bool.not_eq_true]
      intro h
      have hname := hp c h
      rw [hk c rfl] at hname
      cases hname
    rw [List.takeWhile_cons, hc]
    simp

theorem isIdentifier_iff {word : List Char} : isIdentifier word = true ↔
    ∃ c cs, word = c :: cs ∧ isNameStart c = true ∧ cs.all isNameChar = true := by
  cases word with
  | nil => simp [isIdentifier]
  | cons c cs => simp [isIdentifier]

theorem isVariable_iff {word : List Char} : isVariable word = true ↔
    ∃ c cs, word = c :: cs ∧ (Kind.ofSigil? c).isSome = true ∧ cs ≠ [] ∧ cs.all isNameChar = true := by
  cases word with
  | nil => simp [isVariable]
  | cons c cs => simp [isVariable, and_assoc]

theorem charWhere_before {accepts : Char → Bool} {c : Char} (hc : accepts c = true) (r : List Char) (pos : Position) :
    charWhere accepts (before (c :: r) pos) = .ok (c, before r (pos.after c)) :=
  charWhere_ok_iff.2 ⟨rfl, hc, rfl⟩

theorem char_before (c : Char) (r : List Char) (pos : Position) :
    char c (before (c :: r) pos) = .ok ((), before r (pos.after c)) := by
  simp [char, before]
  rfl

theorem char_misses {c : Char} (h : ∀ d ∈ k.head?, d ≠ c) (pos : Position) : Misses (char c) (before k pos) := by
  rw [char_eq, bind_misses_iff, charWhere_misses_iff]
  exact .inl fun d hd => by simpa using h d hd

theorem identifier_before {word : List Char} (hword : isIdentifier word = true) (hk : EndsWord k) (pos : Position) :
    identifier (before (word ++ k) pos) = .ok (String.ofList word, before k (pos.afterAll word)) := by
  obtain ⟨c, cs, rfl, hc, hcs⟩ := isIdentifier_iff.1 hword
  have hrun : run isNameChar (before (cs ++ k) (pos.after c)) = .ok (cs, before k ((pos.after c).afterAll cs)) := by
    have hword := takeWhile_word (p := isNameChar) (fun _ h => h) hcs hk
    have hskip := skip_length cs k (pos.after c)
    simp only [run, rest_before, hword, hskip]
  rw [identifier, List.cons_append, bind_ok (charWhere_before hc _ _), bind_ok hrun]
  rfl

theorem identifier_misses (h : ∀ c ∈ k.head?, isNameStart c = false) (pos : Position) :
    Misses identifier (before k pos) := bind_misses_iff.2 (.inl (charWhere_misses_iff.2 h))

theorem variableName_before {word : List Char} (hword : isVariable word = true) (hk : EndsWord k) (pos : Position) :
    variableName (before (word ++ k) pos) = .ok (⟨String.ofList word⟩, before k (pos.afterAll word)) := by
  obtain ⟨c, cs, rfl, hc, hne, hcs⟩ := isVariable_iff.1 hword
  have hword := takeWhile_word (p := isNameChar) (fun _ h => h) hcs hk
  have hskip := skip_length (c :: cs) k pos
  simp only [variableName, rest_before, List.cons_append, hc, if_true, hword] at hskip ⊢
  rw [if_neg (by simpa using hne), ← hskip]
  rfl

theorem variableName_misses (h : ∀ c ∈ k.head?, (Kind.ofSigil? c).isSome = false) (pos : Position) :
    Misses variableName (before k pos) := by
  refine ⟨⟨false, before k pos, none⟩, ?_, rfl⟩
  cases k with
  | nil => rfl
  | cons c r =>
    simp only [variableName, before, h c rfl]
    rfl

theorem isNameChar_of_isDigit {c : Char} (h : Text.isDigit c = true) : isNameChar c = true := by
  rw [isNameChar, h, Bool.or_true, Bool.true_or]

theorem integerLiteral_before {n : Int} (hn : 0 ≤ n) (hword : Text.isWord n = true) (hk : EndsWord k) (pos : Position) :
    integerLiteral (before ((Text.decimal n).toList ++ k) pos)
      = .ok (n, before k (pos.afterAll (Text.decimal n).toList)) := by
  have hread := Text.trimmedWord?_decimal hword
  rw [Text.trimmedWord?, Text.trimBlanks_decimal] at hread
  have hskip := skip_length (Text.decimal n).toList k pos
  obtain ⟨m, rfl⟩ := Int.eq_ofNat_of_zero_le hn
  have hdigits : (Text.decimal m).toList = Nat.toDigits 10 m := by
    rw [show Text.decimal m = Text.natural m from rfl, Text.natural, String.toList_ofList]
  rw [hdigits] at hread hskip ⊢
  have hall : (Nat.toDigits 10 m).all Text.isDigit = true :=
    List.all_eq_true.2 fun c hc => Text.isDigit_of_mem_toDigits hc
  have htake := takeWhile_word (p := Text.isDigit) (fun _ => isNameChar_of_isDigit) hall hk
  simp only [integerLiteral, rest_before, htake, hread, hskip]
  rw [if_neg (by simp)]

theorem integerLiteral_misses (h : ∀ c ∈ k.head?, Text.isDigit c = false) (pos : Position) :
    Misses integerLiteral (before k pos) := by
  refine ⟨⟨false, before k pos, none⟩, ?_, rfl⟩
  cases k with
  | nil => rfl
  | cons c r =>
    simp only [integerLiteral, before, List.takeWhile_cons, h c rfl]
    rfl

/-! ## Texts -/

theorem bodyOf_escaped {quote : Char} (hquote : quote = '\x27' ∨ quote = '\x22') (value k : List Char) :
    bodyOf quote (value.flatMap (Form.escaped quote) ++ quote :: k)
      = .text (value.flatMap (Form.escaped quote)).length value := by
  have hslash : quote ≠ '\\' := by
    rintro rfl
    exact absurd hquote (by decide)
  induction value with
  | nil => exact bodyOf_quote hslash k
  | cons c value ih =>
    have hescape : ∀ d, unescape? d = some c → Form.escaped quote c = ['\\', d] →
        bodyOf quote ((c :: value).flatMap (Form.escaped quote) ++ quote :: k)
          = .text ((c :: value).flatMap (Form.escaped quote)).length (c :: value) := by
      intro d hd hc
      rw [List.flatMap_cons, hc, List.append_assoc, List.cons_append, List.cons_append, List.nil_append, bodyOf, hd]
      dsimp only
      rw [ih, Body.cons, List.length_append]
      simp [Nat.add_comm]
    have hplain : c ≠ '\\' → c ≠ quote → Form.escaped quote c = [c] →
        bodyOf quote ((c :: value).flatMap (Form.escaped quote) ++ quote :: k)
          = .text ((c :: value).flatMap (Form.escaped quote)).length (c :: value) := by
      intro hc hne heq
      rw [List.flatMap_cons, heq, List.append_assoc, List.cons_append, List.nil_append, bodyOf_cons hc, if_neg hne, ih,
        Body.cons, List.length_append]
      simp [Nat.add_comm]
    by_cases hn : c = '\n'
    · subst hn
      exact hescape 'n' rfl rfl
    by_cases ht : c = '\t'
    · subst ht
      exact hescape 't' rfl rfl
    by_cases hr : c = '\r'
    · subst hr
      exact hescape 'r' rfl rfl
    by_cases hc : c = '\\'
    · subst hc
      exact hescape '\\' rfl rfl
    have hescaped : Form.escaped quote c = if c = quote then ['\\', c] else [c] := by
      rw [Form.escaped] <;> assumption
    by_cases hsame : c = quote
    · refine hescape c ?_ (hescaped.trans (if_pos hsame))
      rw [hsame]
      obtain rfl | rfl := hquote
      all_goals rfl
    · exact hplain hc hsame (hescaped.trans (if_neg hsame))

theorem quotedLiteral_before {quote : Char} (hquote : quote = '\x27' ∨ quote = '\x22') (value k : List Char)
    (pos : Position) : quotedLiteral quote (before ((Form.text value).spelling quote ++ k) pos)
      = .ok (String.ofList value, before k (pos.afterAll ((Form.text value).spelling quote))) := by
  have hspelling : (Form.text value).spelling quote ++ k
      = quote :: (value.flatMap (Form.escaped quote) ++ quote :: k) := by
    rw [Form.spelling, List.cons_append, List.append_assoc]
    rfl
  have hposition : pos.afterAll ((Form.text value).spelling quote)
      = ((pos.after quote).afterAll (value.flatMap (Form.escaped quote))).after quote := by
    rw [Form.spelling, ← List.singleton_append, Position.afterAll_append, Position.afterAll_append]
    rfl
  rw [hspelling, hposition, quotedLiteral, bind_ok (char_before _ _ _),
    bind_ok (a := value) (t := before (quote :: k) ((pos.after quote).afterAll (value.flatMap (Form.escaped quote)))),
    bind_ok (commit_ok_iff.2 (expecting_ok_iff.2 (char_before _ _ _)))]
  · rfl
  · simp only [rest_before, bodyOf_escaped hquote, skip_length]

theorem quotedLiteral_misses {quote : Char} (h : ∀ c ∈ k.head?, c ≠ quote) (pos : Position) :
    Misses (quotedLiteral quote) (before k pos) := bind_misses_iff.2 (.inl (char_misses h pos))

theorem textLiteral_before {quote : Char} (hquote : quote = '\x27' ∨ quote = '\x22') (value k : List Char)
    (pos : Position) : textLiteral (before ((Form.text value).spelling quote ++ k) pos)
      = .ok (String.ofList value, before k (pos.afterAll ((Form.text value).spelling quote))) := by
  obtain rfl | rfl := hquote
  · exact Persists.either_of_ok (quotedLiteral_before (.inl rfl) value k pos)
  · have hmisses : Misses (quotedLiteral '\x27') (before ((Form.text value).spelling '\x22' ++ k) pos) :=
      quotedLiteral_misses (fun c hc => by cases hc; decide) pos
    rw [textLiteral, Persists.either_of_misses hmisses, quotedLiteral_before (.inr rfl)]

theorem textLiteral_misses (h : ∀ c ∈ k.head?, c ≠ '\x27' ∧ c ≠ '\x22') (pos : Position) :
    Misses textLiteral (before k pos) := by
  rw [textLiteral, Misses, Persists.either_of_misses (quotedLiteral_misses (fun c hc => (h c hc).1) pos)]
  exact quotedLiteral_misses (fun c hc => (h c hc).2) pos

/-! ## Printed tokens -/

theorem Form.spelling_operator (quote : Char) (cs : List Char) : (Form.operator cs).spelling quote = cs := rfl

theorem Form.spelling_sign (quote : Char) (cs : List Char) : (Form.sign cs).spelling quote = cs := rfl

theorem printAll_cons (w : Printed) (ws : List Printed) : printAll (w :: ws) = w.print ++ printAll ws := rfl

theorem printAll_append (ws ws' : List Printed) : printAll (ws ++ ws') = printAll ws ++ printAll ws' :=
  List.flatMap_append

theorem nodePositions_append (pos : Position) (ws ws' : List Printed) :
    nodePositions pos (ws ++ ws') = nodePositions pos ws ++ nodePositions (pos.afterAll (printAll ws)) ws' := by
  induction ws generalizing pos with
  | nil => rfl
  | cons w ws ih =>
    rw [List.cons_append, nodePositions, nodePositions, ih, List.append_assoc, printAll_cons,
      Position.afterAll_append]

/-- The tokens are printed, each behind a space that suits it. -/
inductive Laid : List Token → List Printed → Prop
  | nil : Laid [] []
  | cons {s : Space} {t : Token} {ts : List Token} {ws : List Printed} (hs : s.Suits t) (h : Laid ts ws) :
    Laid (t :: ts) ((s, t) :: ws)

theorem Laid.exists_append {ts ts' : List Token} {ws : List Printed} (h : Laid (ts ++ ts') ws) :
    ∃ vs vs', ws = vs ++ vs' ∧ Laid ts vs ∧ Laid ts' vs' := by
  induction ts generalizing ws with
  | nil => exact ⟨[], ws, rfl, .nil, h⟩
  | cons t ts ih =>
    obtain _ | ⟨hs, h⟩ := h
    obtain ⟨vs, vs', rfl, hvs, hvs'⟩ := ih h
    exact ⟨_ :: vs, vs', rfl, .cons hs hvs, hvs'⟩

/-! ## What follows a token -/

theorem isInk_of_isNameChar {c : Char} (h : isNameChar c = true) : IsInk c := by
  simp only [isNameChar, Bool.or_eq_true] at h
  obtain (h | h) | h := h
  · exact (isSolid_of_isNameStart (by rw [isNameStart, h, Bool.true_or])).isInk
  · exact (isSolid_of_isDigit h).isInk
  · rw [beq_iff_eq.1 h]
    decide

theorem EndsWord.filler {inside : Bool} {gap : List Char} (h : IsFiller (passesInside inside) gap) (hk : EndsWord k) :
    EndsWord (gap ++ k) := by
  cases h with
  | nil => exact hk
  | @char c hc =>
    rintro _ ⟨⟩
    rw [← Bool.not_eq_true]
    intro hname
    rw [passesInside, (isInk_of_isNameChar hname).1] at hc
    cases hc
  | comment =>
    rintro _ ⟨⟩
    decide

/-- What follows ends a word, and behind a gap there is none of these characters. -/
structure Behind (d : Nat) (stops k : List Char) : Prop where
  endsWord : EndsWord k
  stops : ∀ c ∈ (afterGap (decide (0 < d)) k).head?, c ∉ stops

theorem Behind.mono {d : Nat} {stops stops' : List Char} (h : Behind d stops k) (hstops : stops' ⊆ stops) :
    Behind d stops' k := ⟨h.endsWord, fun c hc hmem => h.stops c hc (hstops hmem)⟩

/-- A sign or an operator. -/
structure IsMark (c : Char) : Prop where
  ink : IsInk c
  endsWord : isNameChar c = false

theorem print_token (d : Nat) (s : Space) (form : Form) (ws : List Printed) (k : List Char) :
    printAll ((s, ⟨d, form⟩) :: ws) ++ k = s.gap ++ (form.spelling s.quote ++ (printAll ws ++ k)) := by
  simp [printAll_cons, Printed.print, Printed.spelling]

section Mark

variable {d : Nat} {s : Space} {form : Form} {c : Char} {cs : List Char} (hs : s.Suits ⟨d, form⟩)
  (hspelling : form.spelling s.quote = c :: cs) (hc : IsMark c) (ws : List Printed) (k : List Char)
include hs hspelling hc

/-- A word ends where a mark follows. -/
theorem endsWord_mark : EndsWord (printAll ((s, ⟨d, form⟩) :: ws) ++ k) := by
  rw [print_token, hspelling]
  refine .filler hs.gap ?_
  rintro _ ⟨⟩
  exact hc.endsWord

theorem behind_mark {stops : List Char} (hstops : c ∉ stops) :
    Behind d stops (printAll ((s, ⟨d, form⟩) :: ws) ++ k) := by
  refine ⟨endsWord_mark hs hspelling hc ws k, ?_⟩
  rw [print_token, hspelling, afterGap_of_isFiller hs.gap, List.cons_append, afterGap_ink hc.ink]
  rintro _ ⟨⟩
  exact hstops

end Mark

end Provenance.Query

import Provenance.Proofs.Numerals
import Provenance.Proofs.Readings

/-!
# Reading literals back

A literal is read as quoted texts and `char` calls with `||` between them, whatever follows it, unless that is a quote.
The tokens of a text are those of its runs between control characters. The quotes in a run are doubled, so that none
of them ends it.
-/

namespace Provenance.Store

open Token

variable {c : Char} {cs k : List Char}

/-! ## Numbers and quoted texts -/

/-- The number with the given digits. -/
def Decimal.ofNat (n : Nat) : Decimal := ⟨false, n, 0, true⟩

/-- Digits are read up to a character that goes on with no number. -/
theorem Decimal.readUnsigned?_natural (n : Nat) (k : List Char) :
    readUnsigned? ((Text.natural n).toList ++ ')' :: k) = some (.ofNat n, ')' :: k) := by
  have hdigits : ∀ c ∈ Nat.toDigits 10 n, Text.isDigit c = true := fun c hc => Text.isDigit_of_mem_toDigits hc
  have htake : (Nat.toDigits 10 n ++ ')' :: k).takeWhile Text.isDigit = Nat.toDigits 10 n :=
    takeWhile_accepted hdigits (by rintro _ ⟨⟩; decide)
  have hvalue : Text.digitsValue (Nat.toDigits 10 n) = n := by
    have h := Text.natural?_toDigits n
    rw [Text.natural?] at h
    split at h
    · exact Option.some.inj h
    · cases h
  have hne : (Nat.toDigits 10 n).isEmpty = false := by
    rw [List.isEmpty_eq_false_iff]
    exact Nat.toDigits_ne_nil
  rw [Text.natural, String.toList_ofList, readUnsigned?]
  simp only [htake, List.drop_left, hne, Bool.false_and]
  show some (Decimal.mk false (Text.digitsValue (Nat.toDigits 10 n ++ [])) 0 true, ')' :: k) = _
  rw [List.append_nil, hvalue]
  rfl

theorem Token.reading_natural (n : Nat) (k : List Char) : reading ((Text.natural n).toList ++ ')' :: k)
    = ahead [.number (.ofNat n) (Text.natural n)] (reading (')' :: k)) := by
  obtain ⟨c, cs, hcs⟩ := List.exists_cons_of_ne_nil (Nat.toDigits_ne_nil (n := n) (b := 10))
  have htext : (Text.natural n).toList = c :: cs := by rw [Text.natural, String.toList_ofList, hcs]
  have hc : Text.isDigit c = true := Text.isDigit_of_mem_toDigits (n := n) (by rw [hcs]; exact List.mem_cons_self)
  have hne : ∀ d, Text.isDigit d = false → c ≠ d := by
    rintro d hd rfl
    rw [hc] at hd
    cases hd
  have hgap : ∀ r, gapLength (c :: r) = 0 := by
    intro r
    have hspace : isSpace c = false := by
      simp only [isSpace, Bool.or_eq_false_iff, beq_eq_false_iff_ne]
      refine ⟨⟨⟨⟨?_, ?_⟩, ?_⟩, ?_⟩, ?_⟩ <;> exact hne _ (by decide)
    unfold gapLength
    split
    · next h => cases h; exact absurd hc (by decide)
    · next h => cases h; exact absurd hc (by decide)
    · next h => cases h; rw [hspace, if_neg Bool.false_ne_true]
    · rfl
  have hread := Decimal.readUnsigned?_natural n k
  rw [htext, List.cons_append] at hread
  have hlength : (cs ++ ')' :: k).length + 1 - (')' :: k).length = cs.length + 1 := by
    rw [List.length_append]
    omega
  have hspelling : String.ofList ((c :: (cs ++ ')' :: k)).take (cs.length + 1)) = Text.natural n := by
    rw [List.take_succ_cons, List.take_left, ← htext, String.ofList_toList]
  have hfirst : first c (cs ++ ')' :: k) = (.number (.ofNat n) (Text.natural n), cs.length + 1) := by
    unfold first
    rw [if_neg (hne _ (by decide)), hc, Bool.true_or, if_pos rfl, hread]
    dsimp only
    rw [hlength, hspelling]
  rw [htext, List.cons_append, reading_token (hne _ (by decide)) (hgap _) hfirst, List.drop_left]

/-- A text with its quotes doubled. -/
def doubled (cs : List Char) : List Char := cs.flatMap fun c => if c = '\x27' then ['\x27', '\x27'] else [c]

theorem Token.quotedText?_doubled (cs : List Char) (hk : k.head? ≠ some '\x27') :
    quotedText? (doubled cs ++ '\x27' :: k) = some (cs, (doubled cs).length + 1) := by
  induction cs with
  | nil =>
    rw [doubled, List.flatMap_nil, List.nil_append]
    unfold quotedText?
    split
    · next h => cases h
    · next h =>
      cases h
      exact absurd rfl hk
    · next h =>
      cases h
      rfl
  | cons c cs ih =>
    rw [doubled, List.flatMap_cons, List.append_assoc]
    rw [doubled] at ih
    by_cases hc : c = '\x27'
    · subst hc
      simp only [if_true, List.cons_append, List.nil_append, quotedText?, ih, Option.map_some, List.length_cons]
    · rw [if_neg hc, List.singleton_append, List.singleton_append, quotedText?, if_neg hc, ih]
      · rfl
      · intro r h
        exact absurd h hc

/-- A quoted text is read up to its last quote. -/
theorem Token.reading_quoted (cs : List Char) (hk : k.head? ≠ some '\x27') :
    reading ('\x27' :: (doubled cs ++ '\x27' :: k)) = ahead [.text (String.ofList cs)] (reading k) := by
  have hfirst : first '\x27' (doubled cs ++ '\x27' :: k) = (.text (String.ofList cs), (doubled cs).length + 1 + 1) := by
    unfold first
    rw [if_pos rfl, quotedText?_doubled cs hk]
  have hdrop : (doubled cs ++ '\x27' :: k).drop ((doubled cs).length + 1) = k := by
    rw [List.drop_append, List.drop_eq_nil_of_le (Nat.le_succ _), Nat.add_sub_cancel_left]
    rfl
  rw [reading_token (by decide) rfl hfirst, hdrop]

/-! ## Literals -/

/-- The tokens by which a control character is spliced in. -/
def spliced (c : Char) : List Token :=
  [.mark '|', .mark '|', .word "char", .mark '(', .number (.ofNat c.toNat) (Text.natural c.toNat), .mark ')', .mark '|',
    .mark '|']

/-- The tokens of a literal. What was read of a run without control characters is kept in reverse. -/
def literalFrom (run : List Char) : List Char → List Token
  | [] => [.text (String.ofList run.reverse)]
  | c :: cs =>
    if Text.isControl c then .text (String.ofList run.reverse) :: (spliced c ++ literalFrom [] cs)
    else literalFrom (c :: run) cs

/-- The tokens of a text as a literal. -/
def literalTokens (text : String) : List Token := literalFrom [] text.toList

theorem toList_quoteLiteral (text : String) : (quoteLiteral text).toList
    = '\x27' :: (text.toList.flatMap (fun c => (literalChar c).toList) ++ ['\x27']) := by
  rw [quoteLiteral, String.toList_append, String.toList_append, String.toList_join, List.flatMap_map]
  rfl

theorem toList_literalChar_control (hc : Text.isControl c = true) :
    (literalChar c).toList = '\x27' :: (" || char(".toList ++ ((Text.natural c.toNat).toList ++ ") || '".toList)) := by
  have hquote : c ≠ '\x27' := by
    rintro rfl
    exact absurd hc (by decide)
  rw [literalChar, if_neg hquote, if_pos hc, String.toList_append, String.toList_append, List.append_assoc]
  rfl

theorem toList_literalChar (hc : Text.isControl c = false) :
    (literalChar c).toList = if c = '\x27' then ['\x27', '\x27'] else [c] := by
  rw [literalChar]
  split
  · rfl
  · rw [if_neg (by simp [hc]), Char.toString, String.toList_singleton]

theorem reading_spliced (c : Char) (k : List Char) :
    reading (" || char(".toList ++ ((Text.natural c.toNat).toList ++ (") || ".toList ++ k)))
      = ahead (spliced c) (reading k) := by
  have hcall : Passes " || char(".toList [.mark '|', .mark '|', .word "char", .mark '('] :=
    .of_plainTokens? (by decide) (by decide)
  have hback : Passes ") || ".toList [.mark ')', .mark '|', .mark '|'] := .of_plainTokens? (by decide) (by decide)
  have hclosed : ") || ".toList ++ k = ')' :: (" || ".toList ++ k) := rfl
  rw [hcall, hclosed, reading_natural, ← hclosed, hback, ahead_ahead, ahead_ahead]
  rfl

theorem reading_literalFrom (run cs : List Char) (hk : k.head? ≠ some '\x27') :
    reading ('\x27' :: (doubled run.reverse ++ (cs.flatMap (fun c => (literalChar c).toList) ++ '\x27' :: k)))
      = ahead (literalFrom run cs) (reading k) := by
  induction cs generalizing run with
  | nil => exact reading_quoted run.reverse hk
  | cons c cs ih =>
    rw [List.flatMap_cons, literalFrom]
    cases hc : Text.isControl c with
    -- the run ends, and the next one starts behind the call
    | true =>
      have hnext := ih []
      rw [List.reverse_nil, doubled, List.flatMap_nil, List.nil_append] at hnext
      have htail : ∀ r, ") || '".toList ++ r = ") || ".toList ++ '\x27' :: r := fun _ => rfl
      have hblank : ∀ r, (" || char(".toList ++ r).head? ≠ some '\x27' := fun _ => by
        show some ' ' ≠ _
        decide
      rw [if_pos rfl, toList_literalChar_control hc]
      simp only [List.cons_append, List.append_assoc]
      rw [htail, reading_quoted _ (hblank _), reading_spliced, hnext, ahead_ahead, ahead_ahead]
      rfl
    -- the run goes on
    | false =>
      have hdoubled : doubled (c :: run).reverse
          = doubled run.reverse ++ if c = '\x27' then ['\x27', '\x27'] else [c] := by
        rw [List.reverse_cons, doubled, List.flatMap_append, List.flatMap_singleton]
        rfl
      rw [if_neg Bool.false_ne_true, ← ih, hdoubled, toList_literalChar hc]
      simp only [List.append_assoc]

/-- A literal is read as its tokens before anything but a quote. -/
theorem reading_literal (text : String) (hk : k.head? ≠ some '\x27') :
    reading ((quoteLiteral text).toList ++ k) = ahead (literalTokens text) (reading k) := by
  rw [toList_quoteLiteral, List.cons_append, List.append_assoc]
  exact reading_literalFrom [] text.toList hk

theorem reads_literal (text : String) : Reads (quoteLiteral text).toList (literalTokens text) := fun _ hk =>
  reading_literal text fun h => (hk '\x27' h).2 rfl

/-- No control character is written in a literal. -/
theorem isControl_of_mem_quoteLiteral {text : String} (h : c ∈ (quoteLiteral text).toList) :
    Text.isControl c = false := by
  have hfixed : ∀ {cs : List Char}, (cs.all fun c => !Text.isControl c) = true → c ∈ cs → Text.isControl c = false :=
    fun hall hc => by simpa using List.all_eq_true.1 hall c hc
  rw [toList_quoteLiteral, List.mem_cons, List.mem_append, List.mem_singleton, List.mem_flatMap] at h
  rcases h with rfl | ⟨d, -, h⟩ | rfl
  · decide
  · cases hd : Text.isControl d with
    | true =>
      rw [toList_literalChar_control hd, List.mem_cons, List.mem_append, List.mem_append] at h
      rcases h with rfl | h | h | h
      · decide
      · exact hfixed (by decide) h
      · rw [Text.natural, String.toList_ofList] at h
        exact Text.isControl_of_isDigit (Text.isDigit_of_mem_toDigits h)
      · exact hfixed (by decide) h
    | false =>
      rw [toList_literalChar hd] at h
      split at h
      · exact hfixed (by decide) h
      · rwa [List.mem_singleton.1 h]
  · decide

/-! ## Values -/

theorem character?_char (c : Char) : Reader.character? "char" (.ofNat c.toNat) = some c.toString := by
  have hword : ("char".toUpper == "CHAR") = true := by decide +kernel
  rw [Reader.character?, hword]
  simp [Decimal.ofNat]

theorem concatenation?_literalFrom (run cs : List Char) :
    Reader.concatenation? (literalFrom run cs) = some (String.ofList (run.reverse ++ cs)) := by
  induction cs generalizing run with
  | nil =>
    rw [literalFrom, List.append_nil]
    rfl
  | cons c cs ih =>
    rw [literalFrom]
    split
    · have hcall : Reader.concatenation? (.word "char" :: .mark '(' :: .number (.ofNat c.toNat) (Text.natural c.toNat)
          :: .mark ')' :: .mark '|' :: .mark '|' :: literalFrom [] cs)
          = some (c.toString ++ String.ofList cs) := by
        simp only [Reader.concatenation?, character?_char, ih, Option.bind_eq_bind, Option.bind_some]
        rfl
      rw [spliced]
      simp only [List.cons_append, List.nil_append]
      rw [Reader.concatenation?, hcall]
      simp
    · rw [ih, List.reverse_cons, List.append_assoc, List.singleton_append]

/-- A literal stands for its text. -/
theorem concatenation?_literalTokens (text : String) : Reader.concatenation? (literalTokens text) = some text := by
  rw [literalTokens, concatenation?_literalFrom, List.reverse_nil, List.nil_append, String.ofList_toList]

/-- A literal starts with a quoted text. -/
theorem literalFrom_eq_cons (run cs : List Char) : ∃ value ts, literalFrom run cs = .text value :: ts := by
  induction cs generalizing run with
  | nil => exact ⟨_, _, rfl⟩
  | cons c cs ih =>
    rw [literalFrom]
    split
    · exact ⟨_, _, rfl⟩
    · exact ih (c :: run)

/-- As a cell, a literal is its text. -/
theorem literal?_literalTokens (text : String) : Reader.literal? (literalTokens text) = some (.text text) := by
  have hvalue := concatenation?_literalTokens text
  obtain ⟨value, ts, hts⟩ := literalFrom_eq_cons [] text.toList
  rw [literalTokens, hts] at hvalue ⊢
  show (Reader.concatenation? _).map Cell.text = _
  rw [hvalue]
  rfl

end Provenance.Store

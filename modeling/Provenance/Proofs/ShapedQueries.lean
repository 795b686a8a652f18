import Mathlib.Algebra.Ring.Int.Defs
import Provenance.Proofs.LongerTexts
import Provenance.Proofs.ParsedQueries

/-!
# The shape of parsed queries

What a query is resolved from is well shaped and bounded. The words of its syntax are those that the
grammar has, infix operators have one operand, and no expression is too tall; in the text, parentheses are
nested only so deep.

How deep they are nested is read off the text alone, by a reader that knows comments and quoted texts but
no grammar. Each scan that succeeds is compared with that reader: what it reads opens and closes as many
parentheses as it may.
-/

namespace Provenance.Query

open Scan

/-! ## Expressions -/

namespace Expr

mutual

/-- The expression and all its parts. -/
def parts : Expr → List Expr
  | .integer pos n => [.integer pos n]
  | .text pos s => [.text pos s]
  | .name pos word => [.name pos word]
  | .var pos v => [.var pos v]
  | .call pos function arguments => .call pos function arguments :: partsOfAll arguments
  | .apply pos subject operator operands =>
    .apply pos subject operator operands :: (subject.parts ++ partsOfAll operands)

def partsOfAll : List Expr → List Expr
  | [] => []
  | e :: es => e.parts ++ partsOfAll es

end

theorem mem_partsOfAll {e : Expr} {es : List Expr} :
    e ∈ partsOfAll es ↔ ∃ whole ∈ es, e ∈ whole.parts := by
  induction es with
  | nil => simp [partsOfAll]
  | cons first es ih => simp [partsOfAll, ih]

end Expr

/-- A variable begins with the sigil of its kind; letters, digits and `_` follow. -/
def Variable.IsShaped (v : Variable) : Prop :=
  ∃ word, word ≠ [] ∧ (∀ c ∈ word, isNameChar c = true) ∧
    (v.name.toList = '$' :: word ∧ v.kind = .graph ∨ v.name.toList = '@' :: word ∧ v.kind = .metadata)

/-- What is said of one node: numbers are words that are not negative, names are identifiers, an infix
operator has one operand beside its subject, and the node is not too tall. -/
structure Expr.IsShaped (e : Expr) : Prop where
  integer : ∀ pos n, e = .integer pos n → 0 ≤ n ∧ n ≤ 2 ^ 63 - 1
  name : ∀ pos word, e = .name pos word → isIdentifier word.toList = true
  var : ∀ pos v, e = .var pos v → v.IsShaped
  call : ∀ pos function arguments, e = .call pos function arguments → isIdentifier function.toList = true
  apply : ∀ pos subject operator operands, e = .apply pos subject operator operands →
    if operator = "+" ∨ operator = "-" ∨ operator = "&" then operands.length = 1
    else isIdentifier operator.toList = true
  height : e.height ≤ 256

/-- All expressions of a statement, with their parts. -/
def Statement.expressions : Statement → List Expr
  | .assignment _ _ _ value => value.parts
  | .command _ _ arguments => Expr.partsOfAll arguments

/-- A variable is assigned to, or a command has an identifier for its name; and each expression is well
shaped. -/
structure Statement.IsShaped (s : Statement) : Prop where
  target : ∀ pos target op value, s = .assignment pos target op value → target.IsShaped
  name : ∀ pos name arguments, s = .command pos name arguments → isIdentifier name.toList = true
  expressions : ∀ e ∈ s.expressions, e.IsShaped

theorem Variable.isShaped_of_isVariable {v : Variable} (h : isVariable v.name.toList = true) : v.IsShaped := by
  unfold isVariable at h
  split at h
  · cases h
  · next c word heq =>
    simp only [Bool.and_eq_true, Bool.not_eq_true', List.isEmpty_eq_false_iff, List.all_eq_true] at h
    obtain ⟨⟨hsigil, hne⟩, hword⟩ := h
    refine ⟨word, hne, hword, ?_⟩
    rw [Variable.kind, heq]
    unfold Kind.ofSigil? at hsigil
    split at hsigil
    · exact .inl ⟨rfl, rfl⟩
    · exact .inr ⟨rfl, rfl⟩
    · cases hsigil

theorem isInfix_iff {operator : String} :
    isInfix operator = true ↔ operator = "+" ∨ operator = "-" ∨ operator = "&" := by
  simp [isInfix, or_assoc]

/-- No identifier is an infix operator. -/
theorem isInfix_of_isIdentifier {word : String} (h : isIdentifier word.toList = true) : isInfix word = false := by
  rw [← Bool.not_eq_true, isInfix_iff]
  rintro (rfl | rfl | rfl) <;> exact absurd h (by decide)

theorem Expr.height_le_of_leaf {e : Expr} (h : e.height = 1) : e.height ≤ 256 := h ▸ by decide

/-- Well-shaped parts make a well-shaped whole. -/
theorem Expr.isBuilt_isShaped : Expr.IsBuilt fun e => ∀ x ∈ e.parts, x.IsShaped where
  integer {pos n} hnonneg hword := by
    refine List.forall_mem_singleton.2
      ⟨?_, nofun, nofun, nofun, nofun, height_le_of_leaf (by rw [height])⟩
    rintro _ _ ⟨⟩
    rw [Text.isWord, Bool.and_eq_true, decide_eq_true_eq, decide_eq_true_eq] at hword
    omega
  text := List.forall_mem_singleton.2
    ⟨nofun, nofun, nofun, nofun, nofun, height_le_of_leaf (by rw [height])⟩
  name hword := List.forall_mem_singleton.2
    ⟨nofun, by rintro _ _ ⟨⟩; exact hword, nofun, nofun, nofun, height_le_of_leaf (by rw [height])⟩
  var hv := List.forall_mem_singleton.2 ⟨nofun, nofun,
    by rintro _ _ ⟨⟩; exact Variable.isShaped_of_isVariable hv, nofun, nofun, height_le_of_leaf (by rw [height])⟩
  call hfunction hparts hheight := by
    refine List.forall_mem_cons.2 ⟨⟨nofun, nofun, nofun, by rintro _ _ _ ⟨⟩; exact hfunction, nofun, hheight⟩,
      fun x hx => ?_⟩
    obtain ⟨e, he, hx⟩ := mem_partsOfAll.1 hx
    exact hparts e he x hx
  method hmethod hsubject hparts hheight := by
    refine List.forall_mem_cons.2 ⟨⟨nofun, nofun, nofun, nofun, ?_, hheight⟩,
      List.forall_mem_append.2 ⟨hsubject, fun x hx => ?_⟩⟩
    · rintro _ _ _ _ ⟨⟩
      rwa [if_neg]
      rw [← isInfix_iff, isInfix_of_isIdentifier hmethod]
      exact Bool.false_ne_true
    · obtain ⟨e, he, hx⟩ := mem_partsOfAll.1 hx
      exact hparts e he x hx
  operator hoperator hlhs hrhs hheight := by
    refine List.forall_mem_cons.2 ⟨⟨nofun, nofun, nofun, nofun, ?_, hheight⟩,
      List.forall_mem_append.2 ⟨hlhs, fun x hx => ?_⟩⟩
    · rintro _ _ _ _ ⟨⟩
      rw [if_pos (isInfix_iff.1 hoperator)]
      rfl
    · obtain ⟨e, he, hx⟩ := mem_partsOfAll.1 hx
      rw [List.mem_singleton.1 he] at hx
      exact hrhs x hx

theorem isShaped_of_parse {source : String} {ss : List Statement} (h : parse source = .ok ss) :
    ∀ s ∈ ss, s.IsShaped := by
  intro s hs
  have hover := isOver_of_parse Expr.isBuilt_isShaped h s hs
  cases s with
  | assignment pos target op value =>
    exact ⟨by rintro _ _ _ _ ⟨⟩; exact Variable.isShaped_of_isVariable hover.1, nofun, hover.2⟩
  | command pos name arguments =>
    refine ⟨nofun, by rintro _ _ _ ⟨⟩; exact hover.1, fun x hx => ?_⟩
    obtain ⟨e, he, hx⟩ := Expr.mem_partsOfAll.1 hx
    exact hover.2 e he x hx

/-! ## Nested parentheses -/

/-- Where a reader of a text stands who looks for parentheses. -/
inductive Region where
  | code
  | comment
  | quoted (quote : Char)
  /-- Behind a backslash in quotes. -/
  | escape (quote : Char)

/-- How deep parentheses are nested in a text that is read on from inside `depth` of them. Those in comments
and in quoted texts do not count. -/
def deepest : Region → (depth : Nat) → List Char → Nat
  | _, depth, [] => depth
  | .code, depth, c :: r =>
    if c = '(' then deepest .code (depth + 1) r
    else if c = ')' then max depth (deepest .code (depth - 1) r)
    else if c = '#' then deepest .comment depth r
    else if c = '\x27' ∨ c = '\x22' then deepest (.quoted c) depth r
    else deepest .code depth r
  | .comment, depth, c :: r => deepest (if c = '\n' then .code else .comment) depth r
  | .quoted q, depth, c :: r =>
    deepest (if c = q then .code else if c = '\\' then .escape q else .quoted q) depth r
  | .escape q, depth, _ :: r => deepest (.quoted q) depth r

/-- How deep parentheses are nested in a text, outside comments and quoted texts. -/
def nesting (text : String) : Nat := deepest .code 0 text.toList

/-- The character neither opens nor closes anything. -/
def IsNeutral (c : Char) : Prop := c ∉ ['(', ')', '#', '\x27', '\x22']

instance (c : Char) : Decidable (IsNeutral c) := inferInstanceAs (Decidable (_ ∉ _))

theorem deepest_neutral {c : Char} (hc : IsNeutral c) (depth : Nat) (r : List Char) :
    deepest .code depth (c :: r) = deepest .code depth r := by
  simp only [IsNeutral, List.mem_cons, List.not_mem_nil, or_false, not_or] at hc
  rw [deepest, if_neg hc.1, if_neg hc.2.1, if_neg hc.2.2.1, if_neg (not_or.2 hc.2.2.2)]

theorem deepest_drop {r : List Char} {n : Nat} (h : ∀ c ∈ r.take n, IsNeutral c) (depth : Nat) :
    deepest .code depth r = deepest .code depth (r.drop n) := by
  induction n generalizing r with
  | zero => rfl
  | succ n ih =>
    cases r with
    | nil => rfl
    | cons c r =>
      rw [List.take_succ_cons, List.forall_mem_cons] at h
      rw [deepest_neutral h.1, ih h.2, List.drop_succ_cons]

theorem deepest_takeWhile {accepts : Char → Bool} (h : ∀ c, accepts c = true → IsNeutral c) (depth : Nat)
    (r : List Char) : deepest .code depth r = deepest .code depth (r.drop (r.takeWhile accepts).length) := by
  refine deepest_drop (fun c hc => h c ?_) depth
  rw [← List.prefix_iff_eq_take.1 (List.takeWhile_prefix accepts)] at hc
  exact List.all_eq_true.1 List.all_takeWhile c hc

/-- Filler neither opens nor closes parentheses, and comments end with their line. -/
theorem deepest_filler {passes : Char → Bool} (h : ∀ c, passes c = true → IsNeutral c) (depth : Nat)
    (r : List Char) (comment : Bool) : deepest (if comment then .comment else .code) depth r
      = deepest .code depth (r.drop (fillerLength passes comment r)) := by
  induction r generalizing comment with
  | nil => cases comment <;> simp [deepest, fillerLength]
  | cons c r ih =>
    have hcode := ih false
    have hcomment := ih true
    simp only [Bool.false_eq_true, if_false, if_true] at hcode hcomment
    cases comment with
    | true =>
      rw [fillerLength, if_pos rfl, deepest]
      split
      · next hfeed =>
        split
        · rw [Nat.add_comm, List.drop_succ_cons, hcode]
        · rw [List.drop_zero, hfeed, deepest_neutral (by decide)]
      · rw [Nat.add_comm, List.drop_succ_cons, hcomment]
    | false =>
      rw [fillerLength, if_neg Bool.false_ne_true]
      split
      · next hhash => rw [Nat.add_comm, List.drop_succ_cons, ← hcomment, hhash]; rfl
      · split
        · next hpasses => rw [Nat.add_comm, List.drop_succ_cons, ← hcode, deepest_neutral (h c hpasses)]
        · rfl

/-- A quoted text goes on to the quote that closes it. -/
theorem deepest_body {quote : Char} (hslash : quote ≠ '\\') {r : List Char} {n : Nat} {value : List Char}
    (h : bodyOf quote r = .text n value) (depth : Nat) :
    deepest (.quoted quote) depth r = deepest (.quoted quote) depth (r.drop n) := by
  fun_induction bodyOf quote r generalizing n value with
  | case1 => cases h; rfl
  | case2 => cases h
  | case3 c r d hd ih =>
    obtain ⟨m, v, hbody, rfl, -⟩ := Body.cons_eq_text h
    rw [deepest, if_neg hslash.symm, if_pos rfl, deepest, ih hbody]
    rfl
  | case4 c r hd => cases h
  | case5 r hnone hsome => cases h; rfl
  | case6 c r hnone hsome hquote ih =>
    obtain ⟨m, v, hbody, rfl, -⟩ := Body.cons_eq_text h
    have hc : c ≠ '\\' := by
      rintro rfl
      cases r with
      | nil => exact hnone rfl rfl
      | cons d r => exact hsome d r rfl rfl
    rw [deepest, if_neg hquote, if_neg hc, ih hbody]
    rfl

/-! ## What scans open -/

/-- From `m` open parentheses the scan reads on to `n`, with at most `k` open in between; others may be open
around them. -/
def Nests {α : Type} (m n k : Nat) (p : Scan α) : Prop :=
  ∀ ⦃s a t⦄, p s = .ok (a, t) → ∀ depth,
    deepest .code (depth + m) s.rest ≤ max (depth + k) (deepest .code (depth + n) t.rest)

namespace Nests

variable {α β : Type} {l m n k : Nat} {p q : Scan α}

theorem of_eq (h : ∀ s a t, p s = .ok (a, t) → ∀ depth, deepest .code depth s.rest = deepest .code depth t.rest) :
    Nests n n k p := fun s a t ha _ => Nat.le_trans (Nat.le_of_eq (h s a t ha _)) (Nat.le_max_right _ _)

theorem pure (a : α) : Nests n n k (pure a : Scan α) := .of_eq fun _ _ _ h _ => by cases h; rfl

theorem miss : Nests m n k (miss : Scan α) := nofun

theorem stop (what : Expectation) : Nests m n k (stop what : Scan α) := nofun

/-- In further parentheses. -/
theorem within (h : Nests 0 0 k p) : Nests 1 1 (k + 1) p := fun s a t ha depth => by
  have := h ha (depth + 1)
  rwa [Nat.add_right_comm depth 1 k] at this

theorem bind {f : α → Scan β} (hp : Nests l m k p) (hf : ∀ a, Nests m n k (f a)) : Nests l n k (p >>= f) := by
  intro s b u hb depth
  obtain ⟨a, t, ha, hb⟩ := bind_ok_iff.1 hb
  have h₁ := hp ha depth
  have h₂ := hf a hb depth
  omega

theorem here : Nests n n k here := .of_eq fun _ _ _ h _ => by cases h; rfl

theorem atEnd : Nests n n k atEnd := .of_eq fun _ _ _ h _ => by cases h; rfl

theorem commit (h : Nests m n k p) : Nests m n k (commit p) := fun _ _ _ ha => h (commit_ok_iff.1 ha)

theorem expecting (h : Nests m n k p) (what : Expectation) : Nests m n k (expecting what p) := fun _ _ _ ha =>
  h (expecting_ok_iff.1 ha)

theorem either (hp : Nests m n k p) (hq : Nests m n k q) : Nests m n k (either p q) := fun _ _ _ ha =>
  (Persists.either_ok ha).elim (fun ha => hp ha) fun ha => hq ha.2

theorem option (h : Nests n n k p) : Nests n n k (option p) := by
  intro s o t ho depth
  obtain ⟨a, -, ha⟩ | ⟨-, rfl, -⟩ := Persists.option_ok ho
  · exact h ha depth
  · exact Nat.le_max_right _ _

theorem repeatUpTo (h : Nests n n k p) (i : Nat) (found : List α) : Nests n n k (repeatUpTo p i found) := by
  intro s as t ha depth
  induction i generalizing found s with
  | zero => cases ha; exact Nat.le_max_right _ _
  | succ i ih =>
    rw [Scan.repeatUpTo] at ha
    split at ha
    · next a u heq =>
      have h₁ := h heq depth
      have h₂ := ih _ ha
      omega
    · split at ha
      · cases ha
      · cases ha; exact Nat.le_max_right _ _

theorem many (h : Nests n n k p) : Nests n n k (many p) := fun s => h.repeatUpTo _ _ (s := s)

theorem foldlM {f : β → α → Scan β} (hf : ∀ b a, Nests n n k (f b a)) (as : List α) (b : β) :
    Nests n n k (as.foldlM f b) := by
  induction as generalizing b with
  | nil => exact pure b
  | cons a as ih => exact (hf b a).bind ih

/-! ### Words -/

theorem charWhere {accepts : Char → Bool} (h : ∀ c, accepts c = true → IsNeutral c) :
    Nests n n k (charWhere accepts) := .of_eq fun s c t ha depth => by
  obtain ⟨hhead, hc, rfl⟩ := charWhere_ok_iff.1 ha
  obtain ⟨r, hr⟩ := List.head?_eq_some_iff.1 hhead
  rw [Cursor.rest_next, hr, List.tail_cons, deepest_neutral (h c hc)]

theorem char {c : Char} (hc : IsNeutral c) : Nests n n k (char c) := .of_eq fun s _ t ha depth => by
  rw [char_rest ha, deepest_neutral hc]

theorem chars {cs : List Char} (h : ∀ c ∈ cs, IsNeutral c) : Nests n n k (chars cs) := .of_eq fun s _ t ha depth => by
  unfold Scan.chars at ha
  split at ha
  · next hprefix =>
    cases ha
    rw [Cursor.rest_skip]
    refine deepest_drop (fun c hc => h c ?_) depth
    rwa [List.prefix_iff_eq_take.1 (List.isPrefixOf_iff_prefix.1 hprefix)]
  · cases ha

theorem run {accepts : Char → Bool} (h : ∀ c, accepts c = true → IsNeutral c) : Nests n n k (run accepts) :=
  .of_eq fun s _ t ha depth => by
    cases ha
    rw [Cursor.rest_skip, ← deepest_takeWhile h]

theorem filler {passes : Char → Bool} (h : ∀ c, passes c = true → IsNeutral c) : Nests n n k (filler passes) :=
  .of_eq fun s _ t ha depth => by
    cases ha
    rw [Cursor.rest_skip, ← deepest_filler h depth s.rest false]
    rfl

/-- An opening parenthesis. -/
theorem opening : Nests n (n + 1) k (Scan.char '(') := fun s _ t ha depth => by
  rw [char_rest ha, deepest, if_pos rfl]
  exact Nat.le_max_right _ _

/-- A closing parenthesis. -/
theorem closing (h : n < k) : Nests (n + 1) n k (Scan.char ')') := fun s _ t ha depth => by
  rw [char_rest ha, deepest, if_neg (by decide), if_pos rfl]
  exact Nat.max_le.2 ⟨by omega, Nat.le_max_right _ _⟩

end Nests

theorem isNeutral_of_isBlank {c : Char} (h : Text.isBlank c = true) : IsNeutral c := by
  simp only [IsNeutral, List.mem_cons, List.not_mem_nil, or_false]
  rintro (rfl | rfl | rfl | rfl | rfl) <;> exact absurd h (by decide)

theorem isNeutral_of_isNameChar {c : Char} (h : isNameChar c = true) : IsNeutral c := by
  simp only [IsNeutral, List.mem_cons, List.not_mem_nil, or_false]
  rintro (rfl | rfl | rfl | rfl | rfl) <;> exact absurd h (by decide)

theorem isNeutral_of_isNameStart {c : Char} (h : isNameStart c = true) : IsNeutral c := by
  simp only [IsNeutral, List.mem_cons, List.not_mem_nil, or_false]
  rintro (rfl | rfl | rfl | rfl | rfl) <;> exact absurd h (by decide)

theorem isNeutral_of_isDigit {c : Char} (h : Text.isDigit c = true) : IsNeutral c := by
  simp only [IsNeutral, List.mem_cons, List.not_mem_nil, or_false]
  rintro (rfl | rfl | rfl | rfl | rfl) <;> exact absurd h (by decide)

section Words

variable {n k : Nat}

theorem gap_nests (inside : Bool) : Nests n n k (gap inside) :=
  .filler fun _ hc => isNeutral_of_isBlank (Bool.and_eq_true _ _ ▸ hc).1

theorem separators_nests : Nests n n k separators := by
  refine .filler fun c hc => ?_
  rw [Bool.or_eq_true, beq_iff_eq] at hc
  obtain hc | rfl := hc
  · exact isNeutral_of_isBlank hc
  · decide

theorem identifier_nests : Nests n n k identifier :=
  (Nests.charWhere fun _ => isNeutral_of_isNameStart).bind fun _ =>
    (Nests.run fun _ => isNeutral_of_isNameChar).bind fun _ => .pure _

theorem variableName_nests : Nests n n k variableName := .of_eq fun s v t h depth => by
  unfold variableName at h
  split at h
  · cases h
  · next c r heq =>
    split at h
    · next hsigil =>
      dsimp only at h
      split at h
      · cases h
      · cases h
        have hc : IsNeutral c := by
          unfold Kind.ofSigil? at hsigil
          split at hsigil
          · decide
          · decide
          · cases hsigil
        rw [Cursor.rest_skip, heq, List.drop_succ_cons, deepest_neutral hc,
          ← deepest_takeWhile fun _ => isNeutral_of_isNameChar]
    · cases h

theorem integerLiteral_nests : Nests n n k integerLiteral := .of_eq fun s v t h depth => by
  unfold integerLiteral at h
  dsimp only at h
  split at h
  · cases h
  · split at h
    · cases h
      rw [Cursor.rest_skip, ← deepest_takeWhile fun _ => isNeutral_of_isDigit]
    · cases h

theorem quotedLiteral_nests {quote : Char} (hquote : quote = '\x27' ∨ quote = '\x22') :
    Nests n n k (quotedLiteral quote) := .of_eq fun s v t h depth => by
  have hslash : quote ≠ '\\' := by obtain rfl | rfl := hquote <;> decide
  obtain ⟨⟨⟩, t₁, hopen, h⟩ := bind_ok_iff.1 h
  obtain ⟨value, t₂, hbody, h⟩ := bind_ok_iff.1 h
  obtain ⟨⟨⟩, t₃, hclose, h⟩ := bind_ok_iff.1 h
  cases h
  have hclose := char_rest (expecting_ok_iff.1 (commit_ok_iff.1 hclose))
  have hquoted : ∀ r, deepest .code depth (quote :: r) = deepest (.quoted quote) depth r := fun r => by
    obtain rfl | rfl := hquote <;> rfl
  have hclosed : ∀ r, deepest (.quoted quote) depth (quote :: r) = deepest .code depth r := fun r => by
    rw [deepest, if_pos rfl]
  rw [char_rest hopen, hquoted]
  split at hbody
  · next length w heq =>
    cases hbody
    rw [Cursor.rest_skip] at hclose
    rw [deepest_body hslash heq, hclose, hclosed]
  · next heq =>
    cases hbody
    rw [hclose, bodyOf_quote hslash] at heq
    cases heq
  · cases hbody

theorem textLiteral_nests : Nests n n k textLiteral :=
  (quotedLiteral_nests (.inl rfl)).either (quotedLiteral_nests (.inr rfl))

end Words

/-! ## What expressions open -/

theorem measured_nests {n k : Nat} (e : Expr) : Nests n n k (measured e) := by
  unfold measured
  split
  · exact .stop _
  · exact .pure _

section Layers

variable {k : Nat} {inside : Bool} {inner : Option (Scan Expr)} (hinner : ∀ p ∈ inner, 0 < k ∧ Nests 1 1 k p)

include hinner

/-- What is read in parentheses, and the parenthesis that closes them. -/
theorem enter_nests {α : Type} {f : Scan Expr → Scan α} (hf : ∀ p, 0 < k → Nests 1 1 k p → Nests 1 0 k (f p)) :
    Nests 1 0 k (enter inner >>= f) := by
  unfold enter
  split
  · next p => exact hf p (hinner p rfl).1 (hinner p rfl).2
  · exact nofun

omit hinner in
theorem closing_nests {α : Type} (hk : 0 < k) (what : Expectation) (a : α) :
    Nests 1 0 k (expecting what (gap true >>= fun _ => char ')') >>= fun _ => pure a) :=
  (((gap_nests true).bind fun _ => .closing hk).expecting what).bind fun _ => .pure a

theorem callArguments_nests : Nests 0 0 k (callArguments inside inner) := by
  refine (gap_nests inside).bind fun _ => Nests.opening.bind fun _ => enter_nests hinner fun argument hk hargument =>
    .commit (hargument.option.bind fun first => ?_)
  cases first with
  | none => exact (Nests.pure _).bind (closing_nests hk _)
  | some first =>
    refine (Nests.many ((gap_nests true).bind fun _ => (Nests.char (by decide)).bind fun _ => hargument)).bind
      fun others => ?_
    exact (Nests.pure _).bind (closing_nests hk _)

theorem group_nests : Nests 0 0 k (group inner) :=
  Nests.opening.bind fun _ => enter_nests hinner fun _ hk hexpression =>
    .commit (hexpression.bind fun e => closing_nests hk _ e)

theorem primary_nests : Nests 0 0 k (primary inside inner) := by
  refine (gap_nests inside).bind fun _ => Nests.here.bind fun pos => .expecting ?_ _
  refine .either (variableName_nests.bind fun _ => .pure _) ?_
  refine .either (integerLiteral_nests.bind fun _ => .pure _) ?_
  refine .either (textLiteral_nests.bind fun _ => .pure _) ?_
  refine .either (identifier_nests.bind fun word => (callArguments_nests hinner).option.bind fun found => ?_)
    (group_nests hinner)
  cases found with
  | none => exact .pure _
  | some arguments => exact measured_nests _

theorem methodChain_nests : Nests 0 0 k (methodChain inside inner) := by
  have hcall : Nests 0 0 k (methodCall inside inner) :=
    (gap_nests inside).bind fun _ => Nests.here.bind fun _ => (identifier_nests.expecting _).bind fun _ =>
      (callArguments_nests hinner).bind fun _ => .pure _
  refine (primary_nests hinner).bind fun subject => (Nests.many ((gap_nests inside).bind fun _ =>
    (Nests.char (by decide)).bind fun _ => hcall.commit)).bind fun calls => ?_
  exact .foldlM (fun _ _ => measured_nests _) calls subject

omit hinner in
theorem infixChain_nests {symbols : List Char} (hsymbols : ∀ c ∈ symbols, IsNeutral c) {operand : Scan Expr}
    (h : Nests 0 0 k operand) : Nests 0 0 k (infixChain inside symbols operand) := by
  have hoperator : Nests 0 0 k (infixOperator inside symbols) := by
    refine (gap_nests inside).bind fun _ => Nests.here.bind fun _ =>
      (Nests.charWhere fun c hc => hsymbols c (List.contains_iff_mem.1 hc)).bind fun _ =>
        (Nests.char (by decide)).option.bind fun found => ?_
    cases found with
    | none => exact .pure _
    | some _ => exact .miss
  refine h.bind fun first => (Nests.many (hoperator.bind fun found => h.commit.bind fun _ => .pure _)).bind
    fun others => ?_
  exact .foldlM (fun _ _ => measured_nests _) others first

theorem expressionWith_nests : Nests 0 0 k (expressionWith inside inner) :=
  infixChain_nests (by simp [IsNeutral]) (infixChain_nests (by simp [IsNeutral]) (methodChain_nests hinner))

end Layers

/-- An expression opens as many parentheses as there is room for. -/
theorem expressionIn_nests (room : Nat) : ∀ inside, Nests 0 0 room (expressionIn room inside) := by
  induction room with
  | zero => exact fun inside => expressionWith_nests (by simp)
  | succ room ih =>
    refine fun inside => expressionWith_nests fun p hp => ?_
    cases hp
    exact ⟨Nat.succ_pos room, (ih true).within⟩

/-! ## What statements open -/

theorem expression_nests : Nests 0 0 maxNesting expression := expressionIn_nests _ _

theorem assignOp_nests {n k : Nat} : Nests n n k assignOp := by
  have hops : ∀ ops : List AssignOp, (∀ op ∈ ops, ∀ c ∈ op.spelling.toList, IsNeutral c) → Nests n n k
      (ops.foldr (fun op other => either (do chars op.spelling.toList; pure op) other) miss) := by
    intro ops hops
    induction ops with
    | nil => exact .miss
    | cons op ops ih =>
      exact .either ((Nests.chars (hops op List.mem_cons_self)).bind fun _ => .pure op)
        (ih fun o ho => hops o (List.mem_cons_of_mem op ho))
  exact hops _ (by simp [AssignOp.all, AssignOp.spelling, IsNeutral])

theorem statement_nests : Nests 0 0 maxNesting statement := by
  refine Nests.here.bind fun pos => .expecting (.either ?_ ?_) _
  · exact variableName_nests.bind fun target =>
      (((gap_nests false).bind fun _ => assignOp_nests).expecting _).commit.bind fun op =>
        expression_nests.commit.bind fun value => .pure _
  · refine identifier_nests.bind fun name => expression_nests.option.bind fun found => ?_
    cases found with
    | none => exact .pure _
    | some first =>
      exact (Nests.many ((Nests.option ((gap_nests false).bind fun _ => .char (by decide))).bind fun _ =>
        expression_nests)).bind fun _ => .pure _

theorem endOfStatement_nests {n k : Nat} : Nests n n k endOfStatement := by
  refine (gap_nests false).bind fun _ => Nests.atEnd.bind fun ended => ?_
  split
  · exact .pure _
  · exact .either (.char (by decide)) (.char (by decide))

theorem statementsUpTo_nests (n : Nat) : Nests 0 0 maxNesting (statementsUpTo n) := by
  induction n with
  | zero => exact .pure _
  | succ n ih =>
    refine separators_nests.bind fun _ => Nests.atEnd.bind fun ended => ?_
    split
    · exact .pure _
    · exact statement_nests.commit.bind fun _ => (endOfStatement_nests.expecting _).commit.bind fun _ =>
        ih.bind fun _ => .pure _

/-- Statements are read up to the end of the text. -/
theorem statementsUpTo_rest {n : Nat} {s t : Cursor} {ss : List Statement} (hn : s.rest.length < n)
    (h : statementsUpTo n s = .ok (ss, t)) : t.rest = [] := by
  induction n generalizing s ss with
  | zero => omega
  | succ n ih =>
    obtain ⟨hempty, rfl, rfl⟩ | ⟨-, first, v, w, others, -, -, hshorter, hothers, rfl⟩ := statementsUpTo_ok h
    · exact hempty
    · exact ih (by omega) hothers

/-- What a text is parsed to is well shaped, and in the text parentheses are nested only as deep as they
may be. -/
theorem parse_shaped {source : String} {ss : List Statement} (h : parse source = .ok ss) :
    (∀ s ∈ ss, s.IsShaped) ∧ nesting source ≤ 64 := by
  refine ⟨isShaped_of_parse h, ?_⟩
  unfold parse at h
  split at h
  · next found t heq =>
    have hread : statementsUpTo (source.toList.length + 1) (.ofList source.toList) = .ok (found, t) := heq
    have hrest := statementsUpTo_rest (Nat.lt_succ_self source.toList.length) hread
    have hnests := statementsUpTo_nests _ hread 0
    rw [hrest, deepest, Nat.max_eq_left (Nat.zero_le _), Nat.zero_add] at hnests
    exact hnests
  · cases h

/-- Parentheses in a comment and in a text do not count. -/
theorem parse_shaped_nested : ∃ ss, parse "$a = (vertices(1) + $base.limit(2)) # (((\nstat $a; native '(('" = .ok ss ∧
    (∀ s ∈ ss, s.IsShaped) ∧ nesting "$a = (vertices(1) + $base.limit(2)) # (((\nstat $a; native '(('" = 2 := by
  have hparse : (parse "$a = (vertices(1) + $base.limit(2)) # (((\nstat $a; native '(('").toOption.isSome = true := by
    decide +kernel
  cases h : parse "$a = (vertices(1) + $base.limit(2)) # (((\nstat $a; native '(('" with
  | error e => rw [h] at hparse; cases hparse
  | ok ss => exact ⟨ss, rfl, (parse_shaped h).1, by decide +kernel⟩

end Provenance.Query

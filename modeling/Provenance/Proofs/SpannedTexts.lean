import Provenance.Proofs.IndexedPositions
import Provenance.Proofs.LeadingKeywords

/-!
# Expressions and the texts they span

Which part of a text an expression is read from, and where its nodes stand in it. The positions are given by what is
left of the text at a node: at the first character of a leaf or of a function call, at an infix operator, and at the
name of a method. The rules follow the grammar; each one says where the gaps are.
-/

namespace Provenance.Query

open Scan

variable {α β : Type}

/-! ## Rows -/

/-- Values are read one behind the other, and something in front of each of them. -/
inductive Row (separates : List Char → List Char → Prop) (R : List Char → α → List Char → Prop) :
    List α → List Char → List Char → Prop
  | nil (r : List Char) : Row separates R [] r r
  | cons {a : α} {as : List α} {r r₁ r₂ r₃ : List Char} (hseparates : separates r r₁) (ha : R r₁ a r₂)
    (has : Row separates R as r₂ r₃) : Row separates R (a :: as) r r₃

/-- Nothing is read, or a value and a row behind it. -/
inductive Listed (separates : List Char → List Char → Prop) (R : List Char → α → List Char → Prop) :
    List α → List Char → List Char → Prop
  | none (r : List Char) : Listed separates R [] r r
  | some {a : α} {as : List α} {r r₁ r₂ : List Char} (ha : R r a r₁) (has : Row separates R as r₁ r₂) :
    Listed separates R (a :: as) r r₂

/-! ## Spans -/

/-- A comma and the gap in front of it. -/
def IsComma (inside : Bool) (r r₁ : List Char) : Prop := afterGap inside r = ',' :: r₁

variable (place : List Char → Position)

/-- The expression is written at the front of a text, and the rest of the text is left; `place` gives the position at
which so much is left. On level 0 and 1 an expression may end in an infix operation, on level 2 in a method call. -/
inductive Expr.Spans : (inside : Bool) → (level : Nat) → List Char → Expr → List Char → Prop
  | gap {inside : Bool} {r r₁ : List Char} {e : Expr} (h : Spans inside 3 (afterGap inside r) e r₁) :
    Spans inside 3 r e r₁
  | var {inside : Bool} {v : Variable} {r : List Char} (hname : isVariable v.name.toList = true)
    (hends : EndsWord r) : Spans inside 3 (v.name.toList ++ r) (.var (place (v.name.toList ++ r)) v) r
  | integer {inside : Bool} {digits r : List Char} {n : Int} (hdigits : digits ≠ [])
    (hall : digits.all Text.isDigit = true) (hends : ∀ c ∈ r.head?, Text.isDigit c = false)
    (hvalue : Text.word? digits = some n) : Spans inside 3 (digits ++ r) (.integer (place (digits ++ r)) n) r
  | text {inside : Bool} {quote : Char} {r r₁ value : List Char} {n : Nat} (hquote : quote = '\x27' ∨ quote = '\x22')
    (hbody : bodyOf quote r = .text n value) (hclose : r.drop n = quote :: r₁) :
    Spans inside 3 (quote :: r) (.text (place (quote :: r)) (String.ofList value)) r₁
  | name {inside : Bool} {word : String} {r : List Char} (hword : isIdentifier word.toList = true)
    (hends : EndsWord r) : Spans inside 3 (word.toList ++ r) (.name (place (word.toList ++ r)) word) r
  | call {inside : Bool} {function : String} {r r₁ r₂ r₃ : List Char} {es : List Expr}
    (hfunction : isIdentifier function.toList = true) (hends : EndsWord r) (hopen : afterGap inside r = '(' :: r₁)
    (hes : Listed (IsComma true) (Spans true 0) es r₁ r₂) (hclose : afterGap true r₂ = ')' :: r₃) :
    Spans inside 3 (function.toList ++ r) (.call (place (function.toList ++ r)) function es) r₃
  | group {inside : Bool} {r r₁ r₂ : List Char} {e : Expr} (h : Spans true 0 r e r₁)
    (hclose : afterGap true r₁ = ')' :: r₂) : Spans inside 3 ('(' :: r) e r₂
  | method {inside : Bool} {r r₁ r₂ r₃ r₄ r₅ r₆ : List Char} {e : Expr} {method : String} {es : List Expr}
    (h : Spans inside 2 r e r₁) (hpoint : afterGap inside r₁ = '.' :: r₂)
    (hname : afterGap inside r₂ = method.toList ++ r₃) (hmethod : isIdentifier method.toList = true)
    (hends : EndsWord r₃) (hopen : afterGap inside r₃ = '(' :: r₄)
    (hes : Listed (IsComma true) (Spans true 0) es r₄ r₅) (hclose : afterGap true r₅ = ')' :: r₆) :
    Spans inside 2 r (.apply (place (method.toList ++ r₃)) e method es) r₆
  | operation {inside : Bool} {level : Nat} {r r₁ r₂ r₃ : List Char} {e e' : Expr} {symbol : Char}
    (hlevel : level ≤ 1) (hsymbol : symbol ∈ symbolsAt level) (h : Spans inside level r e r₁)
    (hoperator : afterGap inside r₁ = symbol :: r₂) (hequals : r₂.head? ≠ some '=')
    (h' : Spans inside (level + 1) r₂ e' r₃) :
    Spans inside level r (.apply (place (symbol :: r₂)) e symbol.toString [e']) r₃
  | tighter {inside : Bool} {level : Nat} {r r₁ : List Char} {e : Expr} (h : Spans inside (level + 1) r e r₁) :
    Spans inside level r e r₁

/-- The arguments of a call are written in parentheses, behind a gap. -/
def ArgumentsSpan (inside : Bool) (r : List Char) (es : List Expr) (r₃ : List Char) : Prop :=
  ∃ r₁ r₂, afterGap inside r = '(' :: r₁ ∧ Listed (IsComma true) (Expr.Spans place true 0) es r₁ r₂ ∧
    afterGap true r₂ = ')' :: r₃

/-- What is written behind the point of a method call. -/
inductive MethodSpan (inside : Bool) : List Char → Position × String × List Expr → List Char → Prop
  | intro {r r₁ r₂ : List Char} {method : String} {es : List Expr} (hname : afterGap inside r = method.toList ++ r₁)
    (hmethod : isIdentifier method.toList = true) (hends : EndsWord r₁) (hes : ArgumentsSpan place inside r₁ es r₂) :
    MethodSpan inside r (place (method.toList ++ r₁), method, es) r₂

/-- An infix operator and its right operand are written. -/
inductive OperationSpan (inside : Bool) (level : Nat) : List Char → Position × String × Expr → List Char → Prop
  | intro {r r₁ : List Char} {symbol : Char} {e : Expr} (hsymbol : symbol ∈ symbolsAt level)
    (hequals : r.head? ≠ some '=') (h : Expr.Spans place inside (level + 1) r e r₁) :
    OperationSpan inside level (symbol :: r) (place (symbol :: r), symbol.toString, e) r₁

variable {place : List Char → Position}

/-! ## Cursors with these positions -/

/-- From the cursor on, the positions are those of `place`. -/
def Cursor.Keeps (place : List Char → Position) (s : Cursor) : Prop :=
  ∀ n, (s.skip n).position = place (s.skip n).rest

theorem Cursor.Keeps.position {s : Cursor} (h : s.Keeps place) : s.position = place s.rest := h 0

theorem Cursor.Keeps.of_precedes {s t : Cursor} (h : s.Keeps place) (ht : s.Precedes t) : t.Keeps place := by
  obtain ⟨m, rfl⟩ := ht
  intro n
  rw [← skip_add]
  exact h (m + n)

/-- Where the scan begins and what it gives are related to where it ends, as long as cursors have these positions. -/
def Scan.Follows (place : List Char → Position) (R : List Char → α → List Char → Prop) (p : Scan α) : Prop :=
  ∀ ⦃s t : Cursor⦄ ⦃a : α⦄, s.Keeps place → p s = .ok (a, t) → t.Keeps place ∧ R s.rest a t.rest

namespace Scan.Follows

variable {R : List Char → α → List Char → Prop} {p q : Scan α}

/-- A scan that only goes forward. -/
theorem of_echoes {g : α → β} {p' : Scan β} (hechoes : ∀ s, Echoes (.along s) g p p')
    (h : ∀ s t a, p s = .ok (a, t) → R s.rest a t.rest) : Follows place R p := fun s t a hs ha =>
  ⟨hs.of_precedes (precedes_of_echoes (hechoes s) ha), h s t a ha⟩

theorem bind {S : List Char → β → List Char → Prop} {f : α → Scan β} (hp : Follows place R p)
    (hf : ∀ r a, Follows place (fun r₁ b r₂ => R r a r₁ → S r b r₂) (f a)) : Follows place S (p >>= f) := by
  intro s u b hs h
  obtain ⟨a, t, ha, hb⟩ := bind_ok_iff.1 h
  obtain ⟨ht, hR⟩ := hp hs ha
  obtain ⟨hu, hS⟩ := hf s.rest a ht hb
  exact ⟨hu, hS hR⟩

theorem mono {S : List Char → α → List Char → Prop} (h : Follows place R p) (hRS : ∀ r a r₁, R r a r₁ → S r a r₁) :
    Follows place S p := fun _ _ _ hs ha => (h hs ha).imp_right (hRS _ _ _)

theorem pure {a : α} (h : ∀ r, R r a r) : Follows place R (pure a) := by
  rintro s t b hs ⟨⟩
  exact ⟨hs, h _⟩

theorem commit (h : Follows place R p) : Follows place R (commit p) := fun _ _ _ hs ha => h hs (commit_ok_iff.1 ha)

theorem expecting (what : Expectation) (h : Follows place R p) : Follows place R (expecting what p) :=
  fun _ _ _ hs ha => h hs (expecting_ok_iff.1 ha)

theorem either (hp : Follows place R p) (hq : Follows place R q) : Follows place R (either p q) := by
  intro s t a hs h
  obtain h | ⟨-, h⟩ := Persists.either_ok h
  · exact hp hs h
  · exact hq hs h

theorem option (h : Follows place R p) :
    Follows place (fun r o r₁ => (∃ a, o = some a ∧ R r a r₁) ∨ o = none ∧ r₁ = r) (option p) := by
  intro s t o hs ho
  obtain ⟨a, rfl, ha⟩ | ⟨rfl, rfl, -⟩ := Persists.option_ok ho
  · exact (h hs ha).imp_right fun hR => .inl ⟨a, rfl, hR⟩
  · exact ⟨hs, .inr ⟨rfl, rfl⟩⟩

/-- What is read again and again is read in a row. -/
theorem many {separates : List Char → List Char → Prop}
    (h : Follows place (fun r a r₂ => ∃ r₁, separates r r₁ ∧ R r₁ a r₂) p) :
    Follows place (fun r as r₁ => Row separates R as r r₁) (many p) := by
  have hrepeat : ∀ n found, Follows place (fun r as r₁ => ∃ others, as = found.reverse ++ others ∧
      Row separates R others r r₁) (repeatUpTo p n found) := by
    intro n
    induction n with
    | zero =>
      rintro found s t as hs ⟨⟩
      exact ⟨hs, [], (List.append_nil _).symm, .nil _⟩
    | succ n ih =>
      intro found s t as hs has
      rw [repeatUpTo] at has
      split at has
      · next a u ha =>
        obtain ⟨hu, r₁, hseparates, hR⟩ := h hs ha
        obtain ⟨ht, others, rfl, hothers⟩ := ih (a :: found) hu has
        refine ⟨ht, a :: others, ?_, .cons hseparates hR hothers⟩
        rw [List.reverse_cons, List.append_assoc, List.singleton_append]
      · split at has
        · cases has
        · cases has
          exact ⟨hs, [], (List.append_nil _).symm, .nil _⟩
  intro s t as hs has
  obtain ⟨ht, others, rfl, hothers⟩ := hrepeat _ [] hs has
  exact ⟨ht, hothers⟩

end Scan.Follows

theorem Row.foldl {separates : List Char → List Char → Prop} {R : List Char → α → List Char → Prop}
    {S : β → List Char → Prop} {grow : β → α → β}
    (hgrow : ∀ b r r₁ a r₂, S b r → separates r r₁ → R r₁ a r₂ → S (grow b a) r₂) {as : List α} {r r₁ : List Char}
    (has : Row separates R as r r₁) {b : β} (hb : S b r) : S (as.foldl grow b) r₁ := by
  induction has generalizing b with
  | nil r => exact hb
  | cons hseparates ha _ ih => exact ih (hgrow _ _ _ _ _ hb hseparates ha)

/-! ## Expressions -/

theorem measured_follows (e : Expr) : Follows place (fun r e' r₁ => e' = e ∧ r₁ = r) (measured e) := by
  intro s t e' hs h
  obtain ⟨rfl, rfl⟩ := measured_ok h
  exact ⟨hs, rfl, rfl⟩

theorem foldlM_measured_ok {grow : Expr → α → Expr} {as : List α} {e e' : Expr} {s t : Cursor}
    (h : as.foldlM (fun e a => measured (grow e a)) e s = .ok (e', t)) : e' = as.foldl grow e ∧ t = s := by
  induction as generalizing e with
  | nil => cases h; exact ⟨rfl, rfl⟩
  | cons a as ih =>
    rw [List.foldlM_cons] at h
    obtain ⟨e₁, u, hfirst, hothers⟩ := bind_ok_iff.1 h
    obtain ⟨rfl, rfl⟩ := measured_ok hfirst
    exact ih hothers

/-- A chain is followed operand by operand. -/
theorem chain_follows {separates : List Char → List Char → Prop} {R : List Char → α → List Char → Prop}
    {S : List Char → Expr → List Char → Prop} {head : Scan Expr} {step : Scan α} {g : Expr → α → Expr}
    (hhead : Follows place S head) (hstep : Follows place (fun r a r₂ => ∃ r₁, separates r r₁ ∧ R r₁ a r₂) step)
    (hgrow : ∀ r e r₁ r₂ a r₃, S r e r₁ → separates r₁ r₂ → R r₂ a r₃ → S r (g e a) r₃) :
    Follows place S (chain head step g) := by
  intro s v e hs h
  obtain ⟨first, t, hfirst, h⟩ := bind_ok_iff.1 h
  obtain ⟨others, u, hothers, h⟩ := bind_ok_iff.1 h
  obtain ⟨rfl, rfl⟩ := foldlM_measured_ok h
  obtain ⟨ht, hfirst⟩ := hhead hs hfirst
  obtain ⟨hv, hrow⟩ := hstep.many ht hothers
  exact ⟨hv, hrow.foldl (S := fun e r => S s.rest e r) (fun e r r₁ a r₂ => hgrow s.rest e r r₁ a r₂) hfirst⟩

/-! ### Words -/

theorem gap_follows (inside : Bool) : Follows place (fun r _ r₁ => r₁ = afterGap inside r) (gap inside) :=
  .of_echoes (fun _ => gap_echoes inside) fun s t _ h => by
    obtain ⟨u, hu, hrest⟩ := gap_ok inside s
    cases hu.symm.trans h
    exact hrest

theorem here_follows : Follows place (fun r pos r₁ => pos = place r ∧ r₁ = r) here := by
  rintro s t pos hs ⟨⟩
  exact ⟨hs, hs.position, rfl⟩

theorem char_follows (c : Char) : Follows place (fun r _ r₁ => r = c :: r₁) (char c) :=
  .of_echoes (fun _ => .char c) fun _ _ _ h => char_rest h

/-- What is read behind a gap. -/
theorem Scan.Follows.gap {R : List Char → α → List Char → Prop} {p : Scan α} (h : Follows place R p) (inside : Bool) :
    Follows place (fun r a r₁ => R (afterGap inside r) a r₁) (gap inside >>= fun _ => p) :=
  (gap_follows inside).bind fun _ _ => h.mono fun _ _ _ hR hgap => hgap ▸ hR

theorem charWhere_follows (accepts : Char → Bool) :
    Follows place (fun r c r₁ => r = c :: r₁ ∧ accepts c = true) (charWhere accepts) :=
  .of_echoes (fun _ => .charWhere accepts) fun s t c h => by
    obtain ⟨hhead, haccepts, rfl⟩ := charWhere_ok_iff.1 h
    obtain ⟨r, hr⟩ := List.head?_eq_some_iff.1 hhead
    rw [Cursor.rest_next, hr]
    exact ⟨rfl, haccepts⟩

theorem rest_skip_takeWhile (accepts : Char → Bool) (s : Cursor) :
    (s.skip (s.rest.takeWhile accepts).length).rest = s.rest.dropWhile accepts := by
  have hdrop : ((s.rest.takeWhile accepts) ++ s.rest.dropWhile accepts).drop (s.rest.takeWhile accepts).length
      = s.rest.dropWhile accepts := List.drop_left
  rwa [List.takeWhile_append_dropWhile, ← Cursor.rest_skip] at hdrop

theorem head?_dropWhile {accepts : Char → Bool} {r : List Char} :
    ∀ c ∈ (r.dropWhile accepts).head?, accepts c = false := by
  intro c hc
  have := List.head?_dropWhile_not accepts r
  rw [Option.mem_def.1 hc] at this
  simpa using this

/-- A word is read as far as it goes. -/
theorem identifier_follows : Follows place (fun r word r₁ => isIdentifier word.toList = true ∧ EndsWord r₁ ∧
    r = word.toList ++ r₁) identifier :=
  .of_echoes (fun _ => identifier_echoes) fun s t word h => by
    obtain ⟨c, u, hc, h⟩ := bind_ok_iff.1 h
    obtain ⟨cs, v, hcs, h⟩ := bind_ok_iff.1 h
    cases hcs
    cases h
    obtain ⟨hhead, hstart, rfl⟩ := charWhere_ok_iff.1 hc
    obtain ⟨r, hr⟩ := List.head?_eq_some_iff.1 hhead
    have hrest : s.next.rest = r := by rw [Cursor.rest_next, hr]; rfl
    rw [rest_skip_takeWhile, hrest, String.toList_ofList, hr, List.cons_append, List.takeWhile_append_dropWhile]
    refine ⟨isIdentifier_iff.2 ⟨c, _, rfl, hstart, List.all_takeWhile⟩, head?_dropWhile, rfl⟩

theorem variableName_follows : Follows place (fun r v r₁ => isVariable v.name.toList = true ∧ EndsWord r₁ ∧
    r = v.name.toList ++ r₁) variableName :=
  .of_echoes (fun _ => variableName_echoes) fun s t v h => by
    unfold variableName at h
    split at h
    · cases h
    · next c r hr =>
      split at h
      · next hsigil =>
        dsimp only at h
        split at h
        · cases h
        · next hword =>
          cases h
          have hrest : (s.skip ((r.takeWhile isNameChar).length + 1)).rest = r.dropWhile isNameChar := by
            have hnext : s.next.rest = r := by rw [Cursor.rest_next, hr]; rfl
            rw [Cursor.skip, ← hnext, rest_skip_takeWhile]
          rw [hrest, String.toList_ofList, hr, List.cons_append, List.takeWhile_append_dropWhile]
          have hne : r.takeWhile isNameChar ≠ [] := fun hnil => hword (List.isEmpty_iff.2 hnil)
          exact ⟨isVariable_iff.2 ⟨c, _, rfl, hsigil, hne, List.all_takeWhile⟩, head?_dropWhile, rfl⟩
      · cases h

/-- The digits are read as far as they go. -/
theorem integerLiteral_follows : Follows place (fun r n r₁ => ∃ digits, digits ≠ [] ∧ digits.all Text.isDigit = true ∧
    (∀ c ∈ r₁.head?, Text.isDigit c = false) ∧ Text.word? digits = some n ∧ r = digits ++ r₁) integerLiteral :=
  .of_echoes (fun _ => integerLiteral_echoes) fun s t n h => by
    unfold integerLiteral at h
    dsimp only at h
    split at h
    · cases h
    · next hdigits =>
      split at h
      · next n hvalue =>
        cases h
        have hne : s.rest.takeWhile Text.isDigit ≠ [] := fun hnil => hdigits (List.isEmpty_iff.2 hnil)
        rw [rest_skip_takeWhile]
        exact ⟨_, hne, List.all_takeWhile, head?_dropWhile, hvalue, List.takeWhile_append_dropWhile.symm⟩
      · cases h

theorem quotedLiteral_follows {quote : Char} (hslash : quote ≠ '\\') :
    Follows place (fun r value r₁ => ∃ k n cs, r = quote :: k ∧ bodyOf quote k = .text n cs ∧
      value = String.ofList cs ∧ k.drop n = quote :: r₁) (quotedLiteral quote) :=
  .of_echoes (fun _ => quotedLiteral_echoes quote) fun s t value h => by
    obtain ⟨⟨⟩, u, hopen, h⟩ := bind_ok_iff.1 h
    obtain ⟨cs, v, hbody, h⟩ := bind_ok_iff.1 h
    obtain ⟨⟨⟩, w, hclose, h⟩ := bind_ok_iff.1 h
    cases h
    have hquote := char_rest (expecting_ok_iff.1 (commit_ok_iff.1 hclose))
    split at hbody
    · next n value hvalue =>
      cases hbody
      rw [Cursor.rest_skip] at hquote
      exact ⟨_, n, cs, char_rest hopen, hvalue, rfl, hquote⟩
    · next hdangling =>
      cases hbody
      rw [hquote, bodyOf_quote hslash] at hdangling
      cases hdangling
    · cases hbody

theorem textLiteral_follows : Follows place (fun r value r₁ => ∃ quote, (quote = '\x27' ∨ quote = '\x22') ∧ ∃ k n cs,
    r = quote :: k ∧ bodyOf quote k = .text n cs ∧ value = String.ofList cs ∧ k.drop n = quote :: r₁) textLiteral :=
  .either ((quotedLiteral_follows (by decide)).mono fun _ _ _ h => ⟨_, .inl rfl, h⟩)
    ((quotedLiteral_follows (by decide)).mono fun _ _ _ h => ⟨_, .inr rfl, h⟩)

/-! ### Layers -/

section Layers

variable {inside : Bool} {inner : Option (Scan Expr)}
  (hinner : ∀ p ∈ inner, Follows place (Expr.Spans place true 0) p)

/-- A list is read, and then something that may depend on it. -/
theorem listed_follows {separates : List Char → List Char → Prop} {R : List Char → Expr → List Char → Prop}
    {S : List Char → β → List Char → Prop} {argument step : Scan Expr} {f : List Expr → Scan β}
    (hargument : Follows place R argument)
    (hstep : Follows place (fun r e r₂ => ∃ r₁, separates r r₁ ∧ R r₁ e r₂) step)
    (hf : ∀ r es, Follows place (fun r₁ b r₂ => Listed separates R es r r₁ → S r b r₂) (f es)) :
    Follows place S (listed argument step f) := by
  intro s v b hs h
  obtain ⟨found, t, hfound, hrest⟩ := bind_ok_iff.1 h
  obtain ⟨first, rfl, hfirst⟩ | ⟨rfl, rfl, -⟩ := Persists.option_ok hfound
  · obtain ⟨others, u, hothers, hb⟩ := bind_ok_iff.1 hrest
    obtain ⟨ht, hfirst⟩ := hargument hs hfirst
    obtain ⟨hu, hothers⟩ := hstep.many ht hothers
    exact (hf s.rest _ hu hb).imp_right fun hS => hS (.some hfirst hothers)
  · exact (hf _ [] hs hrest).imp_right fun hS => hS (.none _)

include hinner

theorem enter_follows {S : List Char → β → List Char → Prop} {f : Scan Expr → Scan β}
    (hf : ∀ p, Follows place (Expr.Spans place true 0) p → Follows place S (f p)) :
    Follows place S (enter inner >>= f) := by
  unfold enter
  split
  · exact hf _ (hinner _ rfl)
  · exact fun _ _ _ _ h => nomatch h

theorem callArguments_follows : Follows place (ArgumentsSpan place inside) (callArguments inside inner) := by
  refine (gap_follows inside).bind fun _ _ => (char_follows '(').bind fun _ _ => enter_follows hinner fun argument
    hargument => .commit ?_
  have hstep : Follows place (fun r e r₂ => ∃ r₁, IsComma true r r₁ ∧ Expr.Spans place true 0 r₁ e r₂)
      (do gap true; char ','; argument) :=
    (gap_follows true).bind fun _ _ => (char_follows ',').bind fun _ _ => hargument.mono
      fun _ _ _ he hcomma hgap => ⟨_, hgap.symm.trans hcomma, he⟩
  exact listed_follows (f := fun arguments => do
    expecting .argumentsEnd do
      gap true
      char ')'
    pure arguments) hargument hstep fun _ es =>
      Follows.bind (((char_follows ')').gap true).expecting .argumentsEnd) fun _ _ => .pure
        fun _ hclose hes hopen hgap => ⟨_, _, hgap.symm.trans hopen, hes, hclose⟩

theorem group_follows : Follows place (Expr.Spans place inside 3) (group inner) :=
  (char_follows '(').bind fun _ _ => enter_follows hinner fun _ hexpression => .commit <|
    hexpression.bind fun _ _ => Follows.bind (((char_follows ')').gap true).expecting .groupEnd) fun _ _ => .pure
      fun _ hclose he hopen => hopen ▸ .group he hclose

/-- A function call or a bare name, when `pos` is its position. -/
theorem callOrName_follows (pos : Position) :
    Follows place (fun r e r₁ => pos = place r → Expr.Spans place inside 3 r e r₁) (callOrName inside inner pos) := by
  refine identifier_follows.bind fun r word => (callArguments_follows hinner).option.bind fun r₁ found => ?_
  cases found with
  | none =>
    refine .pure ?_
    rintro _ (⟨_, hsome, -⟩ | ⟨-, rfl⟩) ⟨hword, hends, rfl⟩ rfl
    · cases hsome
    · exact .name hword hends
  | some arguments =>
    refine (measured_follows _).mono ?_
    rintro r₂ e r₃ ⟨rfl, rfl⟩ (⟨es, hes, r₄, r₅, hopen, hlisted, hclose⟩ | ⟨hnone, -⟩) ⟨hword, hends, rfl⟩ rfl
    · cases hes
      exact .call hword hends hopen hlisted hclose
    · cases hnone

theorem alternatives_follows (pos : Position) :
    Follows place (fun r e r₁ => pos = place r → Expr.Spans place inside 3 r e r₁)
      (alternatives inside inner pos) := by
  refine .either (variableName_follows.bind fun r v => .pure ?_) <|
    .either (integerLiteral_follows.bind fun r n => .pure ?_) <|
    .either (textLiteral_follows.bind fun r value => .pure ?_) <|
    .either (callOrName_follows hinner pos) <| (group_follows hinner).mono fun _ _ _ h _ => h
  · rintro r₁ ⟨hname, hends, rfl⟩ rfl
    exact .var hname hends
  · rintro r₁ ⟨digits, hdigits, hall, hends, hvalue, rfl⟩ rfl
    exact .integer hdigits hall hends hvalue
  · rintro r₁ ⟨quote, hquote, k, n, cs, rfl, hbody, rfl, hclose⟩ rfl
    exact .text hquote hbody hclose

theorem primary_follows : Follows place (Expr.Spans place inside 3) (primary inside inner) :=
  (gap_follows inside).bind fun _ _ => here_follows.bind fun _ pos => Follows.expecting .expression <|
    (alternatives_follows hinner pos).mono fun _ _ _ h hpos hgap => by
      obtain ⟨rfl, rfl⟩ := hpos
      subst hgap
      exact .gap (h rfl)

theorem methodStep_follows : Follows place (fun r call r₂ => ∃ r₁, afterGap inside r = '.' :: r₁ ∧
    MethodSpan place inside r₁ call r₂) (methodStep inside inner) := by
  refine (gap_follows inside).bind fun _ _ => (char_follows '.').bind fun _ _ => .commit <|
    (gap_follows inside).bind fun _ _ => here_follows.bind fun _ pos =>
    (identifier_follows.expecting .methodName).bind fun _ word =>
    (callArguments_follows hinner).bind fun _ es => .pure ?_
  rintro r₂ hes ⟨hword, hends, rfl⟩ ⟨rfl, rfl⟩ hname hpoint hgap
  exact ⟨_, hgap.symm.trans hpoint, .intro hname.symm hword hends hes⟩

theorem methodChain_follows : Follows place (Expr.Spans place inside 2) (methodChain inside inner) := by
  refine chain_follows (primary_follows hinner |>.mono fun _ _ _ h => .tighter h) (methodStep_follows hinner) ?_
  rintro r e r₁ r₂ _ r₃ he hpoint ⟨hname, hword, hends, r₄, r₅, hopen, hes, hclose⟩
  exact .method he hpoint hname hword hends hopen hes hclose

omit hinner in
theorem infixOperator_follows (symbols : List Char) : Follows place (fun r found r₁ => ∃ symbol ∈ symbols,
    afterGap inside r = symbol :: r₁ ∧ r₁.head? ≠ some '=' ∧ found = (place (symbol :: r₁), symbol.toString))
    (infixOperator inside symbols) := by
  intro s x found hs h
  obtain ⟨⟨⟩, t, hgap, h⟩ := bind_ok_iff.1 h
  obtain ⟨pos, u, hpos, h⟩ := bind_ok_iff.1 h
  obtain ⟨symbol, v, hsymbol, h⟩ := bind_ok_iff.1 h
  obtain ⟨equals, w, hequals, hfound⟩ := bind_ok_iff.1 h
  obtain ⟨ht, hgap⟩ := gap_follows inside hs hgap
  obtain ⟨hu, rfl, hu'⟩ := here_follows ht hpos
  obtain ⟨hv, hsymbol, haccepts⟩ := charWhere_follows _ hu hsymbol
  obtain ⟨a, rfl, -⟩ | ⟨rfl, rfl, hmisses⟩ := Persists.option_ok hequals
  · cases hfound
  · cases hfound
    rw [hu'] at hsymbol
    rw [hsymbol]
    refine ⟨hv, symbol, List.contains_iff_mem.1 haccepts, hgap.symm.trans hsymbol, fun hhead => ?_, rfl⟩
    obtain ⟨r, hr⟩ := List.head?_eq_some_iff.1 hhead
    obtain ⟨e, he, -⟩ := hmisses
    rw [char, hr] at he
    cases he

omit hinner in
theorem infixChain_follows {level : Nat} (hlevel : level ≤ 1) {operand : Scan Expr}
    (hoperand : Follows place (Expr.Spans place inside (level + 1)) operand) :
    Follows place (Expr.Spans place inside level) (infixChain inside (symbolsAt level) operand) := by
  have hstep : Follows place (fun r a r₂ => ∃ r₁, afterGap inside r = r₁ ∧ OperationSpan place inside level r₁ a r₂)
      (infixStep inside (symbolsAt level) operand) := by
    refine (infixOperator_follows _).bind fun r found => hoperand.commit.bind fun r₁ rhs => .pure ?_
    rintro r₂ hrhs ⟨symbol, hsymbol, hgap, hequals, rfl⟩
    exact ⟨_, hgap, .intro hsymbol hequals hrhs⟩
  refine chain_follows (g := joined) (hoperand.mono fun _ _ _ h => .tighter h) hstep ?_
  rintro r e r₁ _ _ r₃ he hgap ⟨hsymbol, hequals, hrhs⟩
  exact .operation hlevel hsymbol he hgap hequals hrhs

theorem expressionWith_follows : Follows place (Expr.Spans place inside 0) (expressionWith inside inner) :=
  infixChain_follows (Nat.zero_le 1) (infixChain_follows (Nat.le_refl 1) (methodChain_follows hinner))

end Layers

theorem expressionIn_follows (room : Nat) (inside : Bool) :
    Follows place (Expr.Spans place inside 0) (expressionIn room inside) := by
  induction room generalizing inside with
  | zero => exact expressionWith_follows nofun
  | succ room ih =>
    refine expressionWith_follows fun p hp => ?_
    cases hp
    exact ih true

theorem expression_follows : Follows place (Expr.Spans place false 0) expression := expressionIn_follows _ _

end Provenance.Query

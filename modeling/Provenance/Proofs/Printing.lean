import Provenance.Proofs.Positions
import Provenance.Query.Grammar

/-!
# Printing queries

A query is printed as a list of tokens, with as few parentheses as its operators allow. A layout says what
stands between the tokens: blanks, inside parentheses also line feeds and comments, and between statements
comments on lines of their own. It also chooses the quotes of each text.

A parser cannot know the positions of the nodes that a query was printed from. It finds the places where the
tokens of the nodes are printed.
-/

namespace Provenance.Query

/-! ## Tokens -/

/-- What is printed as a whole. All but signs stand for a node of the syntax. -/
inductive Form where
  /-- A name, a variable or a number. -/
  | word (spelling : List Char)
  | text (value : List Char)
  /-- An infix operator. -/
  | operator (spelling : List Char)
  /-- What only separates: parentheses, commas, the points of method calls, assignment operators. -/
  | sign (spelling : List Char)
  deriving DecidableEq, Repr, Inhabited

namespace Form

/-- How a character of a text is written in the given quotes. -/
def escaped (quote : Char) : Char → List Char
  | '\n' => ['\\', 'n']
  | '\t' => ['\\', 't']
  | '\r' => ['\\', 'r']
  | '\\' => ['\\', '\\']
  | c => if c = quote then ['\\', c] else [c]

def spelling (quote : Char) : Form → List Char
  | word cs => cs
  | text value => quote :: (value.flatMap (escaped quote) ++ [quote])
  | operator cs => cs
  | sign cs => cs

/-- Whether the token gives a node its position. -/
def isNode : Form → Bool
  | sign _ => false
  | _ => true

end Form

/-- A token, and how many parentheses are open in front of it. -/
structure Token where
  depth : Nat
  form : Form
  deriving DecidableEq, Repr, Inhabited

/-- Tokens in parentheses. -/
def parenthesized (depth : Nat) (ts : List Token) : List Token :=
  ⟨depth, .sign ['(']⟩ :: (ts ++ [⟨depth + 1, .sign [')']⟩])

/-- How tightly an infix operator binds. -/
def precedence (operator : String) : Nat := if operator == "&" then 1 else 0

namespace Expr

mutual

/-- The tokens of an expression inside `depth` parentheses. Operators that bind less tightly than `level` are
put in parentheses of their own. -/
def tokens (depth level : Nat) : Expr → List Token
  | .integer _ n => [⟨depth, .word (Text.decimal n).toList⟩]
  | .text _ s => [⟨depth, .text s.toList⟩]
  | .name _ word => [⟨depth, .word word.toList⟩]
  | .var _ v => [⟨depth, .word v.name.toList⟩]
  | .call _ function arguments =>
    ⟨depth, .word function.toList⟩ :: parenthesized depth (furtherTokens (depth + 1) 0 arguments).tail
  | .apply _ subject operator operands =>
    if isInfix operator then
      if precedence operator < level then
        parenthesized depth (subject.tokens (depth + 1) (precedence operator)
          ++ ⟨depth + 1, .operator operator.toList⟩
            :: (furtherTokens (depth + 1) (precedence operator + 1) operands).tail)
      else
        subject.tokens depth (precedence operator)
          ++ ⟨depth, .operator operator.toList⟩ :: (furtherTokens depth (precedence operator + 1) operands).tail
    else
      subject.tokens depth 2 ++ ⟨depth, .sign ['.']⟩ :: ⟨depth, .word operator.toList⟩
        :: parenthesized depth (furtherTokens (depth + 1) 0 operands).tail

/-- The tokens of expressions, each with a comma in front of it. -/
def furtherTokens (depth level : Nat) : List Expr → List Token
  | [] => []
  | e :: es => ⟨depth, .sign [',']⟩ :: (e.tokens depth level ++ furtherTokens depth level es)

end

end Expr

def Statement.tokens : Statement → List Token
  | .assignment _ target op value =>
    ⟨0, .word target.name.toList⟩ :: ⟨0, .sign op.spelling.toList⟩ :: value.tokens 0 0
  | .command _ name arguments => ⟨0, .word name.toList⟩ :: (Expr.furtherTokens 0 0 arguments).tail

/-! ## What can be printed -/

def isIdentifier : List Char → Bool
  | [] => false
  | c :: cs => isNameStart c && cs.all isNameChar

/-- A sigil, and then letters, digits and `_`. -/
def isVariable : List Char → Bool
  | [] => false
  | c :: cs => (Kind.ofSigil? c).isSome && !cs.isEmpty && cs.all isNameChar

namespace Expr

mutual

/-- Names are identifiers, numbers are words that are not negative, and infix operators have one operand. -/
def isPrintable : Expr → Bool
  | .integer _ n => 0 ≤ n && Text.isWord n
  | .text _ _ => true
  | .name _ word => isIdentifier word.toList
  | .var _ v => isVariable v.name.toList
  | .call _ function arguments => isIdentifier function.toList && arePrintable arguments
  | .apply _ subject operator operands =>
    subject.isPrintable && arePrintable operands
      && (if isInfix operator then operands.length == 1 else isIdentifier operator.toList)

def arePrintable : List Expr → Bool
  | [] => true
  | e :: es => e.isPrintable && arePrintable es

end

end Expr

namespace Statement

def isPrintable : Statement → Bool
  | .assignment _ target _ value => isVariable target.name.toList && value.isPrintable
  | .command _ name arguments => isIdentifier name.toList && Expr.arePrintable arguments

/-- The height of the tallest expression. -/
def height : Statement → Nat
  | .assignment _ _ _ value => value.height
  | .command _ _ arguments => Expr.tallest arguments

end Statement

/-! ## Layouts -/

/-- Characters that pass, and comments, each closed by a line feed, if that passes. -/
inductive IsFiller (passes : Char → Bool) : List Char → Prop
  | nil : IsFiller passes []
  | char {c : Char} (hc : passes c = true) (hhash : c ≠ '#') {cs : List Char} (h : IsFiller passes cs) :
    IsFiller passes (c :: cs)
  | comment {body : List Char} (hbody : '\n' ∉ body) (hfeed : passes '\n' = true) {cs : List Char}
    (h : IsFiller passes cs) : IsFiller passes ('#' :: (body ++ '\n' :: cs))

/-- Whether the text is filler, or inside a comment goes on to its end and then with filler. -/
def isFilled (passes : Char → Bool) : (inComment : Bool) → List Char → Bool
  | inComment, [] => !inComment
  | true, c :: r => if c = '\n' then passes '\n' && isFilled passes false r else isFilled passes true r
  | false, c :: r => if c = '#' then isFilled passes true r else passes c && isFilled passes false r

theorem IsFiller.isFilled {passes : Char → Bool} {cs : List Char} (h : IsFiller passes cs) :
    isFilled passes false cs = true := by
  induction h with
  | nil => rfl
  | char hc hhash _ ih => rw [Query.isFilled, if_neg hhash, hc, ih, Bool.and_self]
  | @comment body hbody hfeed cs _ ih =>
    rw [Query.isFilled, if_pos rfl]
    induction body with
    | nil => rw [List.nil_append, Query.isFilled, if_pos rfl, hfeed, ih, Bool.and_self]
    | cons c body ih =>
      rw [List.mem_cons, not_or] at hbody
      rw [List.cons_append, Query.isFilled, if_neg (Ne.symm hbody.1), ih hbody.2]

theorem isFiller_of_isFilled {passes : Char → Bool} {cs : List Char} :
    (isFilled passes false cs = true → IsFiller passes cs) ∧
      (isFilled passes true cs = true → ∃ body r, cs = body ++ '\n' :: r ∧ '\n' ∉ body ∧ passes '\n' = true ∧
        IsFiller passes r) := by
  induction cs with
  | nil => exact ⟨fun _ => .nil, nofun⟩
  | cons c cs ih =>
    refine ⟨fun h => ?_, fun h => ?_⟩
    · rw [isFilled] at h
      split at h
      · next hhash =>
        obtain ⟨body, r, rfl, hbody, hfeed, hr⟩ := ih.2 h
        rw [hhash]
        exact .comment hbody hfeed hr
      · next hhash =>
        rw [Bool.and_eq_true] at h
        exact .char h.1 hhash (ih.1 h.2)
    · rw [isFilled] at h
      split at h
      · next hfeed =>
        rw [Bool.and_eq_true] at h
        exact ⟨[], cs, by rw [hfeed]; rfl, List.not_mem_nil, h.1, ih.1 h.2⟩
      · next hfeed =>
        obtain ⟨body, r, rfl, hbody, hpasses, hr⟩ := ih.2 h
        exact ⟨c :: body, r, rfl, fun hmem => (List.mem_cons.1 hmem).elim (fun h => hfeed h.symm) hbody, hpasses, hr⟩

instance (passes : Char → Bool) (cs : List Char) : Decidable (IsFiller passes cs) :=
  decidable_of_iff _ ⟨isFiller_of_isFilled.1, IsFiller.isFilled⟩

/-- What may stand between the tokens of a statement. -/
def passesInside (inside : Bool) (c : Char) : Bool := Text.isBlank c && (inside || c != '\n')

/-- What may stand between statements. -/
def passesBetween (c : Char) : Bool := Text.isBlank c || c == ';'

/-- What stands in front of a token, and the quotes that it takes if it is a text. -/
structure Space where
  gap : List Char
  quote : Char
  deriving DecidableEq, Repr, Inhabited

structure Space.Suits (s : Space) (t : Token) : Prop where
  gap : IsFiller (passesInside (decide (0 < t.depth))) s.gap
  quote : s.quote = '\x27' ∨ s.quote = '\x22'

instance (s : Space) (t : Token) : Decidable (s.Suits t) :=
  decidable_of_iff (_ ∧ _) ⟨fun h => ⟨h.1, h.2⟩, fun h => ⟨h.gap, h.quote⟩⟩

/-- A token with the space in front of it. -/
abbrev Printed := Space × Token

namespace Printed

def spelling (w : Printed) : List Char := w.2.form.spelling w.1.quote

def print (w : Printed) : List Char := w.1.gap ++ w.spelling

/-- The two would be read as one word if nothing stood between them. -/
def Fuses (v w : Printed) : Prop :=
  (∃ c ∈ v.spelling.getLast?, isNameChar c = true) ∧ ∃ c ∈ w.spelling.head?, isNameChar c = true

-- not by a search through all characters
instance (v w : Printed) : Decidable (v.Fuses w) :=
  @instDecidableAnd _ _ (Option.decidableExistsMem _) (Option.decidableExistsMem _)

end Printed

def printAll (ws : List Printed) : List Char := ws.flatMap Printed.print

/-- Where the tokens of nodes are printed. -/
def nodePositions (pos : Position) : List Printed → List Position
  | [] => []
  | w :: ws =>
    (if w.2.form.isNode then [pos.afterAll w.1.gap] else []) ++ nodePositions (pos.afterAll w.print) ws

inductive Ending where
  | lineFeed
  | semicolon
  | endOfText
  deriving DecidableEq, Repr, Inhabited

def Ending.spelling : Ending → List Char
  | lineFeed => ['\n']
  | semicolon => [';']
  | endOfText => []

/-- The layout of a statement, and what stands between it and the next one. -/
structure StatementLayout where
  spaces : List Space
  blanks : List Char
  comment : Option (List Char)
  ending : Ending
  below : List Char
  deriving DecidableEq, Repr, Inhabited

namespace StatementLayout

def printed (l : StatementLayout) (s : Statement) : List Printed := l.spaces.zip s.tokens

/-- What stands behind the statement. -/
def rest (l : StatementLayout) : List Char :=
  l.blanks ++ l.comment.elim [] ('#' :: ·) ++ l.ending.spelling ++ l.below

def print (l : StatementLayout) (s : Statement) : List Char := printAll (l.printed s) ++ l.rest

/-- Words are kept apart, and a comment is closed by a line feed or by the end of the text. Only the last
statement may end with the text. -/
structure Suits (l : StatementLayout) (s : Statement) (isLast : Bool) : Prop where
  length : l.spaces.length = s.tokens.length
  spaces : ∀ w ∈ l.printed s, w.1.Suits w.2
  first : ∀ space ∈ l.spaces.head?, space.gap = []
  apart : (l.printed s).IsChain fun v w => v.Fuses w → w.1.gap ≠ []
  blanks : ∀ c ∈ l.blanks, passesInside false c = true
  comment : ∀ body ∈ l.comment, '\n' ∉ body ∧ l.ending ≠ .semicolon
  ending : l.ending = .endOfText → isLast = true ∧ l.below = []
  below : IsFiller passesBetween l.below

instance (l : StatementLayout) (s : Statement) (isLast : Bool) : Decidable (l.Suits s isLast) :=
  have : Decidable (∀ c ∈ l.blanks, passesInside false c = true) := List.decidableBAll _ _
  decidable_of_iff (_ ∧ _ ∧ _ ∧ _ ∧ _ ∧ _ ∧ _ ∧ _)
    ⟨fun ⟨h₁, h₂, h₃, h₄, h₅, h₆, h₇, h₈⟩ => ⟨h₁, h₂, h₃, h₄, h₅, h₆, h₇, h₈⟩,
      fun h => ⟨h.length, h.spaces, h.first, h.apart, h.blanks, h.comment, h.ending, h.below⟩⟩

end StatementLayout

/-- The layout of a query. -/
structure Layout where
  above : List Char
  statements : List StatementLayout
  deriving DecidableEq, Repr, Inhabited

namespace Layout

/-- Each statement with its layout. -/
def SuitAll : List StatementLayout → List Statement → Prop
  | [], [] => True
  | l :: ls, s :: ss => l.Suits s ss.isEmpty ∧ SuitAll ls ss
  | _, _ => False

instance decidableSuitAll : ∀ (ls : List StatementLayout) (ss : List Statement), Decidable (SuitAll ls ss)
  | [], [] => inferInstanceAs (Decidable True)
  | _ :: ls, _ :: ss =>
    have := decidableSuitAll ls ss
    inferInstanceAs (Decidable (_ ∧ _))
  | [], _ :: _ => inferInstanceAs (Decidable False)
  | _ :: _, [] => inferInstanceAs (Decidable False)

def Suits (layout : Layout) (ss : List Statement) : Prop :=
  IsFiller passesBetween layout.above ∧ SuitAll layout.statements ss

instance (layout : Layout) (ss : List Statement) : Decidable (layout.Suits ss) :=
  inferInstanceAs (Decidable (_ ∧ _))

def printStatements : List StatementLayout → List Statement → List Char
  | l :: ls, s :: ss => l.print s ++ printStatements ls ss
  | _, _ => []

/-- The text of a query. -/
def print (layout : Layout) (ss : List Statement) : String :=
  String.ofList (layout.above ++ printStatements layout.statements ss)

def statementPositions (pos : Position) : List StatementLayout → List Statement → List Position
  | l :: ls, s :: ss => nodePositions pos (l.printed s) ++ statementPositions (pos.afterAll (l.print s)) ls ss
  | _, _ => []

/-- Where the nodes of a query are printed, from left to right. -/
def positions (layout : Layout) (ss : List Statement) : List Position :=
  statementPositions (Position.start.afterAll layout.above) layout.statements ss

end Layout

/-! ## Positions of nodes -/

namespace Expr

mutual

/-- The positions of the nodes of an expression, in the order in which they are printed. -/
def positions : Expr → List Position
  | .integer pos _ => [pos]
  | .text pos _ => [pos]
  | .name pos _ => [pos]
  | .var pos _ => [pos]
  | .call pos _ arguments => pos :: positionsOfAll arguments
  | .apply pos subject _ operands => subject.positions ++ pos :: positionsOfAll operands

def positionsOfAll : List Expr → List Position
  | [] => []
  | e :: es => e.positions ++ positionsOfAll es

end

end Expr

def Statement.positions : Statement → List Position
  | .assignment pos _ _ value => pos :: value.positions
  | .command pos _ arguments => pos :: Expr.positionsOfAll arguments

end Provenance.Query

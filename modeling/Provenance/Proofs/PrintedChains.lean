import Provenance.Proofs.PrintedTokens

/-!
# Chains of operators

Infix operators and method calls are read as chains: a first operand, and then steps that each make the
expression taller. The grammar has a level for each kind of operator, and the operands of one level are the
chains of the next. Tokens that are a chain on one level are read back on each lower level too, as long as
nothing follows that would go on with the chain.
-/

namespace Provenance.Query

open Scan Cursor

variable {α : Type} {cs cs' k : List Char} {pos : Position}

/-! ## Chains -/

/-- The scan gives these values one after the other, in front of `k`. -/
inductive Steps (step : Scan α) (k : List Char) : Position → List Char → List α → Prop
  | nil (pos : Position) : Steps step k pos [] []
  | cons {pos : Position} {cs cs' : List Char} {a : α} {as : List α}
    (ha : step (before (cs ++ (cs' ++ k)) pos) = .ok (a, before (cs' ++ k) (pos.afterAll cs))) (hne : cs ≠ [])
    (h : Steps step k (pos.afterAll cs) cs' as) : Steps step k pos (cs ++ cs') (a :: as)

namespace Steps

variable {step : Scan α} {as : List α}

theorem snoc {a : α} (h : Steps step (cs' ++ k) pos cs as) (hne : cs' ≠ [])
    (ha : step (before (cs' ++ k) (pos.afterAll cs)) = .ok (a, before k (pos.afterAll (cs ++ cs')))) :
    Steps step k pos (cs ++ cs') (as ++ [a]) := by
  induction h with
  | nil pos =>
    have hlast : Steps step k pos (cs' ++ []) [a] := .cons ha hne (.nil _)
    rwa [List.append_nil] at hlast
  | @cons pos cs₁ cs₂ b bs hb hne' _ ih =>
    rw [List.append_assoc]
    refine .cons (by rwa [List.append_assoc]) hne' (ih ?_)
    rwa [Position.afterAll_append, List.append_assoc, Position.afterAll_append] at ha

theorem repeatUpTo (h : Steps step k pos cs as) (hend : Misses step (before k (pos.afterAll cs))) {n : Nat}
    (hn : cs.length < n) (found : List α) :
    Scan.repeatUpTo step n found (before (cs ++ k) pos) = .ok (found.reverse ++ as, before k (pos.afterAll cs)) := by
  induction h generalizing n found with
  | nil pos =>
    obtain _ | n := n
    · cases hn
    obtain ⟨e, he, hc⟩ := hend
    rw [Scan.repeatUpTo, List.nil_append, show before k pos = before k (pos.afterAll []) from rfl, he]
    simp [hc]
  | @cons pos cs₁ cs₂ b bs hb hne _ ih =>
    obtain _ | n := n
    · cases hn
    have hlength : 0 < cs₁.length := List.length_pos_iff.2 hne
    rw [List.length_append] at hn
    rw [Position.afterAll_append] at hend
    rw [Scan.repeatUpTo, List.append_assoc, hb, Position.afterAll_append]
    dsimp only
    rw [ih hend (by omega) (b :: found)]
    simp

theorem many (h : Steps step k pos cs as) (hend : Misses step (before k (pos.afterAll cs))) :
    Scan.many step (before (cs ++ k) pos) = .ok (as, before k (pos.afterAll cs)) := by
  have hahead : (before (cs ++ k) pos).ahead = cs.length + k.length := List.length_append
  exact h.repeatUpTo hend (by omega) []

end Steps

/-- A first operand, and then steps that make the expression taller. -/
def chain (head : Scan Expr) (step : Scan α) (grow : Expr → α → Expr) : Scan Expr := do
  let first ← head
  let others ← many step
  others.foldlM (fun e a => measured (grow e a)) first

/-- The text is that of a chain, in front of `k`. -/
def Chained (head : Scan Expr) (step : Scan α) (grow : Expr → α → Expr) (k : List Char) (pos : Position)
    (cs : List Char) (e : Expr) : Prop :=
  ∃ first others cs₁ cs₂, cs = cs₁ ++ cs₂ ∧
    head (before (cs₁ ++ (cs₂ ++ k)) pos) = .ok (first, before (cs₂ ++ k) (pos.afterAll cs₁)) ∧
    Steps step k (pos.afterAll cs₁) cs₂ others ∧ e = others.foldl grow first

namespace Chained

variable {head : Scan Expr} {step : Scan α} {grow : Expr → α → Expr} {e : Expr}

theorem of_head (h : head (before (cs ++ k) pos) = .ok (e, before k (pos.afterAll cs))) :
    Chained head step grow k pos cs e :=
  ⟨e, [], cs, [], (List.append_nil cs).symm, h, .nil _, rfl⟩

theorem snoc {a : α} (h : Chained head step grow (cs' ++ k) pos cs e) (hne : cs' ≠ [])
    (ha : step (before (cs' ++ k) (pos.afterAll cs)) = .ok (a, before k (pos.afterAll (cs ++ cs')))) :
    Chained head step grow k pos (cs ++ cs') (grow e a) := by
  obtain ⟨first, others, cs₁, cs₂, rfl, hfirst, hothers, rfl⟩ := h
  rw [Position.afterAll_append, List.append_assoc, Position.afterAll_append] at ha
  refine ⟨first, others ++ [a], cs₁, cs₂ ++ cs', List.append_assoc .., ?_, hothers.snoc hne ?_, ?_⟩
  · rwa [List.append_assoc]
  · exact ha
  · rw [List.foldl_append]
    rfl

theorem foldlM_measured (hgrow : ∀ e a, e.height ≤ (grow e a).height) (others : List α) {first : Expr}
    (h : (others.foldl grow first).height ≤ maxHeight) (s : Cursor) :
    others.foldlM (fun e a => measured (grow e a)) first s = .ok (others.foldl grow first, s) := by
  induction others generalizing first with
  | nil => rfl
  | cons a others ih =>
    have hmono : ∀ (others : List α) (e : Expr), e.height ≤ (others.foldl grow e).height := by
      intro others
      induction others with
      | nil => exact fun _ => Nat.le_refl _
      | cons b others ih => exact fun e => Nat.le_trans (hgrow e b) (ih _)
    have hmeasured : measured (grow first a) s = .ok (grow first a, s) := by
      rw [measured, if_neg (Nat.not_lt.2 (Nat.le_trans (hmono others _) h))]
      rfl
    rw [List.foldlM_cons, bind_ok hmeasured, ih h]
    rfl

/-- A chain is read up to where no further step follows. -/
theorem read (h : Chained head step grow k pos cs e) (hend : Misses step (before k (pos.afterAll cs)))
    (hheight : e.height ≤ maxHeight) (hgrow : ∀ e a, e.height ≤ (grow e a).height) :
    chain head step grow (before (cs ++ k) pos) = .ok (e, before k (pos.afterAll cs)) := by
  obtain ⟨first, others, cs₁, cs₂, rfl, hfirst, hothers, rfl⟩ := h
  rw [Position.afterAll_append] at hend ⊢
  rw [chain, List.append_assoc, bind_ok hfirst, bind_ok (hothers.many hend), foldlM_measured hgrow others hheight]

end Chained

/-! ## Layers -/

/-- The scan inside a parenthesis opened inside `d` others. -/
def innerAt (d : Nat) : Option (Scan Expr) :=
  if d < maxNesting then some (expressionIn (maxNesting - (d + 1)) true) else none

/-- The scan of what binds at least as tightly as `level`, inside `d` parentheses. -/
def scanAt (d : Nat) : Nat → Scan Expr
  | 0 => expressionWith (decide (0 < d)) (innerAt d)
  | 1 => infixChain (decide (0 < d)) ['&'] (methodChain (decide (0 < d)) (innerAt d))
  | 2 => methodChain (decide (0 < d)) (innerAt d)
  | _ => primary (decide (0 < d)) (innerAt d)

theorem expressionIn_eq (d : Nat) (inside : Bool) :
    expressionIn (maxNesting - d) inside = expressionWith inside (innerAt d) := by
  unfold innerAt
  by_cases h : d < maxNesting
  · rw [if_pos h, show maxNesting - d = maxNesting - (d + 1) + 1 by omega, expressionIn]
  · rw [if_neg h, show maxNesting - d = 0 by omega, expressionIn]

theorem expression_eq : expression = scanAt 0 0 := expressionIn_eq 0 false

theorem innerAt_of_lt {d : Nat} (h : d < maxNesting) : innerAt d = some (scanAt (d + 1) 0) := by
  have hinside : decide (0 < d + 1) = true := decide_eq_true (Nat.succ_pos d)
  rw [innerAt, if_pos h, expressionIn_eq, scanAt, hinside]

/-- What would go on with an expression that binds at least as tightly as `level`. -/
def stopsAt : Nat → List Char
  | 0 => ['(', '.', '&', '+', '-']
  | 1 => ['(', '.', '&']
  | 2 => ['(', '.']
  | _ => ['(']

/-! ## What is recovered -/

/-- The expression with the positions at which its nodes are printed. -/
structure IsPlaced (e : Expr) (pos : Position) (ws : List Printed) (e' : Expr) : Prop where
  alike : e.Alike e'
  positions : e'.positions = nodePositions pos ws

/-- The expressions with the positions at which their nodes are printed. -/
structure ArePlaced (es : List Expr) (pos : Position) (ws : List Printed) (es' : List Expr) : Prop where
  alike : List.Forall₂ Expr.Alike es es'
  positions : Expr.positionsOfAll es' = nodePositions pos ws

/-- The scan reads the expression back from these tokens. -/
def Recovers (p : Scan Expr) (d : Nat) (stops : List Char) (ts : List Token) (e : Expr) : Prop :=
  ∀ ⦃ws⦄, Laid ts ws → ∀ ⦃k⦄, Behind d stops k → ∀ pos, ∃ e', IsPlaced e pos ws e' ∧
    p (before (printAll ws ++ k) pos) = .ok (e', before k (pos.afterAll (printAll ws)))

/-- The tokens are those of a chain, which gives the expression. -/
def RecoversChain (head : Scan Expr) (step : Scan α) (grow : Expr → α → Expr) (d : Nat) (stops : List Char)
    (ts : List Token) (e : Expr) : Prop :=
  ∀ ⦃ws⦄, Laid ts ws → ∀ ⦃k⦄, Behind d stops k → ∀ pos, ∃ e', IsPlaced e pos ws e' ∧
    Chained head step grow k pos (printAll ws) e'

theorem RecoversChain.of_head {head : Scan Expr} {step : Scan α} {grow : Expr → α → Expr} {d : Nat}
    {stops : List Char} {ts : List Token} {e : Expr} (h : Recovers head d stops ts e) :
    RecoversChain head step grow d stops ts e := by
  intro ws hws k hk pos
  obtain ⟨e', he', hread⟩ := h hws hk pos
  exact ⟨e', he', .of_head hread⟩

theorem RecoversChain.read {head : Scan Expr} {step : Scan α} {grow : Expr → α → Expr} {d : Nat}
    {stops stops' : List Char} {ts : List Token} {e : Expr} (h : RecoversChain head step grow d stops ts e)
    (hstops : stops ⊆ stops') (hend : ∀ k, Behind d stops' k → ∀ pos, Misses step (before k pos))
    (hheight : e.height ≤ maxHeight) (hgrow : ∀ e a, e.height ≤ (grow e a).height) :
    Recovers (chain head step grow) d stops' ts e := by
  intro ws hws k hk pos
  obtain ⟨e', he', hchain⟩ := h hws (hk.mono hstops) pos
  have hheight' : e'.height ≤ maxHeight := he'.alike.height ▸ hheight
  exact ⟨e', he', hchain.read (hend k hk _) hheight' hgrow⟩

/-! ## Levels -/

/-- An infix operator and its right operand. -/
def infixStep (inside : Bool) (symbols : List Char) (operand : Scan Expr) : Scan (Position × String × Expr) := do
  let (pos, operator) ← infixOperator inside symbols
  let rhs ← commit operand
  pure (pos, operator, rhs)

def joined (e : Expr) : Position × String × Expr → Expr
  | (pos, operator, rhs) => .apply pos e operator [rhs]

/-- A point and a method call. -/
def methodStep (inside : Bool) (inner : Option (Scan Expr)) : Scan (Position × String × List Expr) := do
  gap inside
  char '.'
  commit (methodCall inside inner)

def called (e : Expr) : Position × String × List Expr → Expr
  | (pos, word, arguments) => .apply pos e word arguments

theorem height_le_joined (e : Expr) (a : Position × String × Expr) : e.height ≤ (joined e a).height := by
  rw [joined, Expr.height]
  omega

theorem height_le_called (e : Expr) (a : Position × String × List Expr) : e.height ≤ (called e a).height := by
  rw [called, Expr.height]
  omega

theorem infixStep_misses {inside : Bool} {symbols : List Char} {operand : Scan Expr}
    (h : ∀ c ∈ (afterGap inside k).head?, c ∉ symbols) (pos : Position) :
    Misses (infixStep inside symbols operand) (before k pos) := by
  refine bind_misses_iff.2 (.inl (gap_misses (fun pos => ?_) pos))
  refine bind_misses_iff.2 (.inr ⟨_, _, rfl, bind_misses_iff.2 (.inl (charWhere_misses_iff.2 fun c hc => ?_))⟩)
  simpa using h c hc

theorem methodStep_misses {inside : Bool} {inner : Option (Scan Expr)}
    (h : ∀ c ∈ (afterGap inside k).head?, c ≠ '.') (pos : Position) :
    Misses (methodStep inside inner) (before k pos) :=
  gap_misses (fun pos => bind_misses_iff.2 (.inl (char_misses h pos))) pos

/-- The tokens are those of a chain on this level. -/
def AsChain (d : Nat) : Nat → List Token → Expr → Prop
  | 0 => RecoversChain (scanAt d 1) (infixStep (decide (0 < d)) ['+', '-'] (scanAt d 1)) joined d (stopsAt 1)
  | 1 => RecoversChain (scanAt d 2) (infixStep (decide (0 < d)) ['&'] (scanAt d 2)) joined d (stopsAt 2)
  | _ => RecoversChain (scanAt d 3) (methodStep (decide (0 < d)) (innerAt d)) called d (stopsAt 3)

namespace AsChain

variable {d level : Nat} {ts : List Token} {e : Expr}

/-- A chain is read as a whole if nothing follows that would go on with it. -/
theorem recovers (h : AsChain d level ts e) (hlevel : level ≤ 2) (hheight : e.height ≤ maxHeight) :
    Recovers (scanAt d level) d (stopsAt level) ts e := by
  -- each level of the grammar is a chain by definition
  match level with
  | 0 =>
    refine RecoversChain.read h (by decide) (fun k hk pos => ?_) hheight height_le_joined
    exact infixStep_misses (fun c hc hmem => hk.stops c hc ((by decide : ['+', '-'] ⊆ stopsAt 0) hmem)) pos
  | 1 =>
    refine RecoversChain.read h (by decide) (fun k hk pos => ?_) hheight height_le_joined
    exact infixStep_misses (fun c hc hmem => hk.stops c hc ((by decide : ['&'] ⊆ stopsAt 1) hmem)) pos
  | 2 =>
    refine RecoversChain.read h (by decide) (fun k hk pos => ?_) hheight height_le_called
    exact methodStep_misses (fun c hc heq => hk.stops c hc (heq ▸ (by decide : '.' ∈ stopsAt 2))) pos

theorem of_recovers (h : Recovers (scanAt d (level + 1)) d (stopsAt (level + 1)) ts e) (hlevel : level ≤ 2) :
    AsChain d level ts e := by
  match level with
  | 0 => exact RecoversChain.of_head h
  | 1 => exact RecoversChain.of_head h
  | 2 => exact RecoversChain.of_head h

/-- What is a chain on one level is one on each lower level. -/
theorem lower {level' : Nat} (h : AsChain d level' ts e) (hle : level ≤ level') (hlevel : level' ≤ 2)
    (hheight : e.height ≤ maxHeight) : AsChain d level ts e := by
  induction hle with
  | refl => exact h
  | step hle ih => exact ih (.of_recovers (h.recovers hlevel hheight) (by omega)) (by omega)

theorem of_primary (h : Recovers (scanAt d 3) d (stopsAt 3) ts e) (hlevel : level ≤ 2)
    (hheight : e.height ≤ maxHeight) : AsChain d level ts e :=
  have hmethod : AsChain d 2 ts e := .of_recovers h (Nat.le_refl _)
  hmethod.lower hlevel (Nat.le_refl _) hheight

end AsChain

end Provenance.Query

import Mathlib.Data.List.Forall2
import Provenance.Query.Syntax

/-!
# Syntax and its positions

Syntax without its positions, and syntax with its positions moved.
-/

namespace Provenance.Query

namespace Expr

mutual

/-- The expression without its positions. -/
def bare : Expr → Expr
  | .integer _ n => .integer default n
  | .text _ s => .text default s
  | .name _ word => .name default word
  | .var _ v => .var default v
  | .call _ function arguments => .call default function (bares arguments)
  | .apply _ subject operator operands => .apply default subject.bare operator (bares operands)

/-- Expressions without their positions. -/
def bares : List Expr → List Expr
  | [] => []
  | e :: es => e.bare :: bares es

end

mutual

theorem height_bare : ∀ e : Expr, e.bare.height = e.height
  | .integer _ _ => rfl
  | .text _ _ => rfl
  | .name _ _ => rfl
  | .var _ _ => rfl
  | .call _ _ arguments => by rw [bare, height, height, tallest_bares arguments]
  | .apply _ subject _ operands => by
    rw [bare, height, height, height_bare subject, tallest_bares operands]

theorem tallest_bares : ∀ es : List Expr, tallest (bares es) = tallest es
  | [] => rfl
  | e :: es => by rw [bares, tallest, tallest, height_bare e, tallest_bares es]

end

theorem bares_eq_map (es : List Expr) : bares es = es.map bare := by
  induction es with
  | nil => rfl
  | cons e es ih => rw [bares, List.map_cons, ih]

/-- The two are the same but for their positions. -/
def Alike (e e' : Expr) : Prop := e.bare = e'.bare

theorem Alike.height {e e' : Expr} (h : e.Alike e') : e.height = e'.height := by
  rw [← height_bare e, h, height_bare e']

theorem forall₂_alike {es es' : List Expr} : List.Forall₂ Alike es es' ↔ bares es = bares es' := by
  rw [bares_eq_map, bares_eq_map, ← List.forall₂_eq_eq_eq, List.forall₂_map_left_iff, List.forall₂_map_right_iff]
  rfl

namespace Alike

theorem integer (pos pos' : Position) (n : Int) : (Expr.integer pos n).Alike (.integer pos' n) := rfl

theorem text (pos pos' : Position) (s : String) : (Expr.text pos s).Alike (.text pos' s) := rfl

theorem name (pos pos' : Position) (word : String) : (Expr.name pos word).Alike (.name pos' word) := rfl

theorem var (pos pos' : Position) (v : Variable) : (Expr.var pos v).Alike (.var pos' v) := rfl

theorem call (pos pos' : Position) (function : String) {es es' : List Expr} (h : List.Forall₂ Alike es es') :
    (Expr.call pos function es).Alike (.call pos' function es') := by
  rw [Alike, bare, bare, forall₂_alike.1 h]

theorem apply (pos pos' : Position) {e e' : Expr} (he : e.Alike e') (operator : String) {es es' : List Expr}
    (h : List.Forall₂ Alike es es') : (Expr.apply pos e operator es).Alike (.apply pos' e' operator es') := by
  rw [Alike, bare, bare, he, forall₂_alike.1 h]

end Alike

end Expr

/-- The statement without its positions. -/
def Statement.bare : Statement → Statement
  | .assignment _ target op value => .assignment default target op value.bare
  | .command _ name arguments => .command default name (Expr.bares arguments)

namespace Statement

/-- The two are the same but for their positions. -/
def Alike (s s' : Statement) : Prop := s.bare = s'.bare

theorem Alike.assignment (pos pos' : Position) (target : Variable) (op : AssignOp) {e e' : Expr}
    (h : e.Alike e') : (Statement.assignment pos target op e).Alike (.assignment pos' target op e') := by
  rw [Alike, bare, bare, h]

theorem Alike.command (pos pos' : Position) (name : String) {es es' : List Expr}
    (h : List.Forall₂ Expr.Alike es es') :
    (Statement.command pos name es).Alike (.command pos' name es') := by
  rw [Alike, bare, bare, Expr.forall₂_alike.1 h]

end Statement

/-! ## Moved positions -/

namespace Expr

variable (move : Position → Position)

mutual

/-- The expression with its positions moved. -/
def moved : Expr → Expr
  | .integer pos n => .integer (move pos) n
  | .text pos s => .text (move pos) s
  | .name pos word => .name (move pos) word
  | .var pos v => .var (move pos) v
  | .call pos function arguments => .call (move pos) function (allMoved arguments)
  | .apply pos subject operator operands => .apply (move pos) subject.moved operator (allMoved operands)

/-- Expressions with their positions moved. -/
def allMoved : List Expr → List Expr
  | [] => []
  | e :: es => e.moved :: allMoved es

end

theorem allMoved_eq_map (es : List Expr) : allMoved move es = es.map (moved move) := by
  induction es with
  | nil => rfl
  | cons e es ih => rw [allMoved, List.map_cons, ih]

mutual

theorem bare_moved : ∀ e : Expr, (e.moved move).bare = e.bare
  | .integer _ _ => rfl
  | .text _ _ => rfl
  | .name _ _ => rfl
  | .var _ _ => rfl
  | .call _ _ arguments => by rw [moved, bare, bare, bares_allMoved arguments]
  | .apply _ subject _ operands => by rw [moved, bare, bare, bare_moved subject, bares_allMoved operands]

theorem bares_allMoved : ∀ es : List Expr, bares (allMoved move es) = bares es
  | [] => rfl
  | e :: es => by rw [allMoved, bares, bares, bare_moved e, bares_allMoved es]

end

theorem alike_moved (e : Expr) : e.Alike (e.moved move) := (bare_moved move e).symm

theorem height_moved (e : Expr) : (e.moved move).height = e.height := (alike_moved move e).height.symm

end Expr

/-- The statement with its positions moved. -/
def Statement.moved (move : Position → Position) : Statement → Statement
  | .assignment pos target op value => .assignment (move pos) target op (value.moved move)
  | .command pos name arguments => .command (move pos) name (arguments.map (Expr.moved move))

theorem Statement.alike_moved (move : Position → Position) : ∀ s : Statement, s.Alike (s.moved move)
  | .assignment _ _ _ value => .assignment _ _ _ _ (Expr.alike_moved move value)
  | .command _ _ _ => .command _ _ _ (List.forall₂_map_right_iff.2
      (List.forall₂_same.2 fun e _ => Expr.alike_moved move e))

end Provenance.Query

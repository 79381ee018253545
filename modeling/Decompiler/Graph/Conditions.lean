import Decompiler.Graph.Exprs

/-!
# Conditions and comparison of expressions

Negation of conditions, expressions seen through casts and negations, and structural equality.
-/

namespace Decompiler.Graph

/-- The negation of a condition. A negation is taken off rather than put on a second time; the
expression that comes to light takes its offsets over. -/
def negate (g : Graph) (condition : ExprId) : Checked (Graph × ExprId) := do
  match ← g.node condition with
  | ⟨.apply .boolNot [inner], offsets⟩ => return (← g.addOffsets inner offsets, inner)
  | _ => return g.allocExpr (.apply .boolNot [condition]) .empty

/-- What is left of an expression when at most `levels` casts are taken off. -/
def withoutCastsIn (g : Graph) : (levels : Nat) → ExprId → Checked ExprId
  | 0, _ => .error .cyclic
  | levels + 1, e => do
    match ← g.expr e with
    | .apply .cast (inner :: _) => g.withoutCastsIn levels inner
    | _ => return e

/-- What is left of an expression when all casts are taken off. -/
def withoutCasts (g : Graph) (e : ExprId) : Checked ExprId := g.withoutCastsIn g.exprLevels e

/-- What a condition tests, seen through at most `levels` negations. -/
def testedIn (g : Graph) : (levels : Nat) → ExprId → Checked ExprId
  | 0, _ => .error .cyclic
  | levels + 1, e => do
    match ← g.expr e with
    | .apply .boolNot [inner] => g.testedIn levels inner
    | .apply .eq [left, _] | .apply .ne [left, _] => return left
    | _ => return e

/-- What a condition tests, seen through negations and one comparison with a constant. -/
def tested (g : Graph) (e : ExprId) : Checked ExprId := g.testedIn g.exprLevels e

/-- Structural equality of two expressions down to `levels` levels. -/
def equalIn (g : Graph) : (levels : Nat) → ExprId → ExprId → Checked Bool
  | 0, _, _ => .error .cyclic
  | levels + 1, a, b => do
    if a = b then return true
    else
      let x ← g.expr a
      let y ← g.expr b
      if x.sameNode y && x.children.length = y.children.length then
        (x.children.zip y.children).allM fun p => g.equalIn levels p.1 p.2
      else return false

/-- Structural equality, which sees neither offsets nor the types and marks of variables. A way down
through pairs of expressions that repeats no pair has at most as many levels as there are pairs. -/
def equal (g : Graph) (a b : ExprId) : Checked Bool :=
  g.equalIn (g.exprs.size * g.exprs.size + 1) a b

/-- Puts `new` in place of a direct subexpression. -/
def substitute (g : Graph) (e old new : ExprId) : Checked Graph :=
  g.modifyExpr e (Expr.replaceChild old new)

end Decompiler.Graph

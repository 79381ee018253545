import Decompiler.Graph.Tree

/-!
# Expressions of a method graph

Walks over expression trees, the expressions that statements own, and the offsets both cover. The
walks count the levels they descend, as those over statements do.
-/

namespace Decompiler.Graph

/-! ## Trees of expressions -/

/-- A number of levels that no way through the expressions without repetition exceeds. -/
def exprLevels (g : Graph) : Nat := g.exprs.size + 1

/-- An expression and all below it, with their ids, parents first. -/
def nodesIn (g : Graph) : (levels : Nat) → ExprId → Checked (List (ExprId × ExprNode))
  | 0, _ => .error .cyclic
  | levels + 1, e => do
    let node ← g.node e
    let below ← node.expr.children.mapM (g.nodesIn levels)
    return (e, node) :: below.flatten

/-- An expression and all below it, with their ids, parents first. -/
def nodes (g : Graph) (e : ExprId) : Checked (List (ExprId × ExprNode)) := g.nodesIn g.exprLevels e

/-- An expression and all below it, parents first. -/
def subtree (g : Graph) (e : ExprId) : Checked (List ExprId) := do
  return (← g.nodes e).map Prod.fst

/-- The occurrences of variables in an expression, in the order of its tree. -/
def refsIn (g : Graph) (e : ExprId) : Checked (List (ExprId × VarRef)) := do
  return (← g.nodes e).filterMap fun n => n.2.expr.var?.map fun v => (n.1, v)

/-- The occurrences of variables in several expressions. -/
def refsInAll (g : Graph) (l : List ExprId) : Checked (List (ExprId × VarRef)) := do
  return (← l.mapM g.refsIn).flatten

/-- The offsets of an expression and all below it. -/
def subtreeOffsets (g : Graph) (e : ExprId) : Checked Offsets := do
  return (← g.nodes e).foldl (fun o n => o.union n.2.offsets) .empty

/-- Adds the offsets of `source` and all below it to those of `target`, as is done before `source`
is dropped. -/
def absorb (g : Graph) (target source : ExprId) : Checked Graph := do
  g.addOffsets target (← g.subtreeOffsets source)

/-- Absorbs an expression that may not be there. -/
def absorb? (g : Graph) (target : ExprId) (source : Option ExprId) : Checked Graph :=
  match source with
  | none => return g
  | some source => g.absorb target source

/-! ## Expressions of statements -/

/-- The expressions that a statement evaluates or declares itself. -/
def heldBy (g : Graph) (s : StatId) : Checked (List ExprId) := do
  let stat ← g.stat s
  return stat.ownExprs ++ stat.declarations

/-- The expressions evaluated or declared in a statement and all below it, children first. -/
def exprsIn (g : Graph) (s : StatId) : Checked (List ExprId) := do
  return (← (← g.postorder s).mapM g.heldBy).flatten

/-- The offsets covered by a statement and all below it. -/
def statOffsets (g : Graph) (s : StatId) : Checked Offsets := do
  return (← (← g.exprsIn s).mapM g.subtreeOffsets).foldl Offsets.union .empty

/-- The first and the last offset covered by a statement. -/
def offsetRange? (g : Graph) (s : StatId) : Checked (Option (Nat × Nat)) := do
  return (← g.statOffsets s).range?

/-- The last expression of a leaf. -/
def lastExpr? (g : Graph) (s : StatId) : Checked (Option ExprId) := do
  return (← g.stat s).exprs?.bind List.getLast?

/-- Removes an expression from the list of a leaf. -/
def removeExpr (g : Graph) (s : StatId) (e : ExprId) : Checked Graph :=
  g.modifyStat s fun stat => stat.withExprs ((stat.exprs?.getD []).filter (· ≠ e))

/-- Whether a statement is a leaf that lists an expression. -/
def listsExpr (g : Graph) (s : StatId) (e : ExprId) : Checked Bool := do
  return ((← g.stat s).exprs?.getD []).contains e

end Decompiler.Graph

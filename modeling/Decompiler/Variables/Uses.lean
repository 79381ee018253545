import Decompiler.Graph.Exprs

/-!
# References to variables

Whether a variable occurs in a statement, in the expressions that it and the statements inside it
evaluate in turn. Exception variables, monitors and declarations are not among them. The search
stops at the first occurrence.
-/

namespace Decompiler.Graph

/-- Whether the variable at `target` occurs in an expression other than at `target` itself and at
the nodes that are exempt. -/
def isUsedIn (g : Graph) (target e : ExprId) (exempt : List ExprId) : Checked Bool := do
  let some var ← g.local? target | return false
  return (← g.refsIn e).any fun v => v.1 ≠ target && !exempt.contains v.1 && v.2.var = var

/-- Whether some item of a statement, from position `start` on, or of the statements inside it down
to `levels` levels, satisfies a test on expressions. -/
def someItemIn (g : Graph) (test : ExprId → Checked Bool) :
    (levels : Nat) → StatId → (start : Nat) → Checked Bool
  | 0, _, _ => .error .cyclic
  | levels + 1, s, start => do
    ((← g.stat s).items.drop start).anyM fun
      | .stat child => g.someItemIn test levels child 0
      | .expr e => test e

/-- Whether some item of a statement, from position `start` on, satisfies a test on expressions. -/
def someItem (g : Graph) (test : ExprId → Checked Bool) (s : StatId) (start : Nat) :
    Checked Bool :=
  g.someItemIn test (g.statLevels + 1) s start

/-- Whether the variable at `target` occurs in a statement other than at `target` itself and at the
nodes that are exempt. -/
def isUsed (g : Graph) (target : ExprId) (s : StatId) (exempt : List ExprId) :
    Checked Bool :=
  g.someItem (fun e => g.isUsedIn target e exempt) s 0

/-- Whether an expression reads a variable. Being the target of the assignment that the expression
is does not count. -/
def readsIn (g : Graph) (var : Local) (e : ExprId) (exempt : List ExprId) : Checked Bool := do
  let assigned := (← g.assign? e).map Prod.fst
  return (← g.refsIn e).any fun v => some v.1 ≠ assigned && !exempt.contains v.1 && v.2.var = var

/-- Whether a statement reads a variable in its items from position `start` on. -/
def reads (g : Graph) (var : Local) (s : StatId) (start : Nat) (exempt : List ExprId) :
    Checked Bool :=
  g.someItem (fun e => g.readsIn var e exempt) s start

end Decompiler.Graph

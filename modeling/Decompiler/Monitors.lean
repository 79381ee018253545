import Decompiler.Graph.Conditions
import Decompiler.Variables.Uses

/-!
# Copies of monitors

Entering a monitor is compiled with a copy of the locked object, kept for the exit. In a
synchronized statement the copy is dead, and its assignment in the block in front is dropped.
-/

namespace Decompiler.Graph

/-- Whether an expression of the block in front of a synchronized statement copies the monitor to a
variable that is not used anywhere in the statement around. -/
def isDeadCopy (g : Graph) (monitor : ExprId) (around : StatId) (e : ExprId) : Checked Bool := do
  let some (left, right) ← g.assign? e | return false
  if (← g.var? left).isNone then return false
  else if !(← g.equal right monitor) then return false
  else return !(← g.isUsed left around [])

/-- Drops the dead copy of the monitor of a synchronized statement, if there is one. Its offsets go
to the expression that enters the monitor. -/
def cleanMonitor (g : Graph) (s : StatId) : Checked (Option Graph) := do
  let stat ← g.stat s
  let .synchronized (some head) _ := stat.kind | return none
  let .monitor _ monitor ← g.expr head | return none
  let some headBlock := stat.first | return none
  let some around := stat.parent | return none
  let some exprs := (← g.stat headBlock).exprs? | return none
  let some copy ← exprs.findM? (g.isDeadCopy monitor around) | return none
  let g ← g.removeExpr headBlock copy
  g.absorb head copy

/-- Cleans one statement and counts it when a copy was dropped. -/
def visitMonitor (acc : Graph × Nat) (s : StatId) : Checked (Graph × Nat) := do
  match ← acc.1.cleanMonitor s with
  | some g => return (g, acc.2 + 1)
  | none => return acc

/-- Drops the dead copies of monitors in the whole tree, and returns their number. -/
def cleanMonitors (g : Graph) : Checked (Graph × Nat) := do
  (← g.postorder root).foldlM visitMonitor (g, 0)

end Decompiler.Graph

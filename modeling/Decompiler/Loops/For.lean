import Decompiler.Loops.While
import Decompiler.Options

/-!
# Counted loops

A `while` with an assignment in front of it and a step at the end of its body becomes a `for`.
-/

namespace Decompiler

/-- Whether an expression has the form of a step: an assignment, or a count up or down. -/
def Expr.isStep : Expr → Bool
  | .assign _ _ => true
  | .apply op _ => op.isIncrement
  | _ => false

namespace Graph

/-- The leaf in front of a loop and the assignment it ends with. -/
def initBefore? (g : Graph) (loop : StatId) : Checked (Option (StatId × ExprId)) := do
  let some leaf ← g.leafBefore? loop true | return none
  let some init ← g.lastExpr? leaf | return none
  return if (← g.assign? init).isSome then some (leaf, init) else none

/-- Moves an expression from a leaf into a slot of a loop, where it takes over the offsets of what
was there before. -/
def moveToSlot (g : Graph) (loop leaf : StatId) (e : ExprId) (old : Option ExprId)
    (fill : Loop → Loop) : Checked Graph := do
  let g ← g.removeExpr leaf e
  let g ← g.absorb? e old
  g.modifyLoop loop fill

/-- Makes a loop a `for` with the step `step` taken from `leaf` and the initialisation `init`. -/
def toCounted (g : Graph) (loop leaf : StatId) (step : ExprId)
    (init : Option (StatId × ExprId)) : Checked Graph := do
  let g ← g.setKind loop .counted
  let slots ← g.loop? loop
  let g ← match init with
    | none => pure g
    | some (before, init) =>
      g.moveToSlot loop before init (slots.bind Loop.init) fun l => { l with init := some init }
  let g ← g.moveToSlot loop leaf step (slots.bind Loop.step) fun l => { l with step := some step }
  g.dropEmptyLeaf loop leaf

/-- `init; while (c) { …; step; }` becomes `for (init; c; step) { … }`. The assignment `init` ends
the leaf right before the loop, and `step` ends the body. With the option for it, a leaf of a single
expression that several ways lead to is taken as the step whatever it is, and then no `init` is
needed. Any other continue of the loop would pass the step by. -/
def forForm? (g : Graph) (loop : StatId) (options : Options) : Checked (Option Graph) := do
  let some body := (← g.stat loop).first | return none
  let some leaf ← g.lastLeaf? body | return none
  let stat ← g.stat leaf
  let exprs := stat.exprs?.getD []
  let some step := exprs.getLast? | return none
  let isSingle := options.acceptSingleStep && exprs.length = 1 && stat.predecessors.length > 1
  let hasStep ← if isSingle then pure true else Expr.isStep <$> g.expr step
  if !hasStep then return none
  else
    let init ← g.initBefore? loop
    if init.isNone && !isSingle then return none
    else if (← g.neighbours loop [.continueTo] .backward).any (· ≠ leaf) then return none
    else g.toCounted loop leaf step init

end Graph

end Decompiler

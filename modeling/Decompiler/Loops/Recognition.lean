import Decompiler.Loops.For
import Decompiler.Loops.ForEach

/-!
# Recognising the forms of loops

Structuring leaves every loop endless, with breaks as its exits. The loops of a method are visited
children first, so that an inner loop has its final form when an outer one looks into it, and the
visits are repeated until no loop takes another form.

A loop only ever goes from endless to any other form, or from `while` to `for` or to a loop over
elements. So each loop changes at most twice, which bounds the number of visits.
-/

namespace Decompiler.Graph

/-- The first of two matchers that applies. -/
def orElseForm (first second : Checked (Option Graph)) : Checked (Option Graph) := do
  match ← first with
  | some g => return some g
  | none => second

/-- Gives a `while` the form of a loop over elements or of a `for`, where one fits. -/
def formOfWhile? (g : Graph) (loop : StatId) (options : Options) : Checked (Option Graph) :=
  orElseForm (g.forEachForm? loop) (g.forForm? loop options)

/-- Gives a loop a better form, where one fits. -/
def betterForm? (g : Graph) (loop : StatId) (options : Options) : Checked (Option Graph) := do
  match (← g.loop? loop).map Loop.kind with
  | some .endless =>
    match ← g.whileForm? loop with
    | some g => return some ((← g.formOfWhile? loop options).getD g)
    | none => if options.tryDoWhile then g.doWhileForm? loop else return none
  | some .whileDo => g.formOfWhile? loop options
  | _ => return none

/-- Visits one statement: a loop in the tree is given a better form and counted when its kind has
changed. -/
def visitLoop (options : Options) (acc : Graph × Nat) (s : StatId) : Checked (Graph × Nat) := do
  let (g, changed) := acc
  let some old ← g.loop? s | return acc
  if !(← g.contains root s) then return acc
  else
    let g' := (← g.betterForm? s options).getD g
    let new := (← g'.loop? s).map Loop.kind
    return (g', if new = some old.kind then changed else changed + 1)

/-- Visits every loop once, and returns the number of those that changed. -/
def recogniseOnce (g : Graph) (options : Options) : Checked (Graph × Nat) := do
  (← g.postorder root).foldlM (visitLoop options) (g, 0)

/-- Visits every loop until none changes, at most `rounds` times. -/
def recogniseIn (options : Options) : (rounds : Nat) → Graph → (total : Nat) → Checked (Graph × Nat)
  | 0, _, _ => .error .cyclic
  | rounds + 1, g, total => do
    let (g, changed) ← g.recogniseOnce options
    if changed = 0 then return (g, total) else recogniseIn options rounds g (total + changed)

/-- Gives every loop its form, and returns the number of changes. -/
def recogniseLoops (g : Graph) (options : Options) : Checked (Graph × Nat) :=
  recogniseIn options (2 * g.stats.size + 1) g 0

end Decompiler.Graph

import Decompiler.Graph.Exprs

/-!
# Leaves around a loop

The leaves in which the matchers of loop forms look for initialisations, steps and element fetches,
and what becomes of a leaf that a match has emptied.
-/

namespace Decompiler.Graph

/-! ## Finding leaves -/

/-- The last leaf that `search` finds among statements given in reverse order, passing over empty
leaves. A statement in which nothing is found ends the search. -/
def lastLeafAmong (g : Graph) (search : StatId → Checked (Option StatId)) :
    List StatId → Checked (Option StatId)
  | [] => return none
  | s :: rest => do
    let some leaf ← search s | return none
    if (← g.stat leaf).isEmptyLeaf then g.lastLeafAmong search rest else return some leaf

/-- The last leaf of a statement, within `levels` levels. -/
def lastLeafIn (g : Graph) : (levels : Nat) → StatId → Checked (Option StatId)
  | 0, _ => .error .cyclic
  | levels + 1, s => do
    let stat ← g.stat s
    if stat.isLeaf then return some s
    else g.lastLeafAmong (g.lastLeafIn levels) stat.children.reverse

/-- The last leaf of a statement in order of execution. Empty leaves at the end are passed over, and
a compound statement without a usable leaf ends the search. -/
def lastLeaf? (g : Graph) (s : StatId) : Checked (Option StatId) := g.lastLeafIn g.statLevels s

/-- The first leaf with expressions of a statement, within `levels` levels. -/
def firstLeafIn (g : Graph) : (levels : Nat) → StatId → Checked (Option StatId)
  | 0, _ => .error .cyclic
  | levels + 1, s => do
    let stat ← g.stat s
    if stat.isLeaf && !stat.isEmptyLeaf then return some s
    else stat.children.findSomeM? (g.firstLeafIn levels)

/-- The first leaf with expressions of a statement. -/
def firstLeaf? (g : Graph) (s : StatId) : Checked (Option StatId) := g.firstLeafIn g.statLevels s

/-- The statement that control comes from on entering `s`, found by climbing at most `levels`
sequences that start with it. -/
def enteredFromIn (g : Graph) : (levels : Nat) → StatId → Checked (Option StatId)
  | 0, _ => .error .cyclic
  | levels + 1, s => do
    let some parent := (← g.stat s).parent | return none
    let above ← g.stat parent
    match above.kind with
    | .sequence =>
      if above.first = some s then g.enteredFromIn levels parent
      else return (← g.neighbours s [.regular] .backward)[0]?
    | _ => return none

/-- The leaf whose last expressions are evaluated right before `s` is entered. With `leafOnly` the
statement before must be a leaf itself. -/
def leafBefore? (g : Graph) (s : StatId) (leafOnly : Bool) : Checked (Option StatId) := do
  let some previous ← g.enteredFromIn g.statLevels s | return none
  if leafOnly && !(← g.stat previous).isLeaf then return none
  else g.lastLeaf? previous

/-! ## Dropping leaves -/

/-- Lets an edge continue a loop. -/
def continueLoop (loop : StatId) (g : Graph) (e : EdgeId) : Checked Graph := do
  let g ← g.changeKind e .continueTo
  let g ← g.changeDestination e loop
  g.setClosure loop e

/-- Removes an empty statement at the end of the body of a loop. What led to it now continues the
loop. A statement that is the whole body is replaced by an empty leaf. -/
def dropEmptyTail (g : Graph) (loop empty : StatId) : Checked Graph := do
  if (← g.stat loop).first = some empty then
    let (g, block) ← g.block []
    g.replaceStat loop empty block
  else
    let g ← (← g.stat empty).predecessors.foldlM (continueLoop loop) g
    g.removeStat empty

/-- Removes a leaf in a loop that was emptied, together with its first edge. -/
def dropEmptyLeaf (g : Graph) (loop leaf : StatId) : Checked Graph := do
  let stat ← g.stat leaf
  if stat.isEmptyLeaf then
    let g ← match stat.successors with
      | e :: _ => g.detachEdge e
      | [] => pure g
    g.dropEmptyTail loop leaf
  else return g

end Decompiler.Graph

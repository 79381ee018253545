import Decompiler.Graph.Conditions
import Decompiler.Loops.FallThrough
import Decompiler.Loops.Leaves

/-!
# Loops with a condition

An endless loop that starts with a test on which it is left becomes a `while`, and one that ends
with such a test becomes a `do-while`. A matcher returns the changed graph, or nothing when the loop
does not have the shape it looks for.
-/

namespace Decompiler.Graph

/-- The head of an `if` and the condition it tests. -/
def headCondition? (g : Graph) (s : StatId) : Checked (Option (ExprId × ExprId)) := do
  let some branch := (← g.stat s).branch? | return none
  match ← g.expr branch.head with
  | .test condition => return some (branch.head, condition)
  | _ => return none

/-- What is found when, from `s` down at most `levels` levels, every sequence is replaced by one of
its children. -/
def throughSequencesIn (g : Graph) (child : Stat → Option StatId) :
    (levels : Nat) → StatId → Checked (Option StatId)
  | 0, _ => .error .cyclic
  | levels + 1, s => do
    let stat ← g.stat s
    match stat.kind with
    | .sequence =>
      match child stat with
      | some inner => g.throughSequencesIn child levels inner
      | none => return none
    | _ => return some s

/-- The statement with which the body of a loop starts. -/
def leading? (g : Graph) (loop : StatId) : Checked (Option StatId) := do
  let some body := (← g.stat loop).first | return none
  g.throughSequencesIn Stat.first g.statLevels body

/-- The statement with which the body of a loop ends. -/
def trailing? (g : Graph) (loop : StatId) : Checked (Option StatId) := do
  let some body := (← g.stat loop).first | return none
  g.throughSequencesIn (fun s => s.children.getLast?) g.statLevels body

/-- Gives a loop a kind. -/
def setKind (g : Graph) (loop : StatId) (kind : LoopKind) : Checked Graph :=
  g.modifyLoop loop fun l => { l with kind := kind }

/-- Gives a loop a condition, which keeps the offsets of the one before and of the head of the `if`
it was taken from. -/
def setCondition (g : Graph) (loop : StatId) (condition head : ExprId) : Checked Graph := do
  let g ← g.absorb? condition ((← g.loop? loop).bind Loop.condition)
  let g ← g.addOffsets condition (← g.offsets head)
  g.modifyLoop loop fun l => { l with condition := some condition }

/-- Lets a loop without successors take over a detached edge by which its body was left. -/
def liftExit (g : Graph) (loop : StatId) (e : EdgeId) : Checked Graph := do
  let stat ← g.stat loop
  if stat.successors ≠ [] then return g
  else
    let g ← g.modifyEdge e fun edge =>
      { edge with
        source := loop
        closure := if edge.closure = some loop then stat.parent else edge.closure }
    g.attachEdge e

/-! ## A test in front -/

/-- A test at one end of the body of a loop. -/
structure LoopTest where
  /-- The `if`. -/
  stat : StatId
  /-- The block in front of the test. -/
  headBlock : StatId
  /-- The head of the `if`. -/
  head : ExprId
  /-- The condition it tests. -/
  condition : ExprId
  /-- What is done when the condition holds, unless that is a jump. -/
  body : Option StatId
  /-- The edge taken when the condition holds. -/
  thenEdge : EdgeId
  /-- The edge taken otherwise, which leaves the `if` itself. -/
  elseEdge : EdgeId

/-- The parts of an `if` that is accepted together with the block in front of its test, if it has
them all. -/
def loopTest? (g : Graph) (s : StatId) (accepts : Branch → Stat → Bool) :
    Checked (Option LoopTest) := do
  let stat ← g.stat s
  let some branch := stat.branch? | return none
  let some headBlock := stat.first | return none
  if !accepts branch (← g.stat headBlock) then return none
  else
    let some (head, condition) ← g.headCondition? s | return none
    let some thenEdge ← g.thenEdge? s | return none
    let some elseEdge ← g.exitEdge? s | return none
    return some ⟨s, headBlock, head, condition, branch.thenStat, thenEdge, elseEdge⟩

/-- Makes a loop a `while` whose condition fails when the leading test holds, and drops the `if`. -/
def whileNot (g : Graph) (loop : StatId) (t : LoopTest) : Checked Graph := do
  let g ← g.setKind loop .whileDo
  let (g, condition) ← g.negate t.condition
  let g ← g.setCondition loop condition t.head
  let g ← g.detachEdge t.thenEdge
  let g ← g.detachEdge t.elseEdge
  let g ← g.liftExit loop t.thenEdge
  if (← g.stat loop).first = some t.stat then
    let (g, block) ← g.block []
    g.replaceStat loop t.stat block
  else g.removeStat t.stat

/-- Gives a break out of a loop, whose closure lies inside the loop, the loop as its closure. -/
def raiseClosure (loop : StatId) (g : Graph) (e : EdgeId) : Checked Graph := do
  let some closure := (← g.edge e).closure | return g
  if ← g.containsStrict loop closure then g.setClosure loop e else return g

/-- Makes a loop a `while` whose condition is that of the leading test, and puts the branch of the
`if` in its place. -/
def whileGuard (g : Graph) (loop : StatId) (t : LoopTest) (body : StatId) : Checked Graph := do
  let out := (← g.edge t.elseEdge).destination
  let g ← g.setKind loop .whileDo
  let g ← g.setCondition loop t.condition t.head
  let g ← g.detachEdge t.thenEdge
  let g ← g.detachEdge t.elseEdge
  let g ← g.liftExit loop t.elseEdge
  let some parent := (← g.stat t.stat).parent | return g
  let g ← g.removeChild t.stat body
  let g ← g.replaceStat parent t.stat body
  let g ← (← g.predecessorEdges out [.breakTo]).foldlM (raiseClosure loop) g
  g.lowerBreaks loop

/-- `do { if (c) break; … }` becomes `while (!c) { … }`, and a `do` that holds nothing but
`if (c) { … }` and is left when the test fails becomes `while (c) { … }`. -/
def whileForm? (g : Graph) (loop : StatId) : Checked (Option Graph) := do
  let some s ← g.leading? loop | return none
  let some t ← g.loopTest? s fun b headBlock => headBlock.isEmptyLeaf && b.form = .plain
    | return none
  match t.body with
  | none =>
    if ← g.fallsInto loop (← g.edge t.thenEdge).destination then g.whileNot loop t
    else return none
  | some body =>
    if ← g.fallsInto loop (← g.edge t.elseEdge).destination then g.whileGuard loop t body
    else return none

/-! ## A test at the end -/

/-- Whether one edge of a test leaves the loop and the other one continues it. -/
def leavesOrContinues (g : Graph) (loop : StatId) (leave again : EdgeId) : Checked Bool := do
  let out ← g.edge leave
  let back ← g.edge again
  if out.kind = .breakTo && back.kind = .continueTo && back.closure = some loop then
    g.fallsInto loop out.destination
  else return false

/-- Makes a loop a `do-while` with the trailing test as its condition, negated when the loop is left
on it. What the block in front of the test evaluates stays at the end of the body. -/
def doWhileTest (g : Graph) (loop : StatId) (t : LoopTest) (leavesOnTrue : Bool) :
    Checked Graph := do
  let g ← g.setKind loop .doWhile
  let (g, condition) ← if leavesOnTrue then g.negate t.condition else pure (g, t.condition)
  let g ← g.setCondition loop condition t.head
  let g ← g.detachEdge t.thenEdge
  let g ← g.detachEdge t.elseEdge
  let g ← if (← g.stat t.headBlock).isEmptyLeaf then g.dropEmptyTail loop t.stat
    else match (← g.stat t.stat).parent with
      | none => pure g
      | some parent => do
        let g ← g.removeChild t.stat t.headBlock
        let g ← g.replaceStat parent t.stat t.headBlock
        let (g, _) ← g.addEdge ⟨.continueTo, t.headBlock, loop, some loop, true, true⟩
        pure g
  g.liftExit loop (if leavesOnTrue then t.thenEdge else t.elseEdge)

/-- `do { …; if (c) continue; break; }` becomes `do { … } while (c)`, and the same with the jumps
exchanged becomes `do { … } while (!c)`. Any other continue of the loop would pass the condition
by. -/
def doWhileForm? (g : Graph) (loop : StatId) : Checked (Option Graph) := do
  let some s ← g.trailing? loop | return none
  let some t ← g.loopTest? s fun b _ => b.form = .plain && b.thenStat.isNone | return none
  let leavesOnTrue ← g.leavesOrContinues loop t.thenEdge t.elseEdge
  let leavesOnFalse ← g.leavesOrContinues loop t.elseEdge t.thenEdge
  if !leavesOnTrue && !leavesOnFalse then return none
  else
    let continues ← g.neighbours loop [.continueTo] .backward
    if continues.any fun c => c ≠ s && c ≠ t.headBlock then return none
    else g.doWhileTest loop t leavesOnTrue

end Decompiler.Graph

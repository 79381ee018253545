import Decompiler.Graph.Edges

/-!
# The statement tree

Walks over the tree and the operations that change it. A walk that goes down the children carries
the number of levels it may still descend: a way down that repeats no statement has at most as many
levels as there are statements, so a walk that runs out of levels has met a cycle.
-/

namespace Decompiler.Graph

/-! ## Walks -/

/-- A number of levels that no way through the statements without repetition exceeds. -/
def statLevels (g : Graph) : Nat := g.stats.size + 1

/-- The statements below and including `s`, parents before children. -/
def preorderIn (g : Graph) : (levels : Nat) → StatId → Checked (List StatId)
  | 0, _ => .error .cyclic
  | levels + 1, s => do
    let below ← (← g.stat s).children.mapM (g.preorderIn levels)
    return s :: below.flatten

/-- The statements below and including `s`, children before parents. -/
def postorderIn (g : Graph) : (levels : Nat) → StatId → Checked (List StatId)
  | 0, _ => .error .cyclic
  | levels + 1, s => do
    let below ← (← g.stat s).children.mapM (g.postorderIn levels)
    return below.flatten ++ [s]

/-- The statements of the tree, parents before children. -/
def statements (g : Graph) : Checked (List StatId) := g.preorderIn g.statLevels root

/-- The statements below and including `s`, children before parents. -/
def postorder (g : Graph) (s : StatId) : Checked (List StatId) := g.postorderIn g.statLevels s

/-- Whether `ancestor` is met on the way up from `s`, in at most `levels` steps. -/
def climbsTo (g : Graph) (ancestor : StatId) : (levels : Nat) → StatId → Checked Bool
  | 0, _ => .error .cyclic
  | levels + 1, s => do
    match (← g.stat s).parent with
    | none => return false
    | some p => if p = ancestor then return true else g.climbsTo ancestor levels p

/-- Whether `s` lies strictly inside `ancestor`. -/
def containsStrict (g : Graph) (ancestor s : StatId) : Checked Bool :=
  g.climbsTo ancestor g.statLevels s

/-- Whether `s` is `ancestor` or lies inside it. -/
def contains (g : Graph) (ancestor s : StatId) : Checked Bool :=
  if ancestor = s then return true else g.containsStrict ancestor s

/-! ## Changes -/

/-- Lets every edge that leaves `old` leave `new` instead. -/
def moveSuccessors (g : Graph) (old new : StatId) : Checked Graph := do
  let edges := (← g.stat old).successors
  let g ← g.modifyStat old fun s => { s with successors := [] }
  edges.foldlM (fun g e => do
    let g ← g.modifyEdge e fun edge => { edge with source := new }
    g.modifyStat new fun s => { s with successors := s.successors ++ [e] }) g

/-- Moves a label of a replaced statement to the statement `new` that took its place below `parent`.
An edge that starts at `new` itself is not labelled by it: inside `parent` it needs no closure, and
otherwise `parent` becomes its closure. -/
def moveLabel (parent new : StatId) (g : Graph) (e : EdgeId) : Checked Graph := do
  let edge ← g.edge e
  if edge.source ≠ new then g.setClosure new e
  else if ← g.contains parent edge.destination then g.clearClosure e
  else g.setClosure parent e

/-- Puts `new` in place of the child `old` of `parent` and moves all edges and labels of `old`
over. -/
def replaceStat (g : Graph) (parent old new : StatId) : Checked Graph := do
  let g ← (← g.stat old).predecessors.foldlM (fun g e => g.changeDestination e new) g
  let g ← g.moveSuccessors old new
  let g ← g.modifyStat parent (Stat.replaceChild old new)
  let g ← g.modifyStat new fun s => { s with parent := some parent }
  let g ← g.modifyStat old fun s => { s with parent := none }
  let g ← (← g.stat old).labels.reverse.foldlM (moveLabel parent new) g
  g.modifyStat old fun s => { s with labels := [] }

/-- Drops a child of a statement and leaves all edges alone. -/
def removeChild (g : Graph) (parent child : StatId) : Checked Graph := do
  let g ← g.modifyStat parent (Stat.dropChild child)
  g.modifyStat child fun s => { s with parent := none }

/-- Takes a statement out of the tree, and detaches every edge that leaves it or leads to it. -/
def removeStat (g : Graph) (s : StatId) : Checked Graph := do
  let g ← (← g.stat s).successors.foldlM detachEdge g
  let g ← (← g.stat s).predecessors.foldlM detachEdge g
  match (← g.stat s).parent with
  | none => return g
  | some parent => g.removeChild parent s

end Decompiler.Graph

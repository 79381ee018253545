import Decompiler.Graph.Basic

/-!
# Edges of a method graph

An attached edge is listed by its source, by its destination and, if it has one, by its closure. The
operations keep these lists in step with the ends of the edge.
-/

namespace Decompiler.Graph

/-! ## Attaching and moving -/

/-- Enters an edge into the lists of its source, destination and closure. -/
def attachEdge (g : Graph) (e : EdgeId) : Checked Graph := do
  let edge ← g.edge e
  let g ← g.modifyStat edge.source fun s => { s with successors := s.successors ++ [e] }
  let g ← g.modifyStat edge.destination fun s => { s with predecessors := s.predecessors ++ [e] }
  match edge.closure with
  | none => return g
  | some c => g.modifyStat c fun s => { s with labels := s.labels ++ [e] }

/-- Removes an edge from the labels of a statement. -/
def dropLabel (g : Graph) (s : StatId) (e : EdgeId) : Checked Graph :=
  g.modifyStat s fun s => { s with labels := s.labels.filter (· ≠ e) }

/-- Removes an edge from the lists of its source, destination and closure. The edge itself stays and
may be attached again, also from another source. -/
def detachEdge (g : Graph) (e : EdgeId) : Checked Graph := do
  let edge ← g.edge e
  let g ← g.modifyStat edge.source fun s => { s with successors := s.successors.filter (· ≠ e) }
  let g ← g.modifyStat edge.destination fun s =>
    { s with predecessors := s.predecessors.filter (· ≠ e) }
  match edge.closure with
  | none => return g
  | some c => g.dropLabel c e

/-- Adds an attached edge. -/
def addEdge (g : Graph) (edge : Edge) : Checked (Graph × EdgeId) := do
  let (edges, id) := g.edges.alloc edge
  return (← { g with edges := edges }.attachEdge id, id)

/-- Leads an attached edge to another statement. -/
def changeDestination (g : Graph) (e : EdgeId) (destination : StatId) : Checked Graph := do
  let old := (← g.edge e).destination
  let g ← g.modifyStat old fun s => { s with predecessors := s.predecessors.filter (· ≠ e) }
  let g ← g.modifyEdge e fun edge => { edge with destination := destination }
  g.modifyStat destination fun s => { s with predecessors := s.predecessors ++ [e] }

/-- Changes the kind of an edge. -/
def changeKind (g : Graph) (e : EdgeId) (kind : EdgeKind) : Checked Graph :=
  g.modifyEdge e fun edge => { edge with kind := kind }

/-- Takes an edge out of the labels of its closure, if it has one. -/
def unlabel (g : Graph) (e : EdgeId) : Checked Graph := do
  match (← g.edge e).closure with
  | none => return g
  | some old => g.dropLabel old e

/-- Makes a statement the closure of an attached edge. -/
def setClosure (g : Graph) (s : StatId) (e : EdgeId) : Checked Graph := do
  let g ← g.unlabel e
  let g ← g.modifyEdge e fun edge => { edge with closure := some s }
  g.modifyStat s fun s => { s with labels := s.labels ++ [e] }

/-- Leaves an edge without closure. -/
def clearClosure (g : Graph) (e : EdgeId) : Checked Graph := do
  let g ← g.unlabel e
  g.modifyEdge e fun edge => { edge with closure := none }

/-! ## Queries -/

/-- The edges of some kinds among a list. -/
def ofKinds (g : Graph) (kinds : EdgeKinds) (edges : List EdgeId) : Checked (List EdgeId) :=
  edges.filterM fun e => do return (← g.edge e).kind ∈ kinds

/-- The edges of some kinds that leave a statement. -/
def successorEdges (g : Graph) (s : StatId) (kinds : EdgeKinds) : Checked (List EdgeId) := do
  g.ofKinds kinds (← g.stat s).successors

/-- The edges of some kinds that lead to a statement. -/
def predecessorEdges (g : Graph) (s : StatId) (kinds : EdgeKinds) : Checked (List EdgeId) := do
  g.ofKinds kinds (← g.stat s).predecessors

/-- The statements at the other ends of the edges of some kinds. -/
def neighbours (g : Graph) (s : StatId) (kinds : EdgeKinds) :
    Direction → Checked (List StatId)
  | .forward => do (← g.successorEdges s kinds).mapM fun e => do return (← g.edge e).destination
  | .backward => do (← g.predecessorEdges s kinds).mapM fun e => do return (← g.edge e).source

/-- Whether some jump names a statement as its label. -/
def isLabeled (g : Graph) (s : StatId) : Checked Bool := do
  (← g.stat s).labels.anyM fun e => do
    let edge ← g.edge e
    return edge.labeled && edge.explicit

/-- The direct edges that leave the first child of a statement. For an `if` these are the edges its
test decides between, the one that is taken when the test holds in front. -/
def headEdges (g : Graph) (s : StatId) : Checked (List EdgeId) := do
  match (← g.stat s).first with
  | none => return []
  | some headBlock => g.successorEdges headBlock .direct

/-- The edge an `if` takes when its test holds. -/
def thenEdge? (g : Graph) (s : StatId) : Checked (Option EdgeId) := do
  return (← g.headEdges s)[0]?

/-- The edge an `if` with an `else` takes when its test fails. -/
def elseEdge? (g : Graph) (s : StatId) : Checked (Option EdgeId) := do
  match (← g.stat s).branch? with
  | some ⟨_, _, _, .withElse⟩ => return (← g.headEdges s)[1]?
  | _ => return none

/-- The first direct edge that leaves a statement. -/
def exitEdge? (g : Graph) (s : StatId) : Checked (Option EdgeId) := do
  return (← g.successorEdges s .direct)[0]?

end Decompiler.Graph

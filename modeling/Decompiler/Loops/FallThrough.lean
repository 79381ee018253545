import Decompiler.Graph.Tree

/-!
# Falling through

Where control goes when a statement ends without a jump. A statement with regular successors goes on
to them. One without leaves through its parent: at the end of the body of a loop the loop starts
over, at the end of a case the next case follows, and at the end of the method body the synthetic
exit is reached.

`lowerBreaks` moves the labels of breaks to the innermost statements from which the target is
reached by falling through.
-/

namespace Decompiler.Graph

/-- The case after `s`, unless `s` is the last one or no case at all. -/
def nextCase? (s : StatId) : List StatId → Option StatId
  | c :: d :: rest => if c = s then some d else nextCase? s (d :: rest)
  | _ => none

/-- Where control goes on entering a case: an empty leaf is passed over to what it leads to. -/
def enterCase (g : Graph) (s : StatId) : Checked StatId := do
  let stat ← g.stat s
  match stat.isEmptyLeaf, stat.successors with
  | true, e :: _ => return (← g.edge e).destination
  | _, _ => return s

/-- Whether control falls from `s` into `target`, found in at most `levels` steps up. -/
def fallsIntoIn (g : Graph) (target : StatId) : (levels : Nat) → StatId → Checked Bool
  | 0, _ => .error .cyclic
  | levels + 1, s => do
    let successors ← g.neighbours s [.regular] .forward
    if successors ≠ [] then return successors.contains target
    else
      let some parent := (← g.stat s).parent | return false
      match (← g.stat parent).kind with
      | .root => return target = exit
      | .loop _ => return target = parent
      | .switch _ cases =>
        match nextCase? s cases with
        | some next => return target = (← g.enterCase next)
        | none => g.fallsIntoIn target levels parent
      | _ => g.fallsIntoIn target levels parent

/-- Whether control falls from `s` into `target` without a jump. -/
def fallsInto (g : Graph) (s target : StatId) : Checked Bool :=
  g.fallsIntoIn target g.statLevels s

/-- Makes `child` the closure of an edge that starts inside it, if control falls from `child` to
where the edge leads. -/
def lowerLabel (e : EdgeId) (g : Graph) (child : StatId) : Checked Graph := do
  let edge ← g.edge e
  if ← g.containsStrict child edge.source then
    if ← g.fallsInto child edge.destination then g.setClosure child e else return g
  else return g

/-- Moves the labels of breaks from a statement to its children as far as they fit. -/
def lowerLabels (g : Graph) (s : StatId) : Checked Graph := do
  let stat ← g.stat s
  stat.labels.foldlM (fun g e => do
    if (← g.edge e).kind = .breakTo then stat.children.foldlM (lowerLabel e) g else return g) g

/-- Moves labels down in a statement and then in all below it. -/
def lowerBreaksIn : (levels : Nat) → Graph → StatId → Checked Graph
  | 0, _, _ => .error .cyclic
  | levels + 1, g, s => do
    let g ← g.lowerLabels s
    (← g.stat s).children.foldlM (lowerBreaksIn levels) g

/-- Moves the labels of breaks in a statement and all below it to the innermost statements from
which the target is reached by falling through. -/
def lowerBreaks (g : Graph) (s : StatId) : Checked Graph := lowerBreaksIn g.statLevels g s

end Decompiler.Graph

import Decompiler.Method
import Decompiler.Ty.Order

/-!
# Merging one variable into another

Every occurrence of a variable is made one of another, provided that their types have something in
common. Declarations of the variable that goes away are dropped; a neighbour in the same list takes
over their offsets.
-/

namespace Decompiler

/-! ## Types -/

namespace Method

/-- The type of the first occurrence of a variable. -/
def occurrenceType? (m : Method) (var : Local) : Checked (Option Ty) := do
  (← m.graph.exprsIn Graph.root).findSomeM? fun e => do
    return ((← m.graph.refsIn e).find? fun v => v.2.var = var).map fun v => v.2.ty

/-- The least type of a variable: as inferred, else as declared, else as its occurrences have it. -/
def leastType? (m : Method) (var : Local) : Checked (Option Ty) :=
  match m.vars.minTypes.get? var <|> m.vars.types.get? var with
  | some ty => return some ty
  | none => m.occurrenceType? var

/-- The type that two variables would share as one. -/
def sharedType? (m : Method) (source target : Local) : Checked (Option Ty) := do
  let sourceMin ← m.leastType? source
  let targetMin ← m.leastType? target
  return Ty.merged sourceMin targetMin (m.vars.maxTypes.get? source) (m.vars.maxTypes.get? target)

end Method

/-! ## Lists of expressions -/

namespace Graph

/-- Drops expressions from a list of which `kept` was kept, in reverse. The next expression in the
list, or else the last one kept, takes over the offsets of one that is dropped. With `keepLone` an
expression that is all there is left is not dropped. -/
def dropFrom (doomed : ExprId → Checked Bool) (keepLone : Bool) :
    Graph → (kept : List ExprId) → List ExprId → Checked (Graph × List ExprId)
  | g, kept, [] => return (g, kept.reverse)
  | g, kept, e :: rest => do
    let spared := keepLone && kept.isEmpty && rest.isEmpty
    if !(← doomed e) || spared then dropFrom doomed keepLone g (e :: kept) rest
    else match rest.head? <|> kept.head? with
      | some neighbour => dropFrom doomed keepLone (← g.absorb neighbour e) kept rest
      | none => dropFrom doomed keepLone g kept rest

/-- A node in the tree of an expression that a statement evaluates. -/
structure OwnedNode where
  /-- The statement. -/
  stat : StatId
  /-- The whole expression. -/
  top : ExprId
  /-- The node. -/
  id : ExprId
  /-- What the node is. -/
  expr : Expr

/-- The nodes of all expressions that statements of the tree evaluate. -/
def ownedNodes (g : Graph) : Checked (List OwnedNode) := do
  let perStat ← (← g.statements).mapM fun s => do
    let perTop ← (← g.stat s).ownExprs.mapM fun top => do
      return (← g.nodes top).map fun n => ⟨s, top, n.1, n.2.expr⟩
    return perTop.flatten
  return perStat.flatten

/-- Whether a node stores to `var` a value that is no copy of one of two variables. -/
def stores (g : Graph) (source target var : Local) (n : OwnedNode) : Checked Bool := do
  let some (left, right) := n.expr.assign? | return false
  let read ← g.local? right
  let written ← g.local? left
  return read ≠ some source && read ≠ some target && written = some var

/-- The constant, other than `null`, that a node assigns to one of two variables. -/
def storedConstant? (g : Graph) (source target : Local) (n : OwnedNode) :
    Checked (Option ExprId) := do
  let some (left, right) := n.expr.assign? | return none
  let written ← g.local? left
  if written ≠ some source && written ≠ some target then return none
  else match ← g.expr right with
    | .const _ .null => return none
    | .const _ _ => return some right
    | _ => return none

/-- Drops the declarations of a variable that stood on their own in leaves; they are given by
statement and id. -/
def dropBareDeclarations (bare : List (StatId × ExprId)) (g : Graph) (s : StatId) :
    Checked Graph := do
  let declared := (bare.filter fun b => b.1 = s).map Prod.snd
  match declared, (← g.stat s).exprs? with
  | _ :: _, some exprs => do
    let (g, exprs) ← dropFrom (fun e => return declared.contains e) false g [] exprs
    g.modifyStat s fun stat => stat.withExprs exprs
  | _, _ => return g

/-- Drops the declarations of `source` that a statement holds apart from its expressions, and gives
those of `target` a type. -/
def mergeDeclarations (source target : Local) (ty : Ty) (g : Graph) (s : StatId) :
    Checked Graph := do
  let isOf (var : Local) (e : ExprId) : Checked Bool := do return (← g.local? e) = some var
  let (g, declarations) ← dropFrom (isOf source) false g [] (← g.stat s).declarations
  let retype (v : VarRef) : VarRef := if v.var = target then { v with ty := ty } else v
  let g ← declarations.foldlM (fun g e => g.modifyExpr e (Expr.mapVar retype)) g
  g.modifyStat s fun stat => { stat with declarations := declarations }

end Graph

/-! ## Merging -/

/-- What came of the wish to merge a variable into another. -/
inductive Unification where
  /-- It is the same variable. -/
  | ontoItself
  /-- The variables have no type in common, or the one does not occur. -/
  | refused
  /-- The variables are now one. -/
  | merged
  deriving DecidableEq, Repr

namespace Method

/-- Lets every occurrence of `source` in the body be one of `target` of type `ty`. -/
def renameOccurrences (g : Graph) (nodes : List Graph.OwnedNode) (source target : Local)
    (ty : Ty) : Checked Graph := do
  let occurrences := nodes.filter fun n => n.expr.local? = some source
  let constants ← nodes.filterMapM (g.storedConstant? source target)
  let bare := (occurrences.filter fun n => n.id = n.top).map fun n => (n.stat, n.id)
  let rename (v : VarRef) : VarRef := { v with var := target, ty := ty, isDefinition := false }
  let retype : Expr → Expr
    | .const _ value => .const ty value
    | e => e
  let g ← occurrences.foldlM (fun g n => g.modifyExpr n.id (Expr.mapVar rename)) g
  let g ← constants.foldlM (fun g e => g.modifyExpr e retype) g
  let stats ← g.statements
  let g ← stats.foldlM (Graph.dropBareDeclarations bare) g
  stats.foldlM (Graph.mergeDeclarations source target ty) g

/-- What is known about `target` once `source` has been merged into it. -/
def mergeKnown (r : Registry) (source target : Local) (ty : Ty) (bothStored : Bool) :
    Checked Registry :=
  let finality :=
    if bothStored then .nonFinal else (r.finality source).merged (r.finality target)
  let entries := match r.debugEntries.get? target, r.debugEntries.get? source with
    | none, some entry => r.debugEntries.insert target entry
    | _, _ => r.debugEntries
  { r with
    finalities := r.finalities.insert target finality
    minTypes := r.minTypes.insert target ty
    types := r.types.insert target ty
    debugEntries := entries }.recordMerge source target

/-- Makes every occurrence of `source` one of `target`. Nothing is touched when the types have
nothing in common or `source` does not occur in an expression that a statement evaluates. -/
def unify (m : Method) (source target : Local) : Checked (Method × Unification) := do
  if source = target then return (m, .ontoItself)
  else
    let some ty ← m.sharedType? source target | return (m, .refused)
    let nodes ← m.graph.ownedNodes
    let sourceStored ← nodes.anyM (m.graph.stores source target source)
    let targetStored ← nodes.anyM (m.graph.stores source target target)
    if !nodes.any fun n => n.expr.local? = some source then return (m, .refused)
    else
      let graph ← renameOccurrences m.graph nodes source target ty
      let vars ← mergeKnown m.vars source target ty (sourceStored && targetStored)
      return (⟨graph, vars⟩, .merged)

end Method

end Decompiler

import Decompiler.Method

/-!
# Where variables are to be declared

A variable is declared in the smallest statement that holds all its uses: one that two of its
children mention, or that mentions the variable in an expression of its own. The receiver, the
parameters and the exception variables of handlers are declared by the method and the handlers
themselves.
-/

namespace Decompiler

/-- Where the variables of a method are to be declared. -/
structure Plan where
  /-- The statement that is to declare each index. -/
  homes : Table Nat StatId
  /-- The indices mentioned in each statement and all below it. -/
  mentions : Table StatId (List Nat)
  /-- The indices that are declared without a declaration. -/
  implicit : List Nat

namespace Plan

/-- The homes, in ascending order of the indices. -/
def ascending (p : Plan) : List (Nat × StatId) := p.homes.entries.mergeSort fun a b => a.1 ≤ b.1

/-- Whether a statement or one below it mentions an index. -/
def mentioned (p : Plan) (s : StatId) (index : Nat) : Bool :=
  index ∈ (p.mentions.get? s).getD []

end Plan

namespace Graph

/-- The indices of the variables in some expressions. -/
def indicesIn (g : Graph) (l : List ExprId) : Checked (List Nat) := do
  return (← g.refsInAll l).map fun v => v.2.var.index

/-- The expressions of a statement that count as mentioned by its parent: the condition of a loop
that tests it outside its body, and the monitor of a `finally`. -/
def mentionedAbove (stat : Stat) : List ExprId :=
  match stat.kind with
  | .loop l => if l.kind = .whileDo || l.kind = .doWhile then l.condition.toList else []
  | .catchAll _ true monitor => monitor.toList
  | _ => []

/-- What is known of a statement from its items: the indices each child mentions, and the
expressions it mentions itself. -/
structure Mentions where
  /-- The plan so far. -/
  plan : Plan
  /-- The indices mentioned by each child, one list after the other. -/
  below : List Nat
  /-- The expressions that the statement mentions itself. -/
  own : List ExprId

/-- Enters a statement into a plan: it is the home of each index that it mentions itself or that two
of its children mention. Returns the indices mentioned in it. -/
def enterPlan (g : Graph) (s : StatId) (m : Mentions) : Checked (Plan × List Nat) := do
  let own ← g.indicesIn m.own
  let mentioned := (m.below ++ own).eraseDups
  let homes := mentioned.filter fun i => i ∈ own || 1 < m.below.count i
  let plan := { m.plan with
    homes := homes.foldl (fun t i => t.insert i s) m.plan.homes
    mentions := m.plan.mentions.insert s mentioned }
  return (plan, mentioned)

/-- Plans a statement and all below it, within `levels` levels, children before parents. -/
def planIn (g : Graph) : (levels : Nat) → Plan → StatId → Checked (Plan × List Nat)
  | 0, _, _ => .error .cyclic
  | levels + 1, plan, s => do
    let visit (m : Mentions) : Item → Checked Mentions
      | .expr e => return { m with own := m.own ++ [e] }
      | .stat child => do
        let (plan, below) ← g.planIn levels m.plan child
        let above := mentionedAbove (← g.stat child)
        return ⟨plan, m.below ++ below, m.own ++ above⟩
    g.enterPlan s (← (← g.stat s).items.foldlM visit ⟨plan, [], []⟩)

end Graph

namespace Method

/-- The exception variables of the handlers of a statement. -/
def handlerVars (stat : Stat) : List ExprId :=
  match stat.kind with
  | .tryCatch vars => vars
  | .catchAll vars _ _ => vars
  | _ => []

/-- Names the receiver and the parameters of a method. -/
def nameParameters (r : Registry) : Registry :=
  r.parameterSlots.zipIdx.foldl (fun r p =>
    if !r.isStatic && p.2 = 0 then (r.addName "this").setName ⟨p.1, 0⟩ "this"
    else r.nameByIndex ⟨p.1, 0⟩) r

/-- Declares and names one exception variable. -/
def declareHandlerVar (acc : Method × List Nat) (e : ExprId) : Checked (Method × List Nat) := do
  let (m, implicit) := acc
  let some v ← m.graph.var? e | return acc
  let graph ← m.graph.modifyExpr e (Expr.mapVar fun v => { v with isDefinition := true })
  return (⟨graph, m.vars.nameByIndex v.var⟩, v.var.index :: implicit)

/-- Declares and names what needs no declaration, and plans where all else is to be declared. -/
def plan (m : Method) : Checked (Method × Plan) := do
  let m := { m with vars := nameParameters m.vars }
  let handlers ← (← m.graph.statements).mapM fun s => do return handlerVars (← m.graph.stat s)
  let (m, implicit) ← handlers.flatten.foldlM declareHandlerVar (m, m.vars.parameterSlots)
  let g := m.graph
  let (plan, _) ← g.planIn g.statLevels ⟨.empty, .empty, implicit⟩ Graph.root
  return (m, plan)

end Method

end Decompiler

import Decompiler.Variables.Plan

/-!
# Placing declarations

Every variable gets one declaring expression: an assignment to it that is marked as its definition,
or else a new occurrence on its own, put where the declaration has to stand.
-/

namespace Decompiler

namespace Graph

/-- Which of some statements to look into for the first mention of a variable: the first that
mentions it, or else the last one. Also tells whether it is the last. -/
def pickMentioning (mentioned : StatId → Bool) : List StatId → Option (StatId × Bool)
  | [] => none
  | [s] => some (s, true)
  | s :: rest => if mentioned s then some (s, false) else pickMentioning mentioned rest

/-- The statement among some, or inside them within `levels` levels, at whose start a variable is to
be declared. A labelled statement with others after it is not entered. -/
def firstBlockIn (g : Graph) (mentioned : StatId → Bool) :
    (levels : Nat) → List StatId → Checked (Option StatId)
  | 0, _ => .error .cyclic
  | levels + 1, stats => do
    let some (s, isLast) := pickMentioning mentioned stats | return none
    if (← g.isLabeled s) && !isLast then return some s
    else
      let stat ← g.stat s
      match stat.kind with
      | .sequence => g.firstBlockIn mentioned levels stat.children
      | .branch _ | .root | .switch _ _ | .synchronized _ _ =>
        g.firstBlockIn mentioned levels stat.first.toList
      | _ => return some s

/-- The statement at whose start a variable of `s` is to be declared. -/
def firstBlock? (g : Graph) (plan : Plan) (s : StatId) (index : Nat) : Checked (Option StatId) :=
  g.firstBlockIn (fun s => plan.mentioned s index) (g.statLevels + 1) [s]

/-- The first occurrence in a statement and all below it for which `f` has an answer. -/
def findOccurrence? {α : Type} (g : Graph) (s : StatId) (f : VarRef → Option α) :
    Checked (Option α) := do
  (← g.exprsIn s).findSomeM? fun e => do
    return (← g.refsIn e).findSome? fun v => f v.2

end Graph

namespace Method

/-- Marks an expression as the definition of an index, if it is an assignment to it. The variable
takes the debug entry that covers the statement `scope`, unless it has one. -/
def define? (m : Method) (e : ExprId) (index : Nat) (scope : StatId) :
    Checked (Option Method) := do
  let some (left, _) ← m.graph.assign? e | return none
  let range ← m.graph.offsetRange? scope
  let some v ← m.graph.var? left | return none
  if v.var.index ≠ index then return none
  else
    let found := range.bind fun r => m.vars.findEntry? index r.1 r.2
    let mark (v : VarRef) : VarRef :=
      { v with isDefinition := true, entry := v.entry <|> found }
    return some { m with graph := ← m.graph.modifyExpr left (Expr.mapVar mark) }

/-- The debug entry for a declaration of an index in a statement: the one an occurrence has, or else
the one that covers the statement. -/
def entryFor? (m : Method) (index : Nat) (s : StatId) : Checked (Option DebugEntry) := do
  let carried ← m.graph.findOccurrence? s fun v =>
    if v.var.index = index then v.entry else none
  if carried.isSome then return carried
  else return (← m.graph.offsetRange? s).bind fun r => m.vars.findEntry? index r.1 r.2

/-- Looks for a definition of an index at the start of a list: the method with an assignment to it
marked, or else the position of the first expression that mentions it. -/
def defineInList (m : Method) (index : Nat) (scope : StatId) :
    (position : Nat) → List ExprId → Checked (Method ⊕ Nat)
  | position, [] => return .inr position
  | position, e :: rest => do
    match ← m.define? e index scope with
    | some m => return .inl m
    | none =>
      if index ∈ (← m.graph.indicesIn [e]) then return .inr position
      else m.defineInList index scope (position + 1) rest

/-- Looks for a definition of an index in the slots of a loop that is to declare it: the method with
it marked, or else the statement that is to declare it instead. A variable of the condition or the
step of a `for` is declared around the loop. -/
def defineInLoop (m : Method) (index : Nat) (s : StatId) : Checked (Method ⊕ StatId) := do
  let stat ← m.graph.stat s
  match stat.kind with
  | .loop ⟨.counted, init, condition, step⟩ =>
    let defined ← match init with
      | some init => m.define? init index s
      | none => pure none
    match defined with
    | some m => return .inl m
    | none =>
      let special ← m.graph.indicesIn (condition.toList ++ step.toList)
      return .inr (if index ∈ special then stat.parent.getD s else s)
  | .loop ⟨.forEach, some init, _, _⟩ =>
    match ← m.graph.var? init with
    | some v =>
      if v.var.index = index then
        let mark (v : VarRef) : VarRef := { v with isDefinition := true }
        return .inl { m with graph := ← m.graph.modifyExpr init (Expr.mapVar mark) }
      else return .inr s
    | none => return .inr s
  | _ => return .inr s

/-- Puts a new declaration of a variable into the list of `target`, the expressions of a leaf or the
declarations of another statement. -/
def insertDeclaration (m : Method) (v : VarRef) (target : StatId) (position : Nat) :
    Checked Method := do
  let (graph, e) := m.graph.allocExpr (.var v) .empty
  let graph ← graph.modifyStat target fun stat =>
    match stat.exprs? with
    | some exprs => stat.withExprs (exprs.insertIdx position e)
    | none => { stat with declarations := stat.declarations.insertIdx position e }
  return { m with graph := graph }

/-- Declares a variable in a statement whose loop slots do not define it, by its first assignment or
by a new declaration. -/
def declareIn (m : Method) (plan : Plan) (var : Local) (occurrenceType : Option Ty) (s : StatId) :
    Checked Method := do
  let first ← m.graph.firstBlock? plan s var.index
  let target := first.getD s
  let stat ← m.graph.stat target
  let list := stat.exprs?.getD stat.declarations
  match ← m.defineInList var.index s 0 list with
  | .inl m => return m
  | .inr position =>
    let ty := ((m.vars.types.get? var) <|> occurrenceType).getD .unknown
    let entry ← if m.vars.debugTable.isSome then m.entryFor? var.index s else pure none
    m.insertDeclaration ⟨var, ty, true, false, entry⟩ target position

/-- Names and declares the variable of an index, in the version that occurs first in its home. -/
def declare (plan : Plan) (m : Method) (home : Nat × StatId) : Checked Method := do
  let (index, s) := home
  if index ∈ plan.implicit then return m
  else
    let first ← m.graph.findOccurrence? s fun v => if v.var.index = index then some v else none
    let var : Local := ⟨index, (first.map fun v => v.var.version).getD 0⟩
    let m := { m with vars := m.vars.nameByIndex var }
    match ← m.defineInLoop index s with
    | .inl m => return m
    | .inr s => m.declareIn plan var (first.map VarRef.ty) s

/-- Declares every variable of a plan, in ascending order of the indices. -/
def declareAll (m : Method) (plan : Plan) : Checked Method :=
  plan.ascending.foldlM (declare plan) m

end Method

end Decompiler

import Decompiler.Variables.Merge
import Decompiler.Variables.Uses

/-!
# Merging across scopes

A variable that is declared where another version of its slot is still in scope, and not read any
more, is merged into that version. Merging goes on until no declaration can be merged.
-/

namespace Decompiler

/-- What is in scope while a statement is walked through. -/
structure Scope where
  /-- The variable in scope for each slot. -/
  visible : Table Nat Local
  /-- The variables that stay in scope after the statement. -/
  leaked : Table Nat Local

/-- A walk that ends early when it finds variables to merge. -/
abbrev MergeSearch := ExceptT Candidate (Except Fault)

namespace Method

/-- The variables to merge for an occurrence that declares one: the declared variable and the one in
scope for its slot, unless that was the last target refused for it. -/
def scopeCandidate? (m : Method) (refused : Table Local Local) (visible : Table Nat Local)
    (var : Local) : Option Candidate := do
  let existing ← visible.get? (m.vars.slotOf var.index)
  if refused.get? var = some existing then none else some ⟨var, existing⟩

/-- Lets a declared variable come into scope. -/
def enterScope (m : Method) (scope : Scope) (var : Local) (leaks : Bool) : Scope :=
  let slot := m.vars.slotOf var.index
  ⟨scope.visible.insert slot var,
    if leaks then scope.leaked.insert slot var else scope.leaked⟩

/-- Walks over a declaration that stands apart from the expressions of a statement. -/
def walkDeclaration (m : Method) (refused : Table Local Local) (scope : Scope) (e : ExprId) :
    MergeSearch Scope := do
  match ← m.graph.var? e with
  | none => return scope
  | some v =>
    match m.scopeCandidate? refused scope.visible v.var with
    | some c => throw c
    | none => return m.enterScope scope v.var true

/-- The declared variable of an expression: of an assignment its target, of an occurrence itself. -/
def declared? (g : Graph) (e : ExprId) : Checked (Option Local) := do
  let v ← match ← g.expr e with
    | .assign left _ => g.var? left
    | .var v => pure (some v)
    | _ => pure none
  return (v.filter VarRef.isDefinition).map VarRef.var

/-- Whether the declarations of a child stay in scope in its parent, and after it. -/
def leaksFrom (stat : Stat) (child : StatId) : Bool × Bool :=
  let isFirst : Bool := stat.first = some child
  match stat.kind with
  | .branch b =>
    if b.thenStat = some child || b.elseStat = some child then (false, false) else (true, isFirst)
  | .switch _ _ | .synchronized _ _ => (isFirst, isFirst)
  | .tryCatch _ | .catchAll _ _ _ => (false, false)
  | _ => (true, false)

/-- Whether a statement lets the declarations in its own expressions stay in scope after it. -/
def leaksOwn (kind : StatKind) : Bool :=
  match kind with
  | .block _ | .sequence | .root => true
  | _ => false

/-- Walks over an expression, the one at `position` among the items of `s`. A declaration of a slot
whose variable in scope is read later stays as it is, and hides nothing. -/
def walkExpr (m : Method) (refused : Table Local Local) (s : StatId) (stat : Stat) (scope : Scope)
    (position : Nat) (e : ExprId) : MergeSearch Scope := do
  match ← declared? m.graph e with
  | none => return scope
  | some var =>
    match m.scopeCandidate? refused scope.visible var with
    | some c =>
      if ← m.graph.reads c.target s (position + 1) [] then return scope else throw c
    | none => return m.enterScope scope var (leaksOwn stat.kind)

/-- Walks over a statement, within `levels` levels, in order of execution. Returns the variables
that stay in scope after it. -/
def walkScope (m : Method) (refused : Table Local Local) :
    (levels : Nat) → (visible : Table Nat Local) → StatId → MergeSearch (Table Nat Local)
  | 0, _, _ => throwThe Fault .cyclic
  | levels + 1, visible, s => do
    let stat ← m.graph.stat s
    let scope ← stat.declarations.foldlM (m.walkDeclaration refused) ⟨visible, .empty⟩
    let visit (scope : Scope) : Item × Nat → MergeSearch Scope
      | (.expr e, position) => m.walkExpr refused s stat scope position e
      | (.stat child, _) => do
        let leaked ← m.walkScope refused levels scope.visible child
        let (inside, after) := leaksFrom stat child
        return ⟨if inside then scope.visible.union leaked else scope.visible,
          if after then scope.leaked.union leaked else scope.leaked⟩
    return (← stat.items.zipIdx.foldlM visit scope).leaked

/-- The first variables to merge across scopes. The parameters are in scope from the start. -/
def scopedCandidate? (m : Method) (refused : Table Local Local) : Checked (Option Candidate) := do
  let parameters := Table.ofList (m.vars.parameterSlots.map fun slot => (slot, ⟨slot, 0⟩))
  match ← (m.walkScope refused m.graph.statLevels parameters Graph.root).run with
  | .error c => return some c
  | .ok _ => return none

/-- Merges across scopes until nothing is left to merge, in at most `rounds` rounds. Of the targets
refused for a variable only the last one is remembered. -/
def mergeScopedIn : (rounds : Nat) → Method → (refused : Table Local Local) →
    Checked (Method × Except MergeFailure Unit)
  | 0, _, _ => .error .cyclic
  | rounds + 1, m, refused => do
    let some c ← m.scopedCandidate? refused | return (m, .ok ())
    let (m, outcome) ← m.unify c.source c.target
    match outcome with
    | .ontoItself => return (m, .error (.ontoItself c.source))
    | .refused => mergeScopedIn rounds m (refused.insert c.source c.target)
    | .merged => mergeScopedIn rounds m refused

/-- Merges across scopes until nothing is left to merge. Each round either makes a variable
disappear or changes what is remembered as refused. With `n` variables there are at most
`(n + 1) ^ n` such memories, so a search that goes on for longer repeats itself. -/
def mergeScoped (m : Method) : Checked (Method × Except MergeFailure Unit) :=
  let bound := m.graph.exprs.size + m.vars.parameterSlots.length + 1
  mergeScopedIn (Nat.pow bound bound) m .empty

end Method

end Decompiler

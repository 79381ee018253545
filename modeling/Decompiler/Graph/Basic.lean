import Decompiler.Expr
import Decompiler.Stat

/-!
# Method graphs

The body of a method: a tree of statements below a root, control edges between the statements, and
the expressions that the statements evaluate. Statement 0 is the synthetic exit, to which edges that
leave the method lead, and statement 1 is the root; the exit is in no tree.
-/

namespace Decompiler

/-- The body of one method. -/
structure Graph where
  /-- The statements, in the tree or not. -/
  stats : Arena .stat Stat
  /-- The edges, attached or not. -/
  edges : Arena .edge Edge
  /-- The expressions, in use or not. -/
  exprs : Arena .expr ExprNode
  deriving DecidableEq

namespace Graph

/-- The synthetic exit. -/
def exit : StatId := ⟨0⟩

/-- The root of the statement tree. -/
def root : StatId := ⟨1⟩

/-- The body of a method without statements. -/
def empty : Graph :=
  ⟨⟨#[Stat.ofKind .exit [], Stat.ofKind .root []]⟩, .empty, .empty⟩

/-! ## Reading -/

/-- A statement. -/
def stat (g : Graph) (s : StatId) : Checked Stat := g.stats.get s

/-- An edge. -/
def edge (g : Graph) (e : EdgeId) : Checked Edge := g.edges.get e

/-- An expression with its offsets. -/
def node (g : Graph) (e : ExprId) : Checked ExprNode := g.exprs.get e

/-- An expression. -/
def expr (g : Graph) (e : ExprId) : Checked Expr := do
  return (← g.node e).expr

/-- The own offsets of an expression. -/
def offsets (g : Graph) (e : ExprId) : Checked Offsets := do
  return (← g.node e).offsets

/-- The occurrence at an expression, if it is one. -/
def var? (g : Graph) (e : ExprId) : Checked (Option VarRef) := do
  return (← g.expr e).var?

/-- The variable at an expression, if it is an occurrence. -/
def local? (g : Graph) (e : ExprId) : Checked (Option Local) := do
  return (← g.expr e).local?

/-- Both sides of an expression that is an assignment. -/
def assign? (g : Graph) (e : ExprId) : Checked (Option (ExprId × ExprId)) := do
  return (← g.expr e).assign?

/-- The loop at a statement, if it is one. -/
def loop? (g : Graph) (s : StatId) : Checked (Option Loop) := do
  return (← g.stat s).loop?

/-! ## Writing -/

/-- Changes a statement. -/
def modifyStat (g : Graph) (s : StatId) (f : Stat → Stat) : Checked Graph := do
  return { g with stats := ← g.stats.modify s f }

/-- Changes an edge. -/
def modifyEdge (g : Graph) (e : EdgeId) (f : Edge → Edge) : Checked Graph := do
  return { g with edges := ← g.edges.modify e f }

/-- Changes an expression and keeps its offsets. -/
def modifyExpr (g : Graph) (e : ExprId) (f : Expr → Expr) : Checked Graph := do
  return { g with exprs := ← g.exprs.modify e fun n => { n with expr := f n.expr } }

/-- Changes the loop at a statement. -/
def modifyLoop (g : Graph) (s : StatId) (f : Loop → Loop) : Checked Graph :=
  g.modifyStat s (Stat.mapLoop f)

/-- Adds offsets to the own offsets of an expression. -/
def addOffsets (g : Graph) (e : ExprId) (offsets : Offsets) : Checked Graph := do
  return { g with
    exprs := ← g.exprs.modify e fun n => { n with offsets := n.offsets.union offsets } }

/-! ## Building -/

/-- Adds an expression with the offsets it was built from. -/
def allocExpr (g : Graph) (e : Expr) (offsets : Offsets) : Graph × ExprId :=
  let (exprs, id) := g.exprs.alloc ⟨e, offsets⟩
  ({ g with exprs := exprs }, id)

/-- Adds a statement above its children. -/
def allocStat (g : Graph) (kind : StatKind) (children : List StatId) :
    Checked (Graph × StatId) := do
  let (stats, id) := g.stats.alloc (Stat.ofKind kind children)
  let adopt (g : Graph) (child : StatId) := g.modifyStat child fun s => { s with parent := some id }
  return (← children.foldlM adopt { g with stats := stats }, id)

/-- Adds a leaf. -/
def block (g : Graph) (exprs : List ExprId) : Checked (Graph × StatId) :=
  g.allocStat (.block exprs) []

/-- Adds a sequence. -/
def sequence (g : Graph) (children : List StatId) : Checked (Graph × StatId) :=
  g.allocStat .sequence children

/-- Adds an `if`, with an `else` exactly when there is a statement for it. -/
def branch (g : Graph) (headBlock : StatId) (head : ExprId) (thenStat elseStat : Option StatId) :
    Checked (Graph × StatId) :=
  let form := if elseStat.isSome then .withElse else .plain
  g.allocStat (.branch ⟨head, thenStat, elseStat, form⟩)
    (headBlock :: (thenStat.toList ++ elseStat.toList))

/-- Adds a loop that is only left by breaks. -/
def endlessLoop (g : Graph) (body : StatId) : Checked (Graph × StatId) :=
  g.allocStat (.loop ⟨.endless, none, none, none⟩) [body]

/-- Adds a `switch`. -/
def switch (g : Graph) (headBlock : StatId) (head : ExprId) (cases : List StatId) :
    Checked (Graph × StatId) :=
  g.allocStat (.switch head cases) (headBlock :: cases)

/-- Adds a `try` with handlers. -/
def tryCatch (g : Graph) (body : StatId) (handlers : List StatId) (vars : List ExprId) :
    Checked (Graph × StatId) :=
  g.allocStat (.tryCatch vars) (body :: handlers)

/-- Adds a `try` with one handler for everything. -/
def catchAll (g : Graph) (body handler : StatId) (vars : List ExprId) (isFinally : Bool)
    (monitor : Option ExprId) : Checked (Graph × StatId) :=
  g.allocStat (.catchAll vars isFinally monitor) [body, handler]

/-- Adds a synchronized statement. -/
def synchronized (g : Graph) (headBlock : StatId) (head : Option ExprId) (body : StatId) :
    Checked (Graph × StatId) :=
  g.allocStat (.synchronized head body) [headBlock, body]

/-- Makes a statement the only child of the root. -/
def setBody (g : Graph) (body : StatId) : Checked Graph := do
  let g ← g.modifyStat body fun s => { s with parent := some root }
  g.modifyStat root fun s => { s with children := [body], first := some body }

end Graph

end Decompiler

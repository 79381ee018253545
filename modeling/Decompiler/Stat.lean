import Decompiler.Arena

/-!
# Statements and edges

The nodes of the statement tree and the control edges between them. A statement lists its children
in order of execution; some of them have a role besides, such as the one through which control
enters or the branches of an `if`.
-/

namespace Decompiler

/-- Whether an `if` was written with an `else`. -/
inductive IfForm where
  | plain
  | withElse
  deriving DecidableEq, Repr

/-- The printed form of an `if` form. -/
def IfForm.word : IfForm → String
  | .plain => "if"
  | .withElse => "if-else"

/-- The forms a loop can take. -/
inductive LoopKind where
  /-- A loop that is only left by breaks. -/
  | endless
  /-- Tests a condition before each round. -/
  | whileDo
  /-- Tests a condition after each round. -/
  | doWhile
  /-- Has an initialisation, a condition and a step. -/
  | counted
  /-- Runs over the elements of a collection or an array. -/
  | forEach
  deriving DecidableEq, Repr

/-- The printed form of a loop kind. -/
def LoopKind.word : LoopKind → String
  | .endless => "do"
  | .whileDo => "while"
  | .doWhile => "do-while"
  | .counted => "for"
  | .forEach => "foreach"

/-- A loop: its kind and the expressions in its slots. For a loop over elements, `init` is the
element variable and `step` is what it runs over. -/
structure Loop where
  /-- The form the loop has taken. -/
  kind : LoopKind
  /-- The initialisation. -/
  init : Option ExprId
  /-- The condition. -/
  condition : Option ExprId
  /-- The step. -/
  step : Option ExprId
  deriving DecidableEq, Repr

/-- A branching statement. Its first child is the block that leads to the test. -/
structure Branch where
  /-- The test, an `Expr.test`. -/
  head : ExprId
  /-- What is done when the test holds, unless that is a jump. -/
  thenStat : Option StatId
  /-- What is done otherwise. -/
  elseStat : Option StatId
  /-- Whether there is an `else`. -/
  form : IfForm
  deriving DecidableEq, Repr

/-- The kinds of statements. -/
inductive StatKind where
  /-- A leaf: expressions evaluated one after the other. -/
  | block (exprs : List ExprId)
  | sequence
  | branch (b : Branch)
  | loop (l : Loop)
  /-- A `switch` with the statements of its cases, after a block that leads to its head. -/
  | switch (head : ExprId) (cases : List StatId)
  /-- A body and its handlers, with one exception variable for each. -/
  | tryCatch (vars : List ExprId)
  /-- A body and a handler for everything; the monitor is that of a synchronized `finally`. -/
  | catchAll (vars : List ExprId) (isFinally : Bool) (monitor : Option ExprId)
  /-- A block, the entering of a monitor once it is known, and a body. -/
  | synchronized (head : Option ExprId) (body : StatId)
  /-- The whole method. -/
  | root
  /-- Where control goes when it leaves the method. -/
  | exit
  deriving DecidableEq, Repr

/-- The printed name of a kind of statement. -/
def StatKind.word : StatKind → String
  | .block _ => "block"
  | .sequence => "sequence"
  | .branch _ => "if"
  | .loop _ => "loop"
  | .switch _ _ => "switch"
  | .tryCatch _ => "try"
  | .catchAll _ _ _ => "catchall"
  | .synchronized _ _ => "synchronized"
  | .root => "root"
  | .exit => "exit"

/-- A statement. -/
structure Stat where
  /-- What kind of statement it is. -/
  kind : StatKind
  /-- The statement that lists it among its children. -/
  parent : Option StatId
  /-- The child through which control enters. -/
  first : Option StatId
  /-- The statements inside it, in order of execution. -/
  children : List StatId
  /-- Declarations that have no place in a leaf. -/
  declarations : List ExprId
  /-- The edges that leave it. -/
  successors : List EdgeId
  /-- The edges that lead to it. -/
  predecessors : List EdgeId
  /-- The edges of which it is the closure. -/
  labels : List EdgeId
  deriving DecidableEq, Repr

/-- One of the things a statement does: a statement inside it, or an expression of its own. -/
inductive Item where
  | stat (s : StatId)
  | expr (e : ExprId)
  deriving DecidableEq, Repr

/-- The expression, if the item is one. -/
def Item.expr? : Item → Option ExprId
  | .expr e => some e
  | .stat _ => none

namespace Stat

/-- A statement on its own, entered through the first of its children. -/
def ofKind (kind : StatKind) (children : List StatId) : Stat :=
  ⟨kind, none, children.head?, children, [], [], [], []⟩

/-- The expressions of a leaf. -/
def exprs? (s : Stat) : Option (List ExprId) :=
  match s.kind with
  | .block exprs => some exprs
  | _ => none

/-- Whether the statement is a leaf. -/
def isLeaf (s : Stat) : Bool := s.exprs?.isSome

/-- Whether the statement is a leaf without expressions. -/
def isEmptyLeaf (s : Stat) : Bool := s.exprs? = some []

/-- The loop, if the statement is one. -/
def loop? (s : Stat) : Option Loop :=
  match s.kind with
  | .loop l => some l
  | _ => none

/-- The branch, if the statement is one. -/
def branch? (s : Stat) : Option Branch :=
  match s.kind with
  | .branch b => some b
  | _ => none

/-- Replaces the expressions of a leaf. -/
def withExprs (s : Stat) (exprs : List ExprId) : Stat :=
  match s.kind with
  | .block _ => { s with kind := .block exprs }
  | _ => s

/-- Changes a loop and leaves other statements alone. -/
def mapLoop (f : Loop → Loop) (s : Stat) : Stat :=
  match s.kind with
  | .loop l => { s with kind := .loop (f l) }
  | _ => s

/-- The expressions a loop evaluates before its body. -/
def loopBefore (l : Loop) : List ExprId :=
  match l.kind with
  | .counted => l.init.toList ++ l.condition.toList
  | .whileDo => l.condition.toList
  | .forEach => l.init.toList ++ l.step.toList
  | .doWhile | .endless => []

/-- The expressions a loop evaluates after its body. -/
def loopAfter (l : Loop) : List ExprId :=
  match l.kind with
  | .counted => l.step.toList
  | .doWhile => l.condition.toList
  | .whileDo | .forEach | .endless => []

/-- What the statement does, in order of execution. A head is evaluated right after the first child;
where a loop evaluates its slots depends on its kind. -/
def items (s : Stat) : List Item :=
  let inside := s.children.map Item.stat
  let withHead (head : List ExprId) := inside.take 1 ++ head.map Item.expr ++ inside.drop 1
  match s.kind with
  | .block exprs => exprs.map Item.expr
  | .branch b => withHead [b.head]
  | .switch head _ => withHead [head]
  | .synchronized head _ => withHead head.toList
  | .loop l => (loopBefore l).map Item.expr ++ inside ++ (loopAfter l).map Item.expr
  | _ => inside

/-- The expressions the statement evaluates itself: those among its items, the exception variables
of handlers and the monitor of a synchronized `finally`. -/
def ownExprs (s : Stat) : List ExprId :=
  let evaluated := s.items.filterMap Item.expr?
  match s.kind with
  | .tryCatch vars => evaluated ++ vars
  | .catchAll vars _ monitor => evaluated ++ vars ++ monitor.toList
  | _ => evaluated

/-- Puts `new` in place of the child `old`, in the list of children and in every role. -/
def replaceChild (old new : StatId) (s : Stat) : Stat :=
  let swap (c : StatId) := if c = old then new else c
  let kind := match s.kind with
    | .branch b =>
      .branch { b with thenStat := b.thenStat.map swap, elseStat := b.elseStat.map swap }
    | .switch head cases => .switch head (cases.map swap)
    | .synchronized head body => .synchronized head (swap body)
    | kind => kind
  { s with kind := kind, first := s.first.map swap, children := s.children.map swap }

/-- Drops a child from the list of children and from the roles that may be vacant. If control
entered through it, it enters through the first child that is left. -/
def dropChild (child : StatId) (s : Stat) : Stat :=
  let keep (c : StatId) : Bool := c ≠ child
  let kind := match s.kind with
    | .branch b =>
      .branch { b with thenStat := b.thenStat.filter keep, elseStat := b.elseStat.filter keep }
    | .switch head cases => .switch head (cases.filter keep)
    | kind => kind
  let children := s.children.filter keep
  let first := if s.first = some child then children.head? else s.first
  { s with kind := kind, first := first, children := children }

end Stat

/-- The kinds of control edges. -/
inductive EdgeKind where
  /-- Control goes on to what follows. -/
  | regular
  /-- An exception leads to a handler. -/
  | exception
  /-- A `break`. -/
  | breakTo
  /-- A `continue`. -/
  | continueTo
  deriving DecidableEq, Repr

/-- The printed form of an edge kind. -/
def EdgeKind.word : EdgeKind → String
  | .regular => "regular"
  | .exception => "exception"
  | .breakTo => "break"
  | .continueTo => "continue"

/-- A choice of edge kinds. -/
abbrev EdgeKinds := List EdgeKind

/-- The kinds that do not come from exceptions. -/
def EdgeKinds.direct : EdgeKinds := [.regular, .breakTo, .continueTo]

/-- Every kind. -/
def EdgeKinds.all : EdgeKinds := [.regular, .exception, .breakTo, .continueTo]

/-- Which end of its edges a statement is at. -/
inductive Direction where
  | forward
  | backward
  deriving DecidableEq, Repr

/-- A control edge. -/
structure Edge where
  /-- Its kind. -/
  kind : EdgeKind
  /-- Where it starts. -/
  source : StatId
  /-- Where it leads. -/
  destination : StatId
  /-- The statement whose label a jump is relative to. -/
  closure : Option StatId
  /-- Whether a jump names its label. -/
  labeled : Bool
  /-- Whether a jump is written at all. -/
  explicit : Bool
  deriving DecidableEq, Repr

end Decompiler

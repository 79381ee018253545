import Decompiler.Graph.Exprs
import Decompiler.Text.Number
import Decompiler.Text.Quoted

/-!
# Debug text

The printed form of expressions and of statement trees, for people who look into a method graph.
-/

namespace Decompiler

/-- The printed form of a constant. -/
def Const.text : Const → String
  | .null => "null"
  | .int n => toString n
  | .float x => x.text
  | .string s => Text.quoted s
  | .classLit name => name ++ ".class"

/-- The printed form of an occurrence, with its type when it is a declaration. -/
def VarRef.text (v : VarRef) : String :=
  (if v.isDefinition then v.ty.text ++ " " else "") ++ "v" ++ v.var.text

/-- The printed form of an operator applied to printed operands. -/
def Operator.text (op : Operator) (operands : List String) : String :=
  match op, operands with
  | .arrayLength, [a] => "(" ++ a ++ ").length"
  | .ternary, [a, b, c] => "(" ++ a ++ ") ? (" ++ b ++ ") : (" ++ c ++ ")"
  | op, [a] =>
    if op.isWrittenAfter then "(" ++ a ++ ")" ++ op.symbol
    else op.symbol ++ "(" ++ a ++ ")"
  | op, [a, b] => "(" ++ a ++ ") " ++ op.symbol ++ " (" ++ b ++ ")"
  | op, operands => op.symbol ++ "(" ++ String.intercalate ", " operands ++ ")"

/-- The printed form of a node, given that of its direct subexpressions in order. -/
def Expr.text (e : Expr) (children : List String) : String :=
  match e, children with
  | .assign _ _, [left, right] => left ++ " = " ++ right
  | .var v, _ => v.text
  | .const _ value, _ => value.text
  | .apply op _, operands => op.text operands
  | .call ⟨_, name, _, some _, _⟩, receiver :: arguments =>
    "(" ++ receiver ++ ")." ++ name ++ "(" ++ String.intercalate ", " arguments ++ ")"
  | .call c, arguments =>
    c.className ++ "::" ++ c.name ++ "(" ++ String.intercalate ", " arguments ++ ")"
  | .element _ _, [array, index] => "(" ++ array ++ ")[" ++ index ++ "]"
  | .field (some _) _ name _, [receiver] => "(" ++ receiver ++ ")." ++ name
  | .field _ className name _, _ => className ++ "." ++ name
  | .test _, [condition] => "if (" ++ condition ++ ")"
  | .monitor action _, [value] => action.word ++ " " ++ value
  | .exit action (some _), [value] => action.word ++ " " ++ value
  | .exit action _, _ => action.word
  | .new className _, arguments =>
    "new " ++ className ++ "(" ++ String.intercalate ", " arguments ++ ")"
  | _, _ => ""

namespace Graph

/-- The printed form of an expression of at most `levels` levels. -/
def exprTextIn (g : Graph) : (levels : Nat) → ExprId → Checked String
  | 0, _ => .error .cyclic
  | levels + 1, e => do
    let expr ← g.expr e
    return expr.text (← expr.children.mapM (g.exprTextIn levels))

/-- The printed form of an expression. -/
def exprText (g : Graph) (e : ExprId) : Checked String := g.exprTextIn g.exprLevels e

/-- What is printed of a statement after its name: the slots of a loop, or the head. -/
def headText (g : Graph) (kind : StatKind) : Checked String :=
  let slot (label : String) : Option ExprId → Checked String
    | none => return ""
    | some e => do return " " ++ label ++ "=[" ++ (← g.exprText e) ++ "]"
  let head (e : ExprId) : Checked String := do return " " ++ (← g.exprText e)
  match kind with
  | .loop l => do
    return " " ++ l.kind.word ++ (← slot "init" l.init) ++ (← slot "cond" l.condition)
      ++ (← slot "inc" l.step)
  | .branch b => head b.head
  | .switch e _ => head e
  | .synchronized (some e) _ => head e
  | _ => return ""

/-- The printed form of an edge that leaves a statement. -/
def edgeText (g : Graph) (e : EdgeId) : Checked String := do
  let edge ← g.edge e
  return " -" ++ edge.kind.word ++ "-> " ++ edge.destination.text

/-- The printed form of a statement, indented by `indent` steps: a line for itself, one for each
declaration and each expression of a leaf, then its children one step further in. -/
def statTextIn (g : Graph) : (levels : Nat) → (indent : Nat) → StatId → Checked String
  | 0, _, _ => .error .cyclic
  | levels + 1, indent, s => do
    let stat ← g.stat s
    let margin := String.ofList (List.replicate (2 * indent) ' ')
    let head ← g.headText stat.kind
    let edges ← stat.successors.mapM g.edgeText
    let line (label : String) (e : ExprId) : Checked String := do
      return margin ++ "  " ++ label ++ (← g.exprText e) ++ ";\n"
    let declarations ← stat.declarations.mapM (line "decl ")
    let exprs ← (stat.exprs?.getD []).mapM (line "")
    let below ← stat.children.mapM (g.statTextIn levels (indent + 1))
    return margin ++ stat.kind.word ++ " " ++ s.text ++ head ++ String.join edges ++ "\n"
      ++ String.join declarations ++ String.join exprs ++ String.join below

/-- The printed form of a statement and all below it. -/
def statText (g : Graph) (s : StatId) : Checked String := g.statTextIn g.statLevels 0 s

end Graph

end Decompiler

import Decompiler.Arena
import Decompiler.DebugTable.Basic
import Decompiler.Local
import Decompiler.Offsets
import Decompiler.Ty.Basic

/-!
# Expressions

The nodes of expression trees. A node names its subexpressions by their ids, so a tree lives in the
arena of a graph and a subtree can be moved by moving an id.
-/

namespace Decompiler

/-- A double-precision number, by the bits of its IEEE 754 representation. -/
structure Ieee where
  /-- Sign, exponent and fraction, from the highest bit to the lowest. -/
  bits : UInt64
  deriving DecidableEq, Repr

namespace Ieee

/-- The representation without its sign. -/
def magnitude (x : Ieee) : Nat := x.bits.toNat % 0x8000000000000000

/-- Whether the sign bit is set. -/
def isNegative (x : Ieee) : Bool := x.bits.toNat ≥ 0x8000000000000000

/-- The magnitude of the infinities; every magnitude above is that of no number. -/
def infinity : Nat := 0x7FF0000000000000

/-- Whether the bits are those of no number. -/
def isNaN (x : Ieee) : Bool := x.magnitude > infinity

/-- Equality of numbers: the two zeros are equal, and what is no number equals nothing. -/
def equal (x y : Ieee) : Bool :=
  !x.isNaN && !y.isNaN && (x.bits = y.bits || (x.magnitude = 0 && y.magnitude = 0))

end Ieee

/-- The value of a constant. -/
inductive Const where
  | null
  | int (n : Int)
  | float (x : Ieee)
  | string (s : String)
  /-- A class literal. -/
  | classLit (name : String)
  deriving DecidableEq, Repr

/-- Equality of constants; numbers are compared as numbers. -/
def Const.equal : Const → Const → Bool
  | .float x, .float y => x.equal y
  | c, d => c = d

/-- The operators of expressions. -/
inductive Operator where
  | add | sub | mul | div | rem
  | and | or | xor | shl | shr | ushr
  | bitNot | boolNot | neg
  | cast | instanceOf | arrayLength
  /-- `x--` -/
  | postDec
  /-- `--x` -/
  | preDec
  /-- `x++` -/
  | postInc
  /-- `++x` -/
  | preInc
  | ternary
  | eq | ne | lt | ge | gt | le
  | condAnd | condOr
  deriving DecidableEq, Repr

namespace Operator

/-- The printed form of an operator. -/
def symbol : Operator → String
  | .add => "+"
  | .sub => "-"
  | .mul => "*"
  | .div => "/"
  | .rem => "%"
  | .and => "&"
  | .or => "|"
  | .xor => "^"
  | .shl => "<<"
  | .shr => ">>"
  | .ushr => ">>>"
  | .bitNot => "~"
  | .boolNot => "!"
  | .neg => "-"
  | .cast => "cast"
  | .instanceOf => "instanceof"
  | .arrayLength => ".length"
  | .postDec => "--"
  | .preDec => "--"
  | .postInc => "++"
  | .preInc => "++"
  | .ternary => "?:"
  | .eq => "=="
  | .ne => "!="
  | .lt => "<"
  | .ge => ">="
  | .gt => ">"
  | .le => "<="
  | .condAnd => "&&"
  | .condOr => "||"

/-- The operators that count a variable up or down by one. -/
def isIncrement : Operator → Bool
  | .postInc | .preInc | .postDec | .preDec => true
  | _ => false

/-- The operators written after their operand. -/
def isWrittenAfter : Operator → Bool
  | .postInc | .postDec => true
  | _ => false

end Operator

/-- What happens to a monitor. -/
inductive MonitorAction where
  | enter
  | exit
  deriving DecidableEq, Repr

/-- The printed form of a monitor action. -/
def MonitorAction.word : MonitorAction → String
  | .enter => "monitorenter"
  | .exit => "monitorexit"

/-- How a method is left. -/
inductive ExitAction where
  /-- Normally. -/
  | result
  /-- By an exception. -/
  | throw
  deriving DecidableEq, Repr

/-- The printed form of an exit. -/
def ExitAction.word : ExitAction → String
  | .result => "return"
  | .throw => "throw"

/-- An occurrence of a variable. -/
structure VarRef where
  /-- The variable. -/
  var : Local
  /-- The type it has here. -/
  ty : Ty
  /-- Whether this occurrence declares the variable. -/
  isDefinition : Bool
  /-- Whether the variable is a temporary of the operand stack. -/
  isStack : Bool
  /-- The debug entry of the variable. -/
  entry : Option DebugEntry
  deriving DecidableEq, Repr

/-- A call of a method. -/
structure Call where
  /-- The class that has the method. -/
  className : String
  /-- The name of the method. -/
  name : String
  /-- Its descriptor. -/
  descriptor : String
  /-- The object it is called on; none for a static method. -/
  receiver : Option ExprId
  /-- The arguments. -/
  arguments : List ExprId
  deriving DecidableEq, Repr

/-- An expression node. -/
inductive Expr where
  | assign (left right : ExprId)
  | var (v : VarRef)
  | const (ty : Ty) (value : Const)
  /-- An operator applied to operands. -/
  | apply (op : Operator) (operands : List ExprId)
  | call (c : Call)
  /-- An element of an array. -/
  | element (array index : ExprId)
  /-- A field; without a receiver it is static. -/
  | field (receiver : Option ExprId) (className name descriptor : String)
  /-- The head of an `if`. It is a node of its own, so that the offsets of the branch instruction
  survive when the condition is moved elsewhere. -/
  | test (condition : ExprId)
  | monitor (action : MonitorAction) (value : ExprId)
  | exit (action : ExitAction) (value : Option ExprId)
  /-- The creation of an object. -/
  | new (className : String) (arguments : List ExprId)
  deriving DecidableEq, Repr

namespace Expr

/-- The direct subexpressions, in order of evaluation. -/
def children : Expr → List ExprId
  | assign left right => [left, right]
  | element array index => [array, index]
  | apply _ operands => operands
  | call c => c.receiver.toList ++ c.arguments
  | new _ arguments => arguments
  | field receiver _ _ _ => receiver.toList
  | test e | monitor _ e => [e]
  | exit _ value => value.toList
  | var _ | const _ _ => []

/-- Renames the direct subexpressions. -/
def mapChildren (f : ExprId → ExprId) : Expr → Expr
  | assign left right => assign (f left) (f right)
  | element array index => element (f array) (f index)
  | apply op operands => apply op (operands.map f)
  | call c => call { c with receiver := c.receiver.map f, arguments := c.arguments.map f }
  | new name arguments => new name (arguments.map f)
  | field receiver className name descriptor => field (receiver.map f) className name descriptor
  | test e => test (f e)
  | monitor action e => monitor action (f e)
  | exit action value => exit action (value.map f)
  | var v => var v
  | const ty value => const ty value

/-- Puts `new` in place of every direct subexpression `old`. -/
def replaceChild (old new : ExprId) : Expr → Expr :=
  mapChildren fun e => if e = old then new else e

/-- The occurrence, if the node is one. -/
def var? : Expr → Option VarRef
  | var v => some v
  | _ => none

/-- The variable of an occurrence. -/
def local? (e : Expr) : Option Local := e.var?.map VarRef.var

/-- Both sides of an assignment. -/
def assign? : Expr → Option (ExprId × ExprId)
  | assign left right => some (left, right)
  | _ => none

/-- Changes an occurrence and leaves other nodes alone. -/
def mapVar (f : VarRef → VarRef) : Expr → Expr
  | var v => var (f v)
  | e => e

/-- Whether two nodes agree in everything but their subexpressions. The types, the marks and the
debug entries of variables do not count; whether there is a receiver or a value does. -/
def sameNode : Expr → Expr → Bool
  | var v, var w => v.var = w.var
  | const ty c, const ty' c' => ty = ty' && c.equal c'
  | apply op _, apply op' _ => op = op'
  | call c, call c' =>
    c.className = c'.className && c.name = c'.name && c.descriptor = c'.descriptor
      && c.receiver.isSome = c'.receiver.isSome
  | field r cls name desc, field r' cls' name' desc' =>
    r.isSome = r'.isSome && cls = cls' && name = name' && desc = desc'
  | monitor action _, monitor action' _ => action = action'
  | exit action value, exit action' value' => action = action' && value.isSome = value'.isSome
  | new name _, new name' _ => name = name'
  | assign _ _, assign _ _ | element _ _, element _ _ | test _, test _ => true
  | _, _ => false

end Expr

/-- An expression together with the offsets of the instructions it was built from. -/
structure ExprNode where
  /-- The node. -/
  expr : Expr
  /-- Its own offsets, without those of its subexpressions. -/
  offsets : Offsets
  deriving DecidableEq

end Decompiler

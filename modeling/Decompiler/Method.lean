import Decompiler.Graph.Exprs
import Decompiler.Registry

/-!
# Methods

A method at work: its body together with what is known about its variables.
-/

namespace Decompiler

/-- A method whose variables are being settled. -/
structure Method where
  /-- The body. -/
  graph : Graph
  /-- What is known about the variables. -/
  vars : Registry

/-- Why variables could not be merged. -/
inductive MergeFailure where
  /-- A variable was to be merged into itself. -/
  | ontoItself (var : Local)
  deriving DecidableEq, Repr

/-- The text of the error. -/
def MergeFailure.message : MergeFailure → String
  | .ontoItself var => "Attempted to remap variable " ++ var.text ++ " onto itself"

end Decompiler

import Decompiler.DebugTable.Basic

/-!
# Options

The switches of the passes over a method.
-/

namespace Decompiler

/-- The switches of the passes over a method. -/
structure Options where
  /-- Recognise the forms of loops. -/
  recogniseLoops : Bool
  /-- Give a loop that ends in a conditional continue the `do-while` form when no `while` fits. -/
  tryDoWhile : Bool
  /-- Take a lone expression that several ways lead to as the step of a `for`, even without an
  initialisation. -/
  acceptSingleStep : Bool
  /-- Name variables after the debug table when there is one. -/
  useDebugNames : Bool
  /-- How the rows of the two debug tables are paired up. -/
  mergeKey : MergeKey
  /-- The milliseconds after which a method is given up. -/
  timeout : Option Nat
  deriving DecidableEq, Repr

/-- Every pass is on, and there is no time limit. -/
def Options.default : Options := ⟨true, true, true, true, .slotStop, none⟩

end Decompiler

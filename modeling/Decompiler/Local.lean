/-!
# Local variables

A local variable of the bytecode is a slot together with a version that tells independent live
ranges of the slot apart. Before declarations are placed, slots may have been renumbered, so the
number of a variable is called its index.
-/

namespace Decompiler

/-- A version of a local variable. -/
structure Local where
  /-- The (renumbered) slot. -/
  index : Nat
  /-- Which of the live ranges of the slot. -/
  version : Nat
  deriving DecidableEq, Repr

/-- The printed form, such as `3_0`. -/
def Local.text (v : Local) : String := toString v.index ++ "_" ++ toString v.version

/-- The order of locals: by index, then by version. -/
def Local.lt (v w : Local) : Bool :=
  v.index < w.index || (v.index == w.index && v.version < w.version)

/-- The reflexive order of locals. -/
def Local.le (v w : Local) : Bool := !w.lt v

/-- Whether a variable may be declared `final`. -/
inductive Finality where
  /-- Written more than once. -/
  | nonFinal
  /-- Declared `final`. -/
  | explicitFinal
  /-- Written at most once. -/
  | effectivelyFinal
  deriving DecidableEq, Repr

/-- The finality of one variable made of two, each written at most once. -/
def Finality.merged : Finality → Finality → Finality
  | .nonFinal, _ | _, .nonFinal => .nonFinal
  | .explicitFinal, .explicitFinal => .explicitFinal
  | _, _ => .effectivelyFinal

end Decompiler

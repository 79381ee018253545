import Decompiler.Arena

/-!
# Parameters of a method

The types of the parameters decide which slots they are kept in: a `long` or a `double` takes two,
everything else one. They are written in the descriptor of the method, and reading it is not done
here: a reader is handed in.
-/

namespace Decompiler

/-- The base of the type of a parameter, as far as it plays a part. -/
inductive ParameterBase where
  /-- A `long`. -/
  | long
  /-- A `double`. -/
  | double
  /-- Another primitive or a class. -/
  | other
  deriving DecidableEq, Repr

/-- The type of a parameter. -/
structure ParameterType where
  /-- What an array of the type holds in the end, or the type itself. -/
  base : ParameterBase
  /-- The number of dimensions of an array, zero for other types. -/
  dimensions : Nat
  deriving DecidableEq, Repr

namespace ParameterType

/-- The number of slots a parameter takes. -/
def width (t : ParameterType) : Nat :=
  if t.dimensions = 0 ∧ (t.base = .double ∨ t.base = .long) then 2 else 1

/-- The first slot of each parameter, when the first one starts at `slot`. -/
def slotsFrom (slot : Nat) : List ParameterType → List Nat
  | [] => []
  | t :: rest => slot :: slotsFrom (slot + t.width) rest

/-- The slots of the parameters of a method. An instance method keeps its receiver in slot 0, in
front of the others. -/
def slots (isInstance : Bool) (types : List ParameterType) : List Nat :=
  if isInstance then 0 :: slotsFrom 1 types else slotsFrom 0 types

end ParameterType

/-! ## Readers -/

/-- Why a descriptor could not be read. -/
structure DescriptorError where
  /-- The text of the error. -/
  message : String
  deriving DecidableEq, Repr

/-- A reader of method descriptors. It says whether bytes are a descriptor, and then what the types
of the parameters are. Taking these out of the descriptor may still come to a fault. -/
abbrev DescriptorReader := List UInt8 → Except DescriptorError (Checked (List ParameterType))

namespace DescriptorReader

/-- The reader finds that a text is a descriptor. -/
def Accepts (read : DescriptorReader) (descriptor : String) : Prop :=
  ∃ types, read descriptor.toUTF8.toList = .ok types

/-- The reader lists the parameters of every text that it finds to be a descriptor. -/
def ListsParameters (read : DescriptorReader) : Prop :=
  ∀ (descriptor : String) (types : Checked (List ParameterType)),
    read descriptor.toUTF8.toList = .ok types → ∃ l, types = .ok l

end DescriptorReader

end Decompiler

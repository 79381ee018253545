/-!
# Java types

The types variables and constants of a method can have: the types of the Java virtual machine, the
type of `null`, two families for integer literals that fit more than one primitive, and a type that
is not known yet.

The name of a class is part of the base and not of the type, as only objects have a class. So there
are no types here of another base that come with the name of a class all the same.
-/

namespace Decompiler

/-- What a type is made of, its array dimensions aside. -/
inductive Base where
  | boolean
  | byte
  | char
  | short
  | int
  | long
  | float
  | double
  /-- A class, by its internal name such as `java/lang/String`, or some class without a name. -/
  | object (name : Option String)
  | void
  /-- The type of `null`. -/
  | null
  /-- Integers that are both a `byte` and a `char`: 0 to 127. -/
  | byteChar
  /-- Integers that are both a `short` and a `char`: 0 to 32767. -/
  | shortChar
  /-- Not known. -/
  | unknown
  deriving DecidableEq, Repr

/-- Types that never mix: a merge of two variables stays inside one family. -/
inductive Family where
  | boolean
  | integer
  | long
  | float
  | double
  | object
  | unknown
  deriving DecidableEq, Repr

/-- A Java type. -/
structure Ty where
  /-- The element type. -/
  base : Base
  /-- The number of array dimensions. -/
  dims : UInt8
  deriving DecidableEq, Repr

/-- The printed word of a base; classes all read `object`. -/
def Base.word : Base → String
  | .boolean => "boolean"
  | .byte => "byte"
  | .char => "char"
  | .short => "short"
  | .int => "int"
  | .long => "long"
  | .float => "float"
  | .double => "double"
  | .object _ => "object"
  | .void => "void"
  | .null => "<null>"
  | .byteChar => "<bytechar>"
  | .shortChar => "<shortchar>"
  | .unknown => "<unknown>"

/-- The printed word of a family. -/
def Family.word : Family → String
  | .boolean => "boolean"
  | .integer => "integer"
  | .long => "long"
  | .float => "float"
  | .double => "double"
  | .object => "object"
  | .unknown => "unknown"

/-- Whether a base is a class. -/
def Base.isObject : Base → Bool
  | .object _ => true
  | _ => false

/-- The base without the name of its class. -/
def Base.unnamed : Base → Base
  | .object _ => .object none
  | base => base

namespace Ty

/-- The type of a base without dimensions. -/
def plain (base : Base) : Ty := ⟨base, 0⟩

/-- The type of a class. -/
def ofClass (name : String) : Ty := plain (.object (some name))

/-- The class above all references. -/
def javaObject : Ty := ofClass "java/lang/Object"

/-- The type of `null`. -/
def null : Ty := plain .null

/-- The type `int`. -/
def int : Ty := plain .int

/-- The type that is not known. -/
def unknown : Ty := plain .unknown

/-- The type with `n` further array dimensions, if there are at most 255 in all. -/
def arrayOf? (t : Ty) (n : Nat) : Option Ty :=
  if t.dims.toNat + n ≤ 255 then some ⟨t.base, UInt8.ofNat (t.dims.toNat + n)⟩ else none

/-- The family of a type; every array is a reference. -/
def family (t : Ty) : Family :=
  if t.dims > 0 then .object
  else match t.base with
    | .boolean => .boolean
    | .byte | .char | .short | .int | .byteChar | .shortChar => .integer
    | .long => .long
    | .float => .float
    | .double => .double
    | .object _ | .null => .object
    | .void | .unknown => .unknown

/-- The printed form: a class with dots, then a pair of brackets for each dimension. -/
def text (t : Ty) : String :=
  let element := match t.base with
    | .object (some name) => name.map fun c => if c = '/' then '.' else c
    | base => base.word
  element ++ String.join (List.replicate t.dims.toNat "[]")

end Ty

end Decompiler

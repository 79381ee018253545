import Decompiler.Ty.Basic

/-!
# Field descriptors

A field descriptor writes a type as one `[` for each array dimension, followed by a letter for a
primitive or by `L`, the internal name of a class and `;`.
-/

namespace Decompiler.Ty

/-- The primitive a descriptor letter stands for. -/
def ofLetter? : Char → Option Base
  | 'Z' => some .boolean
  | 'B' => some .byte
  | 'C' => some .char
  | 'S' => some .short
  | 'I' => some .int
  | 'J' => some .long
  | 'F' => some .float
  | 'D' => some .double
  | _ => none

/-- The element type written by the part of a descriptor after the brackets. `void` is no element
of an array. -/
def elementOf? (isArray : Bool) : List Char → Option Base
  | ['V'] => if isArray then none else some .void
  | [c] => ofLetter? c
  | 'L' :: rest =>
    let name := rest.dropLast
    if rest.getLast? = some ';' ∧ name ≠ [] then some (.object (some (String.ofList name)))
    else none
  | _ => none

/-- The type a descriptor writes. There are at most 255 dimensions. -/
def ofDescriptor? (s : String) : Option Ty := do
  let chars := s.toList
  let dims := (chars.takeWhile (· = '[')).length
  let base ← elementOf? (dims > 0) (chars.dropWhile (· = '['))
  if dims ≤ 255 then some ⟨base, UInt8.ofNat dims⟩ else none

end Decompiler.Ty

import Decompiler.Ty.Basic

/-!
# The order of types and merged types

A type is below another when each of its values may be kept in a variable of the other. Below
everything stands the unknown type, below every reference the type of `null`; arrays lie below
`java/lang/Object` and nothing else; integers are ordered by their ranges of values.

`Ty.merged` decides which type two versions of one variable share.
-/

namespace Decompiler

/-- The least and the greatest value of an integer primitive. -/
def Base.bounds? : Base → Option (Int × Int)
  | .byteChar => some (0, 127)
  | .shortChar => some (0, 32767)
  | .byte => some (-128, 127)
  | .char => some (0, 65535)
  | .short => some (-32768, 32767)
  | .int => some (-2147483648, 2147483647)
  | _ => none

namespace Ty

/-- Whether `t` lies strictly above `u`. -/
def isAbove (t u : Ty) : Bool :=
  if u.base = .unknown ∧ t.base ≠ .unknown then true
  else if u.dims > 0 then t = javaObject
  else if t.dims > 0 ∨ t.base.isObject then u.base = .null
  else match t.base.bounds?, u.base.bounds? with
    | some (lo, hi), some (lo', hi') => t.base ≠ u.base ∧ lo ≤ lo' ∧ hi' ≤ hi
    | _, _ => false

/-- Whether `t` is `u` or lies above it. -/
def isAtLeast (t u : Ty) : Bool := t = u || t.isAbove u

/-- The integer primitives, from the widest to the narrowest. -/
def integers : List Ty :=
  [.int, .short, .char, .shortChar, .byte, .byteChar].map plain

/-- The narrowest type both types can be widened to. -/
def join? (t u : Ty) : Option Ty :=
  if t.isAtLeast u then some t
  else if u.isAtLeast t then some u
  else if t.family ≠ u.family then none
  else match t.family with
    | .integer => integers.reverse.find? fun c => c.isAtLeast t && c.isAtLeast u
    | .object => some javaObject
    | _ => none

/-- The widest type that can be widened to both types. -/
def meet? (t u : Ty) : Option Ty :=
  if t.isAtLeast u then some u
  else if u.isAtLeast t then some t
  else if t.family ≠ u.family then none
  else match t.family with
    | .integer => integers.find? fun c => t.isAtLeast c && u.isAtLeast c
    | .object => some null
    | _ => none

/-- The type two references share: of the bounds their uses set when both are known, of the types
their definitions give otherwise, the common subtype. `null` fits any array shape, every other
reference fixes its number of dimensions, and the result is never `null` itself. -/
def mergedReference (t u : Ty) (tMax uMax : Option Ty) : Option Ty := do
  let shaped := [t, u].filter fun min => min.base ≠ .null
  let sameShape := match shaped with
    | [v, w] => v.dims = w.dims
    | _ => true
  if !sameShape then none
  else
    let merged ← match tMax, uMax with
      | some tMax, some uMax => meet? tMax uMax
      | _, _ => meet? t u
    if merged.base = .null || shaped.any (fun min => min.dims ≠ merged.dims) then none
    else some merged

/-- The type two merged variables share, from the least types their definitions give and the
greatest types their uses accept. `none` means that they cannot be one variable. -/
def merged (tMin uMin tMax uMax : Option Ty) : Option Ty := do
  let t ← tMin
  let u ← uMin
  if t = u then some t
  else
    let supertype ← join? t u
    if supertype.family ≠ .object then some supertype
    else mergedReference t u tMax uMax

end Ty

end Decompiler

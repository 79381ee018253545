import Decompiler.Arena
import Decompiler.Local
import Decompiler.Table

/-!
# Leaders of merged variables

When a variable is merged into another, a link from the one to the other is recorded. A variable
without a link is unique: it still stands for itself. Following the links from any variable ends at
the unique one it now lives under, its leader; finding a leader redirects every link on the way
straight to it.

Only unique variables are ever linked, and only to another unique one, so links made by `merge` have
no cycle. Links with a cycle are met with `Fault.cyclic`.
-/

namespace Decompiler

/-- The record of the variables that were merged into others. -/
structure Leaders where
  /-- What each merged variable was last found to live under. -/
  links : Table Local Local
  deriving Repr, DecidableEq

namespace Leaders

/-- Every variable is unique. -/
def empty : Leaders := ⟨.empty⟩

/-- The number of variables that are not unique. -/
def size (t : Leaders) : Nat := t.links.size

/-- Whether every variable is unique. -/
def isEmpty (t : Leaders) : Bool := t.links.isEmpty

/-- Whether a variable still stands for itself. -/
def isUnique (t : Leaders) (v : Local) : Bool := !t.links.contains v

/-- Follows at most `bound` links. -/
def follow (t : Leaders) : (bound : Nat) → Local → Checked Local
  | 0, v => if t.isUnique v then .ok v else .error .cyclic
  | bound + 1, v =>
    match t.links.get? v with
    | none => .ok v
    | some w => t.follow bound w

/-- The unique variable that `v` lives under. A way through the links that repeats none of them has
at most as many steps as there are links. -/
def leader (t : Leaders) (v : Local) : Checked Local := t.follow t.size v

/-- Redirects at most `bound` links, from `v` on, to `leader`. -/
def redirect (leader : Local) : (bound : Nat) → Leaders → Local → Checked Leaders
  | 0, t, v => if v = leader then .ok t else .error .cyclic
  | bound + 1, t, v =>
    if v = leader then .ok t
    else match t.links.get? v with
      | none => .error .unlinked
      | some w => redirect leader bound ⟨t.links.insert v leader⟩ w

/-- The leader of a variable, with every link on the way redirected to it. -/
def find (t : Leaders) (v : Local) : Checked (Leaders × Local) := do
  let leader ← t.leader v
  return (← redirect leader t.size t v, leader)

/-- Lets `source` and all that lives under its leader live under the leader of `target`. -/
def merge (t : Leaders) (source target : Local) : Checked Leaders := do
  let (t, target) ← t.find target
  let (t, source) ← t.find source
  return if source = target then t else ⟨t.links.insert source target⟩

end Leaders

end Decompiler

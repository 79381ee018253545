import Decompiler.DebugTable.Basic
import Decompiler.Local
import Decompiler.NamePool
import Decompiler.Leaders
import Decompiler.Parameters

/-!
# What is known about the variables of a method

A registry collects, for each variable of one method, its name, its types, its finality and its
debug entry, together with what belongs to the method as a whole: the slots of its parameters, its
debug table, the names in use and the variables that were merged into others.
-/

namespace Decompiler

/-- Everything known about the variables of one method. -/
structure Registry where
  /-- The names given so far. -/
  names : Table Local String
  /-- The declared types. -/
  types : Table Local Ty
  /-- The narrowest types that definitions give. -/
  minTypes : Table Local Ty
  /-- The widest types that uses accept. -/
  maxTypes : Table Local Ty
  /-- Finalities other than the one a variable starts with. -/
  finalities : Table Local Finality
  /-- Debug entries that were settled on. -/
  debugEntries : Table Local DebugEntry
  /-- The slot and version each renumbered index came from. -/
  origins : Table Nat Local
  /-- The variables that were merged into others. -/
  leaders : Leaders
  /-- The debug table of the method. -/
  debugTable : Option DebugTable
  /-- The class of the receiver; none for a static method. -/
  thisClass : Option String
  /-- The slot of the receiver, if there is one, and of each parameter. -/
  parameterSlots : List Nat
  /-- The names in use. -/
  pool : NamePool
  deriving Repr

namespace Registry

/-- The registry of a method of which only the parameters are known. -/
def ofSlots (thisClass : Option String) (slots : List Nat) : Registry where
  names := .empty
  types := .empty
  minTypes := .empty
  maxTypes := .empty
  finalities := .empty
  debugEntries := .empty
  origins := .empty
  leaders := .empty
  debugTable := none
  thisClass := thisClass
  parameterSlots := slots
  pool := .empty

/-- The registry of a static method without parameters. -/
def empty : Registry := ofSlots none []

/-- The registry of a method with a descriptor. -/
def ofDescriptor (read : DescriptorReader) (descriptor : List UInt8) (thisClass : Option String) :
    Checked (Except DescriptorError Registry) :=
  match read descriptor with
  | .error e => return .error e
  | .ok types => do return .ok (ofSlots thisClass (ParameterType.slots thisClass.isSome (← types)))

/-- Whether the method has no receiver. -/
def isStatic (r : Registry) : Bool := r.thisClass.isNone

/-- The slot and version an index came from. -/
def origin (r : Registry) (index : Nat) : Local := (r.origins.get? index).getD ⟨index, 0⟩

/-- The slot an index came from. -/
def slotOf (r : Registry) (index : Nat) : Nat := (r.origin index).index

/-- The finality of a variable. -/
def finality (r : Registry) (v : Local) : Finality :=
  (r.finalities.get? v).getD .effectivelyFinal

/-- The debug entry for an index that holds from `first` to `last`. -/
def findEntry? (r : Registry) (index first last : Nat) : Option DebugEntry := do
  (← r.debugTable).find? (r.slotOf index) first last

/-- The debug entry for an index that holds at one offset. -/
def findEntryAt? (r : Registry) (index offset : Nat) : Option DebugEntry :=
  r.findEntry? index offset offset

/-- Names a variable. -/
def setName (r : Registry) (v : Local) (name : String) : Registry :=
  { r with names := r.names.insert v name }

/-- Settles on the debug entry of a variable. -/
def setDebugEntry (r : Registry) (v : Local) (e : DebugEntry) : Registry :=
  { r with debugEntries := r.debugEntries.insert v e }

/-- Marks a name as used. -/
def addName (r : Registry) (name : String) : Registry := { r with pool := r.pool.add name }

/-- Hands out a free name for a proposal. -/
def freshName (r : Registry) (proposal : String) : Registry × String :=
  let (pool, name) := r.pool.fresh proposal
  ({ r with pool := pool }, name)

/-- Hands out a free name for an index. -/
def freshIndexName (r : Registry) (index : Nat) : Registry × String :=
  let (pool, name) := r.pool.freshIndex index
  ({ r with pool := pool }, name)

/-- Gives a variable a free name made of its index. -/
def nameByIndex (r : Registry) (v : Local) : Registry :=
  let (r, name) := r.freshIndexName v.index
  r.setName v name

/-- Records that `source` was merged into `target`. -/
def recordMerge (r : Registry) (source target : Local) : Checked Registry := do
  return { r with leaders := ← r.leaders.merge source target }

/-- The variables that have a name, ascending. -/
def named (r : Registry) : List Local := r.names.keys.mergeSort Local.le

/-- How many versions of the slot that `index` came from were made into named variables below its
own. -/
def ordinal (r : Registry) (index : Nat) : Nat :=
  let origin := r.origin index
  let versions := (r.named.map fun v => r.origin v.index).filter fun o => o.index = origin.index
  ((versions.map Local.version).filter (· < origin.version)).eraseDups.length

/-- The name the debug table has for a variable: of the rows of its slot, the one at the place its
version takes among the versions of the slot. -/
def debugName? (r : Registry) (table : DebugTable) (v : Local) : Option String :=
  (table.ofSlot (r.slotOf v.index))[r.ordinal v.index]?.map DebugEntry.name

/-- The new names of the variables `l`, given how often each name was taken before. A name from the
debug table is kept as it is, any other gets the number of those before it. -/
def debugNames (r : Registry) (table : DebugTable) :
    List Local → Table String Nat → List (Local × String)
  | [], _ => []
  | v :: rest, taken =>
    let debugName := r.debugName? table v
    let name := debugName.getD ((r.names.get? v).getD "")
    let count := (taken.get? name).getD 0
    let unique := if count > 0 ∧ debugName.isNone then name ++ toString count else name
    (v, unique) :: r.debugNames table rest (taken.insert name (count + 1))

/-- Replaces made-up names by those of the debug table, if there is one. -/
def useDebugNames (r : Registry) : Registry :=
  match r.debugTable with
  | none => r
  | some table =>
    (r.debugNames table r.named .empty).foldl (fun r' e => r'.setName e.1 e.2) r

/-- Puts every name through the pool again, in ascending order of the variables. -/
def refreshNames (r : Registry) : Registry :=
  r.named.foldl (fun r' v =>
    let (r', name) := r'.freshName ((r'.names.get? v).getD "")
    r'.setName v name) r

end Registry

end Decompiler

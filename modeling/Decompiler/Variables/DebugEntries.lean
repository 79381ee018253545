import Decompiler.Method

/-!
# Debug entries and final names

Each variable is given one debug entry, which all its occurrences then carry, and its name is
settled: by a hook that knows the types of all variables, by the debug entry, or as it was.
-/

namespace Decompiler

/-- A hook that may give variables new names. It is handed every variable with the name of its type,
and variables that it leaves out keep their name. -/
abbrev Namer := List (Local × String) → Option (Table Local String)

/-- The hook that leaves every name as it is. -/
def Namer.keepAll : Namer := fun _ => none

/-- What is known of a variable before its entry is settled. The receiver has neither entry nor
type. -/
structure VarInfo where
  /-- The debug entry. -/
  entry : Option DebugEntry
  /-- The type of an occurrence. -/
  ty : Option Ty
  deriving DecidableEq, Repr

/-- The name of the type of a variable. -/
def VarInfo.typeName : VarInfo → String
  | ⟨some entry, _⟩ => entry.typeName
  | ⟨none, some ty⟩ => ty.text
  | ⟨none, none⟩ => "this"

/-- The variables met so far, in order, and what is known of them. -/
structure VarInfos where
  /-- The variables, a parameter slot as often as it is listed. -/
  order : List Local
  /-- What is known of each. -/
  infos : Table Local VarInfo

namespace VarInfos

/-- Adds a variable. -/
def add (i : VarInfos) (var : Local) (info : VarInfo) : VarInfos :=
  ⟨i.order ++ [var], i.infos.insert var info⟩

/-- Takes an occurrence into account: the first one of a variable, or a declaration, unless that
would lose an entry. -/
def meet (i : VarInfos) (v : VarRef) : VarInfos :=
  let info : VarInfo := ⟨v.entry, some v.ty⟩
  match i.infos.get? v.var with
  | none => i.add v.var info
  | some known =>
    if v.isDefinition && (info.entry.isSome || known.entry.isNone) then
      { i with infos := i.infos.insert v.var info }
    else i

/-- What is known of the parameters: the receiver has no entry, any other the one that holds at the
start of the method, if its slot is in the table. -/
def ofParameters (r : Registry) : VarInfos :=
  r.parameterSlots.zipIdx.foldl (fun i p =>
    if !r.isStatic && p.2 = 0 then i.add ⟨p.1, 0⟩ ⟨none, none⟩
    else match r.debugTable with
      | none => i
      | some table =>
        if table.ofSlot p.1 = [] then i
        else i.add ⟨p.1, 0⟩ ⟨table.findAt? p.1 0, none⟩) ⟨[], .empty⟩

/-- The variables with the names of their types, in order. -/
def typeNames (i : VarInfos) : List (Local × String) :=
  i.order.map fun v => (v, ((i.infos.get? v).getD ⟨none, none⟩).typeName)

end VarInfos

/-- The registry under construction and the entries that occurrences are to carry. -/
structure Settled where
  /-- What is known about the variables. -/
  vars : Registry
  /-- The entries settled on. -/
  entries : Table Local DebugEntry

/-- Settles the name and the entry of one variable. The receiver is left alone. -/
def Settled.settle (infos : VarInfos) (renames : Option (Table Local String)) (useDebugNames : Bool)
    (s : Settled) (var : Local) : Settled :=
  if !s.vars.isStatic && var = ⟨0, 0⟩ then s
  else
    let rename := renames.bind fun t => t.get? var
    let vars := match rename with
      | some name => s.vars.setName var name
      | none => s.vars
    match (infos.infos.get? var).bind VarInfo.entry with
    | none => { s with vars := vars }
    | some entry =>
      let (vars, entry) := match rename with
        | some name => (vars, entry.renamed name)
        | none => (if useDebugNames then vars.setName var entry.name else vars, entry)
      ⟨vars.setDebugEntry var entry, s.entries.insert var entry⟩

namespace Method

/-- What is known of every variable of a method. -/
def varInfos (m : Method) : Checked VarInfos := do
  let held ← (← m.graph.statements).mapM fun s => do
    let stat ← m.graph.stat s
    return stat.declarations ++ stat.ownExprs
  let vars ← m.graph.refsInAll held.flatten
  return vars.foldl (fun i v => i.meet v.2) (.ofParameters m.vars)

/-- Lets every occurrence of a variable carry the entry settled on. -/
def carryEntries (g : Graph) (entries : Table Local DebugEntry) : Checked Graph := do
  let carry (v : VarRef) : VarRef :=
    match entries.get? v.var with
    | some entry => { v with entry := some entry }
    | none => v
  (← g.exprsIn Graph.root).foldlM (fun g e => do
    (← g.refsIn e).foldlM (fun g v => g.modifyExpr v.1 (Expr.mapVar carry)) g) g

/-- Settles the debug entries and names of all variables. Returns what the hook was given, too. -/
def settleEntries (m : Method) (namer : Namer) (useDebugNames : Bool) :
    Checked (Method × List (Local × String)) := do
  let infos ← m.varInfos
  let types := infos.typeNames
  let settled := infos.order.foldl (Settled.settle infos (namer types) useDebugNames)
    ⟨m.vars, .empty⟩
  if settled.entries.isEmpty then return ({ m with vars := settled.vars }, types)
  else return (⟨← carryEntries m.graph settled.entries, settled.vars⟩, types)

end Method

end Decompiler

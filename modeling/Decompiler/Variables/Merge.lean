import Decompiler.Variables.Unify

/-!
# One variable for each source variable

Versions of one slot are merged when a copy joins them, or when one starts with a simple value right
after the other has had its last use in the same leaf. Merging goes on until no two versions are
left to merge.
-/

namespace Decompiler

/-! ## Where variables occur -/

/-- Where a variable occurs: in which statement, and at which position when that is a leaf. -/
structure Place where
  /-- The statement. -/
  stat : StatId
  /-- The position in the list of a leaf. -/
  position : Option Nat
  deriving DecidableEq, Repr

/-- The places of every variable. -/
abbrev Occurrences := Table Local (List Place)

/-- Two variables of which the first is to be merged into the second. -/
structure Candidate where
  /-- The variable that goes away. -/
  source : Local
  /-- The variable that stays. -/
  target : Local
  deriving DecidableEq, Repr

/-- The candidate of two variables: the one that is numbered later goes away. -/
def Candidate.ofPair (v w : Local) : Candidate := if w.lt v then ⟨v, w⟩ else ⟨w, v⟩

namespace Graph

/-- The expressions of a statement with their places: its own ones, then its declarations. -/
def placedExprs (s : StatId) (stat : Stat) : List (ExprId × Place) :=
  let own := match stat.exprs? with
    | some exprs => exprs.zipIdx.map fun p => (p.1, ⟨s, some p.2⟩)
    | none => stat.ownExprs.map fun e => (e, ⟨s, none⟩)
  own ++ stat.declarations.map fun e => (e, ⟨s, none⟩)

/-- The places of every variable, in order of first occurrence. -/
def occurrences (g : Graph) : Checked Occurrences := do
  let placed ← (← g.statements).mapM fun s => do return placedExprs s (← g.stat s)
  let vars ← placed.flatten.mapM fun p => do
    return (← g.refsIn p.1).map fun v => (v.2.var, p.2)
  return vars.flatten.foldl (fun t v => t.alter v.1 fun l => l.getD [] ++ [v.2]) .empty

/-- The variable that an expression assigns to, and what it assigns. -/
def assigned? (g : Graph) (e : ExprId) : Checked (Option (Local × ExprId)) := do
  let some (left, right) ← g.assign? e | return none
  return (← g.local? left).map fun v => (v, right)

end Graph

/-! ## Candidates -/

/-- The positions of places that all lie in the list of one leaf. -/
def positionsIn (s : StatId) (places : List Place) : Option (List Nat) :=
  places.mapM fun p => if p.stat = s then p.position else none

/-- An assignment to a variable in the list of a leaf. -/
structure LeafAssignment where
  /-- The leaf. -/
  stat : StatId
  /-- Its expressions. -/
  exprs : List ExprId
  /-- The position of the assignment. -/
  position : Nat
  /-- The variable assigned to. -/
  left : Local
  /-- What is assigned. -/
  right : ExprId

namespace Method

/-- Whether every occurrence of `other` lies in the leaf before an assignment, the first one being
an assignment to it, and the assigned variable does not occur in the leaf until then. -/
def diesBefore (m : Method) (occurrences : Occurrences) (a : LeafAssignment) (other : Local)
    (places : List Place) : Checked Bool := do
  let some (p :: ps) := positionsIn a.stat places | return false
  let first := ps.foldl min p
  let some firstExpr := a.exprs[first]? | return false
  let definedFirst := ((← m.graph.assigned? firstExpr).map Prod.fst) = some other
  let leftPlaces := (occurrences.get? a.left).getD []
  let leftLater := leftPlaces.all fun q => q.stat ≠ a.stat || q.position.all (a.position ≤ ·)
  let leftRead := (← m.graph.refsIn a.right).any fun v => v.2.var = a.left
  return (p :: ps).all (· < a.position) && definedFirst && leftLater && !leftRead

/-- The candidate that a copy joins. -/
def copyCandidate? (m : Method) (refused : List Candidate) (a : LeafAssignment) :
    Checked (Option Candidate) := do
  let some source ← m.graph.local? a.right | return none
  let candidate := Candidate.ofPair a.left source
  if source ≠ a.left && m.vars.slotOf source.index = m.vars.slotOf a.left.index
      && candidate ∉ refused then
    return some candidate
  else return none

/-- The candidate of an assignment of a variable or constant to a version whose slot had another
version until then. -/
def reuseCandidate? (m : Method) (arrange : Occurrences → Occurrences) (refused : List Candidate)
    (occurrences : Occurrences) (a : LeafAssignment) : Checked (Option Candidate) := do
  let isSimple := match ← m.graph.expr a.right with
    | .var _ | .const _ _ => true
    | _ => false
  if !isSimple then return none
  else
    (arrange occurrences).entries.findSomeM? fun entry => do
      let (other, places) := entry
      let candidate := Candidate.ofPair a.left other
      if other = a.left then return none
      else if m.vars.slotOf other.index ≠ m.vars.slotOf a.left.index then return none
      else if (← m.diesBefore occurrences a other places) && candidate ∉ refused then
        return some candidate
      else return none

/-- The candidate that one expression of a leaf gives. -/
def candidateAt? (m : Method) (arrange : Occurrences → Occurrences) (refused : List Candidate)
    (occurrences : Occurrences) (s : StatId) (exprs : List ExprId) (position : Nat) (e : ExprId) :
    Checked (Option Candidate) := do
  let some (left, right) ← m.graph.assigned? e | return none
  let a : LeafAssignment := ⟨s, exprs, position, left, right⟩
  match ← m.copyCandidate? refused a with
  | some candidate => return some candidate
  | none => m.reuseCandidate? arrange refused occurrences a

/-- The first candidate that was not refused, over the leaves of the tree. For an expression that
gives candidates with several other variables, `arrange` decides in which order these are tried. -/
def candidate? (m : Method) (arrange : Occurrences → Occurrences) (refused : List Candidate) :
    Checked (Option Candidate) := do
  let occurrences ← m.graph.occurrences
  (← m.graph.statements).findSomeM? fun s => do
    let exprs := (← m.graph.stat s).exprs?.getD []
    exprs.zipIdx.findSomeM? fun p =>
      m.candidateAt? arrange refused occurrences s exprs p.2 p.1

/-! ## Merging -/

/-- Whether an expression assigns a variable to itself. -/
def isSelfAssignment (g : Graph) (e : ExprId) : Checked Bool := do
  let some (left, right) ← g.assign? e | return false
  match ← g.local? left, ← g.local? right with
  | some v, some w => return v = w
  | _, _ => return false

/-- Drops the assignments of variables to themselves from a leaf, unless one is all there is. -/
def dropSelfAssignments (g : Graph) (s : StatId) : Checked Graph := do
  let some exprs := (← g.stat s).exprs? | return g
  let (g, exprs) ← Graph.dropFrom (isSelfAssignment g) true g [] exprs
  g.modifyStat s fun stat => stat.withExprs exprs

/-- Merges candidates until none is left, in at most `rounds` rounds. Returns the number of
merges. -/
def mergeVersionsIn (arrange : Occurrences → Occurrences) :
    (rounds : Nat) → Method → (refused : List Candidate) → (merges : Nat) →
      Checked (Method × Except MergeFailure Nat)
  | 0, _, _, _ => .error .cyclic
  | rounds + 1, m, refused, merges => do
    let some c ← m.candidate? arrange refused | return (m, .ok merges)
    let (m, outcome) ← m.unify c.source c.target
    match outcome with
    | .ontoItself => return (m, .error (.ontoItself c.source))
    | .refused => mergeVersionsIn arrange rounds m (c :: refused) merges
    | .merged => do
      let graph ← (← m.graph.statements).foldlM dropSelfAssignments m.graph
      mergeVersionsIn arrange rounds { m with graph := graph } refused (merges + 1)

/-- Merges candidates until none is left, trying the other variables of a slot in the order that
`arrange` gives. Each round either makes a variable disappear or refuses two of them for good, so
there are at most as many rounds as pairs of variables and variables. -/
def mergeVersionsBy (arrange : Occurrences → Occurrences) (m : Method) :
    Checked (Method × Except MergeFailure Nat) :=
  let bound := m.graph.exprs.size + 1
  mergeVersionsIn arrange (bound * bound) m [] 0

/-- Merges versions of variables that copies and simple reassignments join. -/
def mergeVersions (m : Method) : Checked (Method × Except MergeFailure Nat) := mergeVersionsBy id m

end Method

end Decompiler

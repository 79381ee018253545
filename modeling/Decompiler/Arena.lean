/-!
# Arenas and ids

The statements, edges and expressions of a method are kept in three arenas and named by ids. An id
is only meaningful for the arena that handed it out, so reading through an id that is not there is
a `Fault`: it ends the whole computation, and no state written before it can be seen afterwards.

* `Arena.get_alloc_new`: an allocated node is read back under its id.
* `Arena.get_set`: a write changes the node at its id and no other.
-/

namespace Decompiler

/-- The three sorts of nodes a method graph is made of. -/
inductive NodeSort where
  /-- A statement. -/
  | stat
  /-- A control edge between two statements. -/
  | edge
  /-- An expression. -/
  | expr
  deriving DecidableEq, Repr

/-- The word an id of this sort is printed with. -/
def NodeSort.label : NodeSort → String
  | .stat => "stat"
  | .edge => "edge"
  | .expr => "expr"

/-- The name of a node: its position in the arena of its sort. -/
structure Id (s : NodeSort) where
  /-- The position, counted from zero in order of allocation. -/
  index : Nat
  deriving DecidableEq, Repr

/-- Names of statements. -/
abbrev StatId := Id .stat

/-- Names of edges. -/
abbrev EdgeId := Id .edge

/-- Names of expressions. -/
abbrev ExprId := Id .expr

/-- The printed form of an id, such as `stat#7`. -/
def Id.text {s : NodeSort} (i : Id s) : String := s.label ++ "#" ++ toString i.index

/-- Why a computation over a method stopped without a result. -/
inductive Fault where
  /-- A node was used that its arena does not hold. -/
  | missing (sort : NodeSort) (index : Nat)
  /-- A walk over links outlived every walk without repetition, so the links form a cycle. -/
  | cyclic
  /-- A variable that was merged away has no record of where it went. -/
  | unlinked
  /-- A reader that was handed in broke down. -/
  | reader
  /-- A job was to run under a name with a zero character. -/
  | zeroInName
  deriving DecidableEq, Repr

/-- A description of a fault for people. -/
def Fault.message : Fault → String
  | .missing sort index => "no " ++ sort.label ++ "#" ++ toString index
  | .cyclic => "links form a cycle"
  | .unlinked => "a merged variable has no target"
  | .reader => "a reader broke down"
  | .zeroInName => "a job name has a zero character"

/-- Results of computations that may come to a fault. -/
abbrev Checked (α : Type) := Except Fault α

/-- Nodes of one sort, in order of allocation. Nodes are never freed: one that is dropped from the
tree is merely no longer reached. -/
structure Arena (s : NodeSort) (α : Type) where
  /-- The nodes, at the positions their ids name. -/
  nodes : Array α
  deriving Repr, DecidableEq

namespace Arena

variable {s : NodeSort} {α : Type}

/-- The arena without nodes. -/
def empty : Arena s α := ⟨#[]⟩

/-- The number of nodes. -/
def size (a : Arena s α) : Nat := a.nodes.size

/-- The ids in use, ascending. -/
def ids (a : Arena s α) : List (Id s) := (List.range a.size).map Id.mk

/-- Adds a node that may depend on its own id. -/
def allocWith (a : Arena s α) (node : Id s → α) : Arena s α × Id s :=
  (⟨a.nodes.push (node ⟨a.size⟩)⟩, ⟨a.size⟩)

/-- Adds a node under the next free id. -/
def alloc (a : Arena s α) (node : α) : Arena s α × Id s := a.allocWith fun _ => node

/-- The node of an id. -/
def get (a : Arena s α) (i : Id s) : Checked α :=
  match a.nodes[i.index]? with
  | some node => .ok node
  | none => .error (.missing s i.index)

/-- Replaces the node of an id. -/
def set (a : Arena s α) (i : Id s) (node : α) : Checked (Arena s α) :=
  if i.index < a.size then .ok ⟨a.nodes.setIfInBounds i.index node⟩
  else .error (.missing s i.index)

/-- Changes the node of an id. -/
def modify (a : Arena s α) (i : Id s) (f : α → α) : Checked (Arena s α) := do
  a.set i (f (← a.get i))

theorem get_eq_ok_iff {a : Arena s α} {i : Id s} {x : α} :
    a.get i = .ok x ↔ a.nodes[i.index]? = some x := by
  unfold get
  split <;> simp_all

/-- An id can be read exactly when it lies below the size of the arena. -/
theorem exists_get_iff {a : Arena s α} {i : Id s} : (∃ x, a.get i = .ok x) ↔ i.index < a.size := by
  simp only [get_eq_ok_iff, size]
  constructor
  · rintro ⟨x, h⟩
    exact (Array.getElem?_eq_some_iff.1 h).1
  · intro h
    exact ⟨a.nodes[i.index], Array.getElem?_eq_getElem h⟩

theorem get_alloc_new (a : Arena s α) (x : α) : (a.alloc x).1.get (a.alloc x).2 = .ok x := by
  simp [get_eq_ok_iff, alloc, allocWith, size]

theorem get_set {a b : Arena s α} {i j : Id s} {x : α} (h : a.set i x = .ok b) :
    b.get j = if i = j then .ok x else a.get j := by
  unfold set at h
  split at h
  · next hi =>
    cases h
    rw [size] at hi
    by_cases hij : i = j
    · subst hij
      simp [get, hi]
    · have : i.index ≠ j.index := fun e => hij (by cases i; cases j; simp_all)
      simp [get, hij, this]
  · cases h

theorem size_set {a b : Arena s α} {i : Id s} {x : α} (h : a.set i x = .ok b) :
    b.size = a.size := by
  unfold set at h
  split at h
  · cases h
    simp [size]
  · cases h

end Arena

end Decompiler

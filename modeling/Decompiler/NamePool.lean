/-!
# Fresh names

A pool remembers the names in use in one method and hands out new ones: a proposal that is taken is
lengthened by the letter `x` until it is free.
-/

namespace Decompiler

/-- The names in use in one method. -/
structure NamePool where
  /-- Every name added or handed out, the latest first. -/
  used : List String
  deriving Repr, DecidableEq

namespace NamePool

/-- The pool without names. -/
def empty : NamePool := ⟨[]⟩

/-- Marks a name as used. -/
def add (p : NamePool) (name : String) : NamePool :=
  if name ∈ p.used then p else ⟨name :: p.used⟩

/-- Whether a name is in use. -/
def contains (p : NamePool) (name : String) : Bool := name ∈ p.used

/-- A name that is used leaves fewer used names at least as long as the lengthened one. -/
theorem countP_lengthened_lt {used : List String} {name : String} (h : name ∈ used) :
    used.countP (fun u => (name.push 'x').length ≤ u.length) <
      used.countP (fun u => name.length ≤ u.length) := by
  have hlen : (name.push 'x').length = name.length + 1 := String.length_push 'x'
  have mono (l : List String) : l.countP (fun u => (name.push 'x').length ≤ u.length) ≤
      l.countP (fun u => name.length ≤ u.length) :=
    List.countP_mono_left fun u _ hu => by
      simp only [decide_eq_true_eq] at hu ⊢
      omega
  induction used with
  | nil => simp at h
  | cons u rest ih =>
    simp only [List.countP_cons, decide_eq_true_eq]
    rcases List.mem_cons.1 h with rfl | h
    · have := mono rest
      split <;> split <;> omega
    · have := ih h
      split <;> split <;> omega

/-- Lengthens a name until it is not used. -/
def freshen (used : List String) (name : String) : String :=
  if name ∈ used then freshen used (name.push 'x') else name
termination_by used.countP fun u => name.length ≤ u.length
decreasing_by exact countP_lengthened_lt ‹_›

/-- Hands out a free name for a proposal. -/
def fresh (p : NamePool) (proposal : String) : NamePool × String :=
  let name := freshen p.used proposal
  (p.add name, name)

/-- Hands out a free name for the variable of an index. -/
def freshIndex (p : NamePool) (index : Nat) : NamePool × String :=
  p.fresh ("var" ++ toString index)

end NamePool

end Decompiler

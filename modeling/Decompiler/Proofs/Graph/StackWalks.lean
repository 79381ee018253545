import Decompiler.Proofs.Graph.WellFormed

/-!
# Walks with a stack

The walks down a graph recurse over what lies below a node. A loop that keeps what it has yet to
look at on a stack makes the same lists.

* `StackWalk.workOff`: such a loop. Nothing bounds it, and it has no result if its stack never runs
  empty.
* `Unfolds`: what a stack stands for, as a recursion over the tasks on it;
  `StackWalk.workOff_eq_some_iff` says that the loop lists this and comes to an end exactly if there
  is such a list.
* `Recursive`: a listing puts the list of a node together from those of the nodes below it. Both
  loops do so (`recursive_parentsFirst`, `recursive_parentsLast`), and a recursion that counts the
  levels it descends makes the same lists (`Recursive.iff_levels`).
* `Graph.walksByStack_recursive`: the walks over statements and expressions as cases, and what they
  list.
-/

namespace Decompiler

open Relation

/-! ## Loops over a stack -/

/-- What a loop over a stack does about a task that it takes from the stack. -/
structure StackRound (Task Node : Type) where
  /-- What it lists. -/
  listed : List Node
  /-- What it pushes, one after the other. -/
  pushed : List Task

/-- Where a loop over a stack stands. -/
structure StackWalk (Task Node : Type) where
  /-- What it has listed. -/
  listed : List Node
  /-- The tasks that are left, the top of the stack last. -/
  stack : List Task

section

variable {Task Node : Type} {round : Task → Checked (StackRound Task Node)}
  {r : StackRound Task Node} {task : Task} {tasks tasks' stack : List Task}
  {listed l l' : List Node}

namespace StackWalk

/-- Takes the top off the stack, lists what a round lists and pushes what it pushes. -/
def next (w : StackWalk Task Node) (r : StackRound Task Node) : StackWalk Task Node where
  listed := w.listed ++ r.listed
  stack := w.stack.dropLast ++ r.pushed

/-- Works the stack off: does the round of the task on top as long as there is one. There is no
result if the stack never runs empty. -/
def workOff (round : Task → Checked (StackRound Task Node)) (w : StackWalk Task Node) :
    Option (Checked (List Node)) :=
  match w.stack.getLast? with
  | none => some (.ok w.listed)
  | some task =>
    match round task with
    | .error fault => some (.error fault)
    | .ok r => w.next r |>.workOff round
partial_fixpoint

theorem next_concat :
    next ⟨listed, stack ++ [task]⟩ r = ⟨listed ++ r.listed, stack ++ r.pushed⟩ := by
  simp [next]

theorem workOff_nil : workOff round ⟨listed, []⟩ = some (.ok listed) := by
  rw [workOff]
  rfl

theorem workOff_concat (h : round task = .ok r) : workOff round ⟨listed, stack ++ [task]⟩ =
    workOff round ⟨listed ++ r.listed, stack ++ r.pushed⟩ := by
  rw [workOff]
  simp [h, next_concat]

end StackWalk

/-- What tasks list when the first one is worked off with all that it leads to before the second
one, and so on. A stack stands for the tasks on it from the top down. -/
inductive Unfolds (round : Task → Checked (StackRound Task Node)) : List Task → List Node → Prop
  /-- No tasks list nothing. -/
  | nil : Unfolds round [] []
  /-- What the first task lists is followed by what the tasks list that it pushes, the last one of
  them first, and by what the other tasks list. -/
  | cons {task : Task} {tasks : List Task} {r : StackRound Task Node} {l l' : List Node}
      (h : round task = .ok r) (inner : Unfolds round r.pushed.reverse l)
      (rest : Unfolds round tasks l') : Unfolds round (task :: tasks) (r.listed ++ (l ++ l'))

namespace Unfolds

/-- The upper part of a stack is worked off without a look at the part below it. -/
theorem workOff_append (h : Unfolds round tasks l) (listed : List Node) (stack : List Task) :
    StackWalk.workOff round ⟨listed, stack ++ tasks.reverse⟩ =
      StackWalk.workOff round ⟨listed ++ l, stack⟩ := by
  induction h generalizing listed stack with
  | nil => simp
  | @cons task tasks r l l' h _ _ inner rest =>
    rw [List.reverse_cons, ← List.append_assoc, StackWalk.workOff_concat h]
    have hinner := inner (listed ++ r.listed) (stack ++ tasks.reverse)
    rw [List.reverse_reverse] at hinner
    rw [hinner, rest, List.append_assoc, List.append_assoc]

theorem append (h : Unfolds round tasks l) (h' : Unfolds round tasks' l') :
    Unfolds round (tasks ++ tasks') (l ++ l') := by
  induction h with
  | nil => exact h'
  | cons h inner _ _ ih => simpa [List.append_assoc] using Unfolds.cons h inner ih

theorem of_append (h : Unfolds round (tasks ++ tasks') l) :
    ∃ l₁ l₂, Unfolds round tasks l₁ ∧ Unfolds round tasks' l₂ ∧ l = l₁ ++ l₂ := by
  induction tasks generalizing l with
  | nil => exact ⟨[], l, .nil, h, rfl⟩
  | cons task tasks ih =>
    cases h with
    | cons h inner rest =>
      obtain ⟨l₁, l₂, h₁, h₂, rfl⟩ := ih rest
      exact ⟨_, l₂, .cons h inner h₁, h₂, by simp⟩

end Unfolds

/-- A loop over a stack comes to an end exactly if the stack unfolds to a list, and it adds that
list to what is listed. -/
theorem StackWalk.workOff_eq_some_iff {w : StackWalk Task Node} : w.workOff round = some (.ok l) ↔
    ∃ l', Unfolds round w.stack.reverse l' ∧ l = w.listed ++ l' := by
  constructor
  · intro h
    refine workOff.partial_correctness round
      (fun w result => ∀ l, result = .ok l →
        ∃ l', Unfolds round w.stack.reverse l' ∧ l = w.listed ++ l')
      (fun loop ih w result h l hl => ?_) w _ h l rfl
    subst hl
    obtain ⟨listed, stack⟩ := w
    cases stack using List.reverseRecOn with
    | nil =>
      obtain rfl : listed = l := by simpa using h
      exact ⟨[], .nil, by simp⟩
    | append_singleton stack task =>
      cases hr : round task with
      | error fault => simp [hr] at h
      | ok r =>
        -- the rest of the loop works off what was pushed and then what was below the task
        simp only [List.getLast?_append, List.getLast?_singleton, Option.some_or, hr,
          next_concat] at h
        obtain ⟨l', hl', rfl⟩ := ih _ _ h _ rfl
        rw [List.reverse_append] at hl'
        obtain ⟨l₁, l₂, h₁, h₂, rfl⟩ := hl'.of_append
        exact ⟨r.listed ++ (l₁ ++ l₂), by simpa using .cons hr h₁ h₂, by simp⟩
  · rintro ⟨l', hl', rfl⟩
    have h := hl'.workOff_append w.listed []
    rwa [List.reverse_reverse, List.nil_append, workOff_nil] at h

theorem StackWalk.workOff_singleton :
    workOff round ⟨[], [task]⟩ = some (.ok l) ↔ Unfolds round [task] l := by
  simp [workOff_eq_some_iff]

/-- Tasks unfold one by one. -/
theorem unfolds_iff_forall₂ : Unfolds round tasks l ↔
    ∃ ls, List.Forall₂ (fun task lt => Unfolds round [task] lt) tasks ls ∧ l = ls.flatten := by
  constructor
  · intro h
    induction h with
    | nil => exact ⟨[], .nil, rfl⟩
    | cons h inner _ _ ih =>
      obtain ⟨ls, hls, rfl⟩ := ih
      exact ⟨_ :: ls, .cons (.cons h inner .nil) hls, by simp⟩
  · rintro ⟨ls, hls, rfl⟩
    induction hls with
    | nil => exact .nil
    | cons h _ ih => exact h.append ih

theorem unfolds_singleton : Unfolds round [task] l ↔
    ∃ r l', round task = .ok r ∧ Unfolds round r.pushed.reverse l' ∧ l = r.listed ++ l' := by
  constructor
  · intro h
    cases h with
    | cons h inner rest =>
      cases rest
      exact ⟨_, _, h, inner, by simp⟩
  · rintro ⟨r, l', h, inner, rfl⟩
    simpa using Unfolds.cons h inner .nil

end

/-! ## Recursive listings -/

/-- Results made one by one and then mapped are the image of results made one by one. -/
theorem forall₂_exists_map_iff {α β γ : Type} {R : α → β → Prop} {f : β → γ} {as : List α}
    {cs : List γ} : List.Forall₂ (fun a c => ∃ b, R a b ∧ f b = c) as cs ↔
      ∃ bs, List.Forall₂ R as bs ∧ bs.map f = cs := by
  constructor
  · intro h
    induction h with
    | nil => exact ⟨[], .nil, rfl⟩
    | cons h _ ih =>
      obtain ⟨b, hb, rfl⟩ := h
      obtain ⟨bs, hbs, rfl⟩ := ih
      exact ⟨b :: bs, .cons hb hbs, rfl⟩
  · rintro ⟨bs, hbs, rfl⟩
    exact List.forall₂_map_right_iff.2 (hbs.imp fun a b hb => ⟨b, hb, rfl⟩)

section

variable {ι : Type} {combine : ι → List ι → List ι} {below : ι → Checked (List ι)}
  {listing : ι → List ι → Prop} {a c : ι} {l : List ι}

/-- A listing by recursion: the list of a node is put together from the node and from the lists of
the nodes right below it. -/
def Recursive (combine : ι → List ι → List ι) (below : ι → Checked (List ι))
    (listing : ι → List ι → Prop) : Prop :=
  ∀ a l, listing a l ↔
    ∃ cs ls, below a = .ok cs ∧ List.Forall₂ listing cs ls ∧ l = combine a ls.flatten

/-- The loop that lists parents first: lists a node and pushes the nodes below it, the first one
last, so that it is on top. -/
def parentsFirst (below : ι → Checked (List ι)) (a : ι) : Checked (StackRound ι ι) := do
  return ⟨[a], (← below a).reverse⟩

/-- The loop that lists parents last: a task says whether its node is expanded. One that is not is
pushed again as expanded, below the nodes below it; one that is expanded is listed. -/
def parentsLast (below : ι → Checked (List ι)) : ι × Bool → Checked (StackRound (ι × Bool) ι)
  | (a, true) => return ⟨[a], []⟩
  | (a, false) => do return ⟨[], (a, true) :: (← below a).reverse.map fun c => (c, false)⟩

theorem recursive_parentsFirst :
    Recursive List.cons below fun a l =>
      StackWalk.workOff (parentsFirst below) ⟨[], [a]⟩ = some (.ok l) := by
  intro a l
  simp only [StackWalk.workOff_singleton]
  rw [unfolds_singleton]
  constructor
  · rintro ⟨r, l', hr, hl', rfl⟩
    obtain ⟨cs, hcs, hr⟩ := Checked.bind_eq_ok.1 hr
    obtain rfl := Checked.pure_eq_ok.1 hr
    rw [List.reverse_reverse] at hl'
    obtain ⟨ls, hls, rfl⟩ := unfolds_iff_forall₂.1 hl'
    exact ⟨cs, ls, hcs, hls, rfl⟩
  · rintro ⟨cs, ls, hcs, hls, rfl⟩
    refine ⟨⟨[a], cs.reverse⟩, ls.flatten, by simp [parentsFirst, hcs], ?_, rfl⟩
    rw [List.reverse_reverse]
    exact unfolds_iff_forall₂.2 ⟨ls, hls, rfl⟩

theorem recursive_parentsLast : Recursive (fun a l => l ++ [a]) below
    fun a l => StackWalk.workOff (parentsLast below) ⟨[], [(a, false)]⟩ = some (.ok l) := by
  have hexpanded : ∀ a l, Unfolds (parentsLast below) [(a, true)] l ↔ l = [a] := by
    intro a l
    rw [unfolds_singleton]
    constructor
    · rintro ⟨r, l', hr, hl', rfl⟩
      obtain rfl := Checked.pure_eq_ok.1 hr
      cases hl'
      rfl
    · rintro rfl
      exact ⟨⟨[a], []⟩, [], rfl, .nil, rfl⟩
  intro a l
  simp only [StackWalk.workOff_singleton]
  rw [unfolds_singleton]
  constructor
  · rintro ⟨r, l', hr, hl', rfl⟩
    obtain ⟨cs, hcs, hr⟩ := Checked.bind_eq_ok.1 hr
    obtain rfl := Checked.pure_eq_ok.1 hr
    -- on top of the expanded node lie the nodes below it, the first one uppermost
    rw [List.reverse_cons, ← List.map_reverse, List.reverse_reverse] at hl'
    obtain ⟨l₁, l₂, h₁, h₂, rfl⟩ := hl'.of_append
    obtain rfl := (hexpanded a l₂).1 h₂
    obtain ⟨ls, hls, rfl⟩ := unfolds_iff_forall₂.1 h₁
    rw [List.forall₂_map_left_iff] at hls
    exact ⟨cs, ls, hcs, hls, rfl⟩
  · rintro ⟨cs, ls, hcs, hls, rfl⟩
    refine ⟨⟨[], (a, true) :: cs.reverse.map fun c => (c, false)⟩, ls.flatten ++ [a],
      by simp [parentsLast, hcs], ?_, rfl⟩
    rw [List.reverse_cons, ← List.map_reverse, List.reverse_reverse]
    exact (unfolds_iff_forall₂.2 ⟨ls, List.forall₂_map_left_iff.2 hls, rfl⟩).append
      ((hexpanded a [a]).2 rfl)

/-- `c` lies right below `a`. -/
def RightBelow (below : ι → Checked (List ι)) (a c : ι) : Prop := Returns (below a) fun cs => c ∈ cs

namespace Recursive

theorem congr {listing' : ι → List ι → Prop} (h : Recursive combine below listing)
    (hsame : ∀ a l, listing a l ↔ listing' a l) : Recursive combine below listing' := by
  have heq : listing = listing' := by
    ext a l
    exact hsame a l
  exact heq ▸ h

section

variable (h : Recursive combine below listing) (longer : ∀ a l, l.length < (combine a l).length)

include h longer

/-- The nodes right below one that is listed have lists too, and shorter ones. -/
theorem exists_shorter (hl : listing a l) (hc : RightBelow below a c) :
    ∃ lc, listing c lc ∧ lc.length < l.length := by
  obtain ⟨cs, ls, hcs, hls, rfl⟩ := (h a l).1 hl
  rw [RightBelow, hcs, Returns.ok_iff] at hc
  obtain ⟨lc, hmem, hlc⟩ := Checked.exists_of_mem hls hc
  have hle : lc.length ≤ ls.flatten.length := (List.sublist_flatten_of_mem hmem).length_le
  exact ⟨lc, hlc, hle.trans_lt (longer a ls.flatten)⟩

/-- So a node that is listed does not lie below itself. -/
theorem acyclic (hl : listing a l) : ¬ TransGen (RightBelow below) a a := by
  induction hn : l.length using Nat.strong_induction_on generalizing a l with
  | _ n ih =>
    intro hcycle
    obtain ⟨c, hac, hca⟩ := TransGen.head'_iff.1 hcycle
    obtain ⟨lc, hlc, hlt⟩ := h.exists_shorter longer hl hac
    exact ih lc.length (hn ▸ hlt) hlc rfl (.tail' hca hac)

end

end Recursive

end

namespace Recursive

variable {s : NodeSort} {combine : Id s → List (Id s) → List (Id s)}
  {below : Id s → Checked (List (Id s))} {listing : Id s → List (Id s) → Prop}
  {levels : ℕ → Id s → Checked (List (Id s))} {n N : ℕ} {a : Id s} {l : List (Id s)}
  (h : Recursive combine below listing)
  (succ : ∀ n a l, levels (n + 1) a = .ok l ↔ ∃ cs ls, below a = .ok cs ∧
    List.Forall₂ (fun c lc => levels n c = .ok lc) cs ls ∧ l = combine a ls.flatten)

include h succ

theorem listing_of_levels (zero : ∀ a, levels 0 a = .error .cyclic)
    (hl : levels n a = .ok l) : listing a l := by
  induction n generalizing a l with
  | zero =>
    rw [zero] at hl
    cases hl
  | succ n ih =>
    obtain ⟨cs, ls, hcs, hls, rfl⟩ := (succ n a l).1 hl
    exact (h a _).2 ⟨cs, ls, hcs, hls.imp fun c lc hc => ih hc, rfl⟩

theorem levels_of_listing (longer : ∀ a l, l.length < (combine a l).length)
    (bound : ∀ a cs, below a = .ok cs → a.index < N) (hn : N ≤ n) (hl : listing a l) :
    levels n a = .ok l := by
  refine walk_of_acyclic (S := fun a => ∃ l, listing a l) (N := N) (R := RightBelow below)
    (P := fun n a => ∀ l, listing a l → levels n a = .ok l) (fun a ha => ?_)
    (fun a c ha hac => ?_) (fun a ha => ?_) (fun n a _ hbelow l hl => ?_) ⟨l, hl⟩ hn l hl
  · obtain ⟨l, hl⟩ := ha
    obtain ⟨cs, -, hcs, -⟩ := (h a l).1 hl
    exact bound a cs hcs
  · obtain ⟨l, hl⟩ := ha
    obtain ⟨lc, hlc, -⟩ := h.exists_shorter longer hl hac
    exact ⟨lc, hlc⟩
  · obtain ⟨l, hl⟩ := ha
    exact h.acyclic longer hl
  · obtain ⟨cs, ls, hcs, hls, rfl⟩ := (h a l).1 hl
    have hmem := (List.forall₂_and_left _ _).2 ⟨fun c hc => hc, hls⟩
    have hlevels : List.Forall₂ (fun c lc => levels n c = .ok lc) cs ls :=
      hmem.imp fun c lc hc => hbelow c ⟨cs, hcs, hc.1⟩ lc hc.2
    exact (succ n a _).2 ⟨cs, ls, hcs, hlevels, rfl⟩

variable (levels) in
/-- A recursion that counts the levels it descends makes the same lists, if it may descend as many
as there are nodes. -/
theorem iff_levels (zero : ∀ a, levels 0 a = .error .cyclic)
    (longer : ∀ a l, l.length < (combine a l).length)
    (bound : ∀ a cs, below a = .ok cs → a.index < N) (hn : N ≤ n) :
    listing a l ↔ levels n a = .ok l :=
  ⟨h.levels_of_listing succ longer bound hn, h.listing_of_levels succ zero⟩

end Recursive

namespace Graph

variable {g : Graph} {s : StatId} {e : ExprId} {l : List StatId}

/-! ## Walks over a graph -/

/-- The children of a statement. -/
def childrenOf (g : Graph) (s : StatId) : Checked (List StatId) := do
  return (← g.stat s).children

/-- The direct subexpressions of an expression. -/
def subexprsOf (g : Graph) (e : ExprId) : Checked (List ExprId) := do
  return (← g.expr e).children

/-- A statement and all below it, parents first, by a loop. -/
def preorderByStack (g : Graph) (s : StatId) : Option (Checked (List StatId)) :=
  StackWalk.workOff (parentsFirst g.childrenOf) ⟨[], [s]⟩

/-- The statements of the tree, parents first, by a loop. -/
def statementsByStack (g : Graph) : Option (Checked (List StatId)) := g.preorderByStack root

/-- A statement and all below it, children first, by a loop. -/
def postorderByStack (g : Graph) (s : StatId) : Option (Checked (List StatId)) :=
  StackWalk.workOff (parentsLast g.childrenOf) ⟨[], [(s, false)]⟩

/-- An expression and all below it, parents first, by a loop. -/
def subtreeByStack (g : Graph) (e : ExprId) : Option (Checked (List ExprId)) :=
  StackWalk.workOff (parentsFirst g.subexprsOf) ⟨[], [e]⟩

theorem childrenOf_eq_ok {cs : List StatId} :
    g.childrenOf s = .ok cs ↔ ∃ st, g.stat s = .ok st ∧ st.children = cs := by
  simp [childrenOf]

theorem subexprsOf_eq_ok {cs : List ExprId} :
    g.subexprsOf e = .ok cs ↔ ∃ m, g.node e = .ok m ∧ m.expr.children = cs := by
  simp [subexprsOf, expr_eq_ok]

theorem childrenOf_bound (s : StatId) (cs : List StatId) (h : g.childrenOf s = .ok cs) :
    s.index < g.stats.size := by
  obtain ⟨st, hst, -⟩ := childrenOf_eq_ok.1 h
  exact Arena.get_lt hst

theorem subexprsOf_bound (e : ExprId) (cs : List ExprId) (h : g.subexprsOf e = .ok cs) :
    e.index < g.exprs.size := by
  obtain ⟨m, hm, -⟩ := subexprsOf_eq_ok.1 h
  exact Arena.get_lt hm

/-- The loop that lists statements parents first lists what the recursion lists. -/
theorem preorderByStack_iff :
    g.preorderByStack s = some (.ok l) ↔ g.preorderIn g.statLevels s = .ok l := by
  refine recursive_parentsFirst.iff_levels g.preorderIn (fun n s l => ?_) (fun _ => rfl)
    (fun _ _ => Nat.lt_succ_self _) childrenOf_bound (Nat.le_succ _)
  simp [preorderIn_succ, childrenOf_eq_ok]

/-- So does the one that lists them children first. -/
theorem postorderByStack_iff : g.postorderByStack s = some (.ok l) ↔ g.postorder s = .ok l := by
  refine recursive_parentsLast.iff_levels g.postorderIn (fun n s l => ?_) (fun _ => rfl)
    (fun _ _ => by simp) childrenOf_bound (Nat.le_succ _)
  simp [postorderIn, childrenOf_eq_ok, Checked.mapM_eq_ok_iff, eq_comm (a := l)]

/-- So does the one that lists expressions. -/
theorem subtreeByStack_iff {l : List ExprId} :
    g.subtreeByStack e = some (.ok l) ↔ g.subtree e = .ok l := by
  refine recursive_parentsFirst.iff_levels
    (fun n e => do return (← g.nodesIn n e).map Prod.fst) (fun n e l => ?_) (fun _ => rfl)
    (fun _ _ => Nat.lt_succ_self _) subexprsOf_bound (Nat.le_succ _)
  simp only [Checked.bind_eq_ok, Checked.pure_eq_ok, nodesIn_succ, subexprsOf_eq_ok,
    forall₂_exists_map_iff]
  constructor
  · rintro ⟨-, ⟨m, ls, hm, hls, rfl⟩, rfl⟩
    exact ⟨_, _, ⟨m, hm, rfl⟩, ⟨ls, hls, rfl⟩, by simp [List.map_flatten]⟩
  · rintro ⟨-, -, ⟨m, hm, rfl⟩, ⟨ls, hls, rfl⟩, rfl⟩
    exact ⟨_, ⟨m, ls, hm, hls, rfl⟩, by simp [List.map_flatten]⟩

/-! ## What the walks list -/

/-- The expressions in the tree are those that its statements hold, each as often as they do. -/
theorem perm_exprsIn {stats order : List StatId} {exprs : List ExprId}
    (horder : g.postorder root = .ok order) (hperm : stats.Perm order)
    (hexprs : g.exprsIn root = .ok exprs) :
    Returns (stats.mapM g.heldBy) fun held => exprs.Perm held.flatten := by
  obtain ⟨order', ls, horder', hls, rfl⟩ := exprsIn_eq_ok.1 hexprs
  rw [horder] at horder'
  cases horder'
  -- what the statements hold in one order of them is a permutation of what they hold in another one
  obtain ⟨held, hheld, hsame⟩ := List.perm_comp_forall₂ hperm hls
  exact ⟨held, Checked.mapM_eq_ok_iff.2 hheld, hsame.symm.flatten⟩

/-- **The walks with a stack are the recursive ones.** Take a graph whose statements form a tree and
whose expressions have no cycles. The loop over the statements of the tree comes to an end and lists
what the recursion lists, parents first. The loops that list what lies in a statement, children
first, and what lies in an expression, parents first, come to an end exactly if the recursions do,
with the same lists, and they do so for every statement of the tree and every expression. The list
of a node is put together from the lists of the nodes right below it.

Both listings of the whole tree hold each of its statements once, so that they are permutations of
each other. The expressions of the tree are those that its statements evaluate or declare, each
listed as often as they do. -/
theorem walksByStack_recursive (htree : g.TreeConsistent) (hacyclic : g.Acyclic) :
    -- statements, parents first
    Recursive List.cons g.childrenOf (fun s l => g.preorderIn g.statLevels s = .ok l) ∧
    g.statementsByStack = some g.statements ∧
    -- statements, children first
    Recursive (fun s l => l ++ [s]) g.childrenOf (fun s l => g.postorder s = .ok l) ∧
    (∀ s l, g.postorderByStack s = some (.ok l) ↔ g.postorder s = .ok l) ∧
    (∀ s, g.InTree s → Returns (g.postorder s) fun l => l.Nodup ∧ ∀ x, x ∈ l ↔ g.Within s x) ∧
    -- expressions, parents first
    Recursive List.cons g.subexprsOf (fun e l => g.subtree e = .ok l) ∧
    (∀ e l, g.subtreeByStack e = some (.ok l) ↔ g.subtree e = .ok l) ∧
    (∀ e ∈ g.exprs.ids, Returns (g.subtree e) fun l => ∀ x, x ∈ l ↔ g.Reaches e x) ∧
    -- the whole tree
    Returns g.statements fun stats => Returns (g.postorder root) fun order =>
      stats.Nodup ∧ order.Nodup ∧ order.Perm stats ∧ (∀ s, s ∈ stats ↔ g.InTree s) ∧
      Returns (g.exprsIn root) fun exprs => Returns (stats.mapM g.heldBy) fun held =>
        exprs.Perm held.flatten := by
  have hF := htree.forest
  obtain ⟨stats, hstats, hnodup, hmem⟩ := hF.statements
  obtain ⟨order, horder, hnodup', hmem'⟩ := hF.postorder .refl
  obtain ⟨exprs, hexprs⟩ := hF.exprsIn .refl
  have hperm : stats.Perm order := (List.perm_ext_iff_of_nodup hnodup hnodup').2 fun s =>
    (hmem s).trans (hmem' s).symm
  refine ⟨recursive_parentsFirst.congr fun s l => preorderByStack_iff, ?_,
    recursive_parentsLast.congr fun s l => postorderByStack_iff,
    fun s l => postorderByStack_iff, fun s hs => hF.postorder hs,
    recursive_parentsFirst.congr fun e l => subtreeByStack_iff,
    fun e l => subtreeByStack_iff, fun e he => ?_, stats, hstats, order, horder, hnodup, hnodup',
    hperm.symm, hmem, exprs, hexprs, perm_exprsIn horder hperm hexprs⟩
  · rw [hstats]
    exact preorderByStack_iff.2 hstats
  · obtain ⟨m, hm⟩ := Arena.mem_ids.1 he
    obtain ⟨nodes, hnodes⟩ := (hacyclic e m hm).nodes
    have hl : g.subtree e = .ok (nodes.map Prod.fst) := by simp [subtree, hnodes]
    exact ⟨_, hl, mem_subtree e _ hl⟩

/-- The body of a method that evaluates one sum in several places,
`x + x; if (x + x) { x + x; x + x; } x;`, and a sequence that was taken out of it. -/
def sharingMethod : Graph where
  stats := ⟨#[
    ⟨.exit, none, none, [], [], [], [], []⟩,
    ⟨.root, none, some ⟨2⟩, [⟨2⟩], [], [], [], []⟩,
    ⟨.sequence, some ⟨1⟩, some ⟨3⟩, [⟨3⟩, ⟨6⟩], [], [], [], []⟩,
    ⟨.branch ⟨⟨2⟩, some ⟨5⟩, none, .plain⟩, some ⟨2⟩, some ⟨4⟩, [⟨4⟩, ⟨5⟩], [], [], [], []⟩,
    ⟨.block [⟨1⟩], some ⟨3⟩, none, [], [], [], [], []⟩,
    ⟨.block [⟨1⟩, ⟨1⟩], some ⟨3⟩, none, [], [], [], [], []⟩,
    ⟨.block [⟨0⟩], some ⟨2⟩, none, [], [], [], [], []⟩,
    ⟨.sequence, none, some ⟨8⟩, [⟨8⟩], [], [], [], []⟩,
    ⟨.block [], some ⟨7⟩, none, [], [], [], [], []⟩]⟩
  edges := .empty
  exprs := ⟨#[
    ⟨.var ⟨⟨1, 0⟩, ⟨.int, 0⟩, false, false, none⟩, .single 1⟩,
    ⟨.apply .add [⟨0⟩, ⟨0⟩], .single 2⟩,
    ⟨.test ⟨1⟩, .single 3⟩]⟩

theorem walksByStack_recursive_sharingMethod :
    sharingMethod.TreeConsistent ∧ sharingMethod.Acyclic ∧
    sharingMethod.statementsByStack = some (.ok [⟨1⟩, ⟨2⟩, ⟨3⟩, ⟨4⟩, ⟨5⟩, ⟨6⟩]) ∧
    sharingMethod.postorderByStack root = some (.ok [⟨4⟩, ⟨5⟩, ⟨3⟩, ⟨6⟩, ⟨2⟩, ⟨1⟩]) ∧
    sharingMethod.postorderByStack ⟨7⟩ = some (.ok [⟨8⟩, ⟨7⟩]) ∧
    sharingMethod.subtreeByStack ⟨2⟩ = some (.ok [⟨2⟩, ⟨1⟩, ⟨0⟩, ⟨0⟩]) ∧
    Returns (sharingMethod.exprsIn root) fun exprs =>
      Returns (sharingMethod.statements) fun stats =>
        Returns (stats.mapM sharingMethod.heldBy) fun held =>
          exprs.Perm held.flatten ∧ exprs.count ⟨1⟩ = 3 := by
  have htree : sharingMethod.TreeConsistent := by decide +kernel
  have hacyclic : sharingMethod.Acyclic := by decide +kernel
  obtain ⟨-, hstats, -, hpost, -, -, hsub, -, stats, hl, order, horder, -, -, -, -, exprs, hexprs,
    held, hheld, hsame⟩ := walksByStack_recursive htree hacyclic
  refine ⟨htree, hacyclic, hstats.trans rfl, (hpost _ _).2 rfl, (hpost _ _).2 rfl,
    (hsub _ _).2 rfl, exprs, hexprs, stats, hl, held, hheld, hsame, ?_⟩
  have hexprs' : sharingMethod.exprsIn root = .ok [⟨1⟩, ⟨1⟩, ⟨1⟩, ⟨2⟩, ⟨0⟩] := rfl
  rw [hexprs] at hexprs'
  cases hexprs'
  rfl

end Graph

end Decompiler

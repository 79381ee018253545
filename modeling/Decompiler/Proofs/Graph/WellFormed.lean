import Decompiler.Proofs.Graph.ExprTrees
import Decompiler.Proofs.Graph.Trees

/-!
# Well-formed graphs

What a graph is when it comes from the operations that build statements, and the expressions that
the statements of its tree hold.

* `Graph.WellFormed`: each statement of the tree is reached once, parents match lists of children,
  statements are entered through their first child, and leaves and `if`s have the children they were
  built with. This can be decided.
* `Graph.WellFormed.treeConsistent`: the statements of such a graph are a tree.
* `Graph.Holds`: a statement of the tree evaluates or declares an expression; these are the ones
  that `Graph.exprsIn` lists (`Graph.Forest.exprsIn`).
-/

namespace Decompiler

open Relation

/-! ## The children of one statement -/

/-- A statement of a kind has the children it was built with: a leaf has none, and an `if` has the
block in front of its test and its branches, of which the second one comes with an `else` only. -/
def StatKind.Shapes (children : List StatId) : StatKind → Prop
  | .block _ => children = []
  | .branch b =>
    children ≠ [] ∧ children.tail = b.thenStat.toList ++ b.elseStat.toList ∧
      (b.form = .plain → b.elseStat = none)
  | _ => True

instance (children : List StatId) : (kind : StatKind) → Decidable (kind.Shapes children)
  | .block _ => inferInstanceAs (Decidable (children = []))
  | .branch _ => inferInstanceAs (Decidable (_ ∧ _ ∧ (_ → _)))
  | .sequence | .loop _ | .switch _ _ | .tryCatch _ | .catchAll _ _ _ | .synchronized _ _ | .root
  | .exit => isTrue trivial

/-- What is left of the shape of a statement when rewrites have taken children out: the block in
front of a test may be gone. -/
def StatKind.Fits (children : List StatId) : StatKind → Prop
  | .block _ => children = []
  | .branch b =>
    (∃ front : List StatId, front.length ≤ 1 ∧
      children = front ++ (b.thenStat.toList ++ b.elseStat.toList)) ∧
      (b.form = .plain → b.elseStat = none)
  | _ => True

theorem StatKind.fits_of_shapes {kind : StatKind} {children : List StatId}
    (h : kind.Shapes children) : kind.Fits children := by
  cases kind with
  | branch b =>
    obtain ⟨hne, htail, hform⟩ := h
    cases children with
    | nil => exact absurd rfl hne
    | cons front rest => exact ⟨⟨[front], le_refl 1, congrArg (front :: ·) htail⟩, hform⟩
  | _ => exact h

/-- The expressions that a statement of a kind names, those in slots it does not evaluate included.
-/
def StatKind.named : StatKind → List ExprId
  | .loop l => l.init.toList ++ l.condition.toList ++ l.step.toList
  | kind => kind.exprs

theorem StatKind.mem_named {kind : StatKind} {e : ExprId} (h : e ∈ kind.exprs) :
    e ∈ kind.named := by
  cases kind with
  | loop l =>
    obtain ⟨kind, init, condition, step⟩ := l
    cases kind <;> simp_all [StatKind.exprs, named, Stat.loopBefore, Stat.loopAfter]
    tauto
  | _ => exact h

namespace Stat

/-- A statement is entered through the first of its children, and these are what rewrites have left
of those it was built with. -/
structure Fits (s : Stat) : Prop where
  /-- Control enters through the first child. -/
  first : s.first = s.children.head?
  /-- The children fit the kind. -/
  children : s.kind.Fits s.children

variable {s t : Stat} {old : StatId} {new : Option StatId}

theorem Fits.congr (hkind : t.kind = s.kind) (hfirst : t.first = s.first)
    (hchildren : t.children = s.children) (h : s.Fits) : t.Fits :=
  ⟨by rw [hfirst, hchildren, h.first], by rw [hkind, hchildren]; exact h.children⟩

theorem Fits.of_bare_eq (h : s.Fits) (heq : t.bare = s.bare) : t.Fits := by
  obtain ⟨hkind, -, hfirst, hchildren, -⟩ := bare_eq_iff.1 heq
  exact h.congr hkind hfirst hchildren

theorem Fits.of_leaf {exprs : List ExprId} (hkind : s.kind = .block exprs) (hfirst : s.first = none)
    (hchildren : s.children = []) : s.Fits :=
  ⟨by rw [hfirst, hchildren, List.head?_nil], by rw [hkind]; exact hchildren⟩

theorem Fits.holdsRoles (h : s.Fits) : s.HoldsRoles := by
  refine ⟨h.first, fun c hc => ?_⟩
  have hshape := h.children
  unfold StatKind.branches at hc
  split at hc
  · next b hkind =>
    rw [hkind] at hshape
    obtain ⟨⟨front, -, hchildren⟩, -⟩ := hshape
    rw [hchildren]
    exact List.mem_append_right _ hc
  · cases hc

theorem toList_filter {α : Type} (o : Option α) (keep : α → Bool) :
    (o.filter keep).toList = o.toList.filter keep := by
  cases o with
  | none => rfl
  | some a => by_cases h : keep a <;> simp [Option.filter, h]

/-- Taking a child out, or putting another statement in its place, leaves the rest of the shape. -/
theorem Fits.exchange (h : s.Fits) : (s.exchange old new).Fits := by
  refine ⟨exchange_first h.first, ?_⟩
  replace h := h.children
  obtain ⟨kind, parent, first, children, declarations, successors, predecessors, labels⟩ := s
  cases kind with
  | block exprs =>
    obtain rfl : children = [] := h
    cases new <;> rfl
  | branch b =>
    obtain ⟨⟨front, hlen, rfl⟩, hform⟩ := h
    cases new with
    | none =>
      refine ⟨⟨front.filter fun c => c ≠ old, (List.length_filter_le _ _).trans hlen, ?_⟩,
        fun hplain => ?_⟩
      · change List.filter _ _ = _
        rw [List.filter_append, List.filter_append, toList_filter, toList_filter]
      · change b.elseStat.filter _ = none
        rw [hform hplain]
        rfl
    | some new =>
      refine ⟨⟨front.map fun c => if c = old then new else c, by simpa using hlen, ?_⟩,
        fun hplain => ?_⟩
      · change List.map _ _ = _
        rw [List.map_append, List.map_append, ← Option.toList_map, ← Option.toList_map]
      · change b.elseStat.map _ = none
        rw [hform hplain]
        rfl
  | _ => cases new <;> trivial

theorem exchange_named : (s.exchange old new).kind.named = s.kind.named := by
  obtain ⟨kind, parent, first, children, declarations, successors, predecessors, labels⟩ := s
  cases new <;> cases kind <;> rfl

end Stat

namespace Graph

variable {g g' : Graph} {K : StatId → Prop} {s : StatId} {e : ExprId}

/-! ## The tree -/

/-- Each statement of the tree is reached once, names the statement that lists it as its parent, is
entered through its first child, and has the children it was built with. -/
def WellFormed (g : Graph) : Prop :=
  Returns g.statements fun l => l.Nodup ∧ Returns (g.stat root) (fun st => st.parent = none) ∧
    ∀ s ∈ l, Returns (g.stat s) fun st =>
      st.first = st.children.head? ∧ st.kind.Shapes st.children ∧
        ∀ c ∈ st.children, Returns (g.stat c) fun ct => ct.parent = some s

instance (g : Graph) : Decidable g.WellFormed :=
  inferInstanceAs (Decidable (Returns g.statements _))

namespace WellFormed

theorem stat (h : g.WellFormed) (hs : g.InTree s) : Returns (g.stat s) fun st =>
    st.first = st.children.head? ∧ st.kind.Shapes st.children ∧
      ∀ c ∈ st.children, Returns (g.stat c) fun ct => ct.parent = some s := by
  obtain ⟨l, hl, -, -, hstat⟩ := h
  exact hstat s ((mem_preorderIn hl s).2 hs)

theorem treeConsistent (h : g.WellFormed) : g.TreeConsistent := by
  obtain ⟨l, hl, hnodup, hroot, hstat⟩ := h
  refine ⟨l, hl, hnodup, hroot, fun s hs => ?_⟩
  obtain ⟨st, hst, hfirst, hshapes, hparent⟩ := hstat s hs
  have hfits : st.Fits := ⟨hfirst, StatKind.fits_of_shapes hshapes⟩
  exact ⟨st, hst, hfits.holdsRoles, hparent⟩

theorem forest (h : g.WellFormed) : Forest g g.InTree := h.treeConsistent.forest

theorem fits (h : g.WellFormed) (hs : g.InTree s) {st : Stat} (hst : g.stat s = .ok st) :
    st.Fits := by
  obtain ⟨st', hst', hfirst, hshaped, -⟩ := h.stat hs
  rw [hst] at hst'
  cases hst'
  exact ⟨hfirst, StatKind.fits_of_shapes hshaped⟩

end WellFormed

theorem entersChildren_of_fits (h : ∀ s st, g.InTree s → g.stat s = .ok st → st.Fits)
    (hs : g.InTree s) : g.EntersChildren s :=
  entersChildren_of_holdsRoles (fun s st hs hst => (h s st hs hst).holdsRoles) hs

theorem WellFormed.entersChildren (h : g.WellFormed) (hs : g.InTree s) : g.EntersChildren s :=
  entersChildren_of_fits (fun _ _ hs hst => h.fits hs hst) hs

/-- Every statement of the tree satisfies a condition. -/
def EachStat (g : Graph) (P : Stat → Prop) : Prop :=
  Returns g.statements fun l => ∀ s ∈ l, Returns (g.stat s) P

instance (g : Graph) (P : Stat → Prop) [DecidablePred P] : Decidable (g.EachStat P) :=
  inferInstanceAs (Decidable (Returns g.statements _))

theorem EachStat.stat {P : Stat → Prop} (h : g.EachStat P) (hs : g.InTree s) {st : Stat}
    (hst : g.stat s = .ok st) : P st := by
  obtain ⟨l, hl, hP⟩ := h
  obtain ⟨st', hst', hP⟩ := hP s ((mem_preorderIn hl s).2 hs)
  rw [hst] at hst'
  cases hst'
  exact hP

/-- The body of a method that counts with an endless loop and then enters a monitor:
`i = 0; do { if (!(i < 3)) break; i++; } copy = o; synchronized (o) { }`. -/
def countingMethod : Graph where
  stats := ⟨#[
    ⟨.exit, none, none, [], [], [], [], []⟩,
    ⟨.root, none, some ⟨2⟩, [⟨2⟩], [], [], [], []⟩,
    ⟨.sequence, some ⟨1⟩, some ⟨3⟩, [⟨3⟩, ⟨4⟩, ⟨9⟩], [], [], [], []⟩,
    ⟨.block [⟨2⟩], some ⟨2⟩, none, [], [], [⟨0⟩], [], []⟩,
    ⟨.loop ⟨.endless, none, none, none⟩, some ⟨2⟩, some ⟨5⟩, [⟨5⟩], [], [⟨4⟩], [⟨0⟩, ⟨3⟩],
      [⟨1⟩, ⟨3⟩]⟩,
    ⟨.sequence, some ⟨4⟩, some ⟨6⟩, [⟨6⟩, ⟨8⟩], [], [], [], []⟩,
    ⟨.branch ⟨⟨7⟩, none, none, .plain⟩, some ⟨5⟩, some ⟨7⟩, [⟨7⟩], [], [⟨2⟩], [], []⟩,
    ⟨.block [], some ⟨6⟩, none, [], [], [⟨1⟩], [], []⟩,
    ⟨.block [⟨9⟩], some ⟨5⟩, none, [], [], [⟨3⟩], [⟨2⟩], []⟩,
    ⟨.synchronized (some ⟨14⟩) ⟨11⟩, some ⟨2⟩, some ⟨10⟩, [⟨10⟩, ⟨11⟩], [], [], [⟨1⟩, ⟨4⟩], []⟩,
    ⟨.block [⟨12⟩], some ⟨9⟩, none, [], [], [], [], []⟩,
    ⟨.block [], some ⟨9⟩, none, [], [], [], [], []⟩]⟩
  edges := ⟨#[
    ⟨.regular, ⟨3⟩, ⟨4⟩, none, false, false⟩,
    ⟨.breakTo, ⟨7⟩, ⟨9⟩, some ⟨4⟩, false, true⟩,
    ⟨.regular, ⟨6⟩, ⟨8⟩, none, false, false⟩,
    ⟨.continueTo, ⟨8⟩, ⟨4⟩, some ⟨4⟩, false, false⟩,
    ⟨.regular, ⟨4⟩, ⟨9⟩, none, false, false⟩]⟩
  exprs :=
    let occurrence (index : ℕ) (ty : Base) : Expr := .var ⟨⟨index, 0⟩, ⟨ty, 0⟩, false, false, none⟩
    ⟨#[
      ⟨occurrence 0 .int, .single 1⟩,
      ⟨.const ⟨.int, 0⟩ (.int 0), .single 0⟩,
      ⟨.assign ⟨0⟩ ⟨1⟩, .empty⟩,
      ⟨occurrence 0 .int, .single 2⟩,
      ⟨.const ⟨.int, 0⟩ (.int 3), .single 3⟩,
      ⟨.apply .lt [⟨3⟩, ⟨4⟩], .empty⟩,
      ⟨.apply .boolNot [⟨5⟩], .empty⟩,
      ⟨.test ⟨6⟩, .single 4⟩,
      ⟨occurrence 0 .int, .empty⟩,
      ⟨.apply .postInc [⟨8⟩], .single 5⟩,
      ⟨occurrence 1 (.object none), .single 6⟩,
      ⟨occurrence 2 (.object none), .single 7⟩,
      ⟨.assign ⟨11⟩ ⟨10⟩, .empty⟩,
      ⟨occurrence 1 (.object none), .single 8⟩,
      ⟨.monitor .enter ⟨13⟩, .single 9⟩]⟩

example : countingMethod.WellFormed := by decide +kernel

/-! ## The expressions of the tree -/

/-- The statement evaluates or declares the expression itself. -/
def Holds (g : Graph) (s : StatId) (e : ExprId) : Prop :=
  Returns (g.stat s) fun st => e ∈ st.kind.exprs ++ st.declarations

theorem holds_iff {st : Stat} (h : g.stat s = .ok st) :
    g.Holds s e ↔ e ∈ st.kind.exprs ++ st.declarations := by
  rw [Holds, h, Returns.ok_iff]

theorem heldBy_eq_ok {l : List ExprId} : g.heldBy s = .ok l ↔
    ∃ st, g.stat s = .ok st ∧ l = st.kind.exprs ++ st.declarations := by
  simp only [heldBy, Stat.ownExprs_eq, Checked.bind_eq_ok, Checked.pure_eq_ok]
  exact exists_congr fun st => and_congr_right fun _ => eq_comm

theorem heldBy_congr (h : g'.bareStat s = g.bareStat s) : g'.heldBy s = g.heldBy s := by
  have key : ∀ g : Graph, g.heldBy s =
      (g.bareStat s).map fun st => st.kind.exprs ++ st.declarations := by
    intro g
    unfold heldBy bareStat
    simp only [Stat.ownExprs_eq]
    cases g.stat s <;> rfl
  rw [key, key, h]

theorem mem_of_heldBy (s : StatId) (l : List ExprId) (h : g.heldBy s = .ok l) (e : ExprId) :
    e ∈ l ↔ g.Holds s e := by
  obtain ⟨st, hst, rfl⟩ := heldBy_eq_ok.1 h
  exact (holds_iff hst).symm

theorem Holds.of_heldBy_eq (h : g.Holds s e) (heq : g.heldBy s = g'.heldBy s) : g'.Holds s e := by
  obtain ⟨st, hst, he⟩ := h
  exact (mem_of_heldBy s _ (heq.symm.trans (heldBy_eq_ok.2 ⟨st, hst, rfl⟩)) e).1 he

theorem not_holds_of_heldBy (h : g.heldBy s = .ok []) : ¬ g.Holds s e := by
  rw [← mem_of_heldBy s [] h e]
  exact List.not_mem_nil

theorem exprsIn_eq_ok {l : List ExprId} : g.exprsIn s = .ok l ↔
    ∃ order ls, g.postorder s = .ok order ∧
      List.Forall₂ (fun x lx => g.heldBy x = .ok lx) order ls ∧ l = ls.flatten := by
  simp only [exprsIn, Checked.bind_eq_ok, Checked.pure_eq_ok, Checked.mapM_eq_ok_iff]
  constructor
  · rintro ⟨order, horder, ls, hls, rfl⟩
    exact ⟨order, ls, horder, hls, rfl⟩
  · rintro ⟨order, ls, horder, hls, rfl⟩
    exact ⟨order, horder, ls, hls, rfl⟩

/-- The expressions in a statement of the tree can be listed. -/
theorem Forest.exprsIn (hF : Forest g K) (hs : g.InTree s) : ∃ l, g.exprsIn s = .ok l := by
  obtain ⟨order, horder, -, hmem⟩ := hF.postorder hs
  have hls : Returns (order.mapM g.heldBy) (List.Forall₂ (fun _ _ => True) order) := by
    refine Returns.mapM fun x hx => ?_
    obtain ⟨xt, hxt⟩ := hF.exists_stat (hs.within ((hmem x).1 hx))
    exact ⟨_, heldBy_eq_ok.2 ⟨xt, hxt, rfl⟩, trivial⟩
  obtain ⟨ls, hls, -⟩ := hls
  exact ⟨_, exprsIn_eq_ok.2 ⟨order, ls, horder, Checked.mapM_eq_ok_iff.1 hls, rfl⟩⟩

/-- They are those that some statement in it holds. -/
theorem Forest.mem_exprsIn (hF : Forest g K) (hs : g.InTree s) {l : List ExprId}
    (h : g.exprsIn s = .ok l) : e ∈ l ↔ ∃ x, g.Within s x ∧ g.Holds x e := by
  obtain ⟨order, ls, horder, hls, rfl⟩ := exprsIn_eq_ok.1 h
  obtain ⟨order', horder', -, hmem⟩ := hF.postorder hs
  rw [horder] at horder'
  cases horder'
  rw [mem_flatten_of_forall₂ hls mem_of_heldBy]
  exact exists_congr fun x => and_congr_left fun _ => hmem x

/-- Where no expression is listed twice, each is held once by one statement. -/
theorem Forest.held_once (hF : Forest g K) {l : List ExprId} (h : g.exprsIn Graph.root = .ok l)
    (hl : l.Nodup) :
    (∀ s held, g.InTree s → g.heldBy s = .ok held → held.Nodup) ∧
      ∀ s t e, g.InTree s → g.InTree t → g.Holds s e → g.Holds t e → s = t := by
  obtain ⟨order, ls, horder, hls, rfl⟩ := exprsIn_eq_ok.1 h
  obtain ⟨order', horder', -, hmem⟩ := hF.postorder .refl
  rw [horder] at horder'
  cases horder'
  refine ⟨fun s held hs hheld => ?_, fun s t e hs ht hse hte => ?_⟩
  · obtain ⟨held', hmem', hheld'⟩ := Checked.exists_of_mem hls ((hmem s).2 hs)
    rw [hheld] at hheld'
    cases hheld'
    exact hl.sublist (List.sublist_flatten_of_mem hmem')
  · exact eq_of_nodup_flatten hls hl mem_of_heldBy ((hmem s).2 hs) ((hmem t).2 ht) hse hte

/-- Where each expression is held once by one statement, none is listed twice. -/
theorem Forest.nodup_exprsIn (hF : Forest g K) {l : List ExprId}
    (h : g.exprsIn Graph.root = .ok l)
    (each : ∀ s held, g.InTree s → g.heldBy s = .ok held → held.Nodup)
    (apart : ∀ s t e, g.InTree s → g.InTree t → g.Holds s e → g.Holds t e → s = t) : l.Nodup := by
  obtain ⟨order, ls, horder, hls, rfl⟩ := exprsIn_eq_ok.1 h
  obtain ⟨order', horder', hnodup, hmem⟩ := hF.postorder .refl
  rw [horder] at horder'
  cases horder'
  exact nodup_flatten_of_forall₂ hls hnodup mem_of_heldBy
    (fun s hs held hheld => each s held ((hmem s).1 hs) hheld)
    fun s hs t ht e => apart s t e ((hmem s).1 hs) ((hmem t).1 ht)

/-! ## Expressions that occur once -/

/-- The trees of all expressions of the statement tree can be listed, and no node occurs twice in
them. -/
def NodesOnce (g : Graph) : Prop :=
  Returns (g.exprsIn root) fun l => Returns (l.mapM g.subtree) fun trees => trees.flatten.Nodup

instance (g : Graph) : Decidable g.NodesOnce :=
  inferInstanceAs (Decidable (Returns (g.exprsIn root) _))

theorem mem_subtree (e : ExprId) (l : List ExprId) (h : g.subtree e = .ok l) (x : ExprId) :
    x ∈ l ↔ g.Reaches e x := by
  simp only [subtree, Checked.bind_eq_ok, Checked.pure_eq_ok] at h
  obtain ⟨nodes, hnodes, rfl⟩ := h
  constructor
  · intro hx
    obtain ⟨p, hp, rfl⟩ := List.mem_map.1 hx
    exact ((mem_nodesIn hnodes p).1 hp).1
  · intro hx
    obtain ⟨n, hn⟩ := ((grounded_of_nodes hnodes).of_reaches hx).exists_node
    exact List.mem_map.2 ⟨(x, n), (mem_nodesIn hnodes (x, n)).2 ⟨hx, hn⟩, rfl⟩

namespace NodesOnce

variable {l : List ExprId} (h : g.NodesOnce) (hl : g.exprsIn root = .ok l)

include h hl

theorem trees : ∃ trees, List.Forall₂ (fun e le => g.subtree e = .ok le) l trees ∧
    trees.flatten.Nodup := by
  obtain ⟨l', hl', trees, htrees, hnodup⟩ := h
  rw [hl] at hl'
  cases hl'
  exact ⟨trees, Checked.mapM_eq_ok_iff.1 htrees, hnodup⟩

theorem nodup : l.Nodup := by
  obtain ⟨trees, htrees, hnodup⟩ := h.trees hl
  exact nodup_of_nodup_flatten htrees hnodup mem_subtree fun e => ⟨e, .refl⟩

theorem grounded {e : ExprId} (he : e ∈ l) : g.Grounded e := by
  obtain ⟨trees, htrees, -⟩ := h.trees hl
  obtain ⟨le, -, hle⟩ := Checked.exists_of_mem htrees he
  simp only [subtree, Checked.bind_eq_ok] at hle
  obtain ⟨nodes, hnodes, -⟩ := hle
  exact grounded_of_nodes hnodes

/-- Two expressions of the tree that lead to one node are the same. -/
theorem eq_of_reaches {e e' x : ExprId} (he : e ∈ l) (he' : e' ∈ l) (hx : g.Reaches e x)
    (hx' : g.Reaches e' x) : e = e' := by
  obtain ⟨trees, htrees, hnodup⟩ := h.trees hl
  exact eq_of_nodup_flatten htrees hnodup mem_subtree he he' hx hx'

/-- What lies strictly below an expression of the tree is none itself. -/
theorem not_mem_of_below {e x : ExprId} (he : e ∈ l) (hx : TransGen g.SubOf e x) : x ∉ l := by
  intro hmem
  obtain rfl := h.eq_of_reaches hl he hmem hx.to_reflTransGen .refl
  exact (h.grounded hl he).acyclic hx

end NodesOnce

end Graph

end Decompiler

import Decompiler.Proofs.Graph.ExprTrees

/-!
# Equal expressions

Two expressions are equal exactly if their trees are, with all taken off that equality does not see.

* `Expr.label`: what equality sees of a node besides its subexpressions (`Expr.sameNode_iff`).
* `Graph.erased`: the tree of labels below an expression. Exactly the grounded expressions have one
  (`Graph.Grounded.erased`, `Graph.grounded_of_erased`).
* `Graph.equal_iff`: the comparison of two expressions compares their trees.
* `Graph.erased_substitute`: one subexpression in the place of an equal one changes no tree.
* `Graph.equal_iff_erased`: equality of expressions as a relation.
-/

namespace Decompiler

/-! ## Labels of nodes -/

/-- The number without the sign of zero. -/
def Ieee.canonical (x : Ieee) : Ieee := if x.magnitude = 0 then ⟨0⟩ else x

theorem Ieee.equal_iff {x y : Ieee} (hx : x.isNaN = false) (hy : y.isNaN = false) :
    x.equal y = true ↔ x.canonical = y.canonical := by
  have hzero : (⟨0⟩ : Ieee).magnitude = 0 := rfl
  have hequal : x.equal y = true ↔ x = y ∨ (x.magnitude = 0 ∧ y.magnitude = 0) := by
    cases x
    cases y
    simp [equal, hx, hy]
  rw [hequal, canonical, canonical]
  split <;> split <;> grind

namespace Const

/-- The constant without the sign of zero. -/
def canonical : Const → Const
  | .float x => .float x.canonical
  | c => c

/-- Whether the constant is a floating-point value that is no number. -/
def isNaN : Const → Bool
  | .float x => x.isNaN
  | _ => false

theorem equal_iff {c d : Const} (hc : c.isNaN = false) (hd : d.isNaN = false) :
    c.equal d = true ↔ c.canonical = d.canonical := by
  cases c with
  | float x =>
    cases d with
    | float y => simpa [equal, canonical] using Ieee.equal_iff hc hd
    | _ => simp [equal, canonical]
  | _ => cases d <;> simp [equal, canonical]

end Const

/-- What a node is, its subexpressions aside. -/
inductive NodeLabel where
  | assign
  | var (v : Local)
  | const (ty : Ty) (value : Const)
  | apply (op : Operator)
  | call (className name descriptor : String) (hasReceiver : Bool)
  | element
  | field (hasReceiver : Bool) (className name descriptor : String)
  | test
  | monitor (action : MonitorAction)
  | exit (action : ExitAction) (hasValue : Bool)
  | new (className : String)
  deriving DecidableEq, Repr

/-- The variable, if the node is an occurrence of one. -/
def NodeLabel.local? : NodeLabel → Option Local
  | var v => some v
  | _ => none

namespace Expr

variable {x y : Expr}

/-- The label of a node. It keeps the variable of an occurrence alone, and a number without the sign
of zero, so that numbers that compare as equal have one label. -/
def label : Expr → NodeLabel
  | assign _ _ => .assign
  | var v => .var v.var
  | const ty value => .const ty value.canonical
  | apply op _ => .apply op
  | call c => .call c.className c.name c.descriptor c.receiver.isSome
  | element _ _ => .element
  | field receiver className name descriptor => .field receiver.isSome className name descriptor
  | test _ => .test
  | monitor action _ => .monitor action
  | exit action value => .exit action value.isSome
  | new className _ => .new className

/-- Whether the node is a floating-point constant that is no number. -/
def isNaN : Expr → Bool
  | const _ value => value.isNaN
  | _ => false

/-- The comparison of two nodes compares their labels. -/
theorem sameNode_iff (hx : x.isNaN = false) (hy : y.isNaN = false) :
    x.sameNode y = true ↔ x.label = y.label := by
  cases x with
  | const ty c =>
    cases y with
    | const ty' d =>
      have hequal : c.equal d = true ↔ c.canonical = d.canonical := Const.equal_iff hx hy
      simp [sameNode, label, hequal]
    | _ => simp [sameNode, label]
  | _ => cases y <;> simp [sameNode, label, and_assoc]

theorem local?_label (x : Expr) : x.label.local? = x.local? := by
  cases x <;> rfl

@[simp] theorem label_mapChildren (x : Expr) (f : ExprId → ExprId) :
    (x.mapChildren f).label = x.label := by
  cases x <;> simp [mapChildren, label]

@[simp] theorem isNaN_mapChildren (x : Expr) (f : ExprId → ExprId) :
    (x.mapChildren f).isNaN = x.isNaN := by
  cases x <;> rfl

@[simp] theorem children_mapChildren (x : Expr) (f : ExprId → ExprId) :
    (x.mapChildren f).children = x.children.map f := by
  cases x <;> simp [mapChildren, children, Option.toList_map]

end Expr

/-! ## Trees of labels -/

/-- A tree of labels. -/
inductive ErasedTree where
  /-- A node above its subtrees, which are in order of evaluation. -/
  | node (label : NodeLabel) (children : List ErasedTree)
  deriving Repr

namespace ErasedTree

/-- What holds of a node as soon as it holds of its subtrees holds of all trees. -/
@[elab_as_elim, induction_eliminator]
theorem induct {P : ErasedTree → Prop}
    (node : ∀ label children, (∀ t ∈ children, P t) → P (.node label children)) : ∀ t, P t
  | .node label children => node label children fun t _ => induct node t

/-- The labels of a tree, parents first. -/
def labels : ErasedTree → List NodeLabel
  | .node label children => label :: children.flatMap labels

end ErasedTree

namespace Graph

variable {g g' : Graph} {n m : ℕ} {a b e f old new x y : ExprId} {t u : ErasedTree}

theorem mem_exprs_ids : e ∈ g.exprs.ids ↔ ∃ z, g.expr e = .ok z := by
  rw [Arena.mem_ids]
  constructor
  · rintro ⟨k, hk⟩
    exact ⟨k.expr, expr_eq_ok.2 ⟨k, hk, rfl⟩⟩
  · rintro ⟨z, hz⟩
    obtain ⟨k, hk, -⟩ := expr_eq_ok.1 hz
    exact ⟨k, hk⟩

/-- The tree of an expression of at most `levels` levels: the labels of all nodes, without their
ids, their offsets and the types, marks and debug entries of variables. -/
def erasedIn (g : Graph) : (levels : ℕ) → ExprId → Checked ErasedTree
  | 0, _ => .error .cyclic
  | levels + 1, e => do
    let x ← g.expr e
    return .node x.label (← x.children.mapM (g.erasedIn levels))

/-- The tree of an expression. -/
def erased (g : Graph) (e : ExprId) : Checked ErasedTree := g.erasedIn g.exprLevels e

theorem erasedIn_succ : g.erasedIn (n + 1) e = .ok t ↔ ∃ x ts, g.expr e = .ok x ∧
    List.Forall₂ (fun c tc => g.erasedIn n c = .ok tc) x.children ts ∧ t = .node x.label ts := by
  simp only [erasedIn, Checked.bind_eq_ok, Checked.pure_eq_ok, Checked.mapM_eq_ok_iff]
  constructor
  · rintro ⟨x, hx, ts, hts, rfl⟩
    exact ⟨x, ts, hx, hts, rfl⟩
  · rintro ⟨x, ts, hx, hts, rfl⟩
    exact ⟨x, hx, ts, hts, rfl⟩

theorem erasedIn_mono (hnm : n ≤ m) (h : g.erasedIn n e = .ok t) : g.erasedIn m e = .ok t := by
  induction n generalizing m e t with
  | zero => cases h
  | succ n ih =>
    obtain ⟨m, rfl⟩ : ∃ k, m = k + 1 := ⟨m - 1, by omega⟩
    obtain ⟨x, ts, hx, hts, rfl⟩ := erasedIn_succ.1 h
    exact erasedIn_succ.2 ⟨x, ts, hx, hts.imp fun c tc hc => ih (by omega) hc, rfl⟩

theorem grounded_of_erasedIn (h : g.erasedIn n e = .ok t) : g.Grounded e := by
  induction n generalizing e t with
  | zero => cases h
  | succ n ih =>
    obtain ⟨x, ts, hx, hts, rfl⟩ := erasedIn_succ.1 h
    obtain ⟨k, hk, rfl⟩ := expr_eq_ok.1 hx
    refine .node hk fun c hc => ?_
    obtain ⟨tc, -, htc⟩ := Checked.exists_of_mem hts hc
    exact ih htc

theorem grounded_of_erased (h : g.erased e = .ok t) : g.Grounded e := grounded_of_erasedIn h

/-- A grounded expression has a tree. -/
theorem Grounded.erased (h : g.Grounded e) : ∃ t, g.erased e = .ok t := by
  refine h.walk (P := fun n e => ∃ t, g.erasedIn n e = .ok t) (fun n e k _ hk hbelow => ?_)
    (Nat.le_succ _)
  have hts : Returns (k.expr.children.mapM (g.erasedIn n))
      (List.Forall₂ (fun _ _ => True) k.expr.children) :=
    Returns.mapM fun c hc => (hbelow c hc).imp fun _ ht => ⟨ht, trivial⟩
  obtain ⟨ts, hts, -⟩ := hts
  have hx : g.expr e = .ok k.expr := expr_eq_ok.2 ⟨k, hk, rfl⟩
  exact ⟨_, erasedIn_succ.2 ⟨k.expr, ts, hx, Checked.mapM_eq_ok_iff.1 hts, rfl⟩⟩

theorem Acyclic.erased (h : g.Acyclic) (he : e ∈ g.exprs.ids) : ∃ t, g.erased e = .ok t := by
  obtain ⟨k, hk⟩ := Arena.mem_ids.1 he
  exact (h e k hk).erased

/-- The tree of an expression is its label above the trees of its subexpressions. -/
theorem erased_eq_ok : g.erased e = .ok t ↔ ∃ x ts, g.expr e = .ok x ∧
    List.Forall₂ (fun c tc => g.erased c = .ok tc) x.children ts ∧ t = .node x.label ts := by
  have hdown : ∀ t, g.erased e = .ok t → ∃ x ts, g.expr e = .ok x ∧
      List.Forall₂ (fun c tc => g.erased c = .ok tc) x.children ts ∧ t = .node x.label ts := by
    intro t h
    obtain ⟨x, ts, hx, hts, rfl⟩ := erasedIn_succ.1 h
    exact ⟨x, ts, hx, hts.imp fun c tc hc => erasedIn_mono (Nat.le_succ _) hc, rfl⟩
  refine ⟨hdown t, ?_⟩
  rintro ⟨x, ts, hx, hts, rfl⟩
  obtain ⟨k, hk, rfl⟩ := expr_eq_ok.1 hx
  have hground : g.Grounded e := .node hk fun c hc => by
    obtain ⟨tc, -, htc⟩ := Checked.exists_of_mem hts hc
    exact grounded_of_erased htc
  -- there is a tree, and its subtrees are those of the subexpressions
  obtain ⟨t, ht⟩ := hground.erased
  obtain ⟨x', ts', hx', hts', rfl⟩ := hdown t ht
  rw [hx] at hx'
  cases hx'
  have hunique : Relator.RightUnique fun c tc => g.erased c = .ok tc := fun c tc tc' h h' =>
    Except.ok.inj (h.symm.trans h')
  rw [ht, List.right_unique_forall₂' hunique hts hts']

/-! ## Comparison -/

/-- Every floating-point constant is a number. -/
def NoNaN (g : Graph) : Prop := ∀ e x, g.expr e = .ok x → x.isNaN = false

instance (g : Graph) : Decidable g.NoNaN :=
  decidable_of_iff (∀ e ∈ g.exprs.ids, Returns (g.expr e) fun x => x.isNaN = false) <| by
    constructor
    · intro h e x hx
      obtain ⟨x', hx', hnan⟩ := h e (mem_exprs_ids.2 ⟨x, hx⟩)
      rw [hx] at hx'
      cases hx'
      exact hnan
    · intro h e he
      obtain ⟨x, hx⟩ := mem_exprs_ids.1 he
      exact ⟨x, hx, h e x hx⟩

/-- The comparison of lists of expressions, one by one, compares the lists of their trees. -/
theorem allM_zip_iff {test : ExprId × ExprId → Checked Bool} {as bs : List ExprId}
    {ts us : List ErasedTree} {r : Bool}
    (test_iff : ∀ a b r t u, test (a, b) = .ok r → g.erased a = .ok t → g.erased b = .ok u →
      (r = true ↔ t = u))
    (hts : List.Forall₂ (fun c tc => g.erased c = .ok tc) as ts)
    (hus : List.Forall₂ (fun c tc => g.erased c = .ok tc) bs us) (hlen : as.length = bs.length)
    (h : (as.zip bs).allM test = .ok r) : r = true ↔ ts = us := by
  induction hts generalizing bs us with
  | nil =>
    cases hus with
    | nil => simpa using (Checked.pure_eq_ok.1 h).symm
    | cons => cases hlen
  | cons ha _ ih =>
    cases hus with
    | nil => cases hlen
    | cons hb hus =>
      rw [List.zip_cons_cons, List.allM_cons] at h
      obtain ⟨s, hs, h⟩ := Checked.bind_eq_ok.1 h
      have hhead := test_iff _ _ _ _ _ hs ha hb
      cases s with
      | true => simp [ih hus (Nat.succ.inj hlen) h, ← hhead]
      | false => simp [← Checked.pure_eq_ok.1 h, ← hhead]

/-- Of whatever depth, the comparison of two expressions compares their trees. -/
theorem equalIn_iff (hnan : g.NoNaN) {r : Bool} (h : g.equalIn n a b = .ok r)
    (ha : g.erased a = .ok t) (hb : g.erased b = .ok u) : r = true ↔ t = u := by
  induction n generalizing a b r t u with
  | zero => cases h
  | succ n ih =>
    rw [equalIn] at h
    split at h
    · next hab =>
      -- an expression is equal to itself without a look at it
      subst hab
      rw [← Checked.pure_eq_ok.1 h, ← Except.ok.inj (ha.symm.trans hb)]
      simp
    · obtain ⟨x, ts, hx, hts, rfl⟩ := erased_eq_ok.1 ha
      obtain ⟨y, us, hy, hus, rfl⟩ := erased_eq_ok.1 hb
      have hlabel := Expr.sameNode_iff (hnan a x hx) (hnan b y hy)
      simp only [hx, hy, Checked.ok_bind] at h
      split at h
      · next hnode =>
        obtain ⟨hsame, hlen⟩ : x.sameNode y = true ∧ x.children.length = y.children.length := by
          simpa using hnode
        rw [allM_zip_iff (fun a b r t u => ih) hts hus hlen h, hlabel.1 hsame,
          ErasedTree.node.injEq, eq_self, true_and]
      · next hnode =>
        refine iff_of_false (by simp [← Checked.pure_eq_ok.1 h]) fun heq => hnode ?_
        obtain ⟨hxy, rfl⟩ := ErasedTree.node.inj heq
        simp [hlabel.2 hxy, hts.length_eq, hus.length_eq]

/-- The comparison of two expressions comes out positive. -/
def Equal (g : Graph) (a b : ExprId) : Prop := Returns (g.equal a b) fun r => r = true

instance (g : Graph) (a b : ExprId) : Decidable (g.Equal a b) :=
  inferInstanceAs (Decidable (Returns (g.equal a b) _))

/-- The comparison of two expressions comes to a result, which says whether their trees are equal.
-/
theorem equal_returns (hnan : g.NoNaN) (ha : g.erased a = .ok t) (hb : g.erased b = .ok u) :
    Returns (g.equal a b) fun r => r = true ↔ t = u := by
  obtain ⟨r, hr, -⟩ := (grounded_of_erased ha).equal (grounded_of_erased hb)
  exact ⟨r, hr, equalIn_iff hnan hr ha hb⟩

theorem equal_iff (hnan : g.NoNaN) (ha : g.erased a = .ok t) (hb : g.erased b = .ok u) :
    g.Equal a b ↔ t = u := by
  obtain ⟨r, hr, hiff⟩ := equal_returns hnan ha hb
  rw [Equal, hr, Returns.ok_iff, hiff]

namespace Equal

theorem refl (g : Graph) (e : ExprId) : g.Equal e e := by
  simp [Equal, equal, equalIn]

variable (hacyclic : g.Acyclic) (hnan : g.NoNaN)

include hacyclic in
theorem exists_trees (h : g.Equal a b) (hne : a ≠ b) :
    ∃ t u, g.erased a = .ok t ∧ g.erased b = .ok u := by
  obtain ⟨r, h, -⟩ := h
  simp only [equal, equalIn, if_neg hne, Checked.bind_eq_ok] at h
  obtain ⟨x, hx, y, hy, -⟩ := h
  obtain ⟨t, ht⟩ := hacyclic.erased (mem_exprs_ids.2 ⟨x, hx⟩)
  obtain ⟨u, hu⟩ := hacyclic.erased (mem_exprs_ids.2 ⟨y, hy⟩)
  exact ⟨t, u, ht, hu⟩

include hacyclic hnan

theorem erased_eq (h : g.Equal a b) : g.erased a = g.erased b := by
  by_cases hab : a = b
  · rw [hab]
  · obtain ⟨t, u, ht, hu⟩ := h.exists_trees hacyclic hab
    rw [ht, hu, (equal_iff hnan ht hu).1 h]

theorem equivalence : Equivalence g.Equal where
  refl := refl g
  symm {a b} h := by
    by_cases hab : a = b
    · exact hab ▸ refl g a
    · obtain ⟨t, u, ht, hu⟩ := h.exists_trees hacyclic hab
      exact (equal_iff hnan hu ht).2 ((equal_iff hnan ht hu).1 h).symm
  trans {a b c} h h' := by
    by_cases hab : a = b
    · exact hab ▸ h'
    · obtain ⟨t, u, ht, hu⟩ := h.exists_trees hacyclic hab
      have hc : g.erased c = .ok t :=
        (h'.erased_eq hacyclic hnan).symm.trans ((h.erased_eq hacyclic hnan).symm.trans ht)
      exact (equal_iff hnan ht hc).2 rfl

/-- A node is equal to one with equal subexpressions in the places of its own. -/
theorem of_mapChildren {z : Expr} {σ : ExprId → ExprId} (he : g.expr e = .ok z)
    (hf : g.expr f = .ok (z.mapChildren σ)) (h : ∀ c ∈ z.children, g.Equal c (σ c)) :
    g.Equal e f := by
  obtain ⟨t, ht⟩ := hacyclic.erased (mem_exprs_ids.2 ⟨z, he⟩)
  refine (equal_iff hnan ht ?_).2 rfl
  obtain ⟨z', ts, hz', hts, rfl⟩ := erased_eq_ok.1 ht
  rw [he] at hz'
  cases hz'
  refine erased_eq_ok.2 ⟨_, ts, hf, ?_, by rw [Expr.label_mapChildren]⟩
  rw [Expr.children_mapChildren, List.forall₂_map_left_iff]
  refine ((List.forall₂_and_left _ _).2 ⟨h, hts⟩).imp fun c tc hc => ?_
  exact (hc.1.erased_eq hacyclic hnan).symm.trans hc.2

end Equal

/-! ## Substitution -/

theorem expr_substitute (h : g.substitute e old new = .ok g') {z : Expr} :
    g'.expr x = .ok z ↔
      ∃ w, g.expr x = .ok w ∧ z = if e = x then w.replaceChild old new else w := by
  constructor
  · intro hz
    have hsize : g'.exprs.size = g.exprs.size := (node_modifyExpr h).choose_spec.2.2.2.2
    obtain ⟨k, hk, -⟩ := expr_eq_ok.1 hz
    obtain ⟨n, hn⟩ := Arena.exists_get_iff.2 (hsize ▸ Arena.get_lt hk)
    have hw : g.expr x = .ok n.expr := expr_eq_ok.2 ⟨n, hn, rfl⟩
    exact ⟨n.expr, hw, Except.ok.inj (hz.symm.trans (expr_modifyExpr h hw))⟩
  · rintro ⟨w, hw, rfl⟩
    exact expr_modifyExpr h hw

section

variable (hsub : g.substitute e old new = .ok g')
  (hsame : ∀ t, g.erased old = .ok t → g.erased new = .ok t)

include hsub hsame

/-- A subexpression gives its place to one with the same tree. Every expression keeps its tree, and
so no cycle comes about. -/
theorem erased_substitute (h : g.erased x = .ok t) : g'.erased x = .ok t := by
  induction t generalizing x with
  | node label ts ih =>
    obtain ⟨w, ts, hw, hts, heq⟩ := erased_eq_ok.1 h
    obtain ⟨rfl, rfl⟩ := ErasedTree.node.inj heq
    have hmem : List.Forall₂ (fun c tc => tc ∈ ts ∧ g.erased c = .ok tc) w.children ts :=
      ((List.forall₂_and_left _ _).2 ⟨fun _ h => h, hts.flip⟩).flip
    refine erased_eq_ok.2 ⟨_, ts, (expr_substitute hsub).2 ⟨w, hw, rfl⟩, ?_, ?_⟩
    · split
      · rw [Expr.replaceChild, Expr.children_mapChildren, List.forall₂_map_left_iff]
        refine hmem.imp fun c tc hc => ?_
        split
        · next hold => exact ih tc hc.1 (hsame tc (hold ▸ hc.2))
        · exact ih tc hc.1 hc.2
      · exact hmem.imp fun c tc hc => ih tc hc.1 hc.2
    · split
      · rw [Expr.replaceChild, Expr.label_mapChildren]
      · rfl

theorem Acyclic.substitute (h : g.Acyclic) : g'.Acyclic := by
  intro x k hk
  obtain ⟨w, hw, -⟩ := (expr_substitute hsub).1 (expr_eq_ok.2 ⟨k, hk, rfl⟩)
  obtain ⟨t, ht⟩ := h.erased (mem_exprs_ids.2 ⟨w, hw⟩)
  exact grounded_of_erased (erased_substitute hsub hsame ht)

end

theorem NoNaN.substitute (h : g.NoNaN) (hsub : g.substitute e old new = .ok g') : g'.NoNaN := by
  intro x z hz
  obtain ⟨w, hw, rfl⟩ := (expr_substitute hsub).1 hz
  split
  · rw [Expr.replaceChild, Expr.isNaN_mapChildren, h x w hw]
  · exact h x w hw

/-- One subexpression in the place of an equal one changes neither trees nor comparisons. -/
theorem Equal.substitute (hacyclic : g.Acyclic) (hnan : g.NoNaN) (he : e ∈ g.exprs.ids)
    (h : g.Equal old new) : Returns (g.substitute e old new) fun g' => g'.Acyclic ∧ g'.NoNaN ∧
      ∀ a ∈ g.exprs.ids, g'.erased a = g.erased a ∧
        ∀ b ∈ g.exprs.ids, g'.equal a b = g.equal a b := by
  obtain ⟨k, hk⟩ := Arena.mem_ids.1 he
  obtain ⟨g', hsub⟩ := modifyExpr_returns (Expr.replaceChild old new) hk
  have hsame : ∀ t, g.erased old = .ok t → g.erased new = .ok t := fun t ht =>
    (h.erased_eq hacyclic hnan).symm.trans ht
  have hnan' : g'.NoNaN := hnan.substitute hsub
  refine ⟨g', hsub, hacyclic.substitute hsub hsame, hnan', fun a ha => ?_⟩
  obtain ⟨t, ht⟩ := hacyclic.erased ha
  have ht' : g'.erased a = .ok t := erased_substitute hsub hsame ht
  refine ⟨ht'.trans ht.symm, fun b hb => ?_⟩
  obtain ⟨u, hu⟩ := hacyclic.erased hb
  obtain ⟨r, hr, hiff⟩ := equal_returns hnan ht hu
  obtain ⟨r', hr', hiff'⟩ := equal_returns hnan' ht' (erased_substitute hsub hsame hu)
  rw [hr, hr', Bool.eq_iff_iff.2 (hiff'.trans hiff.symm)]

/-! ## Variables -/

/-- The tree of an expression has the labels of its nodes, in the same order. -/
theorem labels_of_nodesIn {l : List (ExprId × ExprNode)} (h : g.nodesIn n e = .ok l)
    (ht : g.erased e = .ok t) : l.map (fun p => p.2.expr.label) = t.labels := by
  induction n generalizing e l t with
  | zero => cases h
  | succ n ih =>
    obtain ⟨k, ls, hk, hls, rfl⟩ := nodesIn_succ.1 h
    obtain ⟨x, ts, hx, hts, rfl⟩ := erased_eq_ok.1 ht
    rw [expr_eq_ok.2 ⟨k, hk, rfl⟩] at hx
    cases hx
    rw [ErasedTree.labels, List.map_cons, List.map_flatten]
    congr 1
    clear h ht hk
    generalize k.expr.children = cs at hls hts
    induction hls generalizing ts with
    | nil =>
      cases hts
      rfl
    | cons hl _ ihs =>
      cases hts with
      | cons ht hts => rw [List.map_cons, List.flatten_cons, List.flatMap_cons, ih hl ht, ihs _ hts]

/-- The variables of an expression, in the order of its occurrences, can be read off its tree. -/
theorem refsIn_returns (ht : g.erased e = .ok t) : Returns (g.refsIn e) fun refs =>
    refs.map (fun p => p.2.var) = t.labels.filterMap NodeLabel.local? := by
  obtain ⟨l, hl⟩ := (grounded_of_erased ht).nodes
  simp only [refsIn, hl, Checked.ok_bind, Returns.pure_iff]
  rw [← labels_of_nodesIn hl ht, List.map_filterMap, List.filterMap_map]
  refine List.filterMap_congr fun p _ => ?_
  simp [Expr.local?_label, Expr.local?, Function.comp_def]

/-! ## Equality of trees -/

/-- **Structural equality is equality of trees.** Where expressions have no cycles and every
floating-point constant is a number, the comparison of two expressions comes to a result, which says
whether their trees of labels are equal. So it is an equivalence. A node is equal to one with equal
subexpressions in the places of its own, and putting a subexpression in the place of an equal one
changes the tree of no expression, however far above, and the outcome of no comparison. Equal
expressions mention the same variables in the same order. -/
theorem equal_iff_erased (hacyclic : g.Acyclic) (hnan : g.NoNaN) :
    (∀ a ∈ g.exprs.ids, ∀ b ∈ g.exprs.ids,
      Returns (g.erased a) fun t => Returns (g.erased b) fun u =>
        Returns (g.equal a b) fun r => r = true ↔ t = u) ∧
    Equivalence g.Equal ∧
    (∀ e f z σ, g.expr e = .ok z → g.expr f = .ok (z.mapChildren σ) →
      (∀ c ∈ z.children, g.Equal c (σ c)) → g.Equal e f) ∧
    (∀ e ∈ g.exprs.ids, ∀ old new, g.Equal old new →
      Returns (g.substitute e old new) fun g' => g'.Acyclic ∧ g'.NoNaN ∧
        ∀ a ∈ g.exprs.ids, g'.erased a = g.erased a ∧
          ∀ b ∈ g.exprs.ids, g'.equal a b = g.equal a b) ∧
    ∀ a ∈ g.exprs.ids, ∀ b, g.Equal a b →
      Returns (g.refsIn a) fun refs => Returns (g.refsIn b) fun refs' =>
        refs.map (fun p => p.2.var) = refs'.map (fun p => p.2.var) := by
  refine ⟨fun a ha b hb => ?_, Equal.equivalence hacyclic hnan,
    fun e f z σ he hf h => .of_mapChildren hacyclic hnan he hf h,
    fun e he old new h => h.substitute hacyclic hnan he, fun a ha b h => ?_⟩
  · obtain ⟨t, ht⟩ := hacyclic.erased ha
    obtain ⟨u, hu⟩ := hacyclic.erased hb
    exact ⟨t, ht, u, hu, equal_returns hnan ht hu⟩
  · obtain ⟨t, ht⟩ := hacyclic.erased ha
    obtain ⟨refs, hrefs, hvars⟩ := refsIn_returns ht
    obtain ⟨refs', hrefs', hvars'⟩ :=
      refsIn_returns ((h.erased_eq hacyclic hnan).symm.trans ht)
    exact ⟨refs, hrefs, refs', hrefs', hvars.trans hvars'.symm⟩

/-- Two calls of a method, `o.put(0.0)` and `o.put(-0.0)`, the static call `put(o, -0.0)` with the
subexpressions of the second one, and a sum that uses the first one twice. -/
def twoCalls : Graph where
  stats := .empty
  edges := .empty
  exprs :=
    let put (receiver : Option ExprId) (arguments : List ExprId) : Expr :=
      .call ⟨"Cell", "put", "(D)I", receiver, arguments⟩
    ⟨#[
      ⟨.var ⟨⟨1, 0⟩, ⟨.object none, 0⟩, true, false, none⟩, .single 1⟩,
      ⟨.const ⟨.double, 0⟩ (.float ⟨0⟩), .single 2⟩,
      ⟨put (some ⟨0⟩) [⟨1⟩], .single 3⟩,
      ⟨.var ⟨⟨1, 0⟩, ⟨.unknown, 0⟩, false, true, none⟩, .single 7⟩,
      ⟨.const ⟨.double, 0⟩ (.float ⟨0x8000000000000000⟩), .empty⟩,
      ⟨put (some ⟨3⟩) [⟨4⟩], .single 9⟩,
      ⟨put none [⟨3⟩, ⟨4⟩], .single 9⟩,
      ⟨.apply .add [⟨2⟩, ⟨2⟩], .empty⟩]⟩

/-- The calls on an object are equal, the static call is equal to neither, and the sum of the first
one with itself may as well use the second one. -/
theorem equal_iff_erased_twoCalls : twoCalls.Acyclic ∧ twoCalls.NoNaN ∧
    twoCalls.Equal ⟨2⟩ ⟨5⟩ ∧ ¬ twoCalls.Equal ⟨5⟩ ⟨6⟩ ∧
    (Returns (twoCalls.erased ⟨5⟩) fun t => Returns (twoCalls.erased ⟨6⟩) fun u =>
      Returns (twoCalls.equal ⟨5⟩ ⟨6⟩) fun r => r = true ↔ t = u) ∧
    (Returns (twoCalls.substitute ⟨7⟩ ⟨2⟩ ⟨5⟩) fun g' => g'.Acyclic ∧ g'.NoNaN ∧
      ∀ a ∈ twoCalls.exprs.ids, g'.erased a = twoCalls.erased a ∧
        ∀ b ∈ twoCalls.exprs.ids, g'.equal a b = twoCalls.equal a b) ∧
    Returns (twoCalls.refsIn ⟨2⟩) fun refs => Returns (twoCalls.refsIn ⟨5⟩) fun refs' =>
      refs.map (fun p => p.2.var) = refs'.map (fun p => p.2.var) := by
  have hacyclic : twoCalls.Acyclic := by decide +kernel
  have hnan : twoCalls.NoNaN := by decide +kernel
  have hcalls : twoCalls.Equal ⟨2⟩ ⟨5⟩ := by decide +kernel
  obtain ⟨htrees, -, -, hsub, hvars⟩ := equal_iff_erased hacyclic hnan
  exact ⟨hacyclic, hnan, hcalls, by decide +kernel, htrees ⟨5⟩ (by decide) ⟨6⟩ (by decide),
    hsub ⟨7⟩ (by decide) ⟨2⟩ ⟨5⟩ hcalls, hvars ⟨2⟩ (by decide) ⟨5⟩ hcalls⟩

end Graph

end Decompiler

import Decompiler.Proofs.Graph.Forest

/-!
# Trees of expressions

Which expressions lie below which, and which offsets a tree covers.

* `Graph.Grounded`: an expression leads to no missing node and to no cycle. Exactly then its tree
  can be listed (`Graph.Grounded.nodes`, `Graph.grounded_of_nodes`).
* `Graph.Covers`: an offset belongs to an expression or to one below it.
* `Graph.covers_absorb`: what an expression covers is covered by the one that absorbs it.
-/

namespace Decompiler.Graph

open Relation

variable {g g' : Graph} {e c x target source : ExprId} {o : ℕ}

/-- `c` is a direct subexpression of `e`. -/
def SubOf (g : Graph) (e c : ExprId) : Prop := ∃ n, g.node e = .ok n ∧ c ∈ n.expr.children

/-- `x` is `e` or lies below it. -/
def Reaches (g : Graph) : ExprId → ExprId → Prop := ReflTransGen g.SubOf

/-- All that an expression leads to is there, and it leads to nothing twice on one way. -/
inductive Grounded (g : Graph) : ExprId → Prop
  /-- A node whose subexpressions are grounded. -/
  | node {e : ExprId} {n : ExprNode} (h : g.node e = .ok n)
      (below : ∀ c ∈ n.expr.children, Grounded g c) : Grounded g e

/-- The offset is one of `e` or of an expression below it. -/
def Covers (g : Graph) (e : ExprId) (o : ℕ) : Prop :=
  ∃ x n, g.Reaches e x ∧ g.node x = .ok n ∧ o ∈ n.offsets.toList

theorem subOf_iff {n : ExprNode} (h : g.node e = .ok n) : g.SubOf e c ↔ c ∈ n.expr.children := by
  constructor
  · rintro ⟨n', h', hc⟩
    rw [h] at h'
    cases h'
    exact hc
  · exact fun hc => ⟨n, h, hc⟩

namespace Grounded

theorem exists_node (h : g.Grounded e) : ∃ n, g.node e = .ok n := by
  cases h with
  | node h _ => exact ⟨_, h⟩

theorem sub (h : g.Grounded e) (hc : g.SubOf e c) : g.Grounded c := by
  cases h with
  | node h below => exact below c ((subOf_iff h).1 hc)

theorem of_reaches (h : g.Grounded e) (hx : g.Reaches e x) : g.Grounded x := by
  induction hx with
  | refl => exact h
  | tail _ hc ih => exact ih.sub hc

theorem acyclic (h : g.Grounded e) : ¬ TransGen g.SubOf e e := by
  induction h with
  | @node e n h _ ih =>
    intro hcycle
    obtain ⟨c, hec, hce⟩ := TransGen.head'_iff.1 hcycle
    exact ih c ((subOf_iff h).1 hec) (.tail' hce hec)

/-- Induction down a tree, with a count of levels that the number of expressions bounds. -/
theorem walk {P : ℕ → ExprId → Prop}
    (step : ∀ n e m, g.Grounded e → g.node e = .ok m → (∀ c ∈ m.expr.children, P n c) →
      P (n + 1) e)
    (he : g.Grounded e) {n : ℕ} (hn : g.exprs.size ≤ n) : P n e := by
  refine walk_of_acyclic (R := g.SubOf)
    (fun e he => he.exists_node.elim fun _ hn => Arena.get_lt hn) (fun _ _ he hc => he.sub hc)
    (fun _ he => he.acyclic) (fun n e he hbelow => ?_) he hn
  obtain ⟨m, hm⟩ := he.exists_node
  exact step n e m he hm fun c hc => hbelow c ⟨m, hm, hc⟩

end Grounded

/-! ## Listings of trees -/

theorem nodesIn_succ {n : ℕ} {l : List (ExprId × ExprNode)} : g.nodesIn (n + 1) e = .ok l ↔
    ∃ m ls, g.node e = .ok m ∧
      List.Forall₂ (fun c lc => g.nodesIn n c = .ok lc) m.expr.children ls ∧
      l = (e, m) :: ls.flatten := by
  simp only [nodesIn, Checked.bind_eq_ok, Checked.pure_eq_ok, Checked.mapM_eq_ok_iff]
  constructor
  · rintro ⟨m, hm, ls, hls, rfl⟩
    exact ⟨m, ls, hm, hls, rfl⟩
  · rintro ⟨m, ls, hm, hls, rfl⟩
    exact ⟨m, hm, ls, hls, rfl⟩

theorem mem_nodesIn {n : ℕ} {l : List (ExprId × ExprNode)} (h : g.nodesIn n e = .ok l)
    (p : ExprId × ExprNode) : p ∈ l ↔ g.Reaches e p.1 ∧ g.node p.1 = .ok p.2 := by
  induction n generalizing e l p with
  | zero => cases h
  | succ n ih =>
    obtain ⟨m, ls, hm, hls, rfl⟩ := nodesIn_succ.1 h
    rw [List.mem_cons, mem_flatten_of_forall₂ hls fun c lc hc => ih hc]
    constructor
    · rintro (rfl | ⟨c, hc, hx, hn⟩)
      · exact ⟨.refl, hm⟩
      · exact ⟨ReflTransGen.head ⟨m, hm, hc⟩ hx, hn⟩
    · rintro ⟨hx, hn⟩
      rcases ReflTransGen.cases_head hx with heq | ⟨c, hc, hx⟩
      · left
        rw [← heq, hm] at hn
        exact Prod.ext heq.symm (Except.ok.inj hn).symm
      · exact .inr ⟨c, (subOf_iff hm).1 hc, hx, hn⟩

theorem grounded_of_nodesIn {n : ℕ} {l : List (ExprId × ExprNode)} (h : g.nodesIn n e = .ok l) :
    g.Grounded e := by
  induction n generalizing e l with
  | zero => cases h
  | succ n ih =>
    obtain ⟨m, ls, hm, hls, rfl⟩ := nodesIn_succ.1 h
    refine .node hm fun c hc => ?_
    obtain ⟨lc, -, hlc⟩ := Checked.exists_of_mem hls hc
    exact ih hlc

theorem grounded_of_nodes {l : List (ExprId × ExprNode)} (h : g.nodes e = .ok l) : g.Grounded e :=
  grounded_of_nodesIn h

/-- The tree of a grounded expression can be listed. -/
theorem Grounded.nodes (h : g.Grounded e) : ∃ l, g.nodes e = .ok l := by
  refine h.walk (P := fun n e => ∃ l, g.nodesIn n e = .ok l) (fun n e m _ hm hbelow => ?_)
    (Nat.le_succ _)
  have hls : Returns (m.expr.children.mapM (g.nodesIn n))
      (List.Forall₂ (fun _ _ => True) m.expr.children) :=
    Returns.mapM fun c hc => (hbelow c hc).imp fun _ hl => ⟨hl, trivial⟩
  obtain ⟨ls, hls, -⟩ := hls
  exact ⟨_, nodesIn_succ.2 ⟨m, ls, hm, Checked.mapM_eq_ok_iff.1 hls, rfl⟩⟩

/-- Whether two expressions are equal can be told. -/
theorem Grounded.equal {y : ExprId} (hx : g.Grounded x) (hy : g.Grounded y) :
    Returns (g.equal x y) fun _ => True := by
  refine hx.walk (P := fun n x => ∀ y, g.Grounded y → Returns (g.equalIn n x y) fun _ => True)
    (fun n x m _ hm hbelow y hy => ?_) (Nat.le_succ_of_le (Nat.le_mul_self _)) y hy
  obtain ⟨k, hk⟩ := hy.exists_node
  rw [equalIn]
  split
  · exact Returns.pure_iff.2 trivial
  · simp only [expr_eq_ok.2 ⟨m, hm, rfl⟩, expr_eq_ok.2 ⟨k, hk, rfl⟩, Checked.ok_bind]
    split
    · refine Returns.allM fun p hp => ?_
      obtain ⟨h₁, h₂⟩ := List.of_mem_zip hp
      exact hbelow p.1 h₁ p.2 (hy.sub ⟨k, hk, h₂⟩)
    · exact Returns.pure_iff.2 trivial

/-! ## Offsets of trees -/

theorem mem_foldl_union {α : Type} (f : α → Offsets) (l : List α) (init : Offsets) :
    o ∈ (l.foldl (fun u a => u.union (f a)) init).toList ↔
      o ∈ init.toList ∨ ∃ a ∈ l, o ∈ (f a).toList := by
  induction l generalizing init with
  | nil => simp
  | cons a l ih =>
    rw [List.foldl_cons, ih, Offsets.mem_union, or_assoc]
    simp

theorem mem_subtreeOffsets {u : Offsets} (h : g.subtreeOffsets e = .ok u) :
    o ∈ u.toList ↔ g.Covers e o := by
  simp only [subtreeOffsets, Checked.bind_eq_ok, Checked.pure_eq_ok] at h
  obtain ⟨l, hl, rfl⟩ := h
  rw [mem_foldl_union fun n : ExprId × ExprNode => n.2.offsets]
  constructor
  · rintro (h | ⟨p, hp, ho⟩)
    · cases h
    · obtain ⟨hx, hn⟩ := (mem_nodesIn hl p).1 hp
      exact ⟨p.1, p.2, hx, hn, ho⟩
  · rintro ⟨x, n, hx, hn, ho⟩
    exact .inr ⟨(x, n), (mem_nodesIn hl (x, n)).2 ⟨hx, hn⟩, ho⟩

theorem Grounded.subtreeOffsets (h : g.Grounded e) : ∃ u, g.subtreeOffsets e = .ok u := by
  obtain ⟨l, hl⟩ := h.nodes
  exact ⟨_, by simp only [Graph.subtreeOffsets, hl]; rfl⟩

theorem covers_of_own {n : ExprNode} (hn : g.node e = .ok n) (ho : o ∈ n.offsets.toList) :
    g.Covers e o := ⟨e, n, .refl, hn, ho⟩

theorem Covers.up (h : g.Covers x o) (hx : g.Reaches e x) : g.Covers e o := by
  obtain ⟨y, n, hy, hn, ho⟩ := h
  exact ⟨y, n, hx.trans hy, hn, ho⟩

/-- What an expression covers it has itself, or one of its subexpressions covers it. -/
theorem covers_iff {n : ExprNode} (hn : g.node e = .ok n) :
    g.Covers e o ↔ o ∈ n.offsets.toList ∨ ∃ c ∈ n.expr.children, g.Covers c o := by
  constructor
  · rintro ⟨x, m, hx, hm, ho⟩
    rcases ReflTransGen.cases_head hx with rfl | ⟨c, hc, hx⟩
    · rw [hn] at hm
      cases hm
      exact .inl ho
    · exact .inr ⟨c, (subOf_iff hn).1 hc, x, m, hx, hm, ho⟩
  · rintro (ho | ⟨c, hc, hco⟩)
    · exact covers_of_own hn ho
    · exact hco.up (.single ⟨n, hn, hc⟩)

namespace Grows

variable (h : Grows g g')

include h

theorem subOf (hc : g.SubOf e c) : g'.SubOf e c := by
  obtain ⟨n, hn, hc⟩ := hc
  obtain ⟨n', hn', he, -⟩ := h e n hn
  exact ⟨n', hn', he ▸ hc⟩

theorem reaches (hx : g.Reaches e x) : g'.Reaches e x :=
  ReflTransGen.mono (fun _ _ => h.subOf) _ _ hx

theorem grounded (he : g.Grounded e) : g'.Grounded e := by
  induction he with
  | @node e n hn _ ih =>
    obtain ⟨n', hn', hexpr, -⟩ := h e n hn
    exact .node hn' fun c hc => ih c (hexpr ▸ hc)

theorem covers (ho : g.Covers e o) : g'.Covers e o := by
  obtain ⟨x, n, hx, hn, ho⟩ := ho
  obtain ⟨n', hn', -, hoff⟩ := h x n hn
  exact ⟨x, n', h.reaches hx, hn', hoff o ho⟩

end Grows

/-! ## Graphs without cycles of expressions -/

/-- Every expression is grounded. -/
def Acyclic (g : Graph) : Prop := ∀ e n, g.node e = .ok n → g.Grounded e

instance (g : Graph) : Decidable g.Acyclic :=
  decidable_of_iff (∀ e ∈ g.exprs.ids, Returns (g.nodes e) fun _ => True) <| by
    constructor
    · intro h e k hk
      obtain ⟨l, hl, -⟩ := h e (Arena.mem_ids.2 ⟨k, hk⟩)
      exact grounded_of_nodes hl
    · intro h e he
      obtain ⟨k, hk⟩ := Arena.mem_ids.1 he
      exact (h e k hk).nodes.imp fun _ hl => ⟨hl, trivial⟩

theorem Acyclic.of_exprs_eq (h : g.Acyclic) (he : g'.exprs = g.exprs) : g'.Acyclic := by
  intro e n hn
  refine (Grows.of_exprs_eq he).grounded (h e n ?_)
  rwa [node, ← he]

theorem Acyclic.addOffsets {offsets : Offsets} (h : g.Acyclic)
    (h' : g.addOffsets e offsets = .ok g') : g'.Acyclic := by
  obtain ⟨n, hn, hx, -⟩ := node_addOffsets h'
  intro x m hm
  rw [hx] at hm
  refine (Grows.addOffsets h').grounded ?_
  split at hm
  · next hex => exact hex ▸ h e n hn
  · exact h x m hm

theorem Acyclic.absorb (h : g.Acyclic) (h' : g.absorb target source = .ok g') : g'.Acyclic := by
  simp only [Graph.absorb, Checked.bind_eq_ok] at h'
  obtain ⟨u, -, h'⟩ := h'
  exact h.addOffsets h'

theorem Acyclic.absorb? {source : Option ExprId} (h : g.Acyclic)
    (h' : g.absorb? target source = .ok g') : g'.Acyclic := by
  cases source with
  | none => exact Checked.pure_eq_ok.1 h' ▸ h
  | some source => exact h.absorb h'

/-! ## Absorbing and negating -/

theorem absorb_frame (h : g.absorb target source = .ok g') :
    g'.stats = g.stats ∧ g'.edges = g.edges := by
  simp only [absorb, Checked.bind_eq_ok] at h
  obtain ⟨u, -, h⟩ := h
  obtain ⟨-, -, -, hs, he, -⟩ := node_addOffsets h
  exact ⟨hs, he⟩

/-- What the source covers is covered by the expression that absorbs it. -/
theorem covers_absorb (h : g.absorb target source = .ok g') (ho : g.Covers source o) :
    g'.Covers target o := by
  simp only [absorb, Checked.bind_eq_ok] at h
  obtain ⟨u, hu, h⟩ := h
  obtain ⟨n, -, hx, -⟩ := node_addOffsets h
  refine covers_of_own ((hx target).trans (if_pos rfl)) ?_
  exact Offsets.mem_union.2 (.inr ((mem_subtreeOffsets hu).2 ho))

theorem absorb?_frame {source : Option ExprId} (h : g.absorb? target source = .ok g') :
    g'.stats = g.stats ∧ g'.edges = g.edges ∧ Grows g g' := by
  cases source with
  | none =>
    obtain rfl := Checked.pure_eq_ok.1 h
    exact ⟨rfl, rfl, .refl g⟩
  | some source => exact ⟨(absorb_frame h).1, (absorb_frame h).2, .absorb h⟩

/-- `new` is the negation of `old`: one of them is the other one under a negation. -/
def Negates (g : Graph) (old new : ExprId) : Prop :=
  g.expr old = .ok (.apply .boolNot [new]) ∨ g.expr new = .ok (.apply .boolNot [old])

theorem negate_frame {condition new : ExprId} (h : g.negate condition = .ok (g', new)) :
    g'.stats = g.stats ∧ g'.edges = g.edges ∧ Grows g g' := by
  simp only [negate, Checked.bind_eq_ok] at h
  obtain ⟨n, hn, h⟩ := h
  split at h
  · simp only [Checked.bind_eq_ok, Checked.pure_eq_ok, Prod.mk.injEq] at h
    obtain ⟨g₁, h₁, rfl, rfl⟩ := h
    obtain ⟨-, -, -, hs, he, -⟩ := node_addOffsets h₁
    exact ⟨hs, he, .addOffsets h₁⟩
  · obtain ⟨rfl, -⟩ := Prod.mk.inj (Checked.pure_eq_ok.1 h)
    exact ⟨rfl, rfl, .allocExpr g _ _⟩

theorem negate_negates {condition new : ExprId} (h : g.negate condition = .ok (g', new)) :
    Negates g' condition new := by
  have hgrow := (negate_frame h).2.2
  simp only [negate, Checked.bind_eq_ok] at h
  obtain ⟨n, hn, h⟩ := h
  split at h
  · simp only [Checked.bind_eq_ok, Checked.pure_eq_ok, Prod.mk.injEq] at h
    obtain ⟨g₁, h₁, rfl, rfl⟩ := h
    exact .inl (hgrow.expr (expr_eq_ok.2 ⟨_, hn, rfl⟩))
  · obtain ⟨rfl, rfl⟩ := Prod.mk.inj (Checked.pure_eq_ok.1 h)
    exact .inr (expr_eq_ok.2 ⟨_, Arena.get_alloc_new _ _, rfl⟩)

theorem grounded_negate {condition new : ExprId} (h : g.negate condition = .ok (g', new))
    (hc : g.Grounded condition) : g'.Grounded new := by
  have hgrow := (negate_frame h).2.2
  simp only [negate, Checked.bind_eq_ok] at h
  obtain ⟨n, hn, h⟩ := h
  split at h
  · simp only [Checked.bind_eq_ok, Checked.pure_eq_ok, Prod.mk.injEq] at h
    obtain ⟨g₁, h₁, rfl, rfl⟩ := h
    exact hgrow.grounded (hc.sub ⟨_, hn, by simp [Expr.children]⟩)
  · obtain ⟨rfl, rfl⟩ := Prod.mk.inj (Checked.pure_eq_ok.1 h)
    refine .node (Arena.get_alloc_new _ _) fun c hmem => ?_
    obtain rfl := List.mem_singleton.1 hmem
    exact hgrow.grounded hc

theorem Acyclic.negate {condition new : ExprId} (h : g.Acyclic)
    (h' : g.negate condition = .ok (g', new)) : g'.Acyclic := by
  have hground : g'.Grounded new := by
    obtain ⟨n, hn, -⟩ := Checked.bind_eq_ok.1 h'
    exact grounded_negate h' (h condition n hn)
  have hgrow := (negate_frame h').2.2
  simp only [Graph.negate, Checked.bind_eq_ok] at h'
  obtain ⟨n, hn, h'⟩ := h'
  split at h'
  · simp only [Checked.bind_eq_ok, Checked.pure_eq_ok, Prod.mk.injEq] at h'
    obtain ⟨g₁, h₁, rfl, rfl⟩ := h'
    exact h.addOffsets h₁
  · obtain ⟨rfl, rfl⟩ := Prod.mk.inj (Checked.pure_eq_ok.1 h')
    intro x m hm
    change (g.exprs.alloc _).1.get x = .ok m at hm
    rw [Arena.get_alloc] at hm
    split at hm
    · next hx => exact hx ▸ hground
    · exact hgrow.grounded (h x m hm)

/-- A negation covers what the condition covers: where a negation is taken off, its offsets go to
what was below it. -/
theorem covers_negate {condition new : ExprId} (h : g.negate condition = .ok (g', new))
    (ho : g.Covers condition o) : g'.Covers new o := by
  have hgrow := (negate_frame h).2.2
  simp only [negate, Checked.bind_eq_ok] at h
  obtain ⟨n, hn, h⟩ := h
  split at h
  · next inner offsets =>
    simp only [Checked.bind_eq_ok, Checked.pure_eq_ok, Prod.mk.injEq] at h
    obtain ⟨g₁, h₁, rfl, rfl⟩ := h
    obtain ⟨m, -, hx, -⟩ := node_addOffsets h₁
    rcases (covers_iff hn).1 ho with ho | ⟨c, hc, ho⟩
    · refine covers_of_own ((hx inner).trans (if_pos rfl)) ?_
      exact Offsets.mem_union.2 (.inr ho)
    · obtain rfl := List.mem_singleton.1 hc
      exact hgrow.covers ho
  · obtain ⟨rfl, rfl⟩ := Prod.mk.inj (Checked.pure_eq_ok.1 h)
    refine (hgrow.covers ho).up (.single ⟨_, Arena.get_alloc_new _ _, ?_⟩)
    simp [Expr.children]

end Decompiler.Graph

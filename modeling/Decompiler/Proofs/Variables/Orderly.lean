import Decompiler.Proofs.Graph.WellFormed

/-!
# Graphs whose variables can be settled

Settling variables changes occurrences of variables and lists of expressions, but neither the tree
of statements nor the form of any other expression.

* `Graph.Revises`: such changes. They are put together by `Graph.Revises.trans`.
* `Graph.Legible`: the statements of the tree and their expressions can be read.
* `Graph.Orderly`: the expressions of the tree are trees of their own, and no two of them share a
  node. This is kept by revisions that take expressions out of the tree or put new ones in
  (`Graph.Orderly.of_revises`).
-/

namespace Decompiler

open Relation

/-! ## One node -/

namespace Expr

/-- The node without types and debug entries. -/
def outline : Expr → Expr
  | var v => var { v with ty := .unknown, entry := none }
  | const _ value => const .unknown value
  | e => e

/-- The node without all that is special to an occurrence of a variable. -/
def shape (e : Expr) : Expr := e.outline.mapVar fun _ => ⟨⟨0, 0⟩, .unknown, false, false, none⟩

variable {x y : Expr} {v : VarRef} {left right : ExprId}

theorem shape_eq_of_outline (h : x.outline = y.outline) : x.shape = y.shape := by
  rw [shape, h, shape]

theorem children_eq_of_shape (h : x.shape = y.shape) : x.children = y.children := by
  have key : ∀ x : Expr, x.shape.children = x.children := by
    intro x
    cases x <;> rfl
  rw [← key, h, key]

theorem local?_outline (x : Expr) : x.outline.local? = x.local? := by
  cases x <;> rfl

theorem local?_eq_of_outline (h : x.outline = y.outline) : x.local? = y.local? := by
  rw [← local?_outline, h, local?_outline]

theorem eq_assign_of_shape (h : x.shape = .assign left right) : x = .assign left right := by
  cases x <;> first | exact h | cases h

theorem eq_var_of_shape (h : x.shape = (var v).shape) : ∃ w, x = .var w := by
  cases x <;> first | exact ⟨_, rfl⟩ | cases h

/-- Nodes with one outline are occurrences of one variable, if they are occurrences. -/
theorem eq_var_of_outline (h : x.outline = (var v).outline) :
    ∃ w, x = .var w ∧ w.var = v.var ∧ w.isDefinition = v.isDefinition := by
  obtain ⟨w, rfl⟩ := eq_var_of_shape (shape_eq_of_outline h)
  simp only [outline, var.injEq, VarRef.mk.injEq] at h
  exact ⟨w, rfl, h.1, h.2.2.1⟩

theorem mapVar_shape {f : VarRef → VarRef} : (x.mapVar f).shape = x.shape := by
  cases x <;> rfl

end Expr

/-! ## One statement -/

/-- The statement without its expressions, its declarations and its control edges. -/
def Stat.skeleton (s : Stat) : Stat where
  kind := match s.kind with
    | .block _ => .block []
    | kind => kind
  parent := s.parent
  first := s.first
  children := s.children
  declarations := []
  successors := []
  predecessors := []
  labels := s.labels

namespace Stat

variable {s t : Stat} {exprs : List ExprId}

theorem skeleton_links (h : s.skeleton = t.skeleton) :
    s.parent = t.parent ∧ s.first = t.first ∧ s.children = t.children ∧ s.labels = t.labels := by
  simp only [skeleton, mk.injEq] at h
  exact ⟨h.2.1, h.2.2.1, h.2.2.2.1, h.2.2.2.2.2.2.2⟩

theorem eq_block_of_skeleton (h : s.skeleton = t.skeleton) (hs : s.kind = .block exprs) :
    ∃ exprs', t.kind = .block exprs' := by
  have hkind := congrArg Stat.kind h
  simp only [skeleton, hs] at hkind
  split at hkind
  · next exprs' _ hk => exact ⟨_, hk⟩
  · exact ⟨[], hkind.symm⟩

/-- What a statement does itself is among the expressions it evaluates. -/
theorem mem_exprs_of_items {e : ExprId} (h : .expr e ∈ s.items) : e ∈ s.kind.exprs := by
  rw [← ownExprs_eq]
  have hmem : e ∈ s.items.filterMap Item.expr? := List.mem_filterMap.2 ⟨.expr e, h, rfl⟩
  unfold ownExprs
  split <;> simp only [List.mem_append, hmem, true_or]

/-- A statement does all that its children do, unless it is a leaf. -/
theorem mem_items_of_children {st : Stat} {c : StatId} (hc : c ∈ st.children)
    (hleaf : ∀ exprs, st.kind = .block exprs → st.children = []) : .stat c ∈ st.items := by
  obtain ⟨kind, parent, first, children, declarations, successors, predecessors, labels⟩ := st
  have hinside : Item.stat c ∈ children.map Item.stat := List.mem_map_of_mem hc
  have hhead : ∀ head : List Item, Item.stat c ∈
      (children.map Item.stat).take 1 ++ head ++ (children.map Item.stat).drop 1 := by
    intro head
    rw [← List.take_append_drop 1 (children.map Item.stat)] at hinside
    simp only [List.mem_append] at hinside ⊢
    exact hinside.imp_left .inl
  cases kind with
  | block exprs => rw [hleaf exprs rfl] at hc; cases hc
  | branch _ => exact hhead _
  | switch _ _ => exact hhead _
  | synchronized _ _ => exact hhead _
  | loop l => exact List.mem_append_left _ (List.mem_append_right _ hinside)
  | _ => exact hinside

end Stat

namespace Graph

variable {g g' g'' : Graph} {s t : StatId} {e x y : ExprId} {touched touched' : ExprId → Prop}

/-! ## Revisions -/

/-- Statements keep their place in the tree, and expressions their form. Apart from types and debug
entries only occurrences that are `touched` change. -/
structure Revises (g g' : Graph) (touched : ExprId → Prop) : Prop where
  /-- Edges are left alone. -/
  edges : g'.edges = g.edges
  /-- Statements keep all but their expressions. -/
  stats : ∀ s st, g.stat s = .ok st → Returns (g'.stat s) fun st' => st'.skeleton = st.skeleton
  /-- Expressions keep their form. -/
  exprs : ∀ e x, g.expr e = .ok x → Returns (g'.expr e) fun x' =>
    x'.shape = x.shape ∧ (¬ touched e → x'.outline = x.outline)

namespace Revises

theorem refl (g : Graph) : Revises g g touched :=
  ⟨rfl, fun _ st hst => ⟨st, hst, rfl⟩, fun _ x hx => ⟨x, hx, rfl, fun _ => rfl⟩⟩

theorem trans (h : Revises g g' touched) (h' : Revises g' g'' touched) :
    Revises g g'' touched := by
  refine ⟨h'.edges.trans h.edges, fun s st hst => ?_, fun e x hx => ?_⟩
  · obtain ⟨st', hst', heq⟩ := h.stats s st hst
    exact (h'.stats s st' hst').mono fun _ heq' => heq'.trans heq
  · obtain ⟨x', hx', hshape, houtline⟩ := h.exprs e x hx
    refine (h'.exprs e x' hx').mono fun _ ⟨hshape', houtline'⟩ =>
      ⟨hshape'.trans hshape, fun he => ?_⟩
    exact (houtline' he).trans (houtline he)

theorem mono (h : Revises g g' touched) (ht : ∀ e, touched e → touched' e) :
    Revises g g' touched' := by
  refine ⟨h.edges, h.stats, fun e x hx => (h.exprs e x hx).mono fun _ ⟨hshape, houtline⟩ => ?_⟩
  exact ⟨hshape, fun he => houtline fun he' => he (ht e he')⟩

theorem of_grows (hs : g'.stats = g.stats) (he : g'.edges = g.edges) (h : Grows g g') :
    Revises g g' touched := by
  refine ⟨he, fun s st hst => ⟨st, ?_, rfl⟩, fun e x hx => ⟨x, h.expr hx, rfl, fun _ => rfl⟩⟩
  rw [stat, hs]
  exact hst

theorem absorb (h : g.absorb x e = .ok g') : Revises g g' touched := by
  obtain ⟨u, -, h'⟩ := Checked.bind_eq_ok.1 h
  obtain ⟨-, -, -, hs, he, -⟩ := node_addOffsets h'
  exact of_grows hs he (.absorb h)

theorem modifyExpr {f : Expr → Expr} (h : g.modifyExpr e f = .ok g')
    (hf : ∀ x, (f x).shape = x.shape) (ht : ¬ touched e → ∀ x, (f x).outline = x.outline) :
    Revises g g' touched := by
  obtain ⟨-, -, -, hs, he, -⟩ := node_modifyExpr h
  refine ⟨he, fun s st hst => ⟨st, ?_, rfl⟩, fun y z hz => ⟨_, expr_modifyExpr h hz, ?_⟩⟩
  · rw [stat, hs]
    exact hst
  · split
    · next hy => exact ⟨hf z, fun hyt => ht (hy ▸ hyt) z⟩
    · exact ⟨rfl, fun _ => rfl⟩

theorem modifyStat {f : Stat → Stat} (h : g.modifyStat s f = .ok g')
    (hf : ∀ st, (f st).skeleton = st.skeleton) : Revises g g' touched := by
  obtain ⟨st, hst, ht, he, hx⟩ := stat_modifyStat h
  refine ⟨he, fun t tt htt => ?_, fun e x he => ⟨x, ?_, rfl, fun _ => rfl⟩⟩
  · rw [ht]
    split
    · next hs =>
      rw [← hs, hst] at htt
      cases htt
      exact ⟨_, rfl, hf st⟩
    · exact ⟨tt, htt, rfl⟩
  · rw [expr, node, hx]
    exact he

theorem subOf (h : Revises g g' touched) (he : ∃ z, g.expr e = .ok z) :
    g'.SubOf e x ↔ g.SubOf e x := by
  obtain ⟨z, hz⟩ := he
  obtain ⟨z', hz', hshape, -⟩ := h.exprs e z hz
  obtain ⟨n, hn, rfl⟩ := expr_eq_ok.1 hz
  obtain ⟨n', hn', rfl⟩ := expr_eq_ok.1 hz'
  rw [subOf_iff hn, subOf_iff hn', Expr.children_eq_of_shape hshape]

theorem grounded (h : Revises g g' touched) (he : g.Grounded e) : g'.Grounded e := by
  induction he with
  | @node e n hn _ ih =>
    obtain ⟨x', hx', hshape, -⟩ := h.exprs e n.expr (expr_eq_ok.2 ⟨n, hn, rfl⟩)
    obtain ⟨n', hn', rfl⟩ := expr_eq_ok.1 hx'
    refine .node hn' fun c hc => ih c ?_
    rwa [Expr.children_eq_of_shape hshape] at hc

theorem reaches (h : Revises g g' touched) (he : g.Grounded e) (hx : g'.Reaches e x) :
    g.Reaches e x := by
  induction hx with
  | refl => exact .refl
  | @tail y z _ hyz ih =>
    obtain ⟨n, hn⟩ := (he.of_reaches ih).exists_node
    exact ih.tail ((h.subOf ⟨n.expr, expr_eq_ok.2 ⟨n, hn, rfl⟩⟩).1 hyz)

theorem links (h : Revises g g' touched) {st : Stat} (hst : g.stat s = .ok st) :
    g'.links s = g.links s := by
  obtain ⟨st', hst', heq⟩ := h.stats s st hst
  obtain ⟨hparent, hfirst, hchildren, -⟩ := Stat.skeleton_links heq
  rw [links_of_stat hst, links_of_stat hst', hparent, hfirst, hchildren]

theorem isLabeled (h : Revises g g' touched) {st : Stat} (hst : g.stat s = .ok st) :
    g'.isLabeled s = g.isLabeled s := by
  obtain ⟨st', hst', heq⟩ := h.stats s st hst
  obtain ⟨-, -, -, hlabels⟩ := Stat.skeleton_links heq
  simp only [Graph.isLabeled, hst, hst', Checked.ok_bind, hlabels, edge, h.edges]

end Revises

/-! ## Orderly graphs -/

/-- The tree is well linked, and the expressions that its statements hold lead to no cycle. -/
structure Legible (g : Graph) : Prop where
  /-- The tree. -/
  forest : Forest g g.InTree
  /-- Expressions lead to no cycle. -/
  grounded : ∀ s e, g.InTree s → g.Holds s e → g.Grounded e

/-- The labels of statements can be read as well, and their expressions are trees that share nothing.
-/
structure Orderly (g : Graph) : Prop extends Legible g where
  /-- Control enters a statement through the first of its children. -/
  entries : ∀ s st, g.InTree s → g.stat s = .ok st → st.first = st.children.head?
  /-- Leaves have no children. -/
  leaves : ∀ s st exprs, g.InTree s → g.stat s = .ok st → st.kind = .block exprs → st.children = []
  /-- The labels of statements. -/
  labels : ∀ s, g.InTree s → ∃ b, g.isLabeled s = .ok b
  /-- No statement holds an expression twice. -/
  nodup : ∀ s held, g.InTree s → g.heldBy s = .ok held → held.Nodup
  /-- Two expressions share nothing. -/
  apart : ∀ s t e e' x, g.InTree s → g.InTree t → g.Holds s e → g.Holds t e' → g.Reaches e x →
    g.Reaches e' x → s = t ∧ e = e'

theorem Revises.inTree_iff (h : Revises g g' touched) (hF : Forest g g.InTree) :
    g'.InTree s ↔ g.InTree s :=
  hF.inTree_congr fun s hs => (hF.stat s hs).elim fun _ hst => h.links hst

theorem Revises.forest (h : Revises g g' touched) (hF : Forest g g.InTree) :
    Forest g' g'.InTree := by
  have hcongr := hF.congr fun s hs => (hF.stat s hs).elim fun _ hst => h.links hst
  have heq : g'.InTree = g.InTree := funext fun s => propext (h.inTree_iff hF)
  exact heq ▸ hcongr

/-- A graph stays legible as long as its statements hold nothing new. -/
theorem Legible.of_revises (o : g.Legible) (h : Revises g g' touched)
    (held : ∀ s e, g.InTree s → g'.Holds s e → g.Holds s e) : g'.Legible := by
  refine ⟨h.forest o.forest, fun s e hs he => ?_⟩
  have hs := (h.inTree_iff o.forest).1 hs
  exact h.grounded (o.grounded s e hs (held s e hs he))

/-- An orderly graph stays one, if what its statements hold is not more than before but for new
leaves, each in one place. -/
theorem Orderly.of_revises (o : g.Orderly) (h : Revises g g' touched) (new : StatId → ExprId → Prop)
    (each : ∀ s held, g.InTree s → g'.heldBy s = .ok held → held.Nodup)
    (held : ∀ s e, g.InTree s → g'.Holds s e → g.Holds s e ∨ new s e)
    (fresh : ∀ s e, new s e → (∀ n, g.node e ≠ .ok n) ∧
      Returns (g'.node e) fun n => n.expr.children = [])
    (once : ∀ s t e, new s e → new t e → s = t) : g'.Orderly := by
  have hTree : ∀ s, g'.InTree s → g.InTree s := fun s hs => (h.inTree_iff o.forest).1 hs
  have hself : ∀ s e x, new s e → g'.Reaches e x → x = e := by
    intro s e x hs hx
    obtain ⟨-, n, hn, hnil⟩ := fresh s e hs
    rcases ReflTransGen.cases_head hx with rfl | ⟨c, hc, -⟩
    · rfl
    · rw [subOf_iff hn, hnil] at hc
      cases hc
  have hold : ∀ s t e e' x, g.InTree s → g.Holds s e → g'.Reaches e x → new t e' →
      ¬ g'.Reaches e' x := by
    intro s t e e' x hs he hx hnew hx'
    obtain rfl := hself t e' x hnew hx'
    have hge := o.grounded s e hs he
    obtain ⟨n, hn⟩ := (hge.of_reaches (h.reaches hge hx)).exists_node
    exact (fresh t x hnew).1 n hn
  refine ⟨⟨h.forest o.forest, fun s e hs he => ?_⟩, fun s st' hs hst' => ?_,
    fun s st' exprs hs hst' hkind => ?_, fun s hs => ?_, fun s held hs hheld => ?_,
    fun s t e e' x hs ht he he' hx hx' => ?_⟩
  · rcases held s e (hTree s hs) he with he | hnew
    · exact h.grounded (o.grounded s e (hTree s hs) he)
    · obtain ⟨-, n, hn, hnil⟩ := fresh s e hnew
      refine .node hn fun c hc => ?_
      rw [hnil] at hc
      cases hc
  · obtain ⟨st, hst⟩ := o.forest.stat s (hTree s hs)
    obtain ⟨st'', hst'', heq⟩ := h.stats s st hst
    rw [hst'] at hst''
    cases hst''
    obtain ⟨-, hfirst, hchildren, -⟩ := Stat.skeleton_links heq
    rw [hfirst, hchildren, o.entries s st (hTree s hs) hst]
  · obtain ⟨st, hst⟩ := o.forest.stat s (hTree s hs)
    obtain ⟨st'', hst'', heq⟩ := h.stats s st hst
    rw [hst'] at hst''
    cases hst''
    obtain ⟨exprs', hkind'⟩ := Stat.eq_block_of_skeleton heq hkind
    rw [(Stat.skeleton_links heq).2.2.1]
    exact o.leaves s st exprs' (hTree s hs) hst hkind'
  · obtain ⟨st, hst⟩ := o.forest.stat s (hTree s hs)
    rw [h.isLabeled hst]
    exact o.labels s (hTree s hs)
  · exact each s held (hTree s hs) hheld
  · have hs := hTree s hs
    have ht := hTree t ht
    rcases held s e hs he with he | hnew <;> rcases held t e' ht he' with he' | hnew'
    · have hge := o.grounded s e hs he
      have hge' := o.grounded t e' ht he'
      exact o.apart s t e e' x hs ht he he' (h.reaches hge hx) (h.reaches hge' hx')
    · exact absurd hx' (hold s t e e' x hs he hx hnew')
    · exact absurd hx (hold t s e' e x ht he' hx' hnew)
    · obtain rfl := hself s e x hnew hx
      obtain rfl := hself t e' x hnew' hx'
      exact ⟨once s t x hnew hnew', rfl⟩

/-- Taking expressions out of lists keeps a graph orderly. -/
theorem Orderly.of_sublist (o : g.Orderly) (h : Revises g g' touched)
    (held : ∀ s l l', g.InTree s → g.heldBy s = .ok l → g'.heldBy s = .ok l' → l'.Sublist l) :
    g'.Orderly := by
  have hheld : ∀ s, g.InTree s → ∃ l, g.heldBy s = .ok l := fun s hs =>
    (o.forest.stat s hs).elim fun st hst => ⟨_, heldBy_eq_ok.2 ⟨st, hst, rfl⟩⟩
  refine o.of_revises h (fun _ _ => False) (fun s l' hs hl' => ?_) (fun s e hs he => ?_) nofun nofun
  · obtain ⟨l, hl⟩ := hheld s hs
    exact (o.nodup s l hs hl).sublist (held s l l' hs hl hl')
  · obtain ⟨l, hl⟩ := hheld s hs
    obtain ⟨st', hst', -⟩ := id he
    have hl' := heldBy_eq_ok.2 ⟨st', hst', rfl⟩
    have hsub := held s l _ hs hl hl'
    exact .inl ((mem_of_heldBy s l hl e).1 (hsub.subset ((mem_of_heldBy s _ hl' e).2 he)))

/-- The labels of the statements of the tree are edges of the graph. -/
def LabelsExist (g : Graph) : Prop :=
  g.EachStat fun st => ∀ e ∈ st.labels, Returns (g.edge e) fun _ => True

instance (g : Graph) : Decidable g.LabelsExist :=
  inferInstanceAs (Decidable (g.EachStat _))

/-- What an orderly graph starts from. -/
theorem orderly_of_nodesOnce (hw : g.WellFormed) (hn : g.NodesOnce) (hl : g.LabelsExist) :
    g.Orderly := by
  have hF := hw.forest
  obtain ⟨l, hexprs⟩ := hF.exprsIn .refl
  have hmem : ∀ s e, g.InTree s → g.Holds s e → e ∈ l := fun s e hs he =>
    (hF.mem_exprsIn .refl hexprs).2 ⟨s, hs, he⟩
  obtain ⟨each, apart⟩ := hF.held_once hexprs (hn.nodup hexprs)
  refine ⟨⟨hF, fun s e hs he => hn.grounded hexprs (hmem s e hs he)⟩,
    fun s st hs hst => (hw.fits hs hst).first, fun s st exprs hs hst hkind => ?_,
    fun s hs => ?_, each,
    fun s t e e' x hs ht he he' hx hx' => ?_⟩
  · have hshape := (hw.fits hs hst).children
    rwa [hkind] at hshape
  · obtain ⟨st, hst⟩ := hF.stat s hs
    have hlabeled : Returns (g.isLabeled s) fun _ => True := by
      rw [isLabeled, hst]
      refine Returns.anyM fun e he => (hl.stat hs hst e he).bind fun edge _ _ => ?_
      exact Returns.pure_iff.2 trivial
    exact hlabeled.elim fun b hb => ⟨b, hb.1⟩
  · obtain rfl := hn.eq_of_reaches hexprs (hmem s e hs he) (hmem t e' ht he') hx hx'
    exact ⟨apart s t e hs ht he he', rfl⟩

end Graph

end Decompiler

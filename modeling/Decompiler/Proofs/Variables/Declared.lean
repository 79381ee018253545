import Decompiler.Proofs.Variables.Occurrences

/-!
# Where variables are declared

A search across scopes stops at the expressions that declare a variable. Every index is declared by
one of them at most.

* `Graph.Declares`: an expression of the tree declares a variable.
* `Graph.Marking`: one occurrence is marked, or put into the tree as a mark.
* `Graph.Adds`: one more expression declares a variable of some index. This is what the ways to
  declare a variable come to (`Graph.adds_mark`, `Method.insertDeclaration_adds`).
* `Graph.DeclaresOnce`: no index is declared by two expressions.
-/

namespace Decompiler

open Relation

namespace Graph

variable {g g' g'' : Graph} {s t : StatId} {e x y : ExprId} {v : Local}
  {touched : ExprId → Prop}

/-- The expression stands among the declarations of a statement. -/
def ListsDeclaration (g : Graph) (s : StatId) (e : ExprId) : Prop :=
  Returns (g.stat s) fun st => e ∈ st.declarations

theorem ListsDeclaration.holds (h : g.ListsDeclaration s e) : g.Holds s e := by
  obtain ⟨st, hst, he⟩ := h
  exact ⟨st, hst, List.mem_append_right _ he⟩

/-- What is declared apart from the expressions of a statement is not among them. -/
theorem ListsDeclaration.not_mem_exprs (h : g.ListsDeclaration s e) (o : g.Orderly)
    (hs : g.InTree s) {st : Stat} (hst : g.stat s = .ok st) : e ∉ st.kind.exprs := by
  intro he
  obtain ⟨st', hst', hlist⟩ := h
  rw [hst] at hst'
  cases hst'
  have hnodup := o.nodup s _ hs (heldBy_eq_ok.2 ⟨st, hst, rfl⟩)
  exact (List.nodup_append.1 hnodup).2.2 e he e hlist rfl

/-- An expression of a statement declares a variable: it stands among the declarations, or it is
marked as the definition. -/
def DeclaresAt (g : Graph) (s : StatId) (e : ExprId) (v : Local) : Prop :=
  g.ListsDeclaration s e ∧ g.local? e = .ok (some v) ∨
    g.Evaluates s e ∧ Method.declared? g e = .ok (some v)

theorem DeclaresAt.holds (h : g.DeclaresAt s e v) : g.Holds s e :=
  h.elim (fun h => h.1.holds) fun h => h.1.holds

/-- An expression of the tree declares a variable. -/
def Declares (g : Graph) (e : ExprId) (v : Local) : Prop := ∃ s, g.InTree s ∧ g.DeclaresAt s e v

/-- An expression declares one variable. -/
theorem Declares.functional {v' : Local} (o : g.Orderly) (h : g.Declares e v)
    (h' : g.Declares e v') : v = v' := by
  obtain ⟨s, hs, hat⟩ := h
  obtain ⟨t, ht, hat'⟩ := h'
  obtain ⟨rfl, -⟩ := o.apart s t e e e hs ht hat.holds hat'.holds .refl .refl
  have hapart : g.ListsDeclaration s e → ¬ g.Evaluates s e := by
    rintro hlist ⟨st, hst, he⟩
    exact hlist.not_mem_exprs o hs hst (Stat.mem_exprs_of_items he)
  rcases hat with ⟨hlist, hv⟩ | ⟨heval, hv⟩ <;> rcases hat' with ⟨hlist', hv'⟩ | ⟨heval', hv'⟩
  · rw [hv] at hv'
    exact Option.some.inj (Except.ok.inj hv')
  · exact absurd heval' (hapart hlist)
  · exact absurd heval (hapart hlist')
  · rw [hv] at hv'
    exact Option.some.inj (Except.ok.inj hv')

/-- After a revision an expression declares what it did, or it does so through an occurrence that
was touched. -/
theorem Declares.of_revises (o : g.Orderly) (r : Revises g g' touched)
    (hlists : ∀ s, g.InTree s → g'.ListsDeclaration s e → g.ListsDeclaration s e)
    (hevaluates : ∀ s, g.InTree s → g'.Evaluates s e → g.Evaluates s e) (h : g'.Declares e v) :
    g.Declares e v ∨
      (∃ s, g.InTree s ∧ g.ListsDeclaration s e ∧ touched e ∧ g'.local? e = .ok (some v)) ∨
      ∃ s y w, g.InTree s ∧ g.Evaluates s e ∧ touched y ∧ g.Reaches e y ∧
        g'.expr y = .ok (.var w) ∧ w.isDefinition = true ∧ w.var = v := by
  obtain ⟨s, hs, ⟨hlist, hlocal⟩ | ⟨heval, hdeclared⟩⟩ := h
  · have hs := (r.inTree_iff o.forest).1 hs
    have hlist := hlists s hs hlist
    by_cases he : touched e
    · exact .inr (.inl ⟨s, hs, hlist, he, hlocal⟩)
    · obtain ⟨x, hx⟩ := (o.grounded s e hs hlist.holds).expr
      obtain ⟨x', hx', -, houtline⟩ := r.exprs e x hx
      obtain ⟨w', hw', hvar⟩ := local?_eq_ok.1 hlocal
      rw [hx'] at hw'
      cases hw'
      obtain ⟨w, rfl, hvar', -⟩ := Expr.eq_var_of_outline (houtline he).symm
      exact .inl ⟨s, hs, .inl ⟨hlist, local?_eq_ok.2 ⟨w, hx, hvar'.trans hvar⟩⟩⟩
  · have hs := (r.inTree_iff o.forest).1 hs
    have heval := hevaluates s hs heval
    have hground := o.grounded s e hs heval.holds
    obtain ⟨y, w', hy, hw', hdef, hvar⟩ := declared?_eq_some.1 hdeclared
    -- the occurrence was there before, at the same place
    have hbefore : y = e ∨ ∃ right, g.expr e = .ok (.assign y right) := by
      refine hy.imp_right fun ⟨right, he'⟩ => ?_
      obtain ⟨x, hx⟩ := hground.expr
      obtain ⟨x', hx', hshape, -⟩ := r.exprs e x hx
      rw [he'] at hx'
      cases hx'
      obtain rfl := Expr.eq_assign_of_shape hshape.symm
      exact ⟨right, hx⟩
    have hreach := hground.reaches_target hbefore
    by_cases hyt : touched y
    · exact .inr (.inr ⟨s, y, w', hs, heval, hyt, hreach, hw', hdef, hvar⟩)
    · obtain ⟨x, hx⟩ := (hground.of_reaches hreach).expr
      obtain ⟨x', hx', -, houtline⟩ := r.exprs y x hx
      rw [hw'] at hx'
      cases hx'
      obtain ⟨w, rfl, hvar', hdef'⟩ := Expr.eq_var_of_outline (houtline hyt).symm
      refine .inl ⟨s, hs, .inr ⟨heval, declared?_eq_some.2 ⟨y, w, hbefore, hx, ?_, ?_⟩⟩⟩
      · exact hdef'.trans hdef
      · exact hvar'.trans hvar

/-! ## One more declaration -/

/-- One occurrence `y` of `v` is marked, or put into the tree as a mark, and all else stays. -/
structure Marking (g g' : Graph) (y : ExprId) (v : Local) : Prop where
  /-- Nothing else changes. -/
  revises : Revises g g' (· = y)
  /-- If it was there before, it was an occurrence of the same variable. -/
  before : ∀ w marked, g.IsVar y w marked → w = v
  /-- The occurrence is marked. -/
  marked : g'.IsVar y v true
  /-- It is in the tree. -/
  lies : g'.Lies y
  /-- What is in the tree stays there. -/
  keeps : ∀ s e, g.InTree s → g.Holds s e → g'.Holds s e
  /-- Nothing else comes in. -/
  holds : ∀ s e, g.InTree s → g'.Holds s e → g.Holds s e ∨ e = y
  /-- What a statement does itself. -/
  evaluates : ∀ s e, g.InTree s → g'.Evaluates s e → g.Evaluates s e ∨ e = y
  /-- What it lists as a declaration. -/
  lists : ∀ s e, g.InTree s → g'.ListsDeclaration s e → g.ListsDeclaration s e ∨ e = y

namespace Marking

variable {index : ℕ} (h : Marking g g' y v) (o : g.Orderly)

include h

theorem names (he : g.Grounded e) (hi : g.Names e index) : g'.Names e index := by
  obtain ⟨x, w, marked, hreach, hw, rfl⟩ := hi
  have hreach' := (h.revises.reaches_iff he).2 hreach
  by_cases hx : x = y
  · subst hx
    exact ⟨x, v, true, hreach', h.marked, by rw [h.before w marked hw]⟩
  · exact ⟨x, w, marked, hreach', (h.revises.isVar_iff (he.of_reaches hreach) hx).2 hw, rfl⟩

include o

theorem namedIn (hs : g.InTree s) (hi : g.NamedIn s index) : g'.NamedIn s index := by
  obtain ⟨t, top, ht, htop, hnames⟩ := hi
  have htree := hs.within ht
  refine ⟨t, top, h.revises.within ht, h.keeps t top htree htop, ?_⟩
  exact h.names (o.grounded t top htree htop) hnames

/-- What a statement uses it used before, unless it is the variable that is marked. -/
theorem uses (o' : g'.Orderly) (hs : g.InTree s) (hi : g'.Uses s index) :
    g.Uses s index ∨ index = v.index := by
  have hs' := (h.revises.inTree_iff o.forest).2 hs
  obtain ⟨top, heval, x, w, marked, hreach, hw, rfl⟩ := (o'.uses_iff hs').1 hi
  by_cases hx : x = y
  · subst hx
    exact .inr (by rw [(hw.functional h.marked).1])
  · rcases h.evaluates s top hs heval with heval | rfl
    · have hground := o.grounded s top hs heval.holds
      have hreach := h.revises.reaches hground hreach
      have hw := (h.revises.isVar_iff (hground.of_reaches hreach) hx).1 hw
      exact .inl ((o.uses_iff hs).2 ⟨top, heval, x, w, marked, hreach, hw, rfl⟩)
    · exact absurd (h.marked.eq_of_reaches hreach) hx

/-- The other occurrences are those that were there before. -/
theorem occurs_iff (o' : g'.Orderly) {w : Local} {marked : Bool} : g'.Occurs e w marked ↔
    e = y ∧ w = v ∧ marked = true ∨ e ≠ y ∧ g.Occurs e w marked := by
  have hTree : ∀ s, g'.InTree s ↔ g.InTree s := fun s => h.revises.inTree_iff o.forest
  rw [o.occurs_iff, o'.occurs_iff]
  by_cases he : e = y
  · subst he
    simp only [ne_eq, not_true, true_and, false_and, or_false, h.lies]
    constructor
    · exact fun hw => hw.functional h.marked
    · rintro ⟨rfl, rfl⟩
      exact h.marked
  · simp only [he, ne_eq, not_false_eq_true, true_and, false_and, false_or]
    constructor
    · rintro ⟨⟨s, top, hs, htop, hreach⟩, hvar⟩
      have hs := (hTree s).1 hs
      rcases h.holds s top hs htop with htop | rfl
      · have hground := o.grounded s top hs htop
        have hreach := h.revises.reaches hground hreach
        have hvar := (h.revises.isVar_iff (hground.of_reaches hreach) he).1 hvar
        exact ⟨⟨s, top, hs, htop, hreach⟩, hvar⟩
      · exact absurd (h.marked.eq_of_reaches hreach) he
    · rintro ⟨⟨s, top, hs, htop, hreach⟩, hvar⟩
      have hground := o.grounded s top hs htop
      refine ⟨⟨s, top, (hTree s).2 hs, h.keeps s top hs htop, ?_⟩, ?_⟩
      · exact (h.revises.reaches_iff hground).2 hreach
      · exact (h.revises.isVar_iff (hground.of_reaches hreach) he).2 hvar

theorem isMarked_iff (o' : g'.Orderly) :
    g'.IsMarked index ↔ g.IsMarked index ∨ index = v.index := by
  constructor
  · rintro ⟨e, w, hw, rfl⟩
    rcases (h.occurs_iff o o').1 hw with ⟨-, rfl, -⟩ | ⟨-, hw⟩
    · exact .inr rfl
    · exact .inl ⟨e, w, hw, rfl⟩
  · have hy : g'.Occurs y v true := o'.occurs_iff.2 ⟨h.lies, h.marked⟩
    rintro (⟨e, w, hw, rfl⟩ | rfl)
    · by_cases he : e = y
      · subst he
        rw [h.before w true (o.occurs_iff.1 hw).2]
        exact ⟨e, v, hy, rfl⟩
      · exact ⟨e, w, (h.occurs_iff o o').2 (.inr ⟨he, hw⟩), rfl⟩
    · exact ⟨y, v, hy, rfl⟩

end Marking

/-- The graph stays orderly with the same tree, and one more expression declares a variable of the
index of `var`. That is a variable which occurred in the tree before, or `var` itself. -/
structure Adds (g g' : Graph) (var : Local) : Prop where
  /-- The graph stays orderly. -/
  orderly : g'.Orderly
  /-- The tree is the same. -/
  inTree : ∀ s, g.InTree s → g'.InTree s
  /-- What declares a variable. -/
  declares : ∃ e, ∀ x v, g'.Declares x v → g.Declares x v ∨ x = e ∧ v.index = var.index
  /-- What is marked. -/
  marks : ∃ y v, Marking g g' y v ∧ v.index = var.index ∧
    ((∃ marked, g.Occurs y v marked) ∨ (∀ n, g.node y ≠ .ok n) ∧ v = var)

/-- Changes of expressions that leave the statements alone. -/
theorem Orderly.of_stats_eq (o : g.Orderly) (r : Revises g g' touched) (hs : g'.stats = g.stats) :
    g'.Orderly := by
  refine o.of_sublist r fun s l l' _ hl hl' => ?_
  rw [heldBy, stat, hs] at hl'
  rw [heldBy, stat, hl'] at hl
  cases hl
  exact .refl _

theorem Declares.of_stats_eq (o : g.Orderly) (r : Revises g g' touched) (hs : g'.stats = g.stats)
    (h : g'.Declares e v) : g.Declares e v ∨
      (∃ s, g.InTree s ∧ g.ListsDeclaration s e ∧ touched e ∧ g'.local? e = .ok (some v)) ∨
      ∃ s y w, g.InTree s ∧ g.Evaluates s e ∧ touched y ∧ g.Reaches e y ∧
        g'.expr y = .ok (.var w) ∧ w.isDefinition = true ∧ w.var = v := by
  have hstat : ∀ s, g'.stat s = g.stat s := fun s => by rw [stat, hs, stat]
  refine h.of_revises o r (fun s _ hl => ?_) fun s _ he => ?_
  · rwa [ListsDeclaration, hstat] at hl
  · rwa [Evaluates, hstat] at he

section Mark

variable (o : g.Orderly) (hs : g.InTree s) (he : g.Holds s e) (hy : g.Reaches e y) {w : VarRef}
  (hw : g.expr y = .ok (.var w)) {f : VarRef → VarRef} (hf : (f w).var = w.var)
  (hmark : (f w).isDefinition = true) (h : g.modifyExpr y (Expr.mapVar f) = .ok g')

include o hs he hy hw hf hmark h

theorem marking_modifyExpr : Marking g g' y w.var := by
  have r : Revises g g' (· = y) := .modifyExpr h (fun _ => Expr.mapVar_shape) fun h => absurd rfl h
  obtain ⟨-, -, -, hstats, -⟩ := node_modifyExpr h
  have hstat : ∀ s, g'.stat s = g.stat s := fun s => by rw [stat, hstats, stat]
  have hholds : ∀ s e, g'.Holds s e ↔ g.Holds s e := fun s e => by rw [Holds, hstat, Holds]
  refine ⟨r, fun v marked hv => (hv.functional ⟨w, hw, rfl, rfl⟩).1, ⟨f w, ?_, hf, hmark⟩,
    ⟨s, e, ?_, (hholds s e).2 he, ?_⟩, fun s e _ => (hholds s e).2,
    fun s e _ he => .inl ((hholds s e).1 he), fun s e _ he => .inl ?_, fun s e _ he => .inl ?_⟩
  · rw [expr_modifyExpr h hw, if_pos rfl]
    rfl
  · exact (r.inTree_iff o.forest).2 hs
  · exact (r.reaches_iff (o.grounded s e hs he)).2 hy
  · rwa [Evaluates, hstat] at he
  · rwa [ListsDeclaration, hstat] at he

/-- Marking an occurrence of an index in an expression of the tree. -/
theorem adds_mark {var : Local} (hindex : w.var.index = var.index) : Adds g g' var := by
  have r : Revises g g' (· = y) := .modifyExpr h (fun _ => Expr.mapVar_shape) fun h => absurd rfl h
  obtain ⟨-, -, -, hstats, -⟩ := node_modifyExpr h
  have hexpr : g'.expr y = .ok (.var (f w)) := by
    rw [expr_modifyExpr h hw, if_pos rfl]
    rfl
  refine ⟨o.of_stats_eq r hstats, fun s hs => (r.inTree_iff o.forest).2 hs, ⟨e, fun x v hxv => ?_⟩,
    y, w.var, marking_modifyExpr o hs he hy hw hf hmark h, hindex, .inl ⟨w.isDefinition, ?_⟩⟩
  · rcases hxv.of_stats_eq o r hstats with hxv | ⟨t, ht, hlist, rfl, hlocal⟩ |
      ⟨t, z, w', ht, heval, rfl, hreach, hw', -, hvar⟩
    · exact .inl hxv
    · obtain ⟨-, rfl⟩ := o.apart t s x e x ht hs hlist.holds he .refl hy
      obtain ⟨w', hw', rfl⟩ := local?_eq_ok.1 hlocal
      rw [hexpr] at hw'
      cases hw'
      exact .inr ⟨rfl, by rw [hf]; exact hindex⟩
    · obtain ⟨-, rfl⟩ := o.apart t s x e z ht hs heval.holds he hreach hy
      rw [hexpr] at hw'
      cases hw'
      exact .inr ⟨rfl, by rw [← hvar, hf]; exact hindex⟩
  · exact o.occurs_iff.2 ⟨⟨s, e, hs, he, hy⟩, w, hw, rfl, rfl⟩

end Mark

/-! ## One declaration for each index -/

/-- The indices that are declared satisfy `P`, and no two expressions declare one index. -/
structure DeclaresOnce (g : Graph) (P : ℕ → Prop) : Prop where
  /-- Which indices are declared. -/
  index : ∀ e v, g.Declares e v → P v.index
  /-- Each is declared by one expression. -/
  unique : ∀ e e' v v', g.Declares e v → g.Declares e' v' → v.index = v'.index → e = e'

theorem DeclaresOnce.adds {P : ℕ → Prop} {var : Local} (h : DeclaresOnce g P) (ha : Adds g g' var)
    (hnew : ¬ P var.index) : DeclaresOnce g' fun i => P i ∨ i = var.index := by
  obtain ⟨d, hd⟩ := ha.declares
  refine ⟨fun e v he => ?_, fun e e' v v' he he' heq => ?_⟩
  · exact (hd e v he).imp (h.index e v) And.right
  · rcases hd e v he with he | ⟨rfl, hv⟩ <;> rcases hd e' v' he' with he' | ⟨rfl, hv'⟩
    · exact h.unique e e' v v' he he' heq
    · rw [← hv', ← heq] at hnew
      exact absurd (h.index e v he) hnew
    · rw [← hv, heq] at hnew
      exact absurd (h.index e' v' he') hnew
    · rfl

end Graph

end Decompiler

import Decompiler.Proofs.Variables.Reading

/-!
# Occurrences of variables in the tree

Which nodes of the tree are occurrences of which variable, and which of them are marked as
definitions. A change that keeps the form of expressions keeps all occurrences it does not touch.

* `Graph.Occurs`: an occurrence in an expression of the tree.
* `Graph.Uses`: a statement evaluates an expression that names an index.
* `Graph.Revises.isVar_iff`, `Graph.Revises.reaches_iff`: what a revision keeps.
* `Graph.Orderly.findOccurrence?_of_namedIn`: an index that is named in a statement is found there.
-/

namespace Decompiler

open Relation

namespace Graph

variable {g g' : Graph} {s t : StatId} {e x : ExprId} {v v' : Local} {marked marked' : Bool}
  {index : ℕ} {touched : ExprId → Prop}

/-! ## Nodes -/

/-- The node is an occurrence of a variable, and `marked` tells whether it is marked as its
definition. -/
def IsVar (g : Graph) (e : ExprId) (v : Local) (marked : Bool) : Prop :=
  ∃ w, g.expr e = .ok (.var w) ∧ w.var = v ∧ w.isDefinition = marked

theorem IsVar.functional (h : g.IsVar e v marked) (h' : g.IsVar e v' marked') :
    v = v' ∧ marked = marked' := by
  obtain ⟨w, hw, rfl, rfl⟩ := h
  obtain ⟨w', hw', rfl, rfl⟩ := h'
  rw [hw] at hw'
  cases hw'
  exact ⟨rfl, rfl⟩

/-- Nothing lies below an occurrence. -/
theorem IsVar.eq_of_reaches (h : g.IsVar e v marked) (hx : g.Reaches e x) : x = e := by
  obtain ⟨w, hw, -⟩ := h
  obtain ⟨n, hn, hexpr⟩ := expr_eq_ok.1 hw
  rcases ReflTransGen.cases_head hx with rfl | ⟨c, hc, -⟩
  · rfl
  · rw [subOf_iff hn, hexpr] at hc
    cases hc

/-- The expression names an index. -/
def Names (g : Graph) (e : ExprId) (index : ℕ) : Prop :=
  ∃ x v marked, g.Reaches e x ∧ g.IsVar x v marked ∧ v.index = index

theorem mem_indicesIn {l : List ExprId} {r : List ℕ} (h : g.indicesIn l = .ok r) :
    index ∈ r ↔ ∃ e ∈ l, g.Names e index := by
  obtain ⟨refs, hrefs, h⟩ := Checked.bind_eq_ok.1 h
  rw [← Checked.pure_eq_ok.1 h, List.mem_map]
  constructor
  · rintro ⟨p, hp, rfl⟩
    obtain ⟨e, he, hreach, hexpr⟩ := (mem_refsInAll hrefs).1 hp
    exact ⟨e, he, p.1, p.2.var, p.2.isDefinition, hreach, ⟨p.2, hexpr, rfl, rfl⟩, rfl⟩
  · rintro ⟨e, he, x, v, marked, hreach, ⟨w, hexpr, rfl, rfl⟩, rfl⟩
    exact ⟨(x, w), (mem_refsInAll hrefs).2 ⟨e, he, hreach, hexpr⟩, rfl⟩

/-! ## The tree -/

/-- The node lies in an expression that a statement of the tree holds. -/
def Lies (g : Graph) (e : ExprId) : Prop := ∃ s top, g.InTree s ∧ g.Holds s top ∧ g.Reaches top e

theorem Lies.grounded (h : g.Lies e) (o : g.Legible) : g.Grounded e := by
  obtain ⟨s, top, hs, htop, hreach⟩ := h
  exact (o.grounded s top hs htop).of_reaches hreach

/-- Among the expressions of the tree the node is an occurrence of the variable, and `marked` tells
whether it is marked as its definition. -/
def Occurs (g : Graph) (e : ExprId) (v : Local) (marked : Bool) : Prop :=
  Returns (do g.refsInAll (← g.exprsIn root)) fun l =>
    ∃ w, (e, w) ∈ l ∧ w.var = v ∧ w.isDefinition = marked

/-- Some occurrence of the index is marked as its definition. -/
def IsMarked (g : Graph) (index : ℕ) : Prop := ∃ e v, g.Occurs e v true ∧ v.index = index

/-- Among the things that the statement does itself there is an expression that names the index. -/
def Uses (g : Graph) (s : StatId) (index : ℕ) : Prop :=
  Returns (do g.indicesIn ((← g.stat s).items.filterMap Item.expr?)) fun l => index ∈ l

/-- A statement, or one below it, holds an expression that names the index. -/
def NamedIn (g : Graph) (s : StatId) (index : ℕ) : Prop :=
  ∃ t top, g.Within s t ∧ g.Holds t top ∧ g.Names top index

namespace Legible

variable (o : g.Legible)

include o

/-- The occurrences of the tree can be listed. -/
theorem refs : Returns (do g.refsInAll (← g.exprsIn root)) fun refs =>
    ∀ r, r ∈ refs ↔ g.Lies r.1 ∧ g.expr r.1 = .ok (.var r.2) := by
  obtain ⟨l, hl, hground⟩ := o.exprsIn .refl
  obtain ⟨refs, hrefs⟩ := refsInAll_returns hground
  refine ⟨refs, by simp only [hl, hrefs, Checked.ok_bind], fun r => ?_⟩
  rw [mem_refsInAll hrefs]
  constructor
  · rintro ⟨top, htop, hreach, hexpr⟩
    obtain ⟨s, hs, hholds⟩ := (o.forest.mem_exprsIn .refl hl).1 htop
    exact ⟨⟨s, top, hs, hholds, hreach⟩, hexpr⟩
  · rintro ⟨⟨s, top, hs, hholds, hreach⟩, hexpr⟩
    exact ⟨top, (o.forest.mem_exprsIn .refl hl).2 ⟨s, hs, hholds⟩, hreach, hexpr⟩

theorem occurs_iff : g.Occurs e v marked ↔ g.Lies e ∧ g.IsVar e v marked := by
  obtain ⟨refs, hrefs, hmem⟩ := o.refs
  rw [Occurs, hrefs, Returns.ok_iff]
  constructor
  · rintro ⟨w, hw, hvar⟩
    obtain ⟨hlies, hexpr⟩ := (hmem _).1 hw
    exact ⟨hlies, w, hexpr, hvar⟩
  · rintro ⟨hlies, w, hexpr, hvar⟩
    exact ⟨w, (hmem (e, w)).2 ⟨hlies, hexpr⟩, hvar⟩

end Legible

namespace Orderly

variable (o : g.Orderly)

include o

theorem uses_iff (hs : g.InTree s) :
    g.Uses s index ↔ ∃ top, g.Evaluates s top ∧ g.Names top index := by
  obtain ⟨st, hst⟩ := o.forest.stat s hs
  have hmem : ∀ e, e ∈ st.items.filterMap Item.expr? ↔ g.Evaluates s e := by
    intro e
    rw [Evaluates, hst, Returns.ok_iff, List.mem_filterMap]
    constructor
    · rintro ⟨item, hitem, he⟩
      cases item <;> cases he
      exact hitem
    · exact fun he => ⟨_, he, rfl⟩
  obtain ⟨l, hl⟩ := indicesIn_returns (l := st.items.filterMap Item.expr?) fun e he =>
    o.grounded s e hs ((hmem e).1 he).holds
  simp only [Uses, hst, hl, Checked.ok_bind, Returns.ok_iff, mem_indicesIn hl, hmem]

end Orderly

/-! ## Revisions -/

namespace Revises

variable (r : Revises g g' touched)

include r

theorem reaches_iff (he : g.Grounded e) : g'.Reaches e x ↔ g.Reaches e x := by
  refine ⟨r.reaches he, fun hx => ?_⟩
  induction hx with
  | refl => exact .refl
  | tail hy hc ih => exact ih.tail ((r.subOf (he.of_reaches hy).expr).2 hc)

theorem isVar_iff (he : g.Grounded e) (ht : ¬ touched e) :
    g'.IsVar e v marked ↔ g.IsVar e v marked := by
  obtain ⟨y, hy⟩ := he.expr
  obtain ⟨y', hy', -, houtline⟩ := r.exprs e y hy
  constructor
  · rintro ⟨w, hw, rfl, rfl⟩
    rw [hy'] at hw
    cases hw
    obtain ⟨w', rfl, hvar, hdef⟩ := Expr.eq_var_of_outline (houtline ht).symm
    exact ⟨w', hy, hvar, hdef⟩
  · rintro ⟨w, hw, rfl, rfl⟩
    rw [hy] at hw
    cases hw
    obtain ⟨w', rfl, hvar, hdef⟩ := Expr.eq_var_of_outline (houtline ht)
    exact ⟨w', hy', hvar, hdef⟩

theorem within (h : g.Within s t) : g'.Within s t := by
  induction h with
  | refl => exact .refl
  | tail _ hc ih =>
    obtain ⟨st, hst, hmem⟩ := hc
    obtain ⟨st', hst', heq⟩ := r.stats _ st hst
    exact ih.tail ⟨st', hst', (Stat.skeleton_links heq).2.2.1 ▸ hmem⟩

theorem lies_iff (o : g.Legible) (hstats : g'.stats = g.stats) : g'.Lies e ↔ g.Lies e := by
  have hholds : ∀ s top, g'.Holds s top ↔ g.Holds s top := fun s top => by
    rw [Holds, stat, hstats, Holds, stat]
  refine exists_congr fun s => exists_congr fun top => ?_
  rw [r.inTree_iff o.forest, hholds]
  exact and_congr_right fun hs => and_congr_right fun htop =>
    r.reaches_iff (o.grounded s top hs htop)

end Revises

end Graph

end Decompiler

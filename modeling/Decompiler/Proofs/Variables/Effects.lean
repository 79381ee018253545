import Decompiler.Proofs.Variables.Changes
import Decompiler.Proofs.Variables.Finality
import Decompiler.Proofs.Variables.Offsets

/-!
# What a merge does

A merge of one variable into another changes the occurrences of the one that goes away, the lists
that declare it, some types, and what is known about the one that stays. All else is as it was.

* `Graph.Unites`: what a merge makes of a graph, node by node and statement by statement
  (`Method.renameOccurrences_unites`). What else is to be known of the graph is read off from it.
* `Registry.Updates`: what a merge makes of what is known about variables.
* `Method.unify_allOrNothing`: when a merge is refused, and all that it does otherwise. A
  declaration that is not dropped is in `Method.not_dropped_of_shared_declaration`.
* `Method.unify_carries_iff`: when all occurrences of the variable that stays have its type. One
  that has not is in `Method.not_carries_of_narrower_occurrence`.
-/

namespace Decompiler

open Relation

namespace Graph

variable {g g' : Graph} {s : StatId} {e y : ExprId} {x : Expr} {source target : Local} {ty : Ty}

/-! ## All of a change -/

/-- Some statement of the tree lists the expression as a declaration. -/
def Listed (g : Graph) (e : ExprId) : Prop := ∃ s, g.InTree s ∧ g.ListsDeclaration s e

/-- The expression is a constant other than `null`, and a statement assigns it to a variable. -/
def StoredTo (g : Graph) (v : Local) (e : ExprId) : Prop :=
  ∃ n left ty value, g.Owned n ∧ n.expr = .assign left e ∧ g.local? left = .ok (some v) ∧
    g.expr e = .ok (.const ty value) ∧ value ≠ .null

open Classical in
/-- What becomes of a node when `source` is merged into `target`: first it is renamed as an
occurrence, and then it gets the type as a constant or as a declaration. -/
noncomputable def mergedExpr (g : Graph) (source target : Local) (ty : Ty) (e : ExprId)
    (x : Expr) : Expr :=
  let renamed := if g.OccursAt source e then x.mapVar (.rename target ty) else x
  let stored :=
    if g.StoredTo source e ∨ g.StoredTo target e then renamed.retypeConst ty else renamed
  if g.Listed e then stored.mapVar (.retype target ty) else stored

section MergedExpr

variable {v : VarRef}

theorem mergedExpr_occurrence (h : g.OccursAt source e) :
    g.mergedExpr source target ty e (.var v) = .var (v.rename target ty) := by
  simp [mergedExpr, h, Expr.mapVar, Expr.retypeConst, VarRef.rename, VarRef.retype]

theorem mergedExpr_declaration (h : ¬ g.OccursAt source e) (hl : g.Listed e)
    (hv : v.var = target) :
    g.mergedExpr source target ty e (.var v) = .var { v with ty := ty } := by
  simp [mergedExpr, h, hl, hv, Expr.mapVar, Expr.retypeConst, VarRef.retype]

theorem mergedExpr_var (h : ¬ g.OccursAt source e) (hl : v.var = target → ¬ g.Listed e) :
    g.mergedExpr source target ty e (.var v) = .var v := by
  by_cases hv : v.var = target <;>
    simp_all [mergedExpr, Expr.mapVar, Expr.retypeConst, VarRef.retype]

open Classical in
theorem mergedExpr_of_var?_eq_none {x : Expr} (hx : x.var? = none) :
    g.mergedExpr source target ty e x =
      if g.StoredTo source e ∨ g.StoredTo target e then x.retypeConst ty else x := by
  cases x with
  | var v => cases hx
  | const t c => by_cases h : g.StoredTo source e ∨ g.StoredTo target e <;>
      simp [mergedExpr, h, Expr.mapVar, Expr.retypeConst]
  | _ => simp [mergedExpr, Expr.mapVar, Expr.retypeConst]

end MergedExpr

/-- A merge of `source` into `target`, as a variable of type `ty`. -/
structure Unites (g g' : Graph) (source target : Local) (ty : Ty) : Prop where
  /-- What a statement evaluates as an occurrence of `source` becomes one of `target`. -/
  occurrence : ∀ e v, g.OccursAt source e → g.expr e = .ok (.var v) →
    g'.expr e = .ok (.var { v with var := target, ty := ty, isDefinition := false })
  /-- Declarations of `target` get the type. -/
  declaration : ∀ e v, g.Listed e → g.expr e = .ok (.var v) → v.var = target →
    g'.expr e = .ok (.var { v with ty := ty })
  /-- Other occurrences stay as they are. -/
  others : ∀ e v, g.expr e = .ok (.var v) → (v.var = source → ¬ g.OccursAt source e) →
    (v.var = target → ¬ g.Listed e) → g'.expr e = .ok (.var v)
  /-- Constants that are assigned to one of the two get the type. -/
  constant : ∀ e t c, g.StoredTo source e ∨ g.StoredTo target e → g.expr e = .ok (.const t c) →
    g'.expr e = .ok (.const ty c)
  /-- Other nodes stay as they are. -/
  rest : ∀ e x, g.expr e = .ok x → x.var? = none → ¬ g.StoredTo source e →
    ¬ g.StoredTo target e → g'.expr e = .ok x
  /-- There are no other nodes. -/
  size : g'.exprs.size = g.exprs.size
  /-- Leaves lose what they list as occurrences of `source`, and statements lose the declarations
  that still are such. -/
  stat : ∀ s, g.InTree s → g'.stat s = (g.stat s).map (Stat.without
    (fun e => g.local? e = .ok (some source)) fun e => g'.local? e = .ok (some source))
  /-- Statements outside of the tree stay as they are. -/
  outside : ∀ s, ¬ g.InTree s → g'.stat s = g.stat s
  /-- So do edges. -/
  edges : g'.edges = g.edges

namespace Unites

variable (u : Unites g g' source target ty)

include u

/-- A node keeps its subexpressions, and what is no occurrence does not become one. -/
theorem expr (hx : g.expr e = .ok x) : Returns (g'.expr e) fun x' =>
    x'.children = x.children ∧ (x.var? = none → x'.var? = none) := by
  cases hvar : x.var? with
  | some v =>
    obtain ⟨w, rfl⟩ : ∃ w, x = .var w := by cases x <;> simp_all [Expr.var?]
    have hsome : some v ≠ none := Option.some_ne_none v
    by_cases ho : g.OccursAt source e
    · exact ⟨_, u.occurrence e w ho hx, rfl, (absurd · hsome)⟩
    · by_cases hl : w.var = target ∧ g.Listed e
      · exact ⟨_, u.declaration e w hl.2 hx hl.1, rfl, (absurd · hsome)⟩
      · exact ⟨_, u.others e w hx (fun _ => ho) fun hv hl' => hl ⟨hv, hl'⟩, rfl,
          (absurd · hsome)⟩
  | none =>
    by_cases hs : g.StoredTo source e ∨ g.StoredTo target e
    · obtain ⟨t, c, hconst⟩ : ∃ t c, g.expr e = .ok (.const t c) := by
        rcases hs with ⟨_, _, t, c, _, _, _, hc, _⟩ | ⟨_, _, t, c, _, _, _, hc, _⟩ <;>
          exact ⟨t, c, hc⟩
      obtain rfl := Except.ok.inj (hx.symm.trans hconst)
      exact ⟨_, u.constant e t c hs hx, rfl, fun _ => rfl⟩
    · obtain ⟨hs, ht⟩ := not_or.1 hs
      exact ⟨x, u.rest e x hx hvar hs ht, rfl, fun _ => hvar⟩

theorem exists_expr {x' : Expr} (hx : g'.expr e = .ok x') : ∃ x, g.expr e = .ok x := by
  obtain ⟨n', hn', -⟩ := expr_eq_ok.1 hx
  obtain ⟨n, hn⟩ := Arena.exists_get_iff.2 (u.size ▸ Arena.get_lt hn')
  exact ⟨n.expr, expr_eq_ok.2 ⟨n, hn, rfl⟩⟩

/-- What an occurrence was before. -/
theorem var_cases {w : VarRef} (hw : g'.expr e = .ok (.var w)) : ∃ v, g.expr e = .ok (.var v) ∧
    (g.OccursAt source e ∧ w = { v with var := target, ty := ty, isDefinition := false } ∨
      g.Listed e ∧ v.var = target ∧ w = { v with ty := ty } ∨
      ¬ g.OccursAt source e ∧ ¬ (v.var = target ∧ g.Listed e) ∧ w = v) := by
  obtain ⟨x, hx⟩ := u.exists_expr hw
  obtain ⟨v, rfl⟩ : ∃ v, x = .var v := by
    obtain ⟨x', hx', -, hnone⟩ := u.expr hx
    rw [hw] at hx'
    cases hx'
    cases x <;> simp_all [Expr.var?]
  refine ⟨v, hx, ?_⟩
  have hinj : ∀ {v'}, g'.expr e = .ok (.var v') → w = v' := fun h =>
    Expr.var.inj (Except.ok.inj (hw.symm.trans h))
  by_cases ho : g.OccursAt source e
  · exact .inl ⟨ho, hinj (u.occurrence e v ho hx)⟩
  · by_cases hl : v.var = target ∧ g.Listed e
    · exact .inr (.inl ⟨hl.2, hl.1, hinj (u.declaration e v hl.2 hx hl.1)⟩)
    · exact .inr (.inr ⟨ho, hl, hinj (u.others e v hx (fun _ => ho) fun hv hl' => hl ⟨hv, hl'⟩)⟩)

/-- What still is an occurrence of `source` is evaluated nowhere. -/
theorem local?_source_iff (hne : source ≠ target) : g'.local? e = .ok (some source) ↔
    g.local? e = .ok (some source) ∧ ¬ g.OccursAt source e := by
  constructor
  · intro h
    obtain ⟨w, hw, hwv⟩ := local?_eq_ok.1 h
    obtain ⟨v, hv, ⟨-, rfl⟩ | ⟨-, htarget, rfl⟩ | ⟨ho, -, rfl⟩⟩ := u.var_cases hw
    · exact absurd hwv.symm hne
    · exact absurd (hwv.symm.trans htarget) hne
    · exact ⟨local?_eq_ok.2 ⟨w, hv, hwv⟩, ho⟩
  · rintro ⟨h, ho⟩
    obtain ⟨w, hw, hv⟩ := local?_eq_ok.1 h
    exact local?_eq_ok.2 ⟨w, u.others e w hw (fun _ => ho) fun ht => absurd (hv.symm.trans ht) hne,
      hv⟩

theorem subOf_iff : g'.SubOf e y ↔ g.SubOf e y := by
  constructor
  · rintro ⟨n', hn', hy⟩
    obtain ⟨x, hx⟩ := u.exists_expr (expr_eq_ok.2 ⟨n', hn', rfl⟩)
    obtain ⟨x', hx', hchildren, -⟩ := u.expr hx
    obtain ⟨n, hn, rfl⟩ := expr_eq_ok.1 hx
    obtain rfl := Except.ok.inj (hx'.symm.trans (expr_eq_ok.2 ⟨n', hn', rfl⟩))
    exact ⟨n, hn, hchildren ▸ hy⟩
  · rintro ⟨n, hn, hy⟩
    obtain ⟨x', hx', hchildren, -⟩ := u.expr (expr_eq_ok.2 ⟨n, hn, rfl⟩)
    obtain ⟨n', hn', rfl⟩ := expr_eq_ok.1 hx'
    exact ⟨n', hn', hchildren ▸ hy⟩

theorem reaches_iff : g'.Reaches e y ↔ g.Reaches e y := by
  have hsub : g'.SubOf = g.SubOf := by
    ext e y
    exact u.subOf_iff
  rw [Reaches, Reaches, hsub]

theorem inTree_iff : g'.InTree s ↔ g.InTree s := by
  refine SameLinks.inTree_iff fun s => ?_
  by_cases hs : g.InTree s
  · rw [links, links, u.stat s hs]
    cases g.stat s <;> simp [Except.map]
  · rw [links, links, u.outside s hs]

theorem holds (hs : g.InTree s) (h : g'.Holds s e) : g.Holds s e := by
  obtain ⟨st', hst', he⟩ := h
  rw [u.stat s hs] at hst'
  obtain ⟨st, hst, rfl⟩ := Checked.map_eq_ok.1 hst'
  refine ⟨st, hst, ?_⟩
  rcases List.mem_append.1 he with he | he
  · exact List.mem_append_left _ (Stat.mem_exprs_of_without he)
  · exact List.mem_append_right _ (List.mem_of_mem_filter he)

theorem holds_of_ne (hne : source ≠ target) (hs : g.InTree s) (h : g.Holds s e)
    (he : g.local? e ≠ .ok (some source)) : g'.Holds s e := by
  obtain ⟨st, hst, hmem⟩ := h
  refine ⟨_, (u.stat s hs).trans (Checked.map_eq_ok.2 ⟨st, hst, rfl⟩), ?_⟩
  rcases List.mem_append.1 hmem with hmem | hmem
  · exact List.mem_append_left _ (Stat.mem_exprs_without hmem (by simpa using he))
  · refine List.mem_append_right _ (List.mem_filter.2 ⟨hmem, ?_⟩)
    simpa using fun hsource => he ((u.local?_source_iff hne).1 hsource).1

theorem lies (h : g'.Lies e) : g.Lies e := by
  obtain ⟨s, top, hs, htop, hreach⟩ := h
  have hs := u.inTree_iff.1 hs
  exact ⟨s, top, hs, u.holds hs htop, u.reaches_iff.1 hreach⟩

theorem lies_of_ne (hne : source ≠ target) (h : g.Lies e)
    (he : g.local? e ≠ .ok (some source)) : g'.Lies e := by
  obtain ⟨s, top, hs, htop, hreach⟩ := h
  refine ⟨s, top, u.inTree_iff.2 hs, u.holds_of_ne hne hs htop fun hsource => he ?_,
    u.reaches_iff.2 hreach⟩
  -- nothing but itself lies below an occurrence
  obtain ⟨w, hw, hwv⟩ := local?_eq_ok.1 hsource
  have hvar : g.IsVar top source w.isDefinition := ⟨w, hw, hwv, rfl⟩
  rwa [hvar.eq_of_reaches hreach]

/-- No occurrence of `source` is left in the tree, if declarations are nothing but occurrences. -/
theorem local?_ne_source (hne : source ≠ target) (hd : g.DeclaresVariables) (h : g'.Lies e) :
    g'.local? e ≠ .ok (some source) := by
  intro hsource
  obtain ⟨hbefore, hocc⟩ := (u.local?_source_iff hne).1 hsource
  obtain ⟨w, hw, hwv⟩ := local?_eq_ok.1 hbefore
  obtain ⟨s, top, hs, ⟨st', hst', htop⟩, hreach⟩ := h
  have hs := u.inTree_iff.1 hs
  have hreach := u.reaches_iff.1 hreach
  rw [u.stat s hs] at hst'
  obtain ⟨st, hst, rfl⟩ := Checked.map_eq_ok.1 hst'
  rcases List.mem_append.1 htop with htop | htop
  · exact hocc (occursAt_of_isVar hs hst (Stat.mem_exprs_of_without htop) hreach ⟨w, hw, hwv, rfl⟩)
  · -- a declaration is the occurrence itself, and would have been dropped
    obtain ⟨hmem, hkept⟩ := List.mem_filter.1 htop
    obtain ⟨v, hv, hne'⟩ := hd.stat hs hst top hmem
    obtain ⟨v, rfl⟩ := Option.ne_none_iff_exists'.1 hne'
    obtain ⟨wt, hwt, -⟩ := local?_eq_ok.1 hv
    have hvar : g.IsVar top wt.var wt.isDefinition := ⟨wt, hwt, rfl, rfl⟩
    obtain rfl := hvar.eq_of_reaches hreach
    simp [hsource] at hkept

end Unites

theorem storedConstant?_eq_some {n : OwnedNode} :
    g.storedConstant? source target n = .ok (some e) ↔ ∃ left ty value,
      n.expr = .assign left e ∧
      (g.local? left = .ok (some source) ∨ g.local? left = .ok (some target)) ∧
      g.expr e = .ok (.const ty value) ∧ value ≠ .null := by
  rw [storedConstant?]
  cases hassign : n.expr with
  | assign left right =>
    constructor
    · intro h
      obtain ⟨written, hwritten, h⟩ := Checked.bind_eq_ok.1 h
      split at h
      · cases h
      · next hsides =>
        obtain ⟨x, hx, h⟩ := Checked.bind_eq_ok.1 h
        split at h
        · cases h
        · next hnull =>
          cases h
          refine ⟨left, _, _, rfl, ?_, hx, hnull⟩
          rw [hwritten, Except.ok.injEq, Except.ok.injEq]
          exact or_iff_not_imp_left.2 (by simpa using hsides)
        · cases h
    · rintro ⟨_, ty, value, hsides, hlocal, hx, hnull⟩
      obtain ⟨rfl, rfl⟩ := Expr.assign.inj hsides
      rcases hlocal with hlocal | hlocal <;>
        cases value <;> simp_all [Expr.assign?]
  | _ => simp [Expr.assign?]

section OwnedNodes

variable {nodes : List OwnedNode} {st : Stat} (hnodes : ∀ n, n ∈ nodes ↔ g.Owned n)

include hnodes

theorem mem_storedConstants {l : List ExprId}
    (h : nodes.filterMapM (g.storedConstant? source target) = .ok l) :
    e ∈ l ↔ g.StoredTo source e ∨ g.StoredTo target e := by
  rw [Checked.mem_filterMapM h]
  simp only [hnodes, storedConstant?_eq_some]
  constructor
  · rintro ⟨n, hn, left, t, c, hassign, hleft | hleft, hconst⟩
    · exact .inl ⟨n, left, t, c, hn, hassign, hleft, hconst⟩
    · exact .inr ⟨n, left, t, c, hn, hassign, hleft, hconst⟩
  · rintro (⟨n, left, t, c, hn, hassign, hleft, hconst⟩ |
      ⟨n, left, t, c, hn, hassign, hleft, hconst⟩)
    · exact ⟨n, hn, left, t, c, hassign, .inl hleft, hconst⟩
    · exact ⟨n, hn, left, t, c, hassign, .inr hleft, hconst⟩

end OwnedNodes

end Graph

namespace Method

open Decompiler.Graph

variable {g g' : Graph} {m m' : Method} {nodes : List OwnedNode} {source target : Local} {ty : Ty}

open Classical in
/-- What a merge makes of every expression and of every statement. -/
theorem renameOccurrences_maps (hnodes : ∀ n, n ∈ nodes ↔ g.Owned n) (hne : source ≠ target)
    (h : renameOccurrences g nodes source target ty = .ok g') :
    Maps g g' (g.mergedExpr source target ty) fun s st =>
      if g.InTree s then st.without (fun e => g.local? e = .ok (some source))
        fun e => g'.local? e = .ok (some source) else st := by
  simp only [renameOccurrences, Checked.bind_eq_ok] at h
  obtain ⟨constants, hconstants, g₁, h₁, g₂, h₂, stats, hstats, g₃, h₃, h₄⟩ := h
  have hmaps₁ := Maps.foldlM_modifyExpr (i := OwnedNode.id)
    (f := Expr.mapVar (VarRef.rename target ty)) (fun _ => Expr.mapVar_rename_idem) h₁
  have hmaps₂ := Maps.foldlM_modifyExpr (i := id) (f := Expr.retypeConst ty)
    (fun _ => Expr.retypeConst_idem) h₂
  have hmaps₃ := hmaps₁.trans (hmaps₂.trans (Maps.foldlM_dropBareDeclarations h₃))
  have hmaps₄ := Maps.foldlM_mergeDeclarations hne h₄
  have hoccurs : ∀ e, e ∈ (nodes.filter fun n => n.expr.local? = some source).map OwnedNode.id ↔
      g.OccursAt source e := fun e => by rw [List.mem_map, occursAt_iff hnodes]
  have hstored : ∀ e, e ∈ constants.map id ↔ g.StoredTo source e ∨ g.StoredTo target e :=
    fun e => by rw [List.map_id, mem_storedConstants hnodes hconstants]
  have hmem : ∀ s, s ∈ stats ↔ g.InTree s := fun s => by
    rw [mem_preorderIn hstats]
    exact (hmaps₁.trans hmaps₂).inTree_iff
  have hlisted : ∀ e, (∃ s ∈ stats, g₃.ListsDeclaration s e) ↔ g.Listed e := by
    intro e
    refine exists_congr fun s => and_congr (hmem s) ?_
    rw [ListsDeclaration, hmaps₃.returns_stat, ListsDeclaration]
    split <;> simp
  have hlocal : ∀ e, g'.local? e = g₃.local? e := fun e =>
    hmaps₄.local?_eq fun x => Expr.local?_ite_retype
  refine (hmaps₃.trans hmaps₄).congr (fun e x _ => ?_) fun s st hst => ?_
  · simp only [hlisted, hoccurs, hstored]
    rfl
  · simp only [hmem, hlocal]
    split
    · next hs =>
      rw [Stat.without_without]
      refine Stat.without_congr (fun e he => ?_) fun e he => ?_
      · have hbare : (s, e) ∈ bareOccurrences nodes source ↔ _ :=
          mem_bareOccurrences_iff hnodes hs hst he
        exact (Bool.or_false _).trans (decide_eq_decide.2 hbare)
      · simp
    · rfl

/-- Renaming the occurrences of one variable to another unites the two. -/
theorem renameOccurrences_unites (hnodes : ∀ n, n ∈ nodes ↔ g.Owned n) (hne : source ≠ target)
    (h : renameOccurrences g nodes source target ty = .ok g') : Unites g g' source target ty := by
  have hmaps := renameOccurrences_maps hnodes hne h
  have hexpr : ∀ e x, g.expr e = .ok x →
      g'.expr e = .ok (g.mergedExpr source target ty e x) := fun e x hx => by
    rw [hmaps.expr, hx]
    rfl
  have hnot : ∀ {e x}, g.expr e = .ok x → x.local? ≠ some source → ¬ g.OccursAt source e := by
    intro e x hx hlocal hocc
    have hocc := hocc.local?
    rw [Graph.local?, hx] at hocc
    exact hlocal (Except.ok.inj hocc)
  refine ⟨fun e v ho hx => ?_, fun e v hl hx hv => ?_, fun e v hx hs ht => ?_,
    fun e t c hc hx => ?_, fun e x hx hvar hs ht => ?_,
    (renameOccurrences_relabels hnodes h).exprs, fun s hs => ?_, fun s hs => ?_, hmaps.edges⟩
  · rw [hexpr e _ hx, mergedExpr_occurrence ho]
    rfl
  · have hsource : (Expr.var v).local? ≠ some source := fun h => hne (hv ▸ (Option.some.inj h).symm)
    rw [hexpr e _ hx, mergedExpr_declaration (hnot hx hsource) hl hv]
  · have hocc : ¬ g.OccursAt source e := fun hocc => by
      by_cases hv : v.var = source
      · exact hs hv hocc
      · exact hnot hx (fun h => hv (Option.some.inj h)) hocc
    rw [hexpr e _ hx, mergedExpr_var hocc ht]
  · rw [hexpr e _ hx, mergedExpr_of_var?_eq_none rfl, if_pos hc]
    rfl
  · rw [hexpr e _ hx, mergedExpr_of_var?_eq_none hvar, if_neg (not_or.2 ⟨hs, ht⟩)]
  · rw [hmaps.stat]
    simp only [if_pos hs]
  · rw [hmaps.stat]
    simp only [if_neg hs]
    cases g.stat s <;> rfl

/-! ## All or nothing -/

end Method

/-- All that is known stays as it is, but for the types, the finality and the debug entry of
`target` and for the leaders. Both types of `target` are `ty`. -/
def Registry.Updates (r r' : Registry) (target : Local) (ty : Ty) : Prop :=
  ∃ finality entries leaders,
    r' = { r with
      types := r.types.insert target ty
      minTypes := r.minTypes.insert target ty
      finalities := r.finalities.insert target finality
      debugEntries := entries
      leaders := leaders } ∧
    ∀ v, v ≠ target → entries.get? v = r.debugEntries.get? v

namespace Method

open Decompiler.Graph

variable {g g' : Graph} {m m' : Method} {source target : Local} {ty : Ty}

theorem mergeKnown_updates {r r' : Registry} {bothStored : Bool}
    (h : mergeKnown r source target ty bothStored = .ok r') : r.Updates r' target ty := by
  simp only [mergeKnown, Registry.recordMerge, Checked.bind_eq_ok, Checked.pure_eq_ok] at h
  obtain ⟨leaders, -, rfl⟩ := h
  refine ⟨_, _, leaders, rfl, fun v hv => ?_⟩
  split
  · rw [Table.get?_insert, if_neg (Ne.symm hv)]
  · rfl

/-- All that a merge does, if it is not refused. -/
theorem unify_unites (h : m.unify source target = .ok (m', .merged)) : ∃ ty,
    m.sharedType? source target = .ok (some ty) ∧ m.graph.Unites m'.graph source target ty ∧
      m.vars.Updates m'.vars target ty := by
  obtain ⟨hne, -, ty, nodes, _, _, hty, hnodes, -, -, hgraph, hvars⟩ := unify_inv h
  exact ⟨ty, hty, renameOccurrences_unites (fun n => mem_ownedNodes hnodes) hne hgraph,
    mergeKnown_updates hvars⟩

/-- **A merge does all or nothing.** It is an error exactly if the two variables are the same, and
otherwise refused exactly if they have no type in common or no statement evaluates an occurrence of
`source`; in both cases the method is as it was. If it is not refused, no occurrence of `source` is
left in the tree. The declarations of `source` are dropped, but for those that a statement evaluates
as well. Leaders are acyclic as long as nothing but merging changes them
(`Leaders.acyclic_of_merges`), and stay so. -/
theorem unify_allOrNothing (m : Method) (source target : Local) (hw : m.graph.WellFormed)
    (he : m.graph.ExprsGrounded) (hd : m.graph.DeclaresVariables) (ha : m.vars.leaders.Acyclic) :
    Returns (m.unify source target) fun r =>
      (r.2 = .ontoItself ↔ source = target) ∧
      (r.2 = .refused ↔ source ≠ target ∧
        (m.sharedType? source target = .ok none ∨ ∀ e, ¬ m.graph.OccursAt source e)) ∧
      (r.2 ≠ .merged → r.1 = m) ∧
      (r.2 = .merged →
        Returns (do r.1.graph.refsInAll (← r.1.graph.exprsIn root))
          (fun l => ∀ v ∈ l, v.2.var ≠ source) ∧
        (∀ e, r.1.graph.local? e = .ok (some source) ↔
          m.graph.local? e = .ok (some source) ∧ ¬ m.graph.OccursAt source e) ∧
        r.1.vars.leaders.Acyclic ∧
        ∃ ty, m.sharedType? source target = .ok (some ty) ∧
          m.graph.Unites r.1.graph source target ty ∧ m.vars.Updates r.1.vars target ty) := by
  have hL := legible_of_wellFormed hw he
  by_cases hne : source = target
  · exact ⟨(m, .ontoItself), by simp [unify, hne], by simp [hne], by simp [hne], by simp, by simp⟩
  · obtain ⟨r, hu, rfl | ⟨m', rfl⟩⟩ := unify_total hL ha hne
    · exact ⟨_, hu, by simp [hne], by simpa [hne] using (unify_refused hu).2, by simp, by simp⟩
    · obtain ⟨ty, hty, hunites, hupdates⟩ := unify_unites hu
      obtain ⟨y, hy⟩ := (unify_inv hu).2.1
      refine ⟨_, hu, by simp [hne], ?_, by simp, fun _ => ?_⟩
      · simp only [reduceCtorEq, hty, false_iff, not_and, not_or, not_forall, not_not]
        exact fun _ => ⟨by simp, y, hy⟩
      · refine ⟨?_, fun e => hunites.local?_source_iff hne, unify_acyclic ha hu, ty, hty, hunites,
          hupdates⟩
        have hL' := (unify_folds hL hu).2.1.legible hL
        obtain ⟨l, hl, hground⟩ := hL'.exprsIn .refl
        obtain ⟨refs, hrefs⟩ := refsInAll_returns hground
        refine ⟨refs, by simp [hl, hrefs], fun v hv hsource => ?_⟩
        obtain ⟨top, htop, hreach, hexpr⟩ := (mem_refsInAll hrefs).1 hv
        obtain ⟨s, hs, hholds⟩ := (hL'.forest.mem_exprsIn .refl hl).1 htop
        exact hunites.local?_ne_source hne hd ⟨s, top, hs, hholds, hreach⟩
          (local?_eq_ok.2 ⟨v.2, hexpr, hsource⟩)

/-- A leaf with `int v5; v3 = 0; v5 = v3`, in a sequence with the given declarations. Two nodes are
there to be declared: one of `v5` at 7, and one of `v3` at 8, which has the type `byte`. -/
def declaring (declared : List ExprId) : Method where
  graph :=
    { stats := ⟨#[
        ⟨.exit, none, none, [], [], [], [], []⟩,
        ⟨.root, none, some ⟨3⟩, [⟨3⟩], [], [], [], []⟩,
        ⟨.block [⟨0⟩, ⟨3⟩, ⟨6⟩], some ⟨3⟩, none, [], [], [], [], []⟩,
        ⟨.sequence, some ⟨1⟩, some ⟨2⟩, [⟨2⟩], declared, [], [], []⟩]⟩
      edges := .empty
      exprs :=
        let occurrence (index : ℕ) (base : Base) (marked : Bool) : Expr :=
          .var ⟨⟨index, 0⟩, ⟨base, 0⟩, marked, false, none⟩
        ⟨#[
          ⟨occurrence 5 .int true, .empty⟩,
          ⟨occurrence 3 .int false, .empty⟩,
          ⟨.const ⟨.int, 0⟩ (.int 0), .empty⟩,
          ⟨.assign ⟨1⟩ ⟨2⟩, .empty⟩,
          ⟨occurrence 5 .int false, .empty⟩,
          ⟨occurrence 3 .int false, .empty⟩,
          ⟨.assign ⟨4⟩ ⟨5⟩, .empty⟩,
          ⟨occurrence 5 .int true, .empty⟩,
          ⟨occurrence 3 .byte true, .empty⟩]⟩ }
  vars := .empty

/-- The declaration in the leaf and the one in the sequence are dropped. -/
theorem unify_allOrNothing_declaring :
    (declaring [⟨7⟩, ⟨8⟩]).graph.WellFormed ∧ (declaring [⟨7⟩, ⟨8⟩]).graph.ExprsGrounded ∧
      (declaring [⟨7⟩, ⟨8⟩]).graph.DeclaresVariables ∧
      Returns ((declaring [⟨7⟩, ⟨8⟩]).unify ⟨5, 0⟩ ⟨3, 0⟩) fun r => r.2 = .merged ∧
        Returns (do r.1.graph.refsInAll (← r.1.graph.exprsIn root))
            (fun l => ∀ v ∈ l, v.2.var ≠ ⟨5, 0⟩) ∧
          (∃ ty, (declaring [⟨7⟩, ⟨8⟩]).graph.Unites r.1.graph ⟨5, 0⟩ ⟨3, 0⟩ ty ∧
            (declaring [⟨7⟩, ⟨8⟩]).vars.Updates r.1.vars ⟨3, 0⟩ ty) ∧
          Returns (r.1.graph.stat ⟨2⟩) (fun st => st.exprs? = some [⟨3⟩, ⟨6⟩]) ∧
          Returns (r.1.graph.stat ⟨3⟩) fun st => st.declarations = [⟨8⟩] := by
  have hw : (declaring [⟨7⟩, ⟨8⟩]).graph.WellFormed := by decide +kernel
  have he : (declaring [⟨7⟩, ⟨8⟩]).graph.ExprsGrounded := by decide +kernel
  have hd : (declaring [⟨7⟩, ⟨8⟩]).graph.DeclaresVariables := by decide +kernel
  have hlists : Returns ((declaring [⟨7⟩, ⟨8⟩]).unify ⟨5, 0⟩ ⟨3, 0⟩) fun r => r.2 = .merged ∧
      Returns (r.1.graph.stat ⟨2⟩) (fun st => st.exprs? = some [⟨3⟩, ⟨6⟩]) ∧
        Returns (r.1.graph.stat ⟨3⟩) fun st => st.declarations = [⟨8⟩] := by decide +kernel
  have ha : (declaring [⟨7⟩, ⟨8⟩]).vars.leaders.Acyclic :=
    Returns.pure_iff.1 (Leaders.acyclic_of_merges [])
  refine ⟨hw, he, hd, ?_⟩
  obtain ⟨r, hr, -, -, -, hmerged⟩ :=
    unify_allOrNothing (declaring [⟨7⟩, ⟨8⟩]) ⟨5, 0⟩ ⟨3, 0⟩ hw he hd ha
  obtain ⟨r', hr', hdone, hstats⟩ := hlists
  obtain rfl := Except.ok.inj (hr.symm.trans hr')
  obtain ⟨hgone, -, -, ty, -, hunites, hupdates⟩ := hmerged hdone
  exact ⟨r, hr, hdone, hgone, ⟨ty, hunites, hupdates⟩, hstats⟩

/-- A declaration of the variable that goes away stays where it is, if it is an occurrence that a
statement evaluates. It then declares the variable that stays. -/
theorem not_dropped_of_shared_declaration :
    (declaring [⟨4⟩]).graph.WellFormed ∧ (declaring [⟨4⟩]).graph.ExprsGrounded ∧
      (declaring [⟨4⟩]).graph.DeclaresVariables ∧ (declaring [⟨4⟩]).vars.leaders.Acyclic ∧
      (declaring [⟨4⟩]).graph.ListsDeclaration ⟨3⟩ ⟨4⟩ ∧
      (declaring [⟨4⟩]).graph.local? ⟨4⟩ = .ok (some ⟨5, 0⟩) ∧
      Returns ((declaring [⟨4⟩]).unify ⟨5, 0⟩ ⟨3, 0⟩) fun r => r.2 = .merged ∧
        r.1.graph.ListsDeclaration ⟨3⟩ ⟨4⟩ ∧ r.1.graph.local? ⟨4⟩ = .ok (some ⟨3, 0⟩) := by
  decide +kernel

end Method

/-! ## One type -/

/-- All occurrences of a variable in the tree have the type. -/
def Graph.Carries (g : Graph) (v : Local) (ty : Ty) : Prop :=
  ∀ e w, g.Lies e → g.expr e = .ok (.var w) → w.var = v → w.ty = ty

namespace Method

open Decompiler.Graph

/-- **A merged variable has one type where it had it before.** The occurrences that a merge finds
get its type, and so do declarations. Other occurrences of the variable that stays keep the type
they have. So all occurrences have the one type that is known of the variable exactly if these had
it before. -/
theorem unify_carries_iff (m m' : Method) (source target : Local)
    (h : m.unify source target = .ok (m', .merged)) :
    ∃ ty, m.sharedType? source target = .ok (some ty) ∧ m'.vars.types.get? target = some ty ∧
      m'.vars.minTypes.get? target = some ty ∧
      (m'.graph.Carries target ty ↔ ∀ e v, m.graph.Lies e → m.graph.expr e = .ok (.var v) →
        v.var = target → ¬ m.graph.Listed e → v.ty = ty) := by
  have hne := (unify_inv h).1
  obtain ⟨ty, hty, u, finality, entries, leaders, hvars, -⟩ := unify_unites h
  refine ⟨ty, hty, by simp [hvars, Table.get?_insert], by simp [hvars, Table.get?_insert], ?_⟩
  constructor
  · intro hcarries e v hlies hv htarget hlisted
    have hsource : m.graph.local? e ≠ .ok (some source) := fun hsource => by
      obtain ⟨w, hw, hws⟩ := local?_eq_ok.1 hsource
      obtain rfl := Expr.var.inj (Except.ok.inj (hv.symm.trans hw))
      exact hne (hws.symm.trans htarget)
    refine hcarries e v (u.lies_of_ne hne hlies hsource) (u.others e v hv ?_ fun _ => hlisted)
      htarget
    exact fun hs => absurd (hs.symm.trans htarget) hne
  · intro hbefore e w hlies hw htarget
    obtain ⟨v, hv, ⟨-, rfl⟩ | ⟨-, -, rfl⟩ | ⟨-, hrest, rfl⟩⟩ := u.var_cases hw
    · rfl
    · rfl
    · exact hbefore e w (u.lies hlies) hv htarget fun hlisted => hrest ⟨htarget, hlisted⟩

/-- A declaration of `v3` that has the type `byte` becomes one of type `int`. -/
theorem unify_carries_iff_declaring :
    Returns ((declaring [⟨7⟩, ⟨8⟩]).unify ⟨5, 0⟩ ⟨3, 0⟩) fun r => r.2 = .merged ∧
      r.1.graph.Carries ⟨3, 0⟩ ⟨.int, 0⟩ := by
  have hmerged : Returns ((declaring [⟨7⟩, ⟨8⟩]).unify ⟨5, 0⟩ ⟨3, 0⟩) fun r => r.2 = .merged ∧
      r.1.vars.types.get? ⟨3, 0⟩ = some ⟨.int, 0⟩ := by decide +kernel
  have hbefore : ∀ e ∈ (declaring [⟨7⟩, ⟨8⟩]).graph.exprs.ids,
      Returns ((declaring [⟨7⟩, ⟨8⟩]).graph.var? e) fun w => ∀ v ∈ w, v.var = ⟨3, 0⟩ →
        e = ⟨8⟩ ∨ v.ty = ⟨.int, 0⟩ := by decide +kernel
  have hlisted : (declaring [⟨7⟩, ⟨8⟩]).graph.Listed ⟨8⟩ :=
    ⟨⟨3⟩, .single ⟨_, rfl, by decide +kernel⟩, by decide +kernel⟩
  obtain ⟨⟨m', _⟩, hu, rfl, htypes⟩ := hmerged
  obtain ⟨ty, -, hty, -, hiff⟩ := unify_carries_iff _ m' _ _ hu
  obtain rfl : ty = ⟨.int, 0⟩ := Option.some.inj (hty.symm.trans htypes)
  refine ⟨_, hu, rfl, hiff.2 fun e v _ hv htarget hnot => ?_⟩
  obtain ⟨n, hn, -⟩ := expr_eq_ok.1 hv
  obtain ⟨w, hw, hall⟩ := hbefore e (Arena.mem_ids.2 ⟨n, hn⟩)
  obtain rfl := Except.ok.inj (hw.symm.trans (var?_eq_ok.2 hv))
  rcases hall v rfl htarget with rfl | hty
  · exact absurd hlisted hnot
  · exact hty

/-- `v3 = 7; v5 = 300; Out.print(v5)`, where `v3` is a `byte` and `v5` an `int`. -/
def narrower : Method where
  graph :=
    { stats := ⟨#[
        ⟨.exit, none, none, [], [], [], [], []⟩,
        ⟨.root, none, some ⟨2⟩, [⟨2⟩], [], [], [], []⟩,
        ⟨.block [⟨2⟩, ⟨5⟩, ⟨7⟩], some ⟨1⟩, none, [], [], [], [], []⟩]⟩
      edges := .empty
      exprs :=
        let occurrence (index : ℕ) (base : Base) : Expr :=
          .var ⟨⟨index, 0⟩, ⟨base, 0⟩, false, false, none⟩
        ⟨#[
          ⟨occurrence 3 .byte, .empty⟩,
          ⟨.const ⟨.byte, 0⟩ (.int 7), .empty⟩,
          ⟨.assign ⟨0⟩ ⟨1⟩, .empty⟩,
          ⟨occurrence 5 .int, .empty⟩,
          ⟨.const ⟨.int, 0⟩ (.int 300), .empty⟩,
          ⟨.assign ⟨3⟩ ⟨4⟩, .empty⟩,
          ⟨occurrence 5 .int, .empty⟩,
          ⟨.call ⟨"Out", "print", "(I)V", none, [⟨6⟩]⟩, .empty⟩]⟩ }
  vars := { Registry.empty with
    minTypes := .ofList [(⟨3, 0⟩, ⟨.byte, 0⟩), (⟨5, 0⟩, ⟨.int, 0⟩)] }

/-- The variable that stays becomes an `int`, but its own occurrence is still a `byte`. -/
theorem not_carries_of_narrower_occurrence :
    narrower.graph.WellFormed ∧ narrower.graph.ExprsGrounded ∧
      Returns (narrower.unify ⟨5, 0⟩ ⟨3, 0⟩) fun r => r.2 = .merged ∧
        r.1.vars.types.get? ⟨3, 0⟩ = some ⟨.int, 0⟩ ∧
          r.1.vars.minTypes.get? ⟨3, 0⟩ = some ⟨.int, 0⟩ ∧
          Returns (do r.1.graph.refsInAll (← r.1.graph.exprsIn root)) fun l =>
            ∃ v ∈ l, v.2.var = ⟨3, 0⟩ ∧ v.2.ty = ⟨.byte, 0⟩ := by
  decide +kernel

end Method

end Decompiler

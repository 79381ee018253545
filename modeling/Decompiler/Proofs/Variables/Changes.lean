import Decompiler.Proofs.Variables.Unifying

/-!
# Changes of graphs, one expression and one statement at a time

The steps of a merge change each expression and each statement on its own: an expression in view of
where it stands, and a statement by taking expressions out of its lists. So all of a merge comes to
two functions, one on expressions and one on statements.

* `Stat.without`: a statement with shorter lists.
* `Graph.Maps`: what becomes of every expression and of every statement. Such changes compose
  (`Graph.Maps.trans`), so that a fold is such a change as well.
* `Graph.Maps.foldlM_dropBareDeclarations`, `Graph.Maps.foldlM_mergeDeclarations`: the two passes
  over the declarations.
-/

namespace Decompiler

/-! ## Parts of a change -/

/-- An occurrence that is made one of `target`. -/
def VarRef.rename (target : Local) (ty : Ty) (v : VarRef) : VarRef :=
  { v with var := target, ty := ty, isDefinition := false }

/-- An occurrence that gets a type if it is one of `target`. -/
def VarRef.retype (target : Local) (ty : Ty) (v : VarRef) : VarRef :=
  if v.var = target then { v with ty := ty } else v

/-- A constant gets a type. -/
def Expr.retypeConst (ty : Ty) : Expr → Expr
  | .const _ value => .const ty value
  | e => e

/-- The statement without some expressions of its list, if it is a leaf, and without some
declarations. -/
def Stat.without (bare declared : ExprId → Bool) (st : Stat) : Stat :=
  { st.withExprs (st.kind.exprs.filter fun e => !bare e) with
    declarations := st.declarations.filter fun e => !declared e }

namespace Expr

variable {source target : Local} {ty : Ty} {x : Expr}

theorem mapVar_rename_idem :
    (x.mapVar (.rename target ty)).mapVar (.rename target ty) = x.mapVar (.rename target ty) := by
  cases x <;> rfl

theorem retypeConst_idem : (x.retypeConst ty).retypeConst ty = x.retypeConst ty := by
  cases x <;> rfl

theorem mapVar_retype_idem :
    (x.mapVar (.retype target ty)).mapVar (.retype target ty) = x.mapVar (.retype target ty) := by
  cases x with
  | var v => by_cases h : v.var = target <;> simp [mapVar, VarRef.retype, h]
  | _ => rfl

theorem local?_mapVar_retype : (x.mapVar (.retype target ty)).local? = x.local? := by
  cases x with
  | var v => by_cases h : v.var = target <;> simp [mapVar, VarRef.retype, h, local?, var?]
  | _ => rfl

theorem local?_ite_retype {p : Prop} [Decidable p] :
    (if p then x.mapVar (.retype target ty) else x).local? = x.local? := by
  split
  · exact local?_mapVar_retype
  · rfl

theorem mapVar_retype_of_ne (h : x.local? ≠ some target) : x.mapVar (.retype target ty) = x := by
  cases x with
  | var v =>
    have hv : v.var ≠ target := fun hv => h (congrArg some hv)
    simp [mapVar, VarRef.retype, hv]
  | _ => rfl

theorem mapVar_retype_of_source (hne : source ≠ target) (h : x.local? = some source) :
    x.mapVar (.retype target ty) = x :=
  mapVar_retype_of_ne fun htarget => hne (Option.some.inj (h.symm.trans htarget))

end Expr

namespace Stat

variable {st : Stat} {bare declared bare' declared' : ExprId → Bool}

@[simp] theorem first_without : (st.without bare declared).first = st.first := by
  obtain ⟨kind, -⟩ := st
  cases kind <;> rfl

@[simp] theorem children_without : (st.without bare declared).children = st.children := by
  obtain ⟨kind, -⟩ := st
  cases kind <;> rfl

@[simp] theorem parent_without : (st.without bare declared).parent = st.parent := by
  obtain ⟨kind, -⟩ := st
  cases kind <;> rfl

@[simp] theorem mem_declarations_without {e : ExprId} :
    e ∈ (st.without bare declared).declarations ↔ e ∈ st.declarations ∧ declared e = false := by
  simp [without]

theorem mem_exprs_of_without {e : ExprId} (h : e ∈ (st.without bare declared).kind.exprs) :
    e ∈ st.kind.exprs := by
  obtain ⟨kind, parent, first, children, declarations, successors, predecessors, labels⟩ := st
  cases kind with
  | block l => exact List.mem_of_mem_filter h
  | _ => exact h

theorem mem_exprs_without {e : ExprId} (h : e ∈ st.kind.exprs) (he : bare e = false) :
    e ∈ (st.without bare declared).kind.exprs := by
  obtain ⟨kind, parent, first, children, declarations, successors, predecessors, labels⟩ := st
  cases kind with
  | block l => exact List.mem_filter.2 ⟨h, by rw [he]; rfl⟩
  | _ => exact h

theorem without_without : (st.without bare declared).without bare' declared' =
    st.without (fun e => bare e || bare' e) fun e => declared e || declared' e := by
  obtain ⟨kind, -⟩ := st
  cases kind <;> simp [without, withExprs, StatKind.exprs, List.filter_filter, Bool.and_comm]

theorem without_congr (h : ∀ e ∈ st.kind.exprs, bare e = bare' e)
    (h' : ∀ e ∈ st.declarations, declared e = declared' e) :
    st.without bare declared = st.without bare' declared' := by
  have hexprs : (st.kind.exprs.filter fun e => !bare e) =
      st.kind.exprs.filter fun e => !bare' e :=
    List.filter_congr fun e he => by rw [h e he]
  have hdeclarations : (st.declarations.filter fun e => !declared e) =
      st.declarations.filter fun e => !declared' e :=
    List.filter_congr fun e he => by rw [h' e he]
  rw [without, without, hexprs, hdeclarations]

theorem without_eq_withExprs {l : List ExprId} (h : st.exprs? = some l) :
    st.without bare (fun _ => false) = st.withExprs (l.filter fun e => !bare e) := by
  obtain ⟨kind, parent, first, children, declarations, successors, predecessors, labels⟩ := st
  cases kind <;> cases h
  simp [without, withExprs, StatKind.exprs]

theorem without_of_exprs?_none (h : st.exprs? = none) :
    st.without bare (fun _ => false) = st := by
  obtain ⟨kind, parent, first, children, declarations, successors, predecessors, labels⟩ := st
  cases kind <;> cases h <;> simp [without, withExprs]

theorem without_eq_withDeclarations : st.without (fun _ => false) declared =
    { st with declarations := st.declarations.filter fun e => !declared e } := by
  obtain ⟨kind, -⟩ := st
  cases kind <;> simp [without, withExprs, StatKind.exprs]

theorem without_none : (st.without (fun _ => false) fun _ => false) = st := by
  simp [without_eq_withDeclarations]

end Stat

namespace Graph

variable {g g' g'' : Graph} {s : StatId} {e y : ExprId} {x : Expr} {source target : Local} {ty : Ty}
  {F F' : ExprId → Expr → Expr} {G G' : StatId → Stat → Stat}

instance (g : Graph) (s : StatId) (e : ExprId) : Decidable (g.ListsDeclaration s e) :=
  inferInstanceAs (Decidable (Returns _ _))

/-- Expressions and statements change as `F` and `G` say, but for offsets, and edges do not. -/
structure Maps (g g' : Graph) (F : ExprId → Expr → Expr) (G : StatId → Stat → Stat) : Prop where
  /-- The expressions. -/
  expr : ∀ e, g'.expr e = (g.expr e).map (F e)
  /-- The statements. -/
  stat : ∀ s, g'.stat s = (g.stat s).map (G s)
  /-- The edges. -/
  edges : g'.edges = g.edges

namespace Maps

theorem refl (g : Graph) : Maps g g (fun _ x => x) fun _ st => st := by
  refine ⟨fun e => ?_, fun s => ?_, rfl⟩
  · cases g.expr e <;> rfl
  · cases g.stat s <;> rfl

theorem trans (h : Maps g g' F G) (h' : Maps g' g'' F' G') :
    Maps g g'' (fun e x => F' e (F e x)) fun s st => G' s (G s st) := by
  refine ⟨fun e => ?_, fun s => ?_, h'.edges.trans h.edges⟩
  · rw [h'.expr, h.expr]
    cases g.expr e <;> rfl
  · rw [h'.stat, h.stat]
    cases g.stat s <;> rfl

theorem congr (h : Maps g g' F G) (hF : ∀ e x, g.expr e = .ok x → F e x = F' e x)
    (hG : ∀ s st, g.stat s = .ok st → G s st = G' s st) : Maps g g' F' G' := by
  refine ⟨fun e => ?_, fun s => ?_, h.edges⟩
  · rw [h.expr]
    cases hx : g.expr e with
    | error _ => rfl
    | ok x => exact congrArg Except.ok (hF e x hx)
  · rw [h.stat]
    cases hst : g.stat s with
    | error _ => rfl
    | ok st => exact congrArg Except.ok (hG s st hst)

/-- A change of one statement is given by what becomes of it. -/
theorem congr_at {f f' : Stat → Stat} {st : Stat} (hst : g.stat s = .ok st) (hf : f st = f' st)
    (h : Maps g g' F fun t tt => if s = t then f tt else tt) :
    Maps g g' F fun t tt => if s = t then f' tt else tt := by
  refine h.congr (fun _ _ _ => rfl) fun t tt htt => ?_
  split
  · next hs =>
    subst hs
    rw [hst] at htt
    cases htt
    exact hf
  · rfl

theorem of_node {n : ExprNode} {f : Expr → Expr} {o : Offsets} (hn : g.node y = .ok n)
    (hx : ∀ e, g'.node e = if y = e then .ok ⟨f n.expr, o⟩ else g.node e)
    (hstats : g'.stats = g.stats) (hedges : g'.edges = g.edges) :
    Maps g g' (fun e x => if y = e then f x else x) fun _ st => st := by
  refine ⟨fun e => ?_, fun s => ?_, hedges⟩
  · rw [Graph.expr, hx, Graph.expr]
    split
    · next he =>
      subst he
      rw [hn]
      rfl
    · cases g.node e <;> rfl
  · rw [Graph.stat, hstats, Graph.stat]
    cases g.stats.get s <;> rfl

theorem modifyExpr {f : Expr → Expr} (h : g.modifyExpr y f = .ok g') :
    Maps g g' (fun e x => if y = e then f x else x) fun _ st => st := by
  obtain ⟨n, hn, hx, hstats, hedges, -⟩ := node_modifyExpr h
  exact of_node hn hx hstats hedges

theorem absorb (h : g.absorb y e = .ok g') : Maps g g' (fun _ z => z) fun _ st => st := by
  obtain ⟨u, -, h⟩ := Checked.bind_eq_ok.1 h
  obtain ⟨n, hn, hx, hstats, hedges, -⟩ := node_addOffsets h
  exact (of_node (f := id) hn hx hstats hedges).congr (fun _ _ _ => ite_self _) fun _ _ _ => rfl

theorem modifyStat {f : Stat → Stat} (h : g.modifyStat s f = .ok g') :
    Maps g g' (fun _ x => x) fun t st => if s = t then f st else st := by
  obtain ⟨st, hst, ht, hedges, hx⟩ := stat_modifyStat h
  refine ⟨fun e => ?_, fun t => ?_, hedges⟩
  · rw [Graph.expr, node, hx, Graph.expr, node]
    cases g.exprs.get e <;> rfl
  · rw [ht]
    split
    · next hs =>
      subst hs
      rw [hst]
      rfl
    · cases g.stat t <;> rfl

/-- What is read of a statement afterwards. -/
theorem returns_stat {P : Stat → Prop} (h : Maps g g' F G) :
    Returns (g'.stat s) P ↔ Returns (g.stat s) fun st => P (G s st) := by
  rw [h.stat]
  cases g.stat s <;> simp [Returns, Except.map]

theorem local?_eq (h : Maps g g' F G) (hF : ∀ x, (F e x).local? = x.local?) :
    g'.local? e = g.local? e := by
  rw [local?, h.expr, local?]
  cases g.expr e with
  | error _ => rfl
  | ok x => exact congrArg Except.ok (hF x)

theorem inTree_iff (h : Maps g g' F fun _ st => st) : g'.InTree s ↔ g.InTree s := by
  refine SameLinks.inTree_iff fun s => ?_
  rw [links, links, h.stat]
  cases g.stat s <;> rfl

/-- The same change of several expressions. -/
theorem foldlM_modifyExpr {α : Type} {l : List α} {i : α → ExprId} {f : Expr → Expr}
    (hf : ∀ x, f (f x) = f x) (h : l.foldlM (fun g a => g.modifyExpr (i a) f) g = .ok g') :
    Maps g g' (fun e x => if e ∈ l.map i then f x else x) fun _ st => st := by
  induction l generalizing g with
  | nil =>
    cases Checked.pure_eq_ok.1 h
    exact (refl _).congr (fun _ _ _ => rfl) fun _ _ _ => rfl
  | cons a l ih =>
    rw [List.foldlM_cons, Checked.bind_eq_ok] at h
    obtain ⟨g₁, h₁, h⟩ := h
    refine ((modifyExpr h₁).trans (ih h)).congr (fun e x _ => ?_) fun _ _ _ => rfl
    have hmem : e ∈ (a :: l).map i ↔ i a = e ∨ e ∈ l.map i := by
      rw [List.map_cons, List.mem_cons, eq_comm]
    simp only [hmem]
    by_cases ha : i a = e <;> by_cases hl : e ∈ l.map i <;>
      simp only [ha, hl, hf, if_true, if_false, or_true, or_false]

end Maps

/-! ## Shorter lists -/

/-- Expressions are dropped from a list, which does nothing to expressions but for offsets. -/
theorem Maps.dropFrom {doomed : ExprId → Checked Bool} {kept l left : List ExprId}
    (h : dropFrom doomed false g kept l = .ok (g', left)) :
    Maps g g' (fun _ z => z) (fun _ st => st) ∧
      left = kept.reverse ++ l.filter fun e => !decide (doomed e = .ok true) := by
  induction l generalizing g kept with
  | nil =>
    cases Checked.pure_eq_ok.1 h
    exact ⟨.refl _, by simp⟩
  | cons e rest ih =>
    obtain ⟨b, hb, h⟩ := Checked.bind_eq_ok.1 h
    cases b with
    | false => simpa [hb] using ih h
    | true =>
      simp only [Bool.false_and, Bool.not_true, Bool.or_false, Bool.false_eq_true, if_false] at h
      split at h
      · obtain ⟨g₁, h₁, h⟩ := Checked.bind_eq_ok.1 h
        obtain ⟨hmaps, hleft⟩ := ih h
        exact ⟨(Maps.absorb h₁).trans hmaps, by simpa [hb] using hleft⟩
      · simpa [hb] using ih h

/-- A leaf loses the expressions that are given with it. -/
theorem Maps.dropBareDeclarations {bare : List (StatId × ExprId)}
    (h : dropBareDeclarations bare g s = .ok g') : Maps g g' (fun _ z => z) fun t st =>
      if s = t then st.without (fun e => (s, e) ∈ bare) fun _ => false else st := by
  obtain ⟨st, hst, h⟩ := Checked.bind_eq_ok.1 h
  have hbare : ∀ e, e ∈ (bare.filter fun b => b.1 = s).map Prod.snd ↔ (s, e) ∈ bare := by
    simp
  split at h
  · next exprs _ hexprs =>
    obtain ⟨⟨g₁, left⟩, h₁, h₂⟩ := Checked.bind_eq_ok.1 h
    obtain ⟨hmaps, rfl⟩ := Maps.dropFrom h₁
    refine (hmaps.trans (.modifyStat h₂)).congr_at hst ?_
    simp [Stat.without_eq_withExprs hexprs, hbare]
  · next hnone =>
    cases Checked.pure_eq_ok.1 h
    have hsame : Maps g g (fun _ z => z) fun t tt => if s = t then tt else tt :=
      (Maps.refl g).congr (fun _ _ _ => rfl) fun _ _ _ => (ite_self _).symm
    refine hsame.congr_at hst ?_
    cases hexprs : st.exprs? with
    | none => exact (Stat.without_of_exprs?_none hexprs).symm
    | some exprs =>
      have hnot : ∀ e, (s, e) ∉ bare := fun e he => by
        obtain ⟨x, rest, hx⟩ := List.exists_cons_of_ne_nil (List.ne_nil_of_mem ((hbare e).2 he))
        exact hnone x rest exprs hx hexprs
      rw [Stat.without_congr (fun e _ => decide_eq_false (hnot e)) fun _ _ => rfl,
        Stat.without_none]

/-- All leaves lose the expressions that are given with them. -/
theorem Maps.foldlM_dropBareDeclarations {bare : List (StatId × ExprId)} {l : List StatId}
    (h : l.foldlM (Graph.dropBareDeclarations bare) g = .ok g') :
    Maps g g' (fun _ z => z) fun t st =>
      if t ∈ l then st.without (fun e => (t, e) ∈ bare) fun _ => false else st := by
  induction l generalizing g with
  | nil =>
    cases Checked.pure_eq_ok.1 h
    exact (Maps.refl _).congr (fun _ _ _ => rfl) fun _ _ _ => rfl
  | cons s l ih =>
    rw [List.foldlM_cons, Checked.bind_eq_ok] at h
    obtain ⟨g₁, h₁, h⟩ := h
    refine ((Maps.dropBareDeclarations h₁).trans (ih h)).congr (fun _ _ _ => rfl) fun t st _ => ?_
    by_cases hs : s = t
    · subst hs
      by_cases hl : s ∈ l <;> simp [hl, Stat.without_without]
    · simp [hs, Ne.symm hs]

/-- The declarations of `source` in a statement are dropped, and those of `target` get a type. -/
theorem Maps.mergeDeclarations (hne : source ≠ target)
    (h : mergeDeclarations source target ty g s = .ok g') : Maps g g'
      (fun e x => if g.ListsDeclaration s e then x.mapVar (.retype target ty) else x) fun t st =>
        if s = t then st.without (fun _ => false) fun e => g.local? e = .ok (some source)
        else st := by
  simp only [Graph.mergeDeclarations, Checked.bind_eq_ok] at h
  obtain ⟨st, hst, ⟨g₁, left⟩, h₁, g₂, h₂, h₃⟩ := h
  obtain ⟨hmaps₁, rfl⟩ := Maps.dropFrom h₁
  have hmaps₂ := Maps.foldlM_modifyExpr (i := id) (fun x => Expr.mapVar_retype_idem) h₂
  have hmaps : Maps g g' _ fun t tt => if s = t then
      tt.without (fun _ => false) fun e => g.local? e = .ok (some source) else tt :=
    (hmaps₁.trans (hmaps₂.trans (.modifyStat h₃))).congr_at hst
      (by simp [Stat.without_eq_withDeclarations])
  refine hmaps.congr (fun e x hx => ?_) fun _ _ _ => rfl
  have hlocal : g.local? e = .ok x.local? := by simp [local?, hx]
  by_cases hsource : x.local? = some source
  · -- a declaration of `source` is dropped, and would not get the type
    simp only [Expr.mapVar_retype_of_source hne hsource, ite_self]
  · have hlist : g.ListsDeclaration s e ↔ e ∈ st.declarations := by
      rw [ListsDeclaration, hst, Returns.ok_iff]
    simp [hlist, hlocal, hsource]

/-- The declarations of `source` are dropped, and those of `target` get a type. -/
theorem Maps.foldlM_mergeDeclarations (hne : source ≠ target) {l : List StatId}
    (h : l.foldlM (Graph.mergeDeclarations source target ty) g = .ok g') : Maps g g'
      (fun e x => if ∃ s ∈ l, g.ListsDeclaration s e then x.mapVar (.retype target ty) else x)
      fun t st =>
        if t ∈ l then st.without (fun _ => false) fun e => g.local? e = .ok (some source)
        else st := by
  induction l generalizing g with
  | nil =>
    cases Checked.pure_eq_ok.1 h
    exact (Maps.refl _).congr (fun _ _ _ => by simp) fun _ _ _ => rfl
  | cons s l ih =>
    rw [List.foldlM_cons, Checked.bind_eq_ok] at h
    obtain ⟨g₁, h₁, h⟩ := h
    have hstep := Maps.mergeDeclarations hne h₁
    have hlocal : ∀ e, g₁.local? e = g.local? e := fun e =>
      hstep.local?_eq fun x => Expr.local?_ite_retype
    refine (hstep.trans (ih h)).congr (fun e x hx => ?_) fun t st hst => ?_
    · have hx' : g.local? e = .ok x.local? := by simp [local?, hx]
      by_cases hsource : x.local? = some source
      · simp only [Expr.mapVar_retype_of_source hne hsource, ite_self]
      · -- it stands in the same lists as before
        have hlist : ∀ t, g₁.ListsDeclaration t e ↔ g.ListsDeclaration t e := fun t => by
          rw [ListsDeclaration, hstep.returns_stat, ListsDeclaration]
          split <;> simp [hx', hsource]
        by_cases hs : g.ListsDeclaration s e <;> by_cases hl : ∃ t ∈ l, g.ListsDeclaration t e <;>
          simp only [hlist, hs, hl, List.mem_cons, exists_eq_or_imp, Expr.mapVar_retype_idem,
            if_true, if_false, or_true, or_false]
    · by_cases hs : s = t
      · subst hs
        by_cases hl : s ∈ l <;> simp [hl, hlocal, Stat.without_without]
      · simp [hs, Ne.symm hs, hlocal]

end Graph

end Decompiler

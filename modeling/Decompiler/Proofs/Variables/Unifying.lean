import Decompiler.Proofs.Variables.Declared
import Decompiler.Proofs.Leaders

/-!
# A variable that is merged is declared no more

Merging one variable into another comes to a result, and afterwards no expression declares the one
that went away. What else is declared was declared before, and what else occurs still does.

* `Graph.Owned`: the nodes that are renamed are those below the expressions that statements
  evaluate.
* `Graph.Trims`: lists lose expressions, and nothing else happens but changes of types and offsets.
* `Graph.Folds`: what a merge does to a graph (`Method.renameOccurrences_folds`).
* `Method.unify_returns`, `Method.unify_eq_merged`: all of a merge.
-/

namespace Decompiler

open Relation

/-- A change of the type of a variable is none of the outline. -/
theorem Expr.mapVar_ty_outline (target : Local) (ty : Ty) (x : Expr) : (x.mapVar fun v =>
    if v.var = target then { v with ty := ty } else v).outline = x.outline := by
  cases x with
  | var v =>
    simp only [Expr.mapVar]
    split <;> rfl
  | _ => rfl

/-! ## Shorter lists -/

/-- Lists of a statement lose expressions, none but `lost` ones. -/
structure Stat.Trims (st st' : Stat) (lost : ExprId → Prop) : Prop where
  /-- All else is as it was. -/
  skeleton : st'.skeleton = st.skeleton
  /-- Expressions. -/
  exprs : st'.kind.exprs.Sublist st.kind.exprs
  /-- Declarations. -/
  declarations : st'.declarations.Sublist st.declarations
  /-- The things it does itself. -/
  items : ∀ e, .expr e ∈ st'.items → .expr e ∈ st.items
  /-- What else it held it still holds. -/
  keeps : ∀ e ∈ st.kind.exprs ++ st.declarations, e ∈ st'.kind.exprs ++ st'.declarations ∨ lost e

theorem Stat.Trims.refl {lost : ExprId → Prop} (st : Stat) : st.Trims st lost :=
  ⟨rfl, .refl _, .refl _, fun _ h => h, fun _ => .inl⟩

theorem Stat.Trims.trans {st st' st'' : Stat} {lost : ExprId → Prop} (h : st.Trims st' lost)
    (h' : st'.Trims st'' lost) : st.Trims st'' lost :=
  ⟨h'.skeleton.trans h.skeleton, h'.exprs.trans h.exprs, h'.declarations.trans h.declarations,
    fun e he => h.items e (h'.items e he), fun e he => (h.keeps e he).elim (h'.keeps e) .inr⟩

theorem Stat.trims_withExprs {st : Stat} {l l' : List ExprId} {lost : ExprId → Prop}
    (hl : st.exprs? = some l) (h : l'.Sublist l) (hkeeps : ∀ e ∈ l, e ∈ l' ∨ lost e) :
    st.Trims (st.withExprs l') lost := by
  obtain ⟨kind, parent, first, children, declarations, successors, predecessors, labels⟩ := st
  cases kind <;> cases hl
  refine ⟨rfl, h, .refl _, fun e he => ?_, fun e he => ?_⟩
  · exact (h.map Item.expr).subset he
  · rcases List.mem_append.1 he with he | he
    · exact (hkeeps e he).imp_left (List.mem_append_left _)
    · exact .inl (List.mem_append_right _ he)

namespace Graph

variable {g g' g'' : Graph} {s : StatId} {e x : ExprId} {source target : Local}
  {lost : ExprId → Prop}

/-- An expression that is not touched stays an occurrence of its variable. -/
theorem Revises.local?_eq {touched : ExprId → Prop} {v : Option Local} (h : Revises g g' touched)
    (he : ¬ touched e) (hv : g.local? e = .ok v) : g'.local? e = .ok v := by
  obtain ⟨z, hz, rfl⟩ : ∃ z, g.expr e = .ok z ∧ z.local? = v := by simpa [local?] using hv
  obtain ⟨z', hz', -, houtline⟩ := h.exprs e z hz
  simp only [local?, hz', Checked.ok_bind, Expr.local?_eq_of_outline (houtline he)]
  rfl

/-- Lists of statements lose expressions, none but `lost` ones. -/
def Shrinks (g g' : Graph) (lost : ExprId → Prop) : Prop :=
  ∀ s st, g.stat s = .ok st → Returns (g'.stat s) fun st' => st.Trims st' lost

namespace Shrinks

variable (h : Shrinks g g' lost) (hs : ∃ st, g.stat s = .ok st)

include h

theorem keeps (he : g.Holds s e) : g'.Holds s e ∨ lost e := by
  obtain ⟨st, hst, he⟩ := he
  obtain ⟨st', hst', ht⟩ := h s st hst
  exact (ht.keeps e he).imp_left fun he => ⟨st', hst', he⟩

include hs

theorem stat {st' : Stat} (hst' : g'.stat s = .ok st') :
    ∃ st, g.stat s = .ok st ∧ st.Trims st' lost := by
  obtain ⟨st, hst⟩ := hs
  obtain ⟨st'', hst'', ht⟩ := h s st hst
  rw [hst'] at hst''
  cases hst''
  exact ⟨st, hst, ht⟩

theorem holds (he : g'.Holds s e) : g.Holds s e := by
  obtain ⟨st', hst', he⟩ := he
  obtain ⟨st, hst, ht⟩ := h.stat hs hst'
  exact ⟨st, hst, (ht.exprs.append ht.declarations).subset he⟩

theorem listsDeclaration (he : g'.ListsDeclaration s e) : g.ListsDeclaration s e := by
  obtain ⟨st', hst', he⟩ := he
  obtain ⟨st, hst, ht⟩ := h.stat hs hst'
  exact ⟨st, hst, ht.declarations.subset he⟩

theorem evaluates (he : g'.Evaluates s e) : g.Evaluates s e := by
  obtain ⟨st', hst', he⟩ := he
  obtain ⟨st, hst, ht⟩ := h.stat hs hst'
  exact ⟨st, hst, ht.items e he⟩

omit hs in
theorem sublist_heldBy {l l' : List ExprId} (hl : g.heldBy s = .ok l)
    (hl' : g'.heldBy s = .ok l') : l'.Sublist l := by
  obtain ⟨st, hst, rfl⟩ := heldBy_eq_ok.1 hl
  obtain ⟨st', hst', rfl⟩ := heldBy_eq_ok.1 hl'
  obtain ⟨st'', hst'', ht⟩ := h.stat ⟨st, hst⟩ hst'
  rw [hst] at hst''
  cases hst''
  exact ht.exprs.append ht.declarations

end Shrinks

/-- Lists of statements lose expressions, none but `lost` ones, and expressions keep all but types,
debug entries and offsets. -/
structure Trims (g g' : Graph) (lost : ExprId → Prop) : Prop where
  /-- The expressions. -/
  revises : Revises g g' fun _ => False
  /-- The statements. -/
  stats : Shrinks g g' lost

namespace Trims

theorem refl (g : Graph) : Trims g g lost := ⟨.refl g, fun _ st hst => ⟨st, hst, .refl st⟩⟩

theorem trans (h : Trims g g' lost) (h' : Trims g' g'' lost) : Trims g g'' lost := by
  refine ⟨h.revises.trans h'.revises, fun s st hst => ?_⟩
  obtain ⟨st', hst', ht⟩ := h.stats s st hst
  exact (h'.stats s st' hst').mono fun _ ht' => ht.trans ht'

theorem of_stats_eq (r : Revises g g' fun _ => False) (hs : g'.stats = g.stats) :
    Trims g g' lost := by
  refine ⟨r, fun s st hst => ⟨st, ?_, .refl st⟩⟩
  rw [stat, hs]
  exact hst

theorem modifyStat {f : Stat → Stat} {st : Stat} (h : g.modifyStat s f = .ok g')
    (hst : g.stat s = .ok st) (hf : st.Trims (f st) lost) : Trims g g' lost := by
  obtain ⟨st', hst', ht, he, hx⟩ := stat_modifyStat h
  rw [hst] at hst'
  cases hst'
  have hstats : Shrinks g g' lost := by
    intro t tt htt
    rw [ht]
    split
    · next hs =>
      rw [← hs, hst] at htt
      cases htt
      exact ⟨_, rfl, hf⟩
    · exact ⟨tt, htt, .refl tt⟩
  refine ⟨⟨he, fun t tt htt => (hstats t tt htt).mono fun _ h => h.skeleton, fun e x he => ?_⟩,
    hstats⟩
  refine ⟨x, ?_, rfl, fun _ => rfl⟩
  rw [expr, node, hx]
  exact he

theorem legible (h : Trims g g' lost) (o : g.Legible) : g'.Legible :=
  o.of_revises h.revises fun s _ hs => h.stats.holds (o.forest.stat s hs)

theorem local?_eq (h : Trims g g' lost) (he : g.Grounded e) : g'.local? e = g.local? e := by
  obtain ⟨v, hv⟩ := he.local?
  rw [hv]
  exact h.revises.local?_eq id hv

end Trims

/-- What is left of a list when expressions are dropped: all that are not doomed, in the same order,
and with `keepLone` maybe one that is. -/
structure Leaves (d : ExprId → Bool) (keepLone : Bool) (l left : List ExprId) : Prop where
  /-- Nothing is added. -/
  sublist : left.Sublist l
  /-- What is not doomed stays. -/
  keeps : ∀ e ∈ l, d e = false → e ∈ left
  /-- What is doomed goes. -/
  drops : keepLone = false → ∀ e ∈ left, d e = false

namespace Leaves

variable {d : ExprId → Bool} {keepLone : Bool} {l left : List ExprId}

theorem nil : Leaves d keepLone [] [] := ⟨.refl _, nofun, fun _ => nofun⟩

theorem keep (h : Leaves d keepLone l left) (he : keepLone = false → d e = false) :
    Leaves d keepLone (e :: l) (e :: left) := by
  refine ⟨h.sublist.cons_cons e, fun x hx hd => ?_, fun hlone x hx => ?_⟩
  · rcases List.mem_cons.1 hx with rfl | hx
    · exact List.mem_cons_self
    · exact List.mem_cons_of_mem e (h.keeps x hx hd)
  · rcases List.mem_cons.1 hx with rfl | hx
    · exact he hlone
    · exact h.drops hlone x hx

theorem drop (h : Leaves d keepLone l left) (he : d e = true) :
    Leaves d keepLone (e :: l) left := by
  refine ⟨h.sublist.cons e, fun x hx hd => ?_, h.drops⟩
  rcases List.mem_cons.1 hx with rfl | hx
  · rw [he] at hd
    cases hd
  · exact h.keeps x hx hd

end Leaves

/-- Types of expressions are changed. -/
theorem retype_returns (l : List ExprId) (hl : ∀ e ∈ l, g.Grounded e) {f : Expr → Expr}
    (hf : ∀ x, (f x).outline = x.outline) :
    Returns (l.foldlM (fun g e => g.modifyExpr e f) g) fun g' =>
      Revises g g' (fun _ => False) ∧ g'.stats = g.stats := by
  refine Returns.foldlM ⟨.refl g, rfl⟩ fun e he g₁ ⟨r, hstats⟩ => ?_
  obtain ⟨n, hn⟩ := (r.grounded (hl e he)).exists_node
  obtain ⟨g₂, hg₂⟩ := modifyExpr_returns f hn
  obtain ⟨-, -, -, hstats', -⟩ := node_modifyExpr hg₂
  have r₂ : Revises g₁ g₂ fun _ => False :=
    .modifyExpr hg₂ (fun x => Expr.shape_eq_of_outline (hf x)) fun _ => hf
  exact ⟨g₂, hg₂, r.trans r₂, hstats'.trans hstats⟩

/-- What takes over the offsets of an expression is in the same list. -/
theorem mem_of_head?_orElse {l kept : List ExprId} (h : (l.head? <|> kept.head?) = some e) :
    e ∈ kept ∨ e ∈ l := by
  cases l with
  | nil => exact .inl (List.mem_of_head? h)
  | cons y l =>
    cases h
    exact .inr List.mem_cons_self

/-- Expressions are dropped from a list, and their neighbours take over their offsets. -/
theorem dropFrom_returns {doomed : ExprId → Checked Bool} {d : ExprId → Bool} {keepLone : Bool}
    {l kept : List ExprId} (hd : ∀ e ∈ l, doomed e = .ok (d e)) (hkept : ∀ e ∈ kept, g.Grounded e)
    (hl : ∀ e ∈ l, g.Grounded e) : Returns (dropFrom doomed keepLone g kept l) fun r =>
      Revises g r.1 (fun _ => False) ∧ r.1.stats = g.stats ∧
        ∃ left, r.2 = kept.reverse ++ left ∧ Leaves d keepLone l left := by
  induction l generalizing g kept with
  | nil => exact Returns.pure_iff.2 ⟨.refl g, rfl, [], by simp, .nil⟩
  | cons e rest ih =>
    have hrest : ∀ e ∈ rest, doomed e = .ok (d e) := fun x hx => hd x (by simp [hx])
    rw [dropFrom, hd e (by simp), Checked.ok_bind]
    split
    · next hspared =>
      refine (ih hrest (fun x hx => ?_) fun x hx => hl x (by simp [hx])).mono
        fun r ⟨r₁, hstats, left, hr, hleft⟩ => ?_
      · rcases List.mem_cons.1 hx with rfl | hx
        · exact hl x (by simp)
        · exact hkept x hx
      · refine ⟨r₁, hstats, e :: left, by simp [hr], hleft.keep ?_⟩
        cases keepLone <;> simp_all
    · next hdropped =>
      have hde : d e = true := by simp_all
      cases hneighbour : rest.head? <|> kept.head? with
      | none =>
        refine (ih hrest hkept fun x hx => hl x (by simp [hx])).mono
          fun r ⟨r₁, hstats, left, hr, hleft⟩ => ⟨r₁, hstats, left, hr, hleft.drop hde⟩
      | some neighbour =>
        have hmem : g.Grounded neighbour := (mem_of_head?_orElse hneighbour).elim
          (hkept neighbour) fun h => hl neighbour (List.mem_cons_of_mem e h)
        obtain ⟨u, hu⟩ := (hl e (by simp)).subtreeOffsets
        obtain ⟨n, hn⟩ := hmem.exists_node
        obtain ⟨g₁, h₁⟩ := addOffsets_returns u hn
        have habsorb : g.absorb neighbour e = .ok g₁ := Checked.bind_eq_ok.2 ⟨u, hu, h₁⟩
        obtain ⟨-, -, -, hs, -⟩ := node_addOffsets h₁
        have r₁ : Revises g g₁ fun _ => False := .absorb habsorb
        simp only [habsorb, Checked.ok_bind]
        refine (ih hrest (fun x hx => r₁.grounded (hkept x hx)) fun x hx =>
          r₁.grounded (hl x (by simp [hx]))).mono fun r ⟨r₂, hstats, left, hr, hleft⟩ => ?_
        exact ⟨r₁.trans r₂, hstats.trans hs, left, hr, hleft.drop hde⟩

/-- A statement without declarations of a variable. -/
def ListsNone (g : Graph) (s : StatId) (v : Local) : Prop :=
  ∀ e, g.ListsDeclaration s e → g.local? e ≠ .ok (some v)

theorem ListsNone.trims (h : g.ListsNone s source) (o : g.Legible) (hs : g.InTree s)
    (ht : Trims g g' lost) : g'.ListsNone s source := by
  intro e he
  have he := ht.stats.listsDeclaration (o.forest.stat s hs) he
  rw [ht.local?_eq (o.grounded s e hs he.holds)]
  exact h e he

theorem dropBareDeclarations_returns (o : g.Legible) (hs : g.InTree s)
    {bare : List (StatId × ExprId)} (hlost : ∀ b ∈ bare, lost b.2) :
    Returns (dropBareDeclarations bare g s) fun g' => Trims g g' lost := by
  obtain ⟨st, hst⟩ := o.forest.stat s hs
  simp only [dropBareDeclarations, hst, Checked.ok_bind]
  split
  · next declared rest exprs hdeclared hexprs =>
    have hground : ∀ e ∈ exprs, g.Grounded e := by
      refine fun e he => o.grounded s e hs ⟨st, hst, List.mem_append_left _ ?_⟩
      rw [Stat.exprs?_eq_some.1 hexprs]
      exact he
    refine (dropFrom_returns (fun _ _ => rfl) (List.forall_mem_nil _) hground).bind
      fun r _ ⟨r₁, hstats, left, hr, hleft⟩ => ?_
    have hst₁ : r.1.stat s = .ok st := by rw [stat, hstats]; exact hst
    obtain ⟨g', hg'⟩ := modifyStat_returns (fun st => st.withExprs r.2) hst₁
    obtain rfl : r.2 = left := hr
    refine ⟨g', hg', (Trims.of_stats_eq r₁ hstats).trans (.modifyStat hg' hst₁
      (Stat.trims_withExprs hexprs hleft.sublist fun e he => ?_))⟩
    by_cases hmem : (s, e) ∈ bare
    · exact .inr (hlost _ hmem)
    · exact .inl (hleft.keeps e he (by simpa using hmem))
  · exact Returns.pure_iff.2 (.refl g)

theorem mergeDeclarations_returns (o : g.Legible) (hs : g.InTree s) (source target : Local)
    (ty : Ty) (hlost : ∀ e, g.ListsDeclaration s e → g.local? e = .ok (some source) → lost e) :
    Returns (mergeDeclarations source target ty g s) fun g' =>
      Trims g g' lost ∧ g'.ListsNone s source := by
  obtain ⟨st, hst⟩ := o.forest.stat s hs
  have hground : ∀ e ∈ st.declarations, g.Grounded e := fun e he =>
    o.grounded s e hs ⟨st, hst, List.mem_append_right _ he⟩
  have hdoomed : ∀ e ∈ st.declarations, (do return (← g.local? e) = some source : Checked Bool) =
      .ok (decide (g.local? e = .ok (some source))) := by
    intro e he
    obtain ⟨v, hv⟩ := (hground e he).local?
    simp [hv]
  simp only [mergeDeclarations, hst, Checked.ok_bind]
  refine (dropFrom_returns hdoomed (List.forall_mem_nil _) hground).bind
    fun ⟨g₁, kept⟩ _ hdrop => ?_
  obtain ⟨r₁, hstats₁, left, hkept, hleft⟩ := hdrop
  obtain rfl : kept = left := hkept
  have hretype := retype_returns kept (fun e he => r₁.grounded (hground e
    (hleft.sublist.subset he))) (Expr.mapVar_ty_outline target ty)
  refine hretype.bind fun g₂ _ ⟨r₂, hstats₂⟩ => ?_
  have hst₂ : g₂.stat s = .ok st := by rw [stat, hstats₂, hstats₁]; exact hst
  obtain ⟨g', hg'⟩ := modifyStat_returns (fun st => { st with declarations := kept }) hst₂
  have ht : Trims g₂ g' lost := by
    refine .modifyStat hg' hst₂ ⟨rfl, .refl _, hleft.sublist, fun _ h => h, fun e he => ?_⟩
    rcases List.mem_append.1 he with he | he
    · exact .inl (List.mem_append_left _ he)
    · by_cases hsource : g.local? e = .ok (some source)
      · exact .inr (hlost e ⟨st, hst, he⟩ hsource)
      · exact .inl (List.mem_append_right _ (hleft.keeps e he (by simpa using hsource)))
  have htrims := (Trims.of_stats_eq (r₁.trans r₂) (hstats₂.trans hstats₁)).trans ht
  refine ⟨g', hg', htrims, fun e he => ?_⟩
  obtain ⟨st', hst', hstat', -⟩ := stat_modifyStat hg'
  obtain ⟨st'', hst'', he⟩ := he
  rw [hstat', if_pos rfl] at hst''
  cases hst''
  rw [htrims.local?_eq (hground e (hleft.sublist.subset he))]
  simpa using hleft.drops rfl e he

/-- Both passes over the declarations of all statements. -/
theorem dropDeclarations_returns (lost : ExprId → Prop) (o : g.Legible) {stats : List StatId}
    (hstats : ∀ s ∈ stats, g.InTree s) {bare : List (StatId × ExprId)} (source target : Local)
    (ty : Ty) (hbare : ∀ b ∈ bare, lost b.2)
    (hlost : ∀ s e, g.InTree s → g.ListsDeclaration s e → g.local? e = .ok (some source) → lost e) :
    Returns (do
        let g ← stats.foldlM (dropBareDeclarations bare) g
        stats.foldlM (mergeDeclarations source target ty) g) fun g' =>
      Trims g g' lost ∧ ∀ s ∈ stats, g'.ListsNone s source := by
  have hfirst : Returns (stats.foldlM (dropBareDeclarations bare) g) fun g' => Trims g g' lost := by
    refine Returns.foldlM (.refl g) fun s hs g₁ ht => ?_
    have o₁ := ht.legible o
    have hs := (ht.revises.inTree_iff o.forest).2 (hstats s hs)
    exact (dropBareDeclarations_returns o₁ hs hbare).mono fun _ ht' => ht.trans ht'
  refine hfirst.bind fun g₁ _ ht => ?_
  have key : ∀ (l : List StatId) (g₁ : Graph), (∀ s ∈ l, g.InTree s) → Trims g g₁ lost →
      Returns (l.foldlM (mergeDeclarations source target ty) g₁) fun g' =>
        Trims g₁ g' lost ∧ ∀ s ∈ l, g'.ListsNone s source := by
    intro l
    induction l with
    | nil => exact fun g₁ _ _ => Returns.pure_iff.2 ⟨.refl g₁, nofun⟩
    | cons s l ih =>
      intro g₁ hl ht
      have o₁ := ht.legible o
      have hs := hl s (by simp)
      have hs₁ := (ht.revises.inTree_iff o.forest).2 hs
      have hlost₁ : ∀ e, g₁.ListsDeclaration s e → g₁.local? e = .ok (some source) → lost e := by
        intro e he hsource
        have he := ht.stats.listsDeclaration (o.forest.stat s hs) he
        rw [ht.local?_eq (o.grounded s e hs he.holds)] at hsource
        exact hlost s e hs he hsource
      rw [List.foldlM_cons]
      refine (mergeDeclarations_returns o₁ hs₁ source target ty hlost₁).bind
        fun g₂ _ ⟨ht₂, hnone⟩ => ?_
      refine (ih g₂ (fun s hs => hl s (by simp [hs])) (ht.trans ht₂)).mono fun g' ⟨ht', hl'⟩ => ?_
      refine ⟨ht₂.trans ht', fun t htl => ?_⟩
      rcases List.mem_cons.1 htl with rfl | htl
      · exact hnone.trims (ht₂.legible o₁) ((ht₂.revises.inTree_iff o₁.forest).2 hs₁) ht'
      · exact hl' t htl
  exact (key stats g₁ hstats ht).mono fun g' ⟨ht', hl⟩ => ⟨ht.trans ht', hl⟩

/-! ## Nodes of statements -/

/-- The node lies below an expression that a statement of the tree evaluates. -/
def Owned (g : Graph) (n : OwnedNode) : Prop :=
  g.InTree n.stat ∧ Returns (g.stat n.stat) (fun st => n.top ∈ st.kind.exprs) ∧
    g.Reaches n.top n.id ∧ g.expr n.id = .ok n.expr

theorem Owned.holds {n : OwnedNode} (h : g.Owned n) : g.Holds n.stat n.top := by
  obtain ⟨-, ⟨st, hst, htop⟩, -⟩ := h
  exact ⟨st, hst, List.mem_append_left _ htop⟩

theorem Owned.grounded {n : OwnedNode} (h : g.Owned n) (o : g.Legible) : g.Grounded n.id :=
  (o.grounded n.stat n.top h.1 h.holds).of_reaches h.2.2.1

theorem mem_ownedNodes {l : List OwnedNode} (h : g.ownedNodes = .ok l) {n : OwnedNode} :
    n ∈ l ↔ g.Owned n := by
  simp only [ownedNodes, Checked.bind_eq_ok, Checked.pure_eq_ok, Checked.mapM_eq_ok_iff] at h
  obtain ⟨stats, hstats, perStat, hperStat, rfl⟩ := h
  have htop : ∀ s top l, (∃ ns, g.nodes top = .ok ns ∧
      (ns.map fun n => (⟨s, top, n.1, n.2.expr⟩ : OwnedNode)) = l) → ∀ n : OwnedNode,
        n ∈ l ↔ n.stat = s ∧ n.top = top ∧ g.Reaches top n.id ∧ g.expr n.id = .ok n.expr := by
    rintro s top l ⟨ns, hns, rfl⟩ ⟨s', top', id, z⟩
    simp only [List.mem_map, OwnedNode.mk.injEq, expr_eq_ok]
    constructor
    · rintro ⟨p, hp, rfl, rfl, rfl, rfl⟩
      obtain ⟨hreach, hnode⟩ := (mem_nodesIn hns p).1 hp
      exact ⟨rfl, rfl, hreach, p.2, hnode, rfl⟩
    · rintro ⟨rfl, rfl, hreach, n, hn, rfl⟩
      exact ⟨(id, n), (mem_nodesIn hns (id, n)).2 ⟨hreach, hn⟩, rfl, rfl, rfl, rfl⟩
  rw [mem_flatten_of_forall₂ (P := fun s n => n.stat = s ∧ Returns (g.stat s) (fun st =>
    n.top ∈ st.kind.exprs) ∧ g.Reaches n.top n.id ∧ g.expr n.id = .ok n.expr) hperStat]
  · simp only [mem_preorderIn hstats]
    constructor
    · rintro ⟨s, hs, rfl, hrest⟩
      exact ⟨hs, hrest⟩
    · rintro ⟨hs, hrest⟩
      exact ⟨n.stat, hs, rfl, hrest⟩
  · rintro s l ⟨st, hst, perTop, hperTop, rfl⟩ n
    rw [mem_flatten_of_forall₂ hperTop fun top l h => htop s top l h, hst, Returns.ok_iff,
      ← Stat.ownExprs_eq]
    constructor
    · rintro ⟨top, hmem, rfl, rfl, hrest⟩
      exact ⟨rfl, hmem, hrest⟩
    · rintro ⟨rfl, hmem, hrest⟩
      exact ⟨n.top, hmem, rfl, rfl, hrest⟩

theorem Legible.ownedNodes (o : g.Legible) :
    ∃ l, g.ownedNodes = .ok l ∧ ∀ n, n ∈ l ↔ g.Owned n := by
  obtain ⟨stats, hstats, hmem⟩ := o.statements
  have hperStat : Returns (stats.mapM fun s => do
      let perTop ← (← g.stat s).ownExprs.mapM fun top => do
        return (← g.nodes top).map fun n => (⟨s, top, n.1, n.2.expr⟩ : OwnedNode)
      return perTop.flatten) (List.Forall₂ (fun _ _ => True) stats) := by
    refine Returns.mapM fun s hs => ?_
    obtain ⟨st, hst⟩ := o.forest.stat s ((hmem s).1 hs)
    rw [hst, Checked.ok_bind, Stat.ownExprs_eq]
    have hperTop : Returns (st.kind.exprs.mapM fun top => do
        return (← g.nodes top).map fun n => (⟨s, top, n.1, n.2.expr⟩ : OwnedNode))
        (List.Forall₂ (fun _ _ => True) st.kind.exprs) := by
      refine Returns.mapM fun top htop => ?_
      obtain ⟨l, hl⟩ := (o.grounded s top ((hmem s).1 hs)
        ⟨st, hst, List.mem_append_left _ htop⟩).nodes
      simp [hl]
    exact hperTop.bind fun _ _ _ => Returns.pure_iff.2 trivial
  obtain ⟨perStat, hperStat, -⟩ := hperStat
  have hnodes : g.ownedNodes = .ok perStat.flatten := by
    simp only [Graph.ownedNodes, hstats, hperStat, Checked.ok_bind]
    rfl
  exact ⟨_, hnodes, fun n => mem_ownedNodes hnodes⟩

theorem stores_returns (o : g.Legible) {n : OwnedNode} (hn : g.Owned n)
    (source target var : Local) : ∃ b, g.stores source target var n = .ok b := by
  rw [stores]
  cases hassign : n.expr.assign? with
  | none => exact ⟨false, rfl⟩
  | some p =>
    obtain ⟨left, right⟩ := p
    have hexpr : g.expr n.id = .ok (.assign left right) :=
      assign?_eq_ok.1 (by simp [assign?, hn.2.2.2, hassign])
    obtain ⟨-, hleft, hright⟩ := (hn.grounded o).sides hexpr
    obtain ⟨read, hread⟩ := hright.local?
    obtain ⟨written, hwritten⟩ := hleft.local?
    exact ⟨_, by simp only [hread, hwritten, Checked.ok_bind]; rfl⟩

theorem storedConstant?_returns (o : g.Legible) {n : OwnedNode} (hn : g.Owned n)
    (source target : Local) : Returns (g.storedConstant? source target n) fun r =>
      ∀ e, r = some e → g.Grounded e := by
  rw [storedConstant?]
  cases hassign : n.expr.assign? with
  | none => exact Returns.pure_iff.2 nofun
  | some p =>
    obtain ⟨left, right⟩ := p
    have hexpr : g.expr n.id = .ok (.assign left right) :=
      assign?_eq_ok.1 (by simp [assign?, hn.2.2.2, hassign])
    obtain ⟨-, hleft, hright⟩ := (hn.grounded o).sides hexpr
    obtain ⟨written, hwritten⟩ := hleft.local?
    obtain ⟨x, hx⟩ := hright.expr
    simp only [hwritten, hx, Checked.ok_bind]
    split
    · exact Returns.pure_iff.2 nofun
    · split
      · exact Returns.pure_iff.2 nofun
      · refine Returns.pure_iff.2 fun e he => ?_
        cases he
        exact hright
      · exact Returns.pure_iff.2 nofun

/-! ## Renaming -/

/-- The node is an occurrence of the variable in an expression that a statement evaluates. -/
def OccursAt (g : Graph) (var : Local) (e : ExprId) : Prop :=
  ∃ n, g.Owned n ∧ n.id = e ∧ n.expr.local? = some var

theorem OccursAt.local? {v : Local} (h : g.OccursAt v e) : g.local? e = .ok (some v) := by
  obtain ⟨n, hn, rfl, hlocal⟩ := h
  simpa [Graph.local?, hn.2.2.2] using hlocal

/-- The node is an occurrence of `target` that declares nothing. -/
def Renamed (g : Graph) (target : Local) (e : ExprId) : Prop := g.IsVar e target false

theorem Renamed.trims (h : g.Renamed target e) (ht : Revises g g' fun _ => False) :
    g'.Renamed target e := by
  obtain ⟨w, hw, hvar, hdef⟩ := h
  obtain ⟨x', hx', -, houtline⟩ := ht.exprs e _ hw
  obtain ⟨w', rfl, hvar', hdef'⟩ := Expr.eq_var_of_outline (houtline id)
  exact ⟨w', hx', hvar'.trans hvar, hdef'.trans hdef⟩

theorem Renamed.not_isDefinition (h : g.Renamed target e) {w : VarRef}
    (hw : g.expr e = .ok (.var w)) : ¬ w.isDefinition = true := by
  obtain ⟨-, hdef⟩ := h.functional ⟨w, hw, rfl, rfl⟩
  simp [← hdef]

section OwnedNodes

variable {nodes : List OwnedNode} (hnodes : ∀ n, n ∈ nodes ↔ g.Owned n)

include hnodes

theorem occursAt_iff : g.OccursAt source e ↔
    ∃ n ∈ nodes.filter fun n => n.expr.local? = some source, n.id = e := by
  simp only [OccursAt, List.mem_filter, hnodes, decide_eq_true_eq]
  exact exists_congr fun n => ⟨fun ⟨a, b, c⟩ => ⟨⟨a, c⟩, b⟩, fun ⟨⟨a, c⟩, b⟩ => ⟨a, b, c⟩⟩

theorem local?_of_mem_filter {n : OwnedNode}
    (hn : n ∈ nodes.filter fun n => n.expr.local? = some source) :
    g.local? n.id = .ok (some source) := by
  obtain ⟨hn, hsource⟩ := List.mem_filter.1 hn
  simpa [local?, ((hnodes n).1 hn).2.2.2] using hsource

end OwnedNodes

theorem occursAt_of_isVar {v : Local} {marked : Bool} {st : Stat} {y : ExprId} (hs : g.InTree s)
    (hst : g.stat s = .ok st) (he : e ∈ st.kind.exprs) (hy : g.Reaches e y)
    (hvar : g.IsVar y v marked) : g.OccursAt v y := by
  obtain ⟨w, hw, rfl, -⟩ := hvar
  exact ⟨⟨s, e, y, _⟩, ⟨hs, ⟨st, hst, he⟩, hy, hw⟩, rfl, rfl⟩

theorem not_occursAt_of_listsDeclaration (o : g.Orderly) (hs : g.InTree s)
    (h : g.ListsDeclaration s e) : ¬ g.OccursAt source e := by
  rintro ⟨n, hn, rfl, -⟩
  obtain ⟨rfl, htop⟩ := o.apart s n.stat n.id n.top n.id hs hn.1 h.holds hn.holds .refl hn.2.2.1
  -- the statement would evaluate the expression and list it as a declaration
  obtain ⟨st, hst, hexprs⟩ := hn.2.1
  exact h.not_mem_exprs o hs hst (htop ▸ hexprs)

/-- The occurrences of `source` in expressions that statements evaluate become ones of `target`, and
its declarations are taken out of all lists. Nothing else is lost or changed. -/
structure Folds (g g' : Graph) (source target : Local) : Prop where
  /-- Nothing else changes. -/
  revises : Revises g g' (g.OccursAt source)
  /-- Nothing else is lost. -/
  stats : Shrinks g g' fun e => g.local? e = .ok (some source)
  /-- What becomes of the occurrences. -/
  renamed : ∀ y, g.OccursAt source y → g'.Renamed target y
  /-- What becomes of the declarations. -/
  none : ∀ s, g'.InTree s → g'.ListsNone s source

namespace Folds

variable {v : Local} {marked : Bool} (f : Folds g g' source target)

include f

theorem legible (o : g.Legible) : g'.Legible :=
  o.of_revises f.revises fun s _ hs => f.stats.holds (o.forest.stat s hs)

variable (o : g.Orderly)

include o

theorem orderly : g'.Orderly :=
  o.of_sublist f.revises fun _ _ _ _ => f.stats.sublist_heldBy

theorem before (h : g'.Declares e v) : g.Declares e v := by
  rcases h.of_revises o f.revises (fun s hs => f.stats.listsDeclaration (o.forest.stat s hs))
    (fun s hs => f.stats.evaluates (o.forest.stat s hs)) with h | ⟨s, hs, hlist, he, -⟩ |
      ⟨s, y, w, -, -, hy, -, hw, hdef, -⟩
  · exact h
  · exact absurd he (not_occursAt_of_listsDeclaration o hs hlist)
  · exact ((f.renamed y hy).not_isDefinition hw hdef).elim

theorem ne_source (h : g'.Declares e v) : v ≠ source := by
  rintro rfl
  obtain ⟨s, hs, ⟨hlist, hlocal⟩ | ⟨heval, hdeclared⟩⟩ := h
  · exact f.none s hs e hlist hlocal
  · have hs := (f.revises.inTree_iff o.forest).1 hs
    obtain ⟨st, hst, he⟩ := f.stats.evaluates (o.forest.stat s hs) heval
    have hexprs := Stat.mem_exprs_of_items he
    have hground := o.grounded s e hs ⟨st, hst, List.mem_append_left _ hexprs⟩
    obtain ⟨y, w, hy, hw, hdef, hvar⟩ := declared?_eq_some.1 hdeclared
    have hreach := f.revises.reaches hground ((f.revises.grounded hground).reaches_target hy)
    by_cases hocc : g.OccursAt v y
    · exact (f.renamed y hocc).not_isDefinition hw hdef
    · -- the occurrence was one of `source` before
      have hbefore := (f.revises.isVar_iff (hground.of_reaches hreach) hocc).1 ⟨w, hw, hvar, rfl⟩
      exact hocc (occursAt_of_isVar hs hst hexprs hreach hbefore)

/-- What is declared was declared before, and `source` is not any more. -/
theorem declares (h : g'.Declares e v) : g.Declares e v ∧ v ≠ source :=
  ⟨f.before o h, f.ne_source o h⟩

/-- Other occurrences stay. -/
theorem keeps (h : g.Occurs e v marked) (hv : v ≠ source) : g'.Occurs e v marked := by
  obtain ⟨⟨s, top, hs, htop, hreach⟩, hvar⟩ := o.occurs_iff.1 h
  have hground := o.grounded s top hs htop
  refine (f.orderly o).occurs_iff.2 ⟨⟨s, top, (f.revises.inTree_iff o.forest).2 hs, ?_, ?_⟩, ?_⟩
  · rcases f.stats.keeps htop with htop | hsource
    · exact htop
    · -- an expression that is dropped is an occurrence of `source` on its own
      obtain ⟨w, hw, hwv⟩ := local?_eq_ok.1 hsource
      have htopVar : g.IsVar top source w.isDefinition := ⟨w, hw, hwv, rfl⟩
      obtain rfl := htopVar.eq_of_reaches hreach
      exact absurd (hvar.functional htopVar).1 hv
  · exact (f.revises.reaches_iff hground).2 hreach
  · refine (f.revises.isVar_iff (hground.of_reaches hreach) fun hocc => hv ?_).2 hvar
    obtain ⟨w, hw, hwv⟩ := local?_eq_ok.1 hocc.local?
    exact (hvar.functional ⟨w, hw, hwv, rfl⟩).1

/-- What occurs is an occurrence of `source` under its new name, or was there before. -/
theorem occurs (hlisted : ∀ s e, g.InTree s → g.ListsDeclaration s e → ∃ v, g.IsVar e v true)
    (h : g'.Occurs e v marked) : v ≠ source ∧ g.Occurs e v marked ∨
      v = target ∧ marked = false ∧ ∃ marked', g.Occurs e source marked' := by
  obtain ⟨⟨s, top, hs, htop, hreach⟩, hvar⟩ := (f.orderly o).occurs_iff.1 h
  have hs' := (f.revises.inTree_iff o.forest).1 hs
  have hbefore := f.stats.holds (o.forest.stat s hs') htop
  have hground := o.grounded s top hs' hbefore
  have hreach' := f.revises.reaches hground hreach
  have hlies : g.Lies e := ⟨s, top, hs', hbefore, hreach'⟩
  by_cases hocc : g.OccursAt source e
  · obtain ⟨rfl, rfl⟩ := hvar.functional (f.renamed e hocc)
    obtain ⟨w, hw, rfl⟩ := local?_eq_ok.1 hocc.local?
    exact .inr ⟨rfl, rfl, w.isDefinition, o.occurs_iff.2 ⟨hlies, w, hw, rfl, rfl⟩⟩
  · have hvar' := (f.revises.isVar_iff (hground.of_reaches hreach') hocc).1 hvar
    refine .inl ⟨?_, o.occurs_iff.2 ⟨hlies, hvar'⟩⟩
    rintro rfl
    obtain ⟨st, hst, hmem⟩ := htop
    rcases List.mem_append.1 hmem with hmem | hmem
    · obtain ⟨st₀, hst₀, ht⟩ := f.stats.stat (o.forest.stat s hs') hst
      exact hocc (occursAt_of_isVar hs' hst₀ (ht.exprs.subset hmem) hreach' hvar')
    · -- a declaration of `source` would have been dropped
      have hlist : g'.ListsDeclaration s top := ⟨st, hst, hmem⟩
      obtain ⟨u, hu⟩ := hlisted s top hs' (f.stats.listsDeclaration (o.forest.stat s hs') hlist)
      obtain rfl := hu.eq_of_reaches hreach'
      obtain ⟨w, hw, hwv, -⟩ := hvar
      exact f.none s hs e hlist (local?_eq_ok.2 ⟨w, hw, hwv⟩)

end Folds

end Graph

namespace Method

open Decompiler.Graph

variable {g : Graph} {source target : Local}

theorem rename_returns (target : Local) (ty : Ty) (l : List OwnedNode)
    (hl : ∀ n ∈ l, ∃ v, g.expr n.id = .ok (.var v)) :
    Returns (l.foldlM (fun g n => g.modifyExpr n.id (Expr.mapVar fun v =>
      { v with var := target, ty := ty, isDefinition := false })) g) fun g' =>
        Revises g g' (fun e => ∃ n ∈ l, n.id = e) ∧ g'.stats = g.stats ∧
          (∀ n ∈ l, g'.Renamed target n.id) ∧ ∀ e, g.Renamed target e → g'.Renamed target e := by
  induction l generalizing g with
  | nil => exact Returns.pure_iff.2 ⟨.refl g, rfl, List.forall_mem_nil _, fun _ h => h⟩
  | cons n l ih =>
    obtain ⟨v, hv⟩ := hl n (by simp)
    obtain ⟨node, hnode, -⟩ := expr_eq_ok.1 hv
    obtain ⟨g₁, hg₁⟩ := modifyExpr_returns (Expr.mapVar fun v =>
      { v with var := target, ty := ty, isDefinition := false }) hnode
    obtain ⟨-, -, -, hstats, -⟩ := node_modifyExpr hg₁
    have r : Revises g g₁ fun e => ∃ k ∈ n :: l, k.id = e :=
      .modifyExpr hg₁ (fun _ => Expr.mapVar_shape) fun h => absurd ⟨n, by simp, rfl⟩ h
    have hrenamed : g₁.Renamed target n.id := by
      have hx := expr_modifyExpr hg₁ hv
      rw [if_pos rfl] at hx
      exact ⟨_, hx, rfl, rfl⟩
    have hkeeps : ∀ e, g.Renamed target e → g₁.Renamed target e := by
      rintro e ⟨w, hw, hrest⟩
      by_cases he : n.id = e
      · subst he
        exact hrenamed
      · have hx := expr_modifyExpr hg₁ hw
        rw [if_neg he] at hx
        exact ⟨w, hx, hrest⟩
    rw [List.foldlM_cons, hg₁, Checked.ok_bind]
    refine (ih fun k hk => ?_).mono fun g' ⟨r', hstats', hall, hkeeps'⟩ => ?_
    · obtain ⟨w, hw⟩ := hl k (by simp [hk])
      obtain ⟨x', hx', hshape, -⟩ := r.exprs k.id _ hw
      obtain ⟨w', rfl⟩ := Expr.eq_var_of_shape hshape
      exact ⟨w', hx'⟩
    · refine ⟨r.trans (r'.mono fun e ⟨k, hk, he⟩ => ⟨k, by simp [hk], he⟩), hstats'.trans hstats,
        fun k hk => ?_, fun e he => hkeeps' e (hkeeps e he)⟩
      rcases List.mem_cons.1 hk with rfl | hk
      · exact hkeeps' k.id hrenamed
      · exact hall k hk

/-- Renaming folds the one variable into the other. -/
theorem renameOccurrences_folds (o : g.Legible) {nodes : List OwnedNode}
    (hnodes : ∀ n, n ∈ nodes ↔ g.Owned n) (source target : Local) (ty : Ty) :
    Returns (renameOccurrences g nodes source target ty) fun g' => Folds g g' source target := by
  have hvar : ∀ n ∈ nodes.filter fun n => n.expr.local? = some source,
      ∃ v, g.expr n.id = .ok (.var v) := fun n hn =>
    (local?_eq_ok.1 (local?_of_mem_filter hnodes hn)).imp fun _ h => h.1
  rw [renameOccurrences]
  refine (Returns.filterMapM fun n hn =>
    storedConstant?_returns o ((hnodes n).1 hn) source target).bind fun constants _ hground => ?_
  refine (rename_returns target ty _ hvar).bind fun g₁ _ h₁ => ?_
  obtain ⟨r₁, hstats₁, hrenamed, -⟩ := h₁
  have r₁ : Revises g g₁ (g.OccursAt source) := r₁.mono fun e he => (occursAt_iff hnodes).2 he
  refine (retype_returns constants (fun e he => r₁.grounded (hground e he)) fun x => ?_).bind
    fun g₂ _ h₂ => ?_
  · cases x <;> rfl
  obtain ⟨r₂, hstats₂⟩ := h₂
  have r : Revises g g₂ (g.OccursAt source) := r₁.trans (r₂.mono fun _ h => h.elim)
  have hstats : g₂.stats = g.stats := hstats₂.trans hstats₁
  have hstat : ∀ s, g₂.stat s = g.stat s := fun s => by rw [stat, hstats, stat]
  have o₂ : g₂.Legible := o.of_revises r fun s e _ he => by rwa [Holds, hstat] at he
  obtain ⟨stats, hstatements, hmem⟩ := o₂.statements
  rw [hstatements, Checked.ok_bind]
  -- what is dropped are occurrences of `source` on their own, and declarations of it
  refine (dropDeclarations_returns (fun e => g.local? e = .ok (some source)) o₂
    (fun s hs => (hmem s).1 hs) source target ty ?_ ?_).mono fun g' h' => ?_
  · intro b hb
    obtain ⟨n, hn, rfl⟩ := List.mem_map.1 hb
    exact local?_of_mem_filter hnodes (List.mem_of_mem_filter hn)
  · intro s e hs hlist hsource
    have hs := (r.inTree_iff o.forest).1 hs
    have hlist : g.ListsDeclaration s e := by rwa [ListsDeclaration, hstat] at hlist
    by_cases hocc : g.OccursAt source e
    · exact hocc.local?
    · obtain ⟨w, hw, hwv⟩ := local?_eq_ok.1 hsource
      obtain ⟨w', hw', hwv', -⟩ :=
        (r.isVar_iff (o.grounded s e hs hlist.holds) hocc).1 ⟨w, hw, hwv, rfl⟩
      exact local?_eq_ok.2 ⟨w', hw', hwv'⟩
  · obtain ⟨ht, hnone⟩ := h'
    refine ⟨r.trans (ht.revises.mono fun _ h => h.elim), fun s st hst => ?_, fun y hy => ?_,
      fun s hs => hnone s ((hmem s).2 ((ht.revises.inTree_iff o₂.forest).1 hs))⟩
    · exact ht.stats s st ((hstat s).trans hst)
    · obtain ⟨n, hn, rfl⟩ := (occursAt_iff hnodes).1 hy
      exact ((hrenamed n hn).trims r₂).trims ht.revises

/-! ## Merging -/

variable {m : Method}

theorem leastType?_returns (o : m.graph.Legible) (var : Local) :
    ∃ ty, m.leastType? var = .ok ty := by
  rw [leastType?]
  split
  · exact ⟨_, rfl⟩
  · obtain ⟨l, hl, hground⟩ := o.exprsIn .refl
    have hfind : Returns (m.occurrenceType? var) fun r => ∀ b, r = some b → True := by
      rw [occurrenceType?, hl]
      refine Returns.findSomeM? fun e he => ?_
      obtain ⟨r, hr⟩ := (hground e he).refsIn
      simp [hr]
    exact hfind.elim fun r hr => ⟨r, hr.1⟩

theorem sharedType?_returns (o : m.graph.Legible) (source target : Local) :
    ∃ ty, m.sharedType? source target = .ok ty := by
  obtain ⟨s, hs⟩ := leastType?_returns o source
  obtain ⟨t, ht⟩ := leastType?_returns o target
  exact ⟨_, by simp only [sharedType?, hs, ht, Checked.ok_bind]; rfl⟩

theorem mergeKnown_returns {r : Registry} (h : r.leaders.Acyclic) (source target : Local) (ty : Ty)
    (bothStored : Bool) : Returns (mergeKnown r source target ty bothStored) fun r' =>
      r'.leaders.Acyclic ∧ r'.parameterSlots = r.parameterSlots := by
  rw [mergeKnown, Registry.recordMerge]
  exact (h.merge source target).bind fun t _ ht => Returns.pure_iff.2 ⟨ht, rfl⟩

/-- One variable went away. -/
structure Merges (m m' : Method) (source : Local) : Prop where
  /-- The graph stays orderly. -/
  orderly : m'.graph.Orderly
  /-- Leaders can still be found. -/
  leaders : m'.vars.leaders.Acyclic
  /-- The parameters are the same. -/
  parameters : m'.vars.parameterSlots = m.vars.parameterSlots
  /-- The one variable is not declared any more, and no other one is that was not before. -/
  declares : ∀ e v, m'.graph.Declares e v → m.graph.Declares e v ∧ v ≠ source

/-- Merging a variable into another one comes to a result. -/
theorem unify_total (o : m.graph.Legible) (h : m.vars.leaders.Acyclic) (hne : source ≠ target) :
    Returns (m.unify source target) fun r => r = (m, .refused) ∨ ∃ m', r = (m', .merged) := by
  obtain ⟨ty?, hty⟩ := sharedType?_returns o source target
  rw [unify, if_neg hne, hty, Checked.ok_bind]
  cases ty? with
  | none => exact Returns.pure_iff.2 (.inl rfl)
  | some ty =>
    obtain ⟨nodes, hnodes, hmem⟩ := o.ownedNodes
    have hstores : ∀ var, Returns (nodes.anyM (m.graph.stores source target var)) fun _ => True :=
      fun var => Returns.anyM fun n hn =>
        (stores_returns o ((hmem n).1 hn) source target var).elim fun b hb => ⟨b, hb, trivial⟩
    simp only [hnodes, Checked.ok_bind]
    refine (hstores source).bind fun sourceStored _ _ =>
      (hstores target).bind fun targetStored _ _ => ?_
    split
    · exact Returns.pure_iff.2 (.inl rfl)
    · refine (renameOccurrences_folds o hmem source target ty).bind fun g' _ _ => ?_
      refine (mergeKnown_returns h source target ty _).bind fun r _ _ => ?_
      exact Returns.pure_iff.2 (.inr ⟨_, rfl⟩)

/-- All that a merge can come to, and what was found out before. -/
theorem unify_cases {r : Method × Unification} (h : m.unify source target = .ok r) :
    (source = target ∧ r = (m, .ontoItself)) ∨
      ((m.sharedType? source target = .ok none ∨ ∀ e, ¬ m.graph.OccursAt source e) ∧
        r = (m, .refused)) ∨
      source ≠ target ∧ (∃ e, m.graph.OccursAt source e) ∧ r.2 = .merged ∧
        ∃ ty nodes sourceStored targetStored,
          m.sharedType? source target = .ok (some ty) ∧ m.graph.ownedNodes = .ok nodes ∧
          nodes.anyM (m.graph.stores source target source) = .ok sourceStored ∧
          nodes.anyM (m.graph.stores source target target) = .ok targetStored ∧
          renameOccurrences m.graph nodes source target ty = .ok r.1.graph ∧
          mergeKnown m.vars source target ty (sourceStored && targetStored) = .ok r.1.vars := by
  unfold unify at h
  split at h
  · next heq => exact .inl ⟨heq, (Checked.pure_eq_ok.1 h).symm⟩
  next hne =>
  obtain ⟨ty?, hty, h⟩ := Checked.bind_eq_ok.1 h
  cases ty? with
  | none => exact .inr (.inl ⟨.inl hty, (Checked.pure_eq_ok.1 h).symm⟩)
  | some ty =>
    simp only [Checked.bind_eq_ok] at h
    obtain ⟨nodes, hnodes, sourceStored, hsource, targetStored, htarget, h⟩ := h
    have hoccurs : (∃ n ∈ nodes, n.expr.local? = some source) ↔
        ∃ e, m.graph.OccursAt source e := by
      constructor
      · rintro ⟨n, hn, hlocal⟩
        exact ⟨n.id, n, (mem_ownedNodes hnodes).1 hn, rfl, hlocal⟩
      · rintro ⟨_, n, hn, -, hlocal⟩
        exact ⟨n, (mem_ownedNodes hnodes).2 hn, hlocal⟩
    split at h
    · next hnone =>
      refine .inr (.inl ⟨.inr (not_exists.1 ?_), (Checked.pure_eq_ok.1 h).symm⟩)
      rw [← hoccurs]
      simpa using hnone
    · next hany =>
      simp only [Checked.bind_eq_ok] at h
      obtain ⟨graph, hgraph, vars, hvars, h⟩ := h
      obtain rfl := Checked.pure_eq_ok.1 h
      exact .inr (.inr ⟨hne, hoccurs.1 (by simpa using hany), rfl, ty, nodes, sourceStored,
        targetStored, hty, hnodes, hsource, htarget, hgraph, hvars⟩)

/-- A merge that is refused changes nothing, and why it is refused. -/
theorem unify_refused {m' : Method} (h : m.unify source target = .ok (m', .refused)) :
    m = m' ∧ (m.sharedType? source target = .ok none ∨ ∀ e, ¬ m.graph.OccursAt source e) := by
  rcases unify_cases h with ⟨-, h⟩ | ⟨hwhy, h⟩ | ⟨-, -, h, -⟩ <;> cases h
  exact ⟨rfl, hwhy⟩

/-- Nor does a merge of a variable with itself. -/
theorem unify_ontoItself {m' : Method} (h : m.unify source target = .ok (m', .ontoItself)) :
    m = m' ∧ source = target := by
  rcases unify_cases h with ⟨heq, h⟩ | ⟨-, h⟩ | ⟨-, -, h, -⟩ <;> cases h
  exact ⟨rfl, heq⟩

/-- What a merge that was not refused has done, and what was found out before. -/
theorem unify_inv {m' : Method} (h : m.unify source target = .ok (m', .merged)) :
    source ≠ target ∧ (∃ e, m.graph.OccursAt source e) ∧ ∃ ty nodes sourceStored targetStored,
      m.sharedType? source target = .ok (some ty) ∧ m.graph.ownedNodes = .ok nodes ∧
      nodes.anyM (m.graph.stores source target source) = .ok sourceStored ∧
      nodes.anyM (m.graph.stores source target target) = .ok targetStored ∧
      renameOccurrences m.graph nodes source target ty = .ok m'.graph ∧
      mergeKnown m.vars source target ty (sourceStored && targetStored) = .ok m'.vars := by
  rcases unify_cases h with ⟨-, h⟩ | ⟨-, h⟩ | ⟨hne, hoccurs, -, hdone⟩
  · cases h
  · cases h
  · exact ⟨hne, hoccurs, hdone⟩

/-- What a merge that was not refused has done. -/
theorem unify_eq_merged {m' : Method} (h : m.unify source target = .ok (m', .merged)) :
    source ≠ target ∧ ∃ ty nodes bothStored, m.graph.ownedNodes = .ok nodes ∧
      renameOccurrences m.graph nodes source target ty = .ok m'.graph ∧
      mergeKnown m.vars source target ty bothStored = .ok m'.vars := by
  obtain ⟨hne, -, ty, nodes, _, _, -, hnodes, -, -, hgraph, hvars⟩ := unify_inv h
  exact ⟨hne, ty, nodes, _, hnodes, hgraph, hvars⟩

theorem mergeKnown_frame {r r' : Registry} {ty : Ty} {bothStored : Bool}
    (h : mergeKnown r source target ty bothStored = .ok r') :
    r'.origins = r.origins ∧ r'.parameterSlots = r.parameterSlots := by
  simp only [mergeKnown, Registry.recordMerge, Checked.bind_eq_ok, Checked.pure_eq_ok] at h
  obtain ⟨leaders, -, rfl⟩ := h
  exact ⟨rfl, rfl⟩

theorem unify_folds {m' : Method} (o : m.graph.Legible)
    (h : m.unify source target = .ok (m', .merged)) :
    source ≠ target ∧ Folds m.graph m'.graph source target ∧
      m'.vars.parameterSlots = m.vars.parameterSlots := by
  obtain ⟨hne, ty, nodes, _, hnodes, hgraph, hvars⟩ := unify_eq_merged h
  obtain ⟨nodes', hnodes', hmem⟩ := o.ownedNodes
  rw [hnodes] at hnodes'
  cases hnodes'
  obtain ⟨g', hg', hfolds⟩ := renameOccurrences_folds o hmem source target ty
  rw [hgraph] at hg'
  cases hg'
  exact ⟨hne, hfolds, (mergeKnown_frame hvars).2⟩

theorem unify_acyclic {m' : Method} (ha : m.vars.leaders.Acyclic)
    (h : m.unify source target = .ok (m', .merged)) : m'.vars.leaders.Acyclic := by
  obtain ⟨-, ty, _, bothStored, -, -, hvars⟩ := unify_eq_merged h
  obtain ⟨r, hr, hleaders, -⟩ := mergeKnown_returns ha source target ty bothStored
  obtain rfl := Except.ok.inj (hvars.symm.trans hr)
  exact hleaders

/-- In an orderly graph, a variable whose merge was not refused went away. -/
theorem unify_returns (o : m.graph.Orderly) (h : m.vars.leaders.Acyclic) (hne : source ≠ target) :
    Returns (m.unify source target) fun r =>
      r = (m, .refused) ∨ ∃ m', r = (m', .merged) ∧ m.Merges m' source := by
  obtain ⟨u, hu, rfl | ⟨m', rfl⟩⟩ := unify_total o.toLegible h hne
  · exact ⟨_, hu, .inl rfl⟩
  · refine ⟨_, hu, .inr ⟨m', rfl, ?_⟩⟩
    obtain ⟨-, hfolds, hslots⟩ := unify_folds o.toLegible hu
    exact ⟨hfolds.orderly o, unify_acyclic h hu, hslots, fun e v => hfolds.declares o⟩

end Method

end Decompiler

import Decompiler.Proofs.Variables.Planning
import Mathlib.Data.List.InsertIdx

/-!
# Every variable gets one declaration

Every index that was planned is declared once.

* `Method.insertDeclaration_adds`, `Method.define?_adds`, `Method.defineInLoop_adds`: the ways to
  declare a variable.
* `Method.declareAll_returns`: all variables are declared, each index by one expression.
-/

namespace Decompiler

open Relation

/-! ## New declarations -/

theorem nodup_insertIdx {α : Type} {l : List α} {a : α} (h : l.Nodup) (ha : a ∉ l) (n : ℕ) :
    (l.insertIdx n a).Nodup := by
  by_cases hn : n ≤ l.length
  · exact (List.perm_insertIdx a l hn).nodup_iff.2 (List.nodup_cons.2 ⟨ha, h⟩)
  · rwa [List.insertIdx_of_length_lt (by omega)]

namespace Stat

/-- Puts an expression into the list of a leaf, or among the declarations of another statement. -/
def insertExpr (position : ℕ) (e : ExprId) (s : Stat) : Stat :=
  match s.exprs? with
  | some exprs => s.withExprs (exprs.insertIdx position e)
  | none => { s with declarations := s.declarations.insertIdx position e }

variable {s : Stat} {position : ℕ} {e x : ExprId}

theorem insertExpr_skeleton : (s.insertExpr position e).skeleton = s.skeleton := by
  obtain ⟨kind, parent, first, children, declarations, successors, predecessors, labels⟩ := s
  cases kind <;> rfl

theorem mem_declarations_of_insertExpr (h : x ∈ (s.insertExpr position e).declarations)
    (hx : x ≠ e) : x ∈ s.declarations := by
  obtain ⟨kind, parent, first, children, declarations, successors, predecessors, labels⟩ := s
  cases kind with
  | block exprs => exact h
  | _ => exact (List.eq_or_mem_of_mem_insertIdx h).resolve_left hx

theorem mem_items_of_insertExpr (h : .expr x ∈ (s.insertExpr position e).items) (hx : x ≠ e) :
    .expr x ∈ s.items := by
  obtain ⟨kind, parent, first, children, declarations, successors, predecessors, labels⟩ := s
  cases kind with
  | block exprs =>
    obtain ⟨y, hy, heq⟩ := List.mem_map.1 h
    cases heq
    exact List.mem_map.2 ⟨x, (List.eq_or_mem_of_mem_insertIdx hy).resolve_left hx, rfl⟩
  | _ => exact h

/-- What a statement holds afterwards, if its list is long enough. -/
theorem mem_insertExpr (h : position ≤ (s.exprs?.getD s.declarations).length) :
    x ∈ (s.insertExpr position e).kind.exprs ++ (s.insertExpr position e).declarations ↔
      x ∈ s.kind.exprs ++ s.declarations ∨ x = e := by
  have key : ∀ l : List ExprId, position ≤ l.length →
      (x ∈ l.insertIdx position e ↔ x = e ∨ x ∈ l) := fun _ hl => List.mem_insertIdx hl
  obtain ⟨kind, parent, first, children, declarations, successors, predecessors, labels⟩ := s
  rw [List.mem_append, List.mem_append]
  cases kind with
  | block exprs =>
    change x ∈ exprs.insertIdx position e ∨ _ ↔ (x ∈ exprs ∨ _) ∨ _
    rw [key exprs h, or_comm (a := x = e), or_right_comm]
    rfl
  | _ =>
    change _ ∨ x ∈ declarations.insertIdx position e ↔ (_ ∨ x ∈ declarations) ∨ _
    rw [key declarations h, or_comm (a := x = e), or_assoc]
    rfl

theorem nodup_insertExpr (hnodup : (s.kind.exprs ++ s.declarations).Nodup)
    (he : e ∉ s.kind.exprs ++ s.declarations) :
    ((s.insertExpr position e).kind.exprs ++ (s.insertExpr position e).declarations).Nodup := by
  obtain ⟨kind, parent, first, children, declarations, successors, predecessors, labels⟩ := s
  rw [List.mem_append, not_or] at he
  rw [List.nodup_append'] at hnodup ⊢
  cases kind with
  | block exprs =>
    refine ⟨nodup_insertIdx hnodup.1 he.1 position, hnodup.2.1, fun x hx hx' => ?_⟩
    rcases List.eq_or_mem_of_mem_insertIdx hx with rfl | hx
    · exact he.2 hx'
    · exact hnodup.2.2 hx hx'
  | _ =>
    refine ⟨hnodup.1, nodup_insertIdx hnodup.2.1 he.2 position, fun x hx hx' => ?_⟩
    rcases List.eq_or_mem_of_mem_insertIdx hx' with rfl | hx'
    · exact he.1 hx
    · exact hnodup.2.2 hx hx'

end Stat

namespace Graph

variable {g g' : Graph} {s : StatId} {e : ExprId}

/-- A new occurrence is put into the list of a statement. -/
structure Inserts (g g' : Graph) (target : StatId) (fresh : ExprId) (v : VarRef) : Prop where
  /-- The expressions stay as they are. -/
  revises : Revises g g' fun _ => False
  /-- The occurrence was not there before. -/
  new : ∀ n, g.node fresh ≠ .ok n
  /-- Now it is. -/
  node : g'.node fresh = .ok ⟨.var v, .empty⟩
  /-- Other statements stay as they are. -/
  others : ∀ s, s ≠ target → g'.stat s = g.stat s
  /-- The statement lists the occurrence. -/
  place : ∃ tt position, g.stat target = .ok tt ∧
    position ≤ (tt.exprs?.getD tt.declarations).length ∧
    g'.stat target = .ok (tt.insertExpr position fresh)

namespace Inserts

variable {target : StatId} {fresh x : ExprId} {v : VarRef} (h : Inserts g g' target fresh v)

include h

theorem isVar : g'.IsVar fresh v.var v.isDefinition :=
  ⟨v, expr_eq_ok.2 ⟨_, h.node, rfl⟩, rfl, rfl⟩

theorem holds_iff : g'.Holds s e ↔ g.Holds s e ∨ s = target ∧ e = fresh := by
  by_cases hs : s = target
  · obtain ⟨tt, position, htt, hposition, htt'⟩ := h.place
    subst hs
    rw [Graph.holds_iff htt, Graph.holds_iff htt', Stat.mem_insertExpr hposition]
    simp
  · simp [Holds, h.others s hs, hs]

theorem evaluates (he : g'.Evaluates s e) : g.Evaluates s e ∨ e = fresh := by
  by_cases hs : s = target
  · obtain ⟨tt, position, htt, -, htt'⟩ := h.place
    subst hs
    rw [Evaluates, htt', Returns.ok_iff] at he
    by_cases hx : e = fresh
    · exact .inr hx
    · exact .inl ⟨tt, htt, Stat.mem_items_of_insertExpr he hx⟩
  · rw [Evaluates, h.others s hs] at he
    exact .inl he

theorem lists (he : g'.ListsDeclaration s e) : g.ListsDeclaration s e ∨ e = fresh := by
  by_cases hs : s = target
  · obtain ⟨tt, position, htt, -, htt'⟩ := h.place
    subst hs
    rw [ListsDeclaration, htt', Returns.ok_iff] at he
    by_cases hx : e = fresh
    · exact .inr hx
    · exact .inl ⟨tt, htt, Stat.mem_declarations_of_insertExpr he hx⟩
  · rw [ListsDeclaration, h.others s hs] at he
    exact .inl he

variable (o : g.Orderly)

include o

theorem orderly : g'.Orderly := by
  refine o.of_revises h.revises (fun s e => s = target ∧ e = fresh) (fun s held hs hheld => ?_)
    (fun s e _ => h.holds_iff.1) (fun s e hnew => ?_) fun s t e hs ht => hs.1.trans ht.1.symm
  · by_cases heq : s = target
    · obtain ⟨tt, position, htt, -, htt'⟩ := h.place
      subst heq
      obtain ⟨st', hst', rfl⟩ := heldBy_eq_ok.1 hheld
      rw [htt'] at hst'
      cases hst'
      refine Stat.nodup_insertExpr (o.nodup s _ hs (heldBy_eq_ok.2 ⟨tt, htt, rfl⟩)) fun hmem => ?_
      obtain ⟨n, hn⟩ := (o.grounded s fresh hs ⟨tt, htt, hmem⟩).exists_node
      exact h.new n hn
    · rw [heldBy, h.others s heq] at hheld
      exact o.nodup s held hs hheld
  · rw [hnew.2]
    exact ⟨h.new, _, h.node, rfl⟩

theorem marking (ht : g.InTree target) (hv : v.isDefinition = true) : Marking g g' fresh v.var where
  revises := h.revises.mono fun _ h => h.elim
  before _ _ hw := by
    obtain ⟨w, hw, -⟩ := hw
    obtain ⟨n, hn, -⟩ := expr_eq_ok.1 hw
    exact absurd hn (h.new n)
  marked := hv ▸ h.isVar
  lies :=
    ⟨target, fresh, (h.revises.inTree_iff o.forest).2 ht, h.holds_iff.2 (.inr ⟨rfl, rfl⟩), .refl⟩
  keeps _ _ _ he := h.holds_iff.2 (.inl he)
  holds _ _ _ he := (h.holds_iff.1 he).imp_right And.right
  evaluates _ _ _ he := h.evaluates he
  lists _ _ _ he := h.lists he

theorem declares {w : Local} (hx : g'.Declares x w) : g.Declares x w ∨ x = fresh ∧ w = v.var := by
  by_cases heq : x = fresh
  · -- the new declaration is an occurrence of the variable
    subst heq
    obtain ⟨u, hu, huv, -⟩ := h.isVar
    refine .inr ⟨rfl, ?_⟩
    obtain ⟨s, -, ⟨-, hlocal⟩ | ⟨-, hdeclared⟩⟩ := hx
    · obtain ⟨w', hw', rfl⟩ := local?_eq_ok.1 hlocal
      rw [hu] at hw'
      cases hw'
      exact huv
    · obtain ⟨y, w', rfl | ⟨right, hassign⟩, hw', -, rfl⟩ := declared?_eq_some.1 hdeclared
      · rw [hu] at hw'
        cases hw'
        exact huv
      · rw [hu] at hassign
        cases hassign
  · rcases hx.of_revises o h.revises (fun s _ hl => (h.lists hl).resolve_right heq)
      (fun s _ he => (h.evaluates he).resolve_right heq) with hx | ⟨_, _, _, h, _⟩ |
        ⟨_, _, _, _, _, h, _⟩
    · exact .inl hx
    · exact h.elim
    · exact h.elim

theorem adds (ht : g.InTree target) (hv : v.isDefinition = true) : Adds g g' v.var where
  orderly := h.orderly o
  inTree _ hs := (h.revises.inTree_iff o.forest).2 hs
  declares := ⟨fresh, fun _ _ hx => (h.declares o hx).imp_right fun ⟨hx, hw⟩ => ⟨hx, hw ▸ rfl⟩⟩
  marks := ⟨fresh, v.var, h.marking o ht hv, rfl, .inr ⟨h.new, rfl⟩⟩

end Inserts

end Graph

namespace Method

open Decompiler.Graph

variable {m m' : Method} {s t scope : StatId} {e : ExprId} {index : ℕ} {var : Local}

/-- A new declaration is put at the position that is asked for. -/
theorem insertDeclaration_inserts {target : StatId} {tt : Stat}
    (htt : m.graph.stat target = .ok tt) (v : VarRef) {position : ℕ}
    (hposition : position ≤ (tt.exprs?.getD tt.declarations).length) :
    Returns (m.insertDeclaration v target position) fun m' => m'.vars = m.vars ∧
      ∃ fresh, Inserts m.graph m'.graph target fresh v ∧
        m'.graph.stat target = .ok (tt.insertExpr position fresh) := by
  obtain ⟨⟨g₁, fresh⟩, halloc⟩ : ∃ p, m.graph.allocExpr (.var v) .empty = p := ⟨_, rfl⟩
  obtain ⟨hstats₁, hedges₁, hgrows, hfresh, hnode⟩ := allocExpr_frame halloc
  have hstat₁ : ∀ s, g₁.stat s = m.graph.stat s := fun s => by rw [stat, hstats₁, stat]
  obtain ⟨g', hg'⟩ :=
    modifyStat_returns (Stat.insertExpr position fresh) ((hstat₁ target).trans htt)
  obtain ⟨tt', htt', hstat, -, hexprs⟩ := stat_modifyStat hg'
  rw [hstat₁, htt] at htt'
  cases htt'
  have htarget : g'.stat target = .ok (tt.insertExpr position fresh) := by
    rw [hstat, if_pos rfl]
  have hinserts : Inserts m.graph g' target fresh v := by
    refine ⟨(Revises.of_grows hstats₁ hedges₁ hgrows).trans (.modifyStat hg' fun _ =>
      Stat.insertExpr_skeleton), hfresh, ?_, fun s hs => ?_, tt, position, htt, hposition, htarget⟩
    · rw [node, hexprs]
      exact hnode
    · rw [hstat, if_neg (Ne.symm hs), hstat₁]
  refine ⟨{ m with graph := g' }, ?_, rfl, fresh, hinserts, htarget⟩
  rw [insertDeclaration, halloc]
  exact Checked.bind_eq_ok.2 ⟨g', hg', rfl⟩

/-- It is the only one that is added. -/
theorem insertDeclaration_adds (o : m.graph.Orderly) {target : StatId}
    (ht : m.graph.InTree target) {tt : Stat} (htt : m.graph.stat target = .ok tt) {v : VarRef}
    (hv : v.isDefinition = true) {position : ℕ}
    (hposition : position ≤ (tt.exprs?.getD tt.declarations).length) :
    Returns (m.insertDeclaration v target position) fun m' =>
      m'.vars = m.vars ∧ Adds m.graph m'.graph v.var :=
  (insertDeclaration_inserts htt v hposition).mono fun _ ⟨hvars, _, hinserts, _⟩ =>
    ⟨hvars, hinserts.adds o ht hv⟩

/-! ## Marks -/

/-- An assignment to the index becomes its definition. -/
theorem define?_adds (o : m.graph.Orderly) (hs : m.graph.InTree s) (he : m.graph.Holds s e)
    (hscope : m.graph.InTree scope) : Returns (m.define? e var.index scope) fun r =>
      ∀ m', r = some m' → m'.vars = m.vars ∧ Adds m.graph m'.graph var := by
  have hground := o.grounded s e hs he
  obtain ⟨p, hp⟩ := hground.assign?
  rw [define?, hp, Checked.ok_bind]
  rcases p with _ | ⟨left, right⟩
  · exact Returns.pure_iff.2 nofun
  obtain ⟨hleft, hleftGround, -⟩ := hground.sides (assign?_eq_ok.1 hp)
  obtain ⟨range, hrange⟩ := o.offsetRange? hscope
  obtain ⟨v?, hv?⟩ := hleftGround.var?
  simp only [hrange, hv?, Checked.ok_bind]
  cases v? with
  | none => exact Returns.pure_iff.2 nofun
  | some v =>
    simp only
    split
    · exact Returns.pure_iff.2 nofun
    · next hindex =>
      obtain ⟨n, hn⟩ := hleftGround.exists_node
      obtain ⟨g', hg'⟩ := modifyExpr_returns (Expr.mapVar fun v => { v with
        isDefinition := true
        entry := v.entry <|> range.bind fun r => m.vars.findEntry? var.index r.1 r.2 }) hn
      rw [hg', Checked.ok_bind, Returns.pure_iff]
      rintro m' ⟨⟩
      refine ⟨rfl, adds_mark o hs he (.single hleft) (var?_eq_ok.1 hv?) rfl rfl hg' ?_⟩
      simpa using hindex

/-- The search for a definition in a list marks one, or finds a position in the list. -/
theorem defineInList_adds (o : m.graph.Orderly) (hs : m.graph.InTree s)
    (hscope : m.graph.InTree scope) {l : List ExprId} (hl : ∀ e ∈ l, m.graph.Holds s e)
    (position : ℕ) : Returns (m.defineInList var.index scope position l) fun r =>
      (∀ m', r = .inl m' → m'.vars = m.vars ∧ Adds m.graph m'.graph var) ∧
        ∀ p, r = .inr p → p ≤ position + l.length := by
  induction l generalizing position with
  | nil => exact Returns.pure_iff.2 ⟨nofun, fun p hp => (Sum.inr.inj hp).symm.le⟩
  | cons e rest ih =>
    rw [defineInList]
    refine (define?_adds o hs (hl e (by simp)) hscope).bind fun r _ hr => ?_
    cases r with
    | some m' =>
      refine Returns.pure_iff.2 ⟨fun m'' h => ?_, nofun⟩
      cases h
      exact hr m' rfl
    | none =>
      obtain ⟨indices, hindices⟩ := indicesIn_returns (l := [e]) fun x hx =>
        o.grounded s x hs (hl x (List.mem_singleton.1 hx ▸ by simp))
      simp only [hindices, Checked.ok_bind, List.length_cons]
      split
      · refine Returns.pure_iff.2 ⟨nofun, fun p hp => ?_⟩
        cases hp
        omega
      · refine (ih (fun x hx => hl x (by simp [hx])) (position + 1)).mono fun r hr => ?_
        refine ⟨hr.1, fun p hp => ?_⟩
        have := hr.2 p hp
        omega

/-- A slot of a loop is marked, or another statement of the tree is found to declare the variable.
-/
theorem defineInLoop_adds (o : m.graph.Orderly) (hs : m.graph.InTree s) :
    Returns (m.defineInLoop var.index s) (Sum.elim
      (fun m' => m'.vars = m.vars ∧ Adds m.graph m'.graph var) m.graph.InTree) := by
  obtain ⟨st, hst⟩ := o.forest.stat s hs
  have hheld : ∀ e ∈ st.kind.exprs, m.graph.Holds s e := fun e he =>
    ⟨st, hst, List.mem_append_left _ he⟩
  rw [defineInLoop, hst, Checked.ok_bind]
  split
  · next init condition step hkind =>
    rw [hkind] at hheld
    -- without a definition in front, the slots decide which statement declares the variable
    have hrest : Returns (do
        let special ← m.graph.indicesIn (condition.toList ++ step.toList)
        return .inr (if var.index ∈ special then st.parent.getD s else s))
        (Sum.elim (fun m' : Method => m'.vars = m.vars ∧ Adds m.graph m'.graph var)
          m.graph.InTree) := by
      obtain ⟨special, hspecial⟩ := indicesIn_returns (l := condition.toList ++ step.toList)
        fun e he => o.grounded s e hs <| hheld e <| by
          simp only [StatKind.exprs, Stat.loopBefore, Stat.loopAfter, List.mem_append] at he ⊢
          exact he.imp_left .inr
      rw [hspecial, Checked.ok_bind, Returns.pure_iff, Sum.elim_inr]
      split
      · cases hparent : st.parent with
        | none => exact hs
        | some p => exact (o.forest.up s st p hs hst hparent).1
      · exact hs
    cases init with
    | none => exact hrest
    | some init =>
      refine (define?_adds o hs (hheld init ?_) hs).bind fun defined _ hdefined => ?_
      · simp [StatKind.exprs, Stat.loopBefore]
      · cases defined with
        | none => exact hrest
        | some m' => exact Returns.pure_iff.2 (hdefined m' rfl)
  · next init condition step hkind =>
    have hinit : m.graph.Holds s init :=
      hheld init (by simp [hkind, StatKind.exprs, Stat.loopBefore])
    have hground := o.grounded s init hs hinit
    obtain ⟨v?, hv?⟩ := hground.var?
    rw [hv?, Checked.ok_bind]
    cases v? with
    | none => exact Returns.pure_iff.2 hs
    | some v =>
      simp only
      split
      · next hindex =>
        obtain ⟨n, hn⟩ := hground.exists_node
        obtain ⟨g', hg'⟩ :=
          modifyExpr_returns (Expr.mapVar fun v => { v with isDefinition := true }) hn
        rw [hg', Checked.ok_bind, Returns.pure_iff]
        exact ⟨rfl, adds_mark o hs hinit .refl (var?_eq_ok.1 hv?) rfl rfl hg' hindex⟩
      · exact Returns.pure_iff.2 hs
  · exact Returns.pure_iff.2 hs

/-! ## Declaring one variable -/

theorem entryFor?_returns (o : m.graph.Orderly) (hs : m.graph.InTree s) (index : ℕ) :
    ∃ r, m.entryFor? index s = .ok r := by
  obtain ⟨carried, hcarried⟩ := o.findOccurrence? hs fun v =>
    if v.var.index = index then v.entry else none
  obtain ⟨range, hrange⟩ := o.offsetRange? hs
  simp only [entryFor?, hcarried, hrange, Checked.ok_bind]
  split <;> exact ⟨_, rfl⟩

theorem declareIn_adds (o : m.graph.Orderly) (hs : m.graph.InTree s) (plan : Plan) (var : Local)
    (ty : Option Ty) : Returns (m.declareIn plan var ty s) fun m' =>
      m'.vars = m.vars ∧ Adds m.graph m'.graph var := by
  rw [declareIn]
  refine (o.firstBlock? hs plan var.index).bind fun first _ hfirst => ?_
  have htarget : m.graph.InTree (first.getD s) := by
    cases first with
    | none => exact hs
    | some t => exact hfirst t rfl
  obtain ⟨tt, htt⟩ := o.forest.stat _ htarget
  have hlist : ∀ e ∈ tt.exprs?.getD tt.declarations, m.graph.Holds (first.getD s) e := by
    intro e he
    refine ⟨tt, htt, ?_⟩
    cases hexprs : tt.exprs? with
    | none =>
      rw [hexprs] at he
      exact List.mem_append_right _ he
    | some exprs =>
      rw [hexprs] at he
      rw [Stat.exprs?_eq_some.1 hexprs]
      exact List.mem_append_left _ he
  simp only [htt, Checked.ok_bind]
  refine (defineInList_adds o htarget hs hlist 0).bind fun r _ hr => ?_
  cases r with
  | inl m' => exact Returns.pure_iff.2 (hr.1 m' rfl)
  | inr position =>
    obtain ⟨entry, hentry⟩ : ∃ entry, (if m.vars.debugTable.isSome then m.entryFor? var.index s
        else pure none) = .ok entry := by
      split
      · exact entryFor?_returns o hs var.index
      · exact ⟨none, rfl⟩
    simp only
    rw [Checked.ite_bind, hentry, Checked.ok_bind]
    refine insertDeclaration_adds o htarget htt rfl ?_
    simpa using hr.2 position rfl

/-- An index is declared, in the version that occurs first in its home. -/
theorem declare_adds {plan : Plan} (o : m.graph.Orderly) (hs : m.graph.InTree s)
    (himplicit : index ∉ plan.implicit) {first : Option VarRef}
    (hfirst : m.graph.findOccurrence? s (fun v => if v.var.index = index then some v else none) =
      .ok first) : Returns (declare plan m (index, s)) fun m' => m.vars.SameMerges m'.vars ∧
      Adds m.graph m'.graph ⟨index, (first.map fun v => v.var.version).getD 0⟩ := by
  rw [declare, if_neg himplicit, hfirst, Checked.ok_bind]
  generalize hvar : (⟨index, (first.map fun v => v.var.version).getD 0⟩ : Local) = var
  obtain rfl : var.index = index := by rw [← hvar]
  -- naming the variable leaves the graph alone
  have hnamed : ∀ m' : Method, m'.vars = m.vars.nameByIndex var ∧ Adds m.graph m'.graph var →
      m.vars.SameMerges m'.vars ∧ Adds m.graph m'.graph var := by
    rintro m' ⟨hvars, hadds⟩
    exact ⟨hvars ▸ ⟨rfl, rfl⟩, hadds⟩
  refine (defineInLoop_adds (m := ⟨m.graph, m.vars.nameByIndex var⟩) o hs).bind fun r _ hr => ?_
  cases r with
  | inl m' => exact Returns.pure_iff.2 (hnamed m' hr)
  | inr t =>
    exact (declareIn_adds (m := ⟨m.graph, m.vars.nameByIndex var⟩) o hr plan var
      (first.map VarRef.ty)).mono hnamed

/-- What holds of a method `m'` on the way from `m`, where `P` tells the indices declared so far. -/
structure Progress (m m' : Method) (P : ℕ → Prop) : Prop where
  /-- The graph is orderly. -/
  orderly : m'.graph.Orderly
  /-- What was in the tree still is. -/
  inTree : ∀ s, m.graph.InTree s → m'.graph.InTree s
  /-- Nothing was merged. -/
  merges : m.vars.SameMerges m'.vars
  /-- Each index is declared once. -/
  once : DeclaresOnce m'.graph P

theorem declare_progress {plan : Plan} {P : ℕ → Prop} (h : Progress m m' P)
    (hs : m.graph.InTree s) (hP : ¬ P index) : Returns (declare plan m' (index, s)) fun m'' =>
      Progress m m'' fun i => P i ∨ i = index ∧ i ∉ plan.implicit := by
  by_cases himplicit : index ∈ plan.implicit
  · rw [declare, if_pos himplicit]
    refine Returns.pure_iff.2 ⟨h.orderly, h.inTree, h.merges, fun e v he => .inl ?_, h.once.unique⟩
    exact h.once.index e v he
  · have hs := h.inTree s hs
    obtain ⟨first, hfirst⟩ := h.orderly.findOccurrence? hs fun v =>
      if v.var.index = index then some v else none
    refine (declare_adds h.orderly hs himplicit hfirst).mono fun m'' ⟨hmerges, hadds⟩ => ?_
    have honce := h.once.adds hadds hP
    refine ⟨hadds.orderly, fun s hs => hadds.inTree s (h.inTree s hs),
      ⟨hmerges.1.trans h.merges.1, hmerges.2.trans h.merges.2⟩, fun e v he => ?_, honce.unique⟩
    exact (honce.index e v he).imp_right fun hi => ⟨hi, hi ▸ himplicit⟩

/-- All variables of a plan are declared, each index by one expression. -/
theorem declareAll_returns {plan : Plan} (o : m.graph.Orderly)
    (hnone : ∀ e v, ¬ m.graph.Declares e v) (hkeys : plan.homes.keys.Nodup)
    (htree : ∀ p ∈ plan.homes.entries, m.graph.InTree p.2) :
    Returns (m.declareAll plan) fun m' => Progress m m' fun i => i ∉ plan.implicit := by
  have hperm : plan.ascending.Perm plan.homes.entries := List.mergeSort_perm _ _
  have key : ∀ (l : List (ℕ × StatId)) (P : ℕ → Prop) (m' : Method), (l.map Prod.fst).Nodup →
      (∀ p ∈ l, m.graph.InTree p.2) → Progress m m' P → (∀ i, P i → i ∉ plan.implicit) →
      (∀ p ∈ l, ¬ P p.1) →
      Returns (l.foldlM (declare plan) m') fun m'' =>
        Progress m m'' fun i => i ∉ plan.implicit := by
    intro l
    induction l with
    | nil =>
      intro P m' _ _ h hP _
      exact Returns.pure_iff.2 ⟨h.orderly, h.inTree, h.merges,
        fun e v he => hP _ (h.once.index e v he), h.once.unique⟩
    | cons p l ih =>
      intro P m' hnodup htree h hP hnew
      rw [List.map_cons, List.nodup_cons] at hnodup
      rw [List.foldlM_cons]
      refine (declare_progress h (htree p (by simp)) (hnew p (by simp))).bind fun m'' _ h' => ?_
      refine ih _ m'' hnodup.2 (fun q hq => htree q (by simp [hq])) h' ?_ fun q hq => ?_
      · rintro i (hi | ⟨-, hi⟩)
        · exact hP i hi
        · exact hi
      · rintro (hi | ⟨hi, -⟩)
        · exact hnew q (by simp [hq]) hi
        · exact hnodup.1 (hi ▸ List.mem_map_of_mem hq)
  refine key plan.ascending (fun _ => False) m ?_ (fun p hp => htree p (hperm.mem_iff.1 hp))
    ⟨o, fun _ hs => hs, ⟨rfl, rfl⟩, hnone, fun e _ v _ he => (hnone e v he).elim⟩ nofun
    fun _ _ => id
  exact (hperm.map Prod.fst).nodup_iff.2 hkeys

end Method

end Decompiler

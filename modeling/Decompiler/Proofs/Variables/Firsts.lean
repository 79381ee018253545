import Decompiler.Proofs.Variables.Declaring
import Decompiler.Proofs.Variables.Definitions
import Decompiler.Proofs.Variables.Printing

/-!
# Every variable is declared before it is used

In the order in which variables are printed, the first occurrence of each index is the one that is
marked as its definition.

* `Graph.Introduces`: one index gets a mark that is printed first, and no other index is concerned.
* `Graph.introduces_mark`, `Graph.introduces_insert`: the two ways to come to one, by marking an
  occurrence that is there or by inserting a new one.
* `Method.declareIn_introduces`, `Method.declare_introduces`: placing one declaration.
* `Method.declareAll_definesFirst`: placing all of them.
-/

namespace Decompiler

open Relation

/-! ## Inserting into a list -/

/-- What stood before an element still does, apart from what was inserted. -/
theorem exists_split_of_insert {α : Type} {a b before after : List α} {x : α} (z : α)
    (h : a ++ b = before ++ x :: after) :
    ∃ before' after', a ++ z :: b = before' ++ x :: after' ∧ ∀ u ∈ before', u ∈ before ∨ u = z := by
  rcases List.append_eq_append_iff.1 h with ⟨l, rfl, rfl⟩ | ⟨l, rfl, hrest⟩
  · refine ⟨a ++ z :: l, after, by simp, fun u hu => ?_⟩
    simp only [List.mem_append, List.mem_cons] at hu ⊢
    tauto
  · cases l with
    | nil =>
      rw [List.nil_append] at hrest
      refine ⟨before ++ [z], after, by simp [← hrest], fun u hu => ?_⟩
      simpa using hu
    | cons y l =>
      obtain ⟨rfl, rfl⟩ := List.cons.inj hrest
      exact ⟨before, l ++ z :: b, by simp, fun u hu => .inl hu⟩

/-- The list that a declaration is put into is a part of what a statement prints, after declarations
alone. -/
theorem Stat.exists_printed_list (st : Stat) : ∃ opening closing,
    (∀ item ∈ opening, ∃ e ∈ st.declarations, item = .expr e) ∧
      st.printed = opening ++ (st.exprs?.getD st.declarations).map Item.expr ++ closing ∧
      ∀ position e, (st.insertExpr position e).printed = opening ++
        ((st.exprs?.getD st.declarations).insertIdx position e).map Item.expr ++ closing := by
  obtain ⟨kind, parent, first, children, declarations, successors, predecessors, labels⟩ := st
  have hdeclarations : ∀ item ∈ declarations.map Item.expr, ∃ e ∈ declarations, item = .expr e :=
    fun item hi => (List.mem_map.1 hi).imp fun _ h => ⟨h.1, h.2.symm⟩
  cases kind with
  | block exprs =>
    exact ⟨_, [], hdeclarations, (List.append_nil _).symm, fun _ _ => (List.append_nil _).symm⟩
  | _ => exact ⟨[], _, List.forall_mem_nil _, rfl, fun _ _ => rfl⟩

theorem insertIdx_length_append {α : Type} (a b : List α) (x : α) :
    (a ++ b).insertIdx a.length x = a ++ x :: b := by
  induction a with
  | nil => rfl
  | cons y a ih => rw [List.cons_append, List.length_cons, List.insertIdx_succ_cons, ih]; rfl

namespace Graph

variable {g g' : Graph} {s t c target : StatId} {e y fresh : ExprId} {index i : ℕ} {item : Item}

/-! ## Changes that do not concern an index -/

/-- The change does not concern the index: no more of it is printed, and what comes first still
does. -/
structure Ignores (g g' : Graph) (index : ℕ) : Prop where
  /-- What prints the index. -/
  prints : ∀ s, g.InTree s → g'.PrintsAt s index → g.PrintsAt s index
  /-- What declares it. -/
  lists : ∀ s e, g.InTree s → g'.ListsDeclaration s e → g'.Names e index →
    g.ListsDeclaration s e ∧ g.Names e index
  /-- What is printed first of a statement. -/
  leads : ∀ s c, g.InTree s → g.LeadsTo index s c → g'.LeadsTo index s c
  /-- Which occurrence is. -/
  opens : ∀ s y, g.InTree s → g.Opens index s y → g'.Opens index s y

theorem Ignores.definedFirst (h : g.Ignores g' index) (hy : g.DefinedFirst index y) :
    g'.DefinedFirst index y := by
  obtain ⟨t, hway, hopens⟩ := hy
  refine ⟨t, ?_, h.opens t y (within_of_leadsTo hway) hopens⟩
  clear hopens
  induction hway with
  | refl => exact .refl
  | tail hway hstep ih => exact ih.tail (h.leads _ _ (within_of_leadsTo hway) hstep)

/-- An index gets a mark that is printed first, and no other index is concerned. -/
structure Introduces (g g' : Graph) (index : ℕ) : Prop where
  /-- The graph stays orderly. -/
  orderly : g'.Orderly
  /-- The mark. -/
  mark : ∃ y v, Marking g g' y v ∧ v.index = index ∧ g'.DefinedFirst index y
  /-- The other indices. -/
  others : ∀ i, i ≠ index → g.Ignores g' i

/-! ## Marking an occurrence -/

/-- The occurrence of an index that an expression declares is marked. -/
def MarksTarget (g g' : Graph) (index : ℕ) (e : ExprId) : Prop :=
  ∃ y w f, g.Target e y ∧ g.expr y = .ok (.var w) ∧ w.var.index = index ∧
    (∀ v : VarRef, (f v).var = v.var ∧ (f v).isDefinition = true) ∧
    g.modifyExpr y (Expr.mapVar f) = .ok g'

namespace SameNames

variable (h : g.SameNames g')

include h

theorem printsAt_iff : g'.PrintsAt s index ↔ g.PrintsAt s index := by
  simp only [PrintsAt, h.stat_eq, h.2]

theorem silent_iff : g'.Silent index item ↔ g.Silent index item := by
  cases item with
  | expr e => exact not_congr (h.2 e index)
  | stat c => simp only [Silent, Prints, h.sameLinks.within_eq, h.printsAt_iff]

theorem leadsTo_eq : g'.LeadsTo index = g.LeadsTo index := by
  funext s c
  simp only [LeadsTo, h.stat_eq, h.silent_iff]

end SameNames

/-- Marking the occurrence that is printed first. -/
theorem introduces_mark (o : g.Orderly) (hway : ReflTransGen (g.LeadsTo index) root t) {st : Stat}
    (hst : g.stat t = .ok st) (before after : List Item)
    (hprinted : st.printed = before ++ .expr e :: after)
    (hsilent : ∀ item ∈ before, g.Silent index item) (h : g.MarksTarget g' index e) :
    g.Introduces g' index := by
  obtain ⟨y, w, f, htarget, hy, hindex, hf, hg'⟩ := h
  have ht : g.InTree t := within_of_leadsTo hway
  have he : g.Holds t e := holds_of_printed hst (hprinted ▸ by simp)
  have hreach := (o.grounded t e ht he).reaches_target htarget
  have hsame : g.SameNames g' := sameNames_modifyExpr (fun v => (hf v).1) hg'
  have hmark := marking_modifyExpr o ht he hreach hy (hf w).1 (hf w).2 hg'
  have htargets : ∀ {x z}, g.Target x z → g'.Target x z := by
    rintro x z (rfl | ⟨right, hx⟩)
    · exact .inl rfl
    · refine .inr ⟨right, ?_⟩
      rw [expr_modifyExpr hg' hx]
      split <;> rfl
  refine ⟨o.of_stats_eq hmark.revises hsame.1, ⟨y, w.var, hmark, hindex, t, ?_, ?_⟩, fun i hi => ?_⟩
  · rwa [hsame.leadsTo_eq]
  · refine ⟨st, hsame.stat_eq ▸ hst, before, e, after, hprinted, fun item hitem => ?_,
      htargets htarget, w.var, hmark.marked, hindex⟩
    exact hsame.silent_iff.2 (hsilent item hitem)
  · refine ⟨fun s _ => hsame.printsAt_iff.1, fun s x _ hx hnames => ⟨?_, (hsame.2 x i).1 hnames⟩,
      fun s c _ hs => hsame.leadsTo_eq ▸ hs, fun s z _ hs => ?_⟩
    · rwa [ListsDeclaration, hsame.stat_eq] at hx
    · obtain ⟨st, hst, before, x, after, hprinted, hsilent, hx, v, hv, rfl⟩ := hs
      refine ⟨st, hsame.stat_eq ▸ hst, before, x, after, hprinted, fun item hitem => ?_,
        htargets hx, v, ?_, rfl⟩
      · exact hsame.silent_iff.2 (hsilent item hitem)
      · have hne : z ≠ y := by
          rintro rfl
          exact hi (by rw [← hindex, hmark.before v true hv])
        obtain ⟨u, hu, hvar⟩ := hv
        refine ⟨u, ?_, hvar⟩
        rw [expr_modifyExpr hg' hu, if_neg hne.symm]

/-! ## Inserting an occurrence -/

namespace Inserts

variable {v : VarRef} (h : Inserts g g' target fresh v)

include h

theorem names_iff (he : g.Grounded e) : g'.Names e i ↔ g.Names e i := by
  simp only [Names, h.revises.reaches_iff he]
  refine exists_congr fun x => exists_congr fun w => exists_congr fun marked =>
    and_congr_right fun hx => and_congr_left fun _ => ?_
  exact h.revises.isVar_iff (he.of_reaches hx) id

theorem names_fresh_iff : g'.Names fresh i ↔ i = v.var.index := by
  constructor
  · rintro ⟨x, w, marked, hx, hw, rfl⟩
    obtain rfl := h.isVar.eq_of_reaches hx
    rw [(hw.functional h.isVar).1]
  · rintro rfl
    exact ⟨fresh, v.var, _, .refl, h.isVar, rfl⟩

/-- What stood before an item of a statement still does, apart from the new occurrence. -/
theorem exists_split {tt tt' : Stat} {a b : List Item} (htt : g.stat target = .ok tt)
    (hprinted : tt.printed = a ++ b) (htt' : g'.stat target = .ok tt')
    (hprinted' : tt'.printed = a ++ .expr fresh :: b) {st : Stat} {before after : List Item}
    (hst : g.stat s = .ok st) (heq : st.printed = before ++ item :: after) :
    Returns (g'.stat s) fun st' =>
      ∃ before' after', st'.printed = before' ++ item :: after' ∧
        ∀ u ∈ before', u ∈ before ∨ u = .expr fresh := by
  by_cases hs : s = target
  · subst hs
    rw [htt] at hst
    cases hst
    obtain ⟨before', after', heq', hsub⟩ :=
      exists_split_of_insert (Item.expr fresh) (hprinted.symm.trans heq)
    exact ⟨tt', htt', before', after', hprinted'.trans heq', hsub⟩
  · exact ⟨st, (h.others s hs).trans hst, before, after, heq, fun u hu => .inl hu⟩

variable (o : g.Orderly)

include o

theorem within_iff (hs : g.InTree s) : g'.Within s t ↔ g.Within s t :=
  o.forest.within_congr (fun x hx => (o.forest.stat x hx).elim fun _ hst => h.revises.links hst) hs

theorem printsAt (hs : g.InTree s) (hi : g'.PrintsAt s i) :
    g.PrintsAt s i ∨ s = target ∧ i = v.var.index := by
  obtain ⟨e, he, hnames⟩ := Graph.printsAt_iff.1 hi
  by_cases hfresh : e = fresh
  · subst hfresh
    refine .inr ⟨?_, h.names_fresh_iff.1 hnames⟩
    have hholds := he.elim ListsDeclaration.holds Evaluates.holds
    rcases h.holds_iff.1 hholds with hold | ⟨hs, -⟩
    · obtain ⟨n, hn⟩ := (o.grounded s e hs hold).exists_node
      exact absurd hn (h.new n)
    · exact hs
  · have he : g.ListsDeclaration s e ∨ g.Evaluates s e :=
      he.imp (fun he => (h.lists he).resolve_right hfresh)
        fun he => (h.evaluates he).resolve_right hfresh
    have hholds := he.elim ListsDeclaration.holds Evaluates.holds
    exact .inl (Graph.printsAt_iff.2 ⟨e, he, (h.names_iff (o.grounded s e hs hholds)).1 hnames⟩)

/-- What was silent stays so, unless the new occurrence is put into it. -/
theorem silent {st : Stat} (hs : g.InTree s) (hst : g.stat s = .ok st) (hitem : item ∈ st.printed)
    (hsilent : g.Silent i item)
    (hout : i ≠ v.var.index ∨ ∀ c, item = .stat c → ¬ g.Within c target) : g'.Silent i item := by
  cases item with
  | expr e =>
    exact fun hnames => hsilent ((h.names_iff (o.grounded s e hs (holds_of_printed hst hitem))).1
      hnames)
  | stat c =>
    rintro ⟨t, ht, hprints⟩
    have hc : g.InTree c := hs.child (childOf_of_printed hst hitem)
    have ht := (h.within_iff o hc).1 ht
    rcases h.printsAt o (hc.within ht) hprints with hprints | ⟨rfl, hi⟩
    · exact hsilent ⟨t, ht, hprints⟩
    · exact hout.elim (· hi) fun hout => hout c rfl ht

variable {tt tt' : Stat} {a b : List Item} (htt : g.stat target = .ok tt)
  (hprinted : tt.printed = a ++ b) (htt' : g'.stat target = .ok tt')
  (hprinted' : tt'.printed = a ++ .expr fresh :: b)

include htt hprinted htt' hprinted'

/-- Another index is not concerned. -/
theorem ignores (hi : i ≠ v.var.index) : g.Ignores g' i := by
  have hsilent : ∀ {s st} {before after before' : List Item} {item}, g.InTree s →
      g.stat s = .ok st → st.printed = before ++ item :: after → (∀ u ∈ before, g.Silent i u) →
      (∀ u ∈ before', u ∈ before ∨ u = .expr fresh) → ∀ u ∈ before', g'.Silent i u := by
    intro s st before after before' item hs hst heq hbefore hsub u hu
    rcases hsub u hu with hu | rfl
    · exact h.silent o hs hst (heq ▸ List.mem_append_left _ hu) (hbefore u hu) (.inl hi)
    · exact fun hnames => hi (h.names_fresh_iff.1 hnames)
  refine ⟨fun s hs hprints => ?_, fun s e hs he hnames => ?_, fun s c hs hstep => ?_,
    fun s y hs hopens => ?_⟩
  · exact (h.printsAt o hs hprints).resolve_right fun heq => hi heq.2
  · have he := (h.lists he).resolve_right fun heq => hi (h.names_fresh_iff.1 (heq ▸ hnames))
    exact ⟨he, (h.names_iff (o.grounded s e hs he.holds)).1 hnames⟩
  · obtain ⟨st, hst, before, after, heq, hbefore⟩ := hstep
    refine (h.exists_split htt hprinted htt' hprinted' hst heq).mono ?_
    rintro st' ⟨before', after', heq', hsub⟩
    exact ⟨before', after', heq', hsilent hs hst heq hbefore hsub⟩
  · obtain ⟨st, hst, before, e, after, heq, hbefore, htarget, w, hw, hindex⟩ := hopens
    refine (h.exists_split htt hprinted htt' hprinted' hst heq).mono ?_
    rintro st' ⟨before', after', heq', hsub⟩
    have hground := o.grounded s e hs (holds_of_printed hst (heq ▸ by simp))
    have hy := hground.of_reaches (hground.reaches_target htarget)
    refine ⟨before', e, after', heq', hsilent hs hst heq hbefore hsub, htarget.imp_right ?_, w,
      (h.revises.isVar_iff hy id).2 hw, hindex⟩
    rintro ⟨right, he⟩
    obtain ⟨x', hx', hshape, -⟩ := h.revises.exprs e _ he
    rw [Expr.eq_assign_of_shape hshape] at hx'
    exact ⟨right, hx'⟩

/-- Inserting an occurrence that is printed first. -/
theorem introduces (hway : ReflTransGen (g.LeadsTo v.var.index) root target)
    (hv : v.isDefinition = true) (hsilent : ∀ item ∈ a, g.Silent v.var.index item) :
    g.Introduces g' v.var.index := by
  have ht : g.InTree target := within_of_leadsTo hway
  have hout : ∀ {s c}, g.InTree s → g.ChildOf s c → g.Within c target → s ≠ target := by
    rintro s c hs hc hct rfl
    exact o.forest.acyclic hs (.head' hc hct)
  -- on the way down, the new occurrence lies in the next statement and in none before it
  have hdown : ∀ s, g.InTree s → ReflTransGen (g.LeadsTo v.var.index) s target →
      ReflTransGen (g'.LeadsTo v.var.index) s target := by
    intro s hs hway
    induction hway using ReflTransGen.head_induction_on with
    | refl => exact .refl
    | @head s c hstep hrest ih =>
      have hc := hstep.childOf
      have hct := within_of_leadsTo hrest
      refine .head ?_ (ih (hs.child hc))
      obtain ⟨st, hst, before, after, heq, hbefore⟩ := hstep
      refine ⟨st, (h.others s (hout hs hc hct)).trans hst, before, after, heq, fun item hitem => ?_⟩
      have hprints : item ∈ st.printed := heq ▸ List.mem_append_left _ hitem
      refine h.silent o hs hst hprints (hbefore item hitem) (.inr ?_)
      rintro d rfl hdt
      obtain rfl := o.forest.eq_of_within hs hc (childOf_of_printed hst hprints) hct hdt
      exact Stat.notMem_of_printed (o.forest.nodup s st hs hst) heq hitem
  refine ⟨h.orderly o, ⟨fresh, v.var, h.marking o ht hv, rfl, target, hdown _ .refl hway, tt', htt',
    a, fresh, b, hprinted', fun item hitem => ?_, .inl rfl, v.var, hv ▸ h.isVar, rfl⟩,
    fun i hi => h.ignores o htt hprinted htt' hprinted' hi⟩
  have hprints : item ∈ tt.printed := hprinted ▸ List.mem_append_left _ hitem
  refine h.silent o ht htt hprints (hsilent item hitem) (.inr ?_)
  rintro c rfl hct
  exact hout ht (childOf_of_printed htt hprints) hct rfl

end Inserts

end Graph

namespace Method

open Decompiler.Graph

variable {m m' : Method} {s t scope : StatId} {e : ExprId} {index : ℕ} {var : Local} {plan : Plan}

/-! ## Placing one declaration -/

/-- An assignment becomes a definition through its left side. -/
theorem marksTarget_define? (h : m.define? e index scope = .ok (some m')) :
    m.graph.MarksTarget m'.graph index e := by
  obtain ⟨p, hp, h⟩ := Checked.bind_eq_ok.1 h
  rcases p with _ | ⟨left, right⟩
  · cases Checked.pure_eq_ok.1 h
  obtain ⟨range, -, h⟩ := Checked.bind_eq_ok.1 h
  obtain ⟨v?, hv, h⟩ := Checked.bind_eq_ok.1 h
  cases v? with
  | none => cases Checked.pure_eq_ok.1 h
  | some v =>
    simp only at h
    split at h
    · cases Checked.pure_eq_ok.1 h
    · next hindex =>
      obtain ⟨g', hg', h⟩ := Checked.bind_eq_ok.1 h
      cases Checked.pure_eq_ok.1 h
      refine ⟨left, v, _, .inr ⟨right, assign?_eq_ok.1 hp⟩, var?_eq_ok.1 hv, not_not.1 hindex, ?_,
        hg'⟩
      exact fun _ => ⟨rfl, rfl⟩

/-- The search for a definition in a list stops at the first expression that names the index. -/
theorem defineInList_stops {l : List ExprId} {position : ℕ} {r : Method ⊕ ℕ}
    (h : m.defineInList index scope position l = .ok r) :
    (∀ m', r = .inl m' → ∃ before e after, l = before ++ e :: after ∧
      (∀ x ∈ before, ¬ m.graph.Names x index) ∧ m.graph.MarksTarget m'.graph index e) ∧
    ∀ p, r = .inr p → ∃ before after, l = before ++ after ∧ p = position + before.length ∧
      ∀ x ∈ before, ¬ m.graph.Names x index := by
  induction l generalizing position with
  | nil =>
    cases Checked.pure_eq_ok.1 h
    exact ⟨nofun, fun p hp => ⟨[], [], rfl, (Sum.inr.inj hp).symm, List.forall_mem_nil _⟩⟩
  | cons e rest ih =>
    obtain ⟨m?, hdefine, h⟩ := Checked.bind_eq_ok.1 h
    cases m? with
    | some m₁ =>
      cases Checked.pure_eq_ok.1 h
      refine ⟨fun m' hm' => ?_, nofun⟩
      cases hm'
      exact ⟨[], e, rest, rfl, List.forall_mem_nil _, marksTarget_define? hdefine⟩
    | none =>
      obtain ⟨indices, hindices, h⟩ := Checked.bind_eq_ok.1 h
      split at h
      · cases Checked.pure_eq_ok.1 h
        exact ⟨nofun, fun p hp =>
          ⟨[], e :: rest, rfl, (Sum.inr.inj hp).symm, List.forall_mem_nil _⟩⟩
      · next hnot =>
        have he : ¬ m.graph.Names e index := fun hnames =>
          hnot ((mem_indicesIn hindices).2 ⟨e, List.mem_singleton_self e, hnames⟩)
        refine (ih h).imp (fun hinl m' hm' => ?_) fun hinr p hp => ?_
        · obtain ⟨before, x, after, rfl, hbefore, hmarks⟩ := hinl m' hm'
          exact ⟨e :: before, x, after, rfl, List.forall_mem_cons.2 ⟨he, hbefore⟩, hmarks⟩
        · obtain ⟨before, after, rfl, rfl, hbefore⟩ := hinr p hp
          refine ⟨e :: before, after, rfl, ?_, List.forall_mem_cons.2 ⟨he, hbefore⟩⟩
          rw [List.length_cons]
          omega

/-- A loop defines an index in the slot it evaluates first, or leaves that to itself or its parent.
-/
theorem defineInLoop_first {st : Stat} (hst : m.graph.stat s = .ok st) {r : Method ⊕ StatId}
    (h : m.defineInLoop index s = .ok r) :
    (∀ m', r = .inl m' → ∃ e after, st.items = .expr e :: after ∧
      m.graph.MarksTarget m'.graph index e) ∧
    ∀ t, r = .inr t → t = s ∨ st.parent = some t := by
  rw [defineInLoop, hst, Checked.ok_bind] at h
  split at h
  · next init condition step hkind =>
    have hrest : (do
        let special ← m.graph.indicesIn (condition.toList ++ step.toList)
        return .inr (if index ∈ special then st.parent.getD s else s) : Checked (Method ⊕ StatId)) =
          .ok r → (∀ m', r ≠ .inl m') ∧ ∀ t, r = .inr t → t = s ∨ st.parent = some t := by
      intro h
      obtain ⟨special, -, h⟩ := Checked.bind_eq_ok.1 h
      cases Checked.pure_eq_ok.1 h
      refine ⟨fun m' => Sum.inr_ne_inl, fun t ht => ?_⟩
      rw [← Sum.inr.inj ht]
      split
      · cases st.parent with
        | none => exact .inl rfl
        | some p => exact .inr rfl
      · exact .inl rfl
    cases init with
    | none => exact (hrest h).imp_left fun hnot m' hm' => absurd hm' (hnot m')
    | some init =>
      obtain ⟨defined, hdefine, h⟩ := Checked.bind_eq_ok.1 h
      cases defined with
      | none => exact (hrest h).imp_left fun hnot m' hm' => absurd hm' (hnot m')
      | some m₁ =>
        cases Checked.pure_eq_ok.1 h
        refine ⟨fun m' hm' => ?_, fun t ht => absurd ht Sum.inl_ne_inr⟩
        cases hm'
        exact ⟨init, _, by simp [Stat.items, hkind, Stat.loopBefore]; rfl,
          marksTarget_define? hdefine⟩
  · next init condition step hkind =>
    obtain ⟨v?, hv, h⟩ := Checked.bind_eq_ok.1 h
    cases v? with
    | none =>
      cases Checked.pure_eq_ok.1 h
      exact ⟨fun m' hm' => absurd hm' Sum.inr_ne_inl, fun t ht => .inl (Sum.inr.inj ht).symm⟩
    | some v =>
      simp only at h
      split at h
      · next hindex =>
        obtain ⟨g', hg', h⟩ := Checked.bind_eq_ok.1 h
        cases Checked.pure_eq_ok.1 h
        refine ⟨fun m' hm' => ?_, fun t ht => absurd ht Sum.inl_ne_inr⟩
        cases hm'
        refine ⟨init, _, by simp [Stat.items, hkind, Stat.loopBefore]; rfl, init, v, _, .inl rfl,
          var?_eq_ok.1 hv, hindex, ?_, hg'⟩
        exact fun _ => ⟨rfl, rfl⟩
      · cases Checked.pure_eq_ok.1 h
        exact ⟨fun m' hm' => absurd hm' Sum.inr_ne_inl, fun t ht => .inl (Sum.inr.inj ht).symm⟩
  · cases Checked.pure_eq_ok.1 h
    exact ⟨fun m' hm' => absurd hm' Sum.inr_ne_inl, fun t ht => .inl (Sum.inr.inj ht).symm⟩

section

variable (o : m.graph.Orderly)
  (hlists : ∀ s e, m.graph.InTree s → m.graph.ListsDeclaration s e → ¬ m.graph.Names e index)
  (hmentioned : ∀ c, m.graph.InTree c → m.graph.Prints c index → plan.mentioned c index = true)
  (hs : m.graph.InTree s)
  (hall : ∀ t, m.graph.InTree t → m.graph.PrintsAt t index → m.graph.Within s t)

include o hlists hmentioned hs hall

/-- A variable is declared by the first expression of the block that a way leads to, or in front of
what names it there. -/
theorem declareIn_introduces {ty : Option Ty} (hvar : var.index = index)
    (h : m.declareIn plan var ty s = .ok m') : m.graph.Introduces m'.graph index := by
  subst hvar
  obtain ⟨first, hfirst, h⟩ := Checked.bind_eq_ok.1 h
  obtain ⟨tt, htt, h⟩ := Checked.bind_eq_ok.1 h
  obtain ⟨r, hr, h⟩ := Checked.bind_eq_ok.1 h
  have hdown : ReflTransGen (m.graph.LeadsTo var.index) s (first.getD s) := by
    cases first with
    | none => exact .refl
    | some t =>
      obtain ⟨before, c, after, heq, -, hway⟩ :=
        leadsTo_of_firstBlockIn hlists o hmentioned (by simpa using hs) hfirst
      cases before with
      | nil =>
        obtain ⟨rfl, -⟩ := List.cons.inj heq
        exact hway
      | cons x before => simp at heq
  have hway := (leadsTo_of_within hlists o .refl hs hall).trans hdown
  have ht : m.graph.InTree (first.getD s) := within_of_leadsTo hway
  obtain ⟨opening, closing, hopening, hprinted, hinsert⟩ := tt.exists_printed_list
  have hsilent : ∀ before : List ExprId, (∀ x ∈ before, ¬ m.graph.Names x var.index) →
      ∀ item ∈ opening ++ before.map Item.expr, m.graph.Silent var.index item := by
    intro before hbefore item hitem
    rcases List.mem_append.1 hitem with hitem | hitem
    · obtain ⟨e, he, rfl⟩ := hopening item hitem
      exact hlists _ e ht ⟨tt, htt, he⟩
    · obtain ⟨e, he, rfl⟩ := List.mem_map.1 hitem
      exact hbefore e he
  cases r with
  | inl _ =>
    cases Checked.pure_eq_ok.1 h
    obtain ⟨before, e, after, heq, hbefore, hmarks⟩ := (defineInList_stops hr).1 m' rfl
    refine introduces_mark o hway htt (opening ++ before.map Item.expr)
      (after.map Item.expr ++ closing) ?_ (hsilent before hbefore) hmarks
    rw [hprinted, heq]
    simp
  | inr position =>
    obtain ⟨before, after, heq, rfl, hbefore⟩ := (defineInList_stops hr).2 position rfl
    simp only at h
    rw [Checked.ite_bind, Nat.zero_add] at h
    obtain ⟨entry, -, h⟩ := Checked.bind_eq_ok.1 h
    obtain ⟨m₁, hm₁, -, fresh, hinserts, htt'⟩ := insertDeclaration_inserts htt
      ⟨var, ((m.vars.types.get? var) <|> ty).getD .unknown, true, false, entry⟩
      (show before.length ≤ _ by simp [heq])
    rw [h] at hm₁
    cases hm₁
    refine hinserts.introduces o htt (a := opening ++ before.map Item.expr)
      (b := after.map Item.expr ++ closing) ?_ htt' ?_ hway rfl (hsilent before hbefore)
    · rw [hprinted, heq]
      simp
    · rw [hinsert, heq, insertIdx_length_append]
      simp

/-- The variable of a home is declared so that the declaration is printed first. -/
theorem declare_introduces (himplicit : index ∉ plan.implicit)
    (h : declare plan m (index, s) = .ok m') : m.graph.Introduces m'.graph index := by
  rw [declare, if_neg himplicit] at h
  obtain ⟨first, -, h⟩ := Checked.bind_eq_ok.1 h
  generalize hvar : (⟨index, (first.map fun v => v.var.version).getD 0⟩ : Local) = var at h
  obtain rfl : var.index = index := by rw [← hvar]
  obtain ⟨r, hr, h⟩ := Checked.bind_eq_ok.1 h
  obtain ⟨st, hst⟩ := o.forest.stat s hs
  obtain ⟨hinl, hinr⟩ :=
    defineInLoop_first (m := ⟨m.graph, m.vars.nameByIndex var⟩) hst hr
  cases r with
  | inl _ =>
    cases Checked.pure_eq_ok.1 h
    obtain ⟨e, after, hitems, hmarks⟩ := hinl m' rfl
    refine introduces_mark o (leadsTo_of_within hlists o .refl hs hall) hst
      (st.declarations.map Item.expr) after (by rw [Stat.printed, hitems]) ?_ hmarks
    intro item hitem
    obtain ⟨x, hx, rfl⟩ := List.mem_map.1 hitem
    exact hlists s x hs ⟨st, hst, hx⟩
  | inr t =>
    obtain ⟨ht, hts⟩ : m.graph.InTree t ∧ m.graph.Within t s := by
      rcases hinr t rfl with rfl | hparent
      · exact ⟨hs, .refl⟩
      · obtain ⟨ht, hchild⟩ := o.forest.up s st t hs hst hparent
        exact ⟨ht, .single hchild⟩
    exact declareIn_introduces (m := ⟨m.graph, m.vars.nameByIndex var⟩) o hlists hmentioned ht
      (fun x hx hprints => hts.trans (hall x hx hprints)) rfl h

end

/-! ## Placing all declarations -/

/-- What is known once the homes of some indices have been visited. -/
structure DefinesFirst (m : Method) (plan : Plan) (visited : List (ℕ × StatId)) (m' : Method) :
    Prop where
  /-- The graph is orderly. -/
  orderly : m'.graph.Orderly
  /-- Statements keep their place in the tree. -/
  revises : Revises m.graph m'.graph fun _ => True
  /-- Other indices are not printed anywhere else. -/
  prints : ∀ i, i ∉ visited.map Prod.fst → ∀ s, m.graph.InTree s → m'.graph.PrintsAt s i →
    m.graph.PrintsAt s i
  /-- Nothing is declared apart for them. -/
  lists : ∀ i, i ∉ visited.map Prod.fst → ∀ s e, m.graph.InTree s →
    m'.graph.ListsDeclaration s e → ¬ m'.graph.Names e i
  /-- What was visited has one mark, which is printed first. -/
  first : ∀ i, i ∈ visited.map Prod.fst → i ∉ plan.implicit →
    ∃ y, m'.graph.DefinedFirst i y ∧ ∀ e v, m'.graph.Occurs e v true → v.index = i → e = y
  /-- Nothing else has. -/
  unmarked : ∀ i, i ∉ visited.map Prod.fst → i ∉ plan.implicit → ¬ m'.graph.IsMarked i

namespace DefinesFirst

variable {visited : List (ℕ × StatId)} {m'' : Method} (h : m.DefinesFirst plan visited m')

include h

/-- An index that needs no declaration is passed over. -/
theorem skip (himplicit : index ∈ plan.implicit) :
    m.DefinesFirst plan (visited ++ [(index, s)]) m' := by
  have hmono : ∀ i, i ∉ (visited ++ [(index, s)]).map Prod.fst → i ∉ visited.map Prod.fst :=
    fun i hi hmem => hi (by simpa using .inl (by simpa using hmem))
  refine ⟨h.orderly, h.revises, fun i hi => h.prints i (hmono i hi),
    fun i hi => h.lists i (hmono i hi), fun i hi hnot => h.first i ?_ hnot,
    fun i hi => h.unmarked i (hmono i hi)⟩
  rw [List.map_append, List.mem_append] at hi
  refine hi.resolve_right fun hi => hnot ?_
  obtain rfl : i = index := by simpa using hi
  exact himplicit

/-- One more index gets its mark. -/
theorem introduces (o : m.graph.Orderly) (hnew : index ∉ visited.map Prod.fst)
    (himplicit : index ∉ plan.implicit) (hi : m'.graph.Introduces m''.graph index) :
    m.DefinesFirst plan (visited ++ [(index, s)]) m'' := by
  obtain ⟨o', ⟨y, v, hmark, rfl, hfirst⟩, hothers⟩ := hi
  have hTree : ∀ {s}, m.graph.InTree s → m'.graph.InTree s := (h.revises.inTree_iff o.forest).2
  have hmem : ∀ i, i ∈ (visited ++ [(v.index, s)]).map Prod.fst ↔
      i ∈ visited.map Prod.fst ∨ i = v.index := by simp
  refine ⟨o', h.revises.trans (hmark.revises.mono fun _ _ => trivial), fun i hi s hs hprints => ?_,
    fun i hi s e hs hlist hnames => ?_, fun i hi hnot => ?_, fun i hi hnot hmarked => ?_⟩
  · obtain ⟨hi, hne⟩ := not_or.1 (mt (hmem i).2 hi)
    exact h.prints i hi s hs ((hothers i hne).prints s (hTree hs) hprints)
  · obtain ⟨hi, hne⟩ := not_or.1 (mt (hmem i).2 hi)
    obtain ⟨hlist, hnames⟩ := (hothers i hne).lists s e (hTree hs) hlist hnames
    exact h.lists i hi s e hs hlist hnames
  · by_cases heq : i = v.index
    · subst heq
      refine ⟨y, hfirst, fun e w hw hindex => ?_⟩
      rcases (hmark.occurs_iff h.orderly o').1 hw with ⟨rfl, -⟩ | ⟨-, hw⟩
      · rfl
      · exact absurd ⟨e, w, hw, hindex⟩ (h.unmarked v.index hnew himplicit)
    · obtain ⟨z, hz, hunique⟩ := h.first i (((hmem i).1 hi).resolve_right heq) hnot
      refine ⟨z, (hothers i heq).definedFirst hz, fun e w hw hindex => ?_⟩
      rcases (hmark.occurs_iff h.orderly o').1 hw with ⟨-, rfl, -⟩ | ⟨-, hw⟩
      · exact absurd hindex.symm heq
      · exact hunique e w hw hindex
  · obtain ⟨hi, hne⟩ := not_or.1 (mt (hmem i).2 hi)
    exact h.unmarked i hi hnot
      (((hmark.isMarked_iff h.orderly o').1 hmarked).resolve_right hne)

end DefinesFirst

/-- What a plan is to declaring: every home holds all that prints its index, and what is printed in
a statement is mentioned there. -/
structure PlansFirst (m : Method) (plan : Plan) : Prop where
  /-- Nothing is declared yet. -/
  lists : ∀ s e, m.graph.InTree s → ¬ m.graph.ListsDeclaration s e
  /-- What is printed in a statement is mentioned. -/
  mentioned : ∀ c i, m.graph.InTree c → m.graph.Prints c i → plan.mentioned c i = true
  /-- A home holds all that prints its index. -/
  homes : ∀ p ∈ plan.homes.entries, m.graph.InTree p.2 ∧
    ∀ t, m.graph.InTree t → m.graph.PrintsAt t p.1 → m.graph.Within p.2 t
  /-- What is printed has a home. -/
  keys : ∀ t i, m.graph.InTree t → m.graph.PrintsAt t i → i ∈ plan.homes.keys

/-- Every variable of a plan is declared so that its declaration is printed first. -/
theorem PlansFirst.declareAll (h : m.PlansFirst plan) (o : m.graph.Orderly)
    (hkeys : plan.homes.keys.Nodup) (hunmarked : ∀ i, i ∉ plan.implicit → ¬ m.graph.IsMarked i)
    (hm : m.declareAll plan = .ok m') : m.DefinesFirst plan plan.ascending m' := by
  have hperm : plan.ascending.Perm plan.homes.entries := List.mergeSort_perm _ _
  have hnodup : (plan.ascending.map Prod.fst).Nodup := (hperm.map Prod.fst).nodup_iff.2 hkeys
  have hstart : m.DefinesFirst plan [] m := ⟨o, .refl _, fun _ _ _ _ => id,
    fun _ _ s e hs hlist => absurd hlist (h.lists s e hs),
    fun p hp => absurd hp List.not_mem_nil, fun i _ => hunmarked i⟩
  refine Checked.foldlM_upTo hm hstart fun visited p rest hl m₁ m₂ hm₁ hstep => ?_
  obtain ⟨index, s⟩ := p
  have hnew : index ∉ visited.map Prod.fst := by
    rw [← hl, List.map_append, List.map_cons] at hnodup
    exact fun hmem => (List.nodup_append.1 hnodup).2.2 index hmem index List.mem_cons_self rfl
  by_cases himplicit : index ∈ plan.implicit
  · rw [declare, if_pos himplicit] at hstep
    cases Checked.pure_eq_ok.1 hstep
    exact hm₁.skip himplicit
  obtain ⟨hs, hall⟩ := h.homes (index, s) (hperm.mem_iff.1 (hl ▸ by simp))
  have hTree : ∀ {t}, m₁.graph.InTree t → m.graph.InTree t := (hm₁.revises.inTree_iff o.forest).1
  have hwithin : ∀ {a t}, m.graph.InTree a → (m₁.graph.Within a t ↔ m.graph.Within a t) :=
    fun ha => o.forest.within_congr (fun x hx => (o.forest.stat x hx).elim fun _ hst =>
      hm₁.revises.links hst) ha
  refine hm₁.introduces o hnew himplicit (declare_introduces hm₁.orderly
    (fun t e ht => hm₁.lists index hnew t e (hTree ht)) (fun c hc hprints => ?_)
    ((hm₁.revises.inTree_iff o.forest).2 hs) (fun t ht hprints => ?_) himplicit hstep)
  · obtain ⟨t, ht, hprints⟩ := hprints
    have ht := (hwithin (hTree hc)).1 ht
    exact h.mentioned c index (hTree hc)
      ⟨t, ht, hm₁.prints index hnew t ((hTree hc).within ht) hprints⟩
  · exact (hwithin hs).2 (hall t (hTree ht) (hm₁.prints index hnew t (hTree ht) hprints))

end Method

end Decompiler

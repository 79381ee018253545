import Decompiler.Proofs.Loops.Conservation
import Decompiler.Proofs.Variables.Rounds

/-!
# Offsets under merging

A merge drops expressions from lists, and a neighbour in the same list takes over the offsets of one
that is dropped. So an offset is lost only where all of a list is dropped.

* `Graph.Accrues`: expressions keep their form and their offsets.
* `Graph.dropFrom_covers`: what a list covered it still covers, unless nothing is left of it.
* `Graph.Forfeits`: an offset in a list that declares the variable that goes away and nothing else.
* `Method.unify_shown`: a merge loses no other offset.
* `Method.Merging.Rounds.shown`: so it is for all rounds of merging.
* `Method.merging_conserves_offsets`: what the tree covers after merging. An offset that is lost is
  in `Method.not_conserved_of_lone_declaration`.
-/

namespace Decompiler

open Relation

namespace Graph

variable {g g' g'' : Graph} {s t : StatId} {e x : ExprId} {o : ℕ} {source target : Local}
  {touched : ExprId → Prop} {bare : List (StatId × ExprId)}

/-! ## Expressions that gain offsets -/

/-- Expressions keep their form, and none loses an offset of its own. -/
structure Accrues (g g' : Graph) (touched : ExprId → Prop) : Prop where
  /-- The forms. -/
  revises : Revises g g' touched
  /-- The offsets. -/
  offsets : ∀ e n, g.node e = .ok n → Returns (g'.node e) fun n' =>
    ∀ o ∈ n.offsets.toList, o ∈ n'.offsets.toList

namespace Accrues

theorem refl (g : Graph) : Accrues g g touched :=
  ⟨.refl g, fun _ n hn => ⟨n, hn, fun _ ho => ho⟩⟩

theorem trans (h : Accrues g g' touched) (h' : Accrues g' g'' touched) :
    Accrues g g'' touched := by
  refine ⟨h.revises.trans h'.revises, fun e n hn => ?_⟩
  obtain ⟨n', hn', hsub⟩ := h.offsets e n hn
  exact (h'.offsets e n' hn').mono fun _ hsub' o ho => hsub' o (hsub o ho)

theorem of_grows (r : Revises g g' touched) (h : Grows g g') : Accrues g g' touched :=
  ⟨r, fun e n hn => (h e n hn).imp fun _ hn' => ⟨hn'.1, hn'.2.2⟩⟩

theorem modifyExpr {f : Expr → Expr} (h : g.modifyExpr e f = .ok g') (r : Revises g g' touched) :
    Accrues g g' touched := by
  obtain ⟨n, hn, hx, -⟩ := node_modifyExpr h
  refine ⟨r, fun y m hm => ?_⟩
  rw [hx]
  split
  · next hy =>
    rw [← hy, hn] at hm
    cases hm
    exact ⟨_, rfl, fun _ ho => ho⟩
  · exact ⟨m, hm, fun _ ho => ho⟩

theorem modifyStat {f : Stat → Stat} (h : g.modifyStat s f = .ok g')
    (hf : ∀ st, (f st).skeleton = st.skeleton) : Accrues g g' touched := by
  obtain ⟨-, -, -, -, hx⟩ := stat_modifyStat h
  exact of_grows (.modifyStat h hf) (.of_exprs_eq hx)

theorem covers (h : Accrues g g' touched) (ho : g.Covers e o) : g'.Covers e o := by
  obtain ⟨x, n, hx, hn, ho⟩ := ho
  obtain ⟨n', hn', hsub⟩ := h.offsets x n hn
  refine ⟨x, n', ReflTransGen.mono (fun y c hc => ?_) _ _ hx, hn', hsub o ho⟩
  obtain ⟨m, hm, -⟩ := id hc
  exact (h.revises.subOf ⟨m.expr, expr_eq_ok.2 ⟨m, hm, rfl⟩⟩).2 hc

end Accrues

/-! ## Lists -/

/-- What a list covered it still covers, unless nothing is left of it. With `keepLone` something is
left of every list. -/
theorem dropFrom_covers {doomed : ExprId → Checked Bool} {keepLone : Bool}
    {kept l left : List ExprId} (h : dropFrom doomed keepLone g kept l = .ok (g', left)) :
    Accrues g g' (fun _ => False) ∧ g'.stats = g.stats ∧
      (∀ e, e ∈ kept ∨ (e ∈ l ∧ doomed e ≠ .ok true) → e ∈ left) ∧
      (keepLone = true → left = [] → l = []) ∧
      ∀ o, left ≠ [] → (∃ e, (e ∈ kept ∨ e ∈ l) ∧ g.Covers e o) → ∃ e ∈ left, g'.Covers e o := by
  induction l generalizing g kept with
  | nil =>
    obtain ⟨rfl, rfl⟩ := Prod.mk.inj (Checked.pure_eq_ok.1 h)
    refine ⟨.refl g, rfl, fun e he => ?_, fun _ _ => rfl, fun o _ hcovered => ?_⟩
    · simpa using he
    · simpa using hcovered
  | cons e rest ih =>
    rw [dropFrom] at h
    obtain ⟨d, hd, h⟩ := Checked.bind_eq_ok.1 h
    split at h
    · -- the expression stays
      obtain ⟨ha, hstats, hkeeps, hlone, hcovers⟩ := ih h
      refine ⟨ha, hstats, fun x hx => hkeeps x ?_, fun _ hnil => ?_, fun o hne hcovered => ?_⟩
      · simp only [List.mem_cons] at hx ⊢
        tauto
      · cases hnil ▸ hkeeps e (.inl List.mem_cons_self)
      · obtain ⟨x, hx, ho⟩ := hcovered
        refine hcovers o hne ⟨x, ?_, ho⟩
        simp only [List.mem_cons] at hx ⊢
        tauto
    · next hdropped =>
      have hd' : doomed e = .ok true := by simp_all
      cases hneighbour : rest.head? <|> kept.head? with
      | some neighbour =>
        -- a neighbour takes over its offsets
        simp only [hneighbour, Checked.bind_eq_ok] at h
        obtain ⟨g₁, h₁, h⟩ := h
        obtain ⟨ha, hstats, hkeeps, hlone, hcovers⟩ := ih h
        have hmem : neighbour ∈ kept ∨ neighbour ∈ rest := mem_of_head?_orElse hneighbour
        have ha₁ : Accrues g g₁ fun _ => False := .of_grows (.absorb h₁) (.absorb h₁)
        refine ⟨ha₁.trans ha, hstats.trans (absorb_frame h₁).1, fun x hx => hkeeps x ?_,
          fun htrue hnil => ?_, fun o hne hcovered => ?_⟩
        · rcases hx with hx | ⟨hx, hstays⟩
          · exact .inl hx
          · rcases List.mem_cons.1 hx with rfl | hx
            · exact absurd hd' hstays
            · exact .inr ⟨hx, hstays⟩
        · -- the neighbour would have been kept, or be the lone expression that is spared
          obtain rfl := hlone htrue hnil
          rcases hmem with hmem | hmem
          · cases hnil ▸ hkeeps neighbour (.inl hmem)
          · cases hmem
        · obtain ⟨x, hx | hx, ho⟩ := hcovered
          · exact hcovers o hne ⟨x, .inl hx, ha₁.covers ho⟩
          · rcases List.mem_cons.1 hx with rfl | hx
            · exact hcovers o hne ⟨neighbour, hmem, covers_absorb h₁ ho⟩
            · exact hcovers o hne ⟨x, .inr hx, ha₁.covers ho⟩
      | none =>
        -- nothing else is left, so that nothing can take its offsets over
        obtain ⟨hrest, hkept⟩ : rest.head? = none ∧ kept.head? = none := by
          simpa using hneighbour
        rw [List.head?_eq_none_iff] at hrest hkept
        subst hrest hkept
        simp only [hneighbour, dropFrom, Checked.pure_eq_ok, Prod.mk.injEq] at h
        obtain ⟨rfl, rfl⟩ := h
        refine ⟨.refl g, rfl, fun x hx => ?_, fun htrue => ?_, fun o hne => absurd rfl hne⟩
        · simp only [List.not_mem_nil, List.mem_singleton, false_or] at hx
          exact absurd hd' (hx.1 ▸ hx.2)
        · simp [htrue] at hdropped

/-! ## What is left of a statement -/

/-- What the statement evaluates covers the offset, and if it is a leaf, not all of its list is
`bare`. -/
def KeepsEvaluated (g : Graph) (bare : List (StatId × ExprId)) (s : StatId) (o : ℕ) : Prop :=
  Returns (g.stat s) fun st => (∃ e ∈ st.kind.exprs, g.Covers e o) ∧
    ∀ l, st.exprs? = some l → ∃ x ∈ l, (s, x) ∉ bare

/-- The declarations of the statement cover the offset, and not all of them are ones of `source`. -/
def KeepsDeclared (g : Graph) (source : Local) (s : StatId) (o : ℕ) : Prop :=
  Returns (g.stat s) fun st => (∃ e ∈ st.declarations, g.Covers e o) ∧
    ∃ x ∈ st.declarations, ∃ v, g.local? x = .ok v ∧ v ≠ some source

theorem KeepsEvaluated.accrues (h : g.KeepsEvaluated bare t o) (ha : Accrues g g' touched)
    (hkind : ∀ st, g.stat t = .ok st → Returns (g'.stat t) fun st' => st'.kind = st.kind) :
    g'.KeepsEvaluated bare t o := by
  obtain ⟨st, hst, ⟨e, he, ho⟩, hstays⟩ := h
  obtain ⟨st', hst', hkind⟩ := hkind st hst
  refine ⟨st', hst', ⟨e, hkind ▸ he, ha.covers ho⟩, fun l hl => hstays l ?_⟩
  rw [Stat.exprs?_eq_some] at hl ⊢
  exact hkind ▸ hl

theorem KeepsDeclared.accrues (h : g.KeepsDeclared source t o) (ha : Accrues g g' touched)
    (htouched : ∀ x, touched x → g.local? x = .ok (some source))
    (hdecl : ∀ st, g.stat t = .ok st →
      Returns (g'.stat t) fun st' => st'.declarations = st.declarations) :
    g'.KeepsDeclared source t o := by
  obtain ⟨st, hst, ⟨e, he, ho⟩, x, hx, v, hv, hne⟩ := h
  obtain ⟨st', hst', hdecl⟩ := hdecl st hst
  have hx' : ¬ touched x := fun ht => hne (Except.ok.inj (hv.symm.trans (htouched x ht)))
  exact ⟨st', hst', ⟨e, hdecl ▸ he, ha.covers ho⟩, x, hdecl ▸ hx, v, ha.revises.local?_eq hx' hv,
    hne⟩

/-- The statement shows the offset in a list of which something is left. -/
def StillShows (g : Graph) (bare : List (StatId × ExprId)) (source : Local) (s : StatId) (o : ℕ) :
    Prop :=
  g.KeepsEvaluated bare s o ∨ g.KeepsDeclared source s o

theorem StillShows.accrues (h : g.StillShows bare source t o) (ha : Accrues g g' touched)
    (htouched : ∀ x, touched x → g.local? x = .ok (some source)) (hstat : g'.stat t = g.stat t) :
    g'.StillShows bare source t o := by
  rcases h with h | h
  · exact .inl (h.accrues ha fun st hst => ⟨st, hstat.trans hst, rfl⟩)
  · exact .inr (h.accrues ha htouched fun st hst => ⟨st, hstat.trans hst, rfl⟩)

theorem StillShows.shown (h : g.StillShows bare source s o) (hs : g.InTree s) : g.Shown o := by
  rcases h with ⟨st, hst, ⟨e, he, ho⟩, -⟩ | ⟨st, hst, ⟨e, he, ho⟩, -⟩
  · exact ⟨s, e, hs, ⟨st, hst, List.mem_append_left _ he⟩, ho⟩
  · exact ⟨s, e, hs, ⟨st, hst, List.mem_append_right _ he⟩, ho⟩

/-- A leaf whose list is made shorter: what is left of it, and what that covers. -/
theorem dropFromLeaf_covers {doomed : ExprId → Checked Bool} {keepLone : Bool} {st : Stat}
    {g₁ : Graph} {exprs left : List ExprId} (hst : g.stat s = .ok st)
    (hexprs : st.exprs? = some exprs) (h₁ : dropFrom doomed keepLone g [] exprs = .ok (g₁, left))
    (h₂ : g₁.modifyStat s (fun st => st.withExprs left) = .ok g') :
    Accrues g g' (fun _ => False) ∧
      (∀ t tt, g.stat t = .ok tt → Returns (g'.stat t) fun tt' =>
        tt'.declarations = tt.declarations ∧ tt'.kind = if s = t then .block left else tt.kind) ∧
      (∀ e ∈ exprs, doomed e ≠ .ok true → e ∈ left) ∧
      (∀ o, left ≠ [] → (∃ e ∈ exprs, g.Covers e o) → ∃ e ∈ left, g'.Covers e o) := by
  obtain ⟨ha₁, hstats, hkeeps, -, hcovers⟩ := dropFrom_covers h₁
  have ha₂ : Accrues g₁ g' fun _ => False := .modifyStat h₂ fun st => by
    obtain ⟨kind, -⟩ := st
    cases kind <;> rfl
  obtain ⟨st₁, hst₁, ht, -⟩ := stat_modifyStat h₂
  have hstat : ∀ t, g₁.stat t = g.stat t := fun t => by rw [stat, hstats, stat]
  rw [hstat, hst] at hst₁
  cases hst₁
  refine ⟨ha₁.trans ha₂, fun t tt htt => ?_, fun e he hd => hkeeps e (.inr ⟨he, hd⟩),
    fun o hne hcovered => ?_⟩
  · rw [ht, hstat]
    split
    · next hs =>
      rw [← hs, hst] at htt
      cases htt
      have hkind := Stat.exprs?_eq_some.1 hexprs
      refine ⟨_, rfl, ?_, ?_⟩ <;> simp [Stat.withExprs, hkind]
    · exact ⟨tt, htt, rfl, rfl⟩
  · obtain ⟨e, he, ho⟩ := hcovered
    obtain ⟨x, hx, ho⟩ := hcovers o hne ⟨e, .inr he, ho⟩
    exact ⟨x, hx, ha₂.covers ho⟩

/-- Dropping declarations from the list of a leaf keeps an offset, if something of it stays. -/
theorem StillShows.dropBareDeclarations (hkept : g.StillShows bare source t o)
    (h : dropBareDeclarations bare g s = .ok g') : g'.StillShows bare source t o := by
  obtain ⟨st, hst, h⟩ := Checked.bind_eq_ok.1 h
  split at h
  · next hexprs =>
    obtain ⟨⟨g₁, left⟩, h₁, h₂⟩ := Checked.bind_eq_ok.1 h
    obtain ⟨ha, hstat, hkeeps, hcovers⟩ := dropFromLeaf_covers hst hexprs h₁ h₂
    rcases hkept with hkept | hkept
    · left
      by_cases hs : s = t
      · subst hs
        obtain ⟨st', hst', hcover, hstays⟩ := hkept
        rw [hst] at hst'
        cases hst'
        obtain ⟨x, hx, hbare⟩ := hstays _ hexprs
        have hxleft : x ∈ left := hkeeps x hx (by simpa using hbare)
        obtain ⟨st', hst', -, hkind⟩ := hstat s st hst
        rw [if_pos rfl] at hkind
        refine ⟨st', hst', ?_, fun l hl => ?_⟩
        · rw [Stat.exprs?_eq_some.1 hexprs] at hcover
          rw [hkind]
          exact hcovers o (List.ne_nil_of_mem hxleft) hcover
        · rw [Stat.exprs?_eq_some, hkind, StatKind.block.injEq] at hl
          exact ⟨x, hl ▸ hxleft, hbare⟩
      · refine hkept.accrues ha fun tt htt => (hstat t tt htt).mono fun _ h => ?_
        rw [h.2, if_neg hs]
    · exact .inr (hkept.accrues ha (fun _ => False.elim)
        fun tt htt => (hstat t tt htt).mono fun _ h => h.1)
  · cases h
    exact hkept

theorem Accrues.foldlM_modifyExpr {α : Type} {l : List α} {i : α → ExprId} {f : Expr → Expr}
    (h : l.foldlM (fun g a => g.modifyExpr (i a) f) g = .ok g') (hf : ∀ x, (f x).shape = x.shape)
    (ht : ∀ a ∈ l, ¬ touched (i a) → ∀ x, (f x).outline = x.outline) : Accrues g g' touched :=
  Checked.foldlM_keeps (Accrues g · touched) h (.refl g) fun a ha _ _ h₁ h₂ =>
    h₁.trans (.modifyExpr h₂ (.modifyExpr h₂ hf (ht a ha)))

/-- Dropping the declarations of `source` that stand apart keeps an offset, if some declaration
stays. -/
theorem StillShows.mergeDeclarations {ty : Ty} (hkept : g.StillShows bare source t o)
    (h : mergeDeclarations source target ty g s = .ok g') : g'.StillShows bare source t o := by
  simp only [Graph.mergeDeclarations, Checked.bind_eq_ok] at h
  obtain ⟨st, hst, ⟨g₁, left⟩, h₁, g₂, h₂, h₃⟩ := h
  obtain ⟨ha₁, hstats₁, hkeeps, -, hcovers⟩ := dropFrom_covers h₁
  have ha₂ : Accrues g₁ g₂ fun _ => False :=
    .foldlM_modifyExpr (i := id) h₂ (fun _ => Expr.mapVar_shape)
      fun _ _ _ => Expr.mapVar_ty_outline target ty
  have ha₃ : Accrues g₂ g' fun _ => False := .modifyStat h₃ fun _ => rfl
  have ha := ha₁.trans (ha₂.trans ha₃)
  obtain ⟨st₂, hst₂, ht, -⟩ := stat_modifyStat h₃
  have hstat : ∀ t, g₂.stat t = g.stat t := fun t => by
    rw [stat, (foldlM_modifyExpr_frame (i := id) h₂).1, hstats₁, stat]
  rw [hstat, hst] at hst₂
  cases hst₂
  by_cases hs : s = t
  · subst hs
    rcases hkept with hkept | ⟨st', hst', ⟨e, he, ho⟩, x, hx, v, hv, hne⟩
    · refine .inl (hkept.accrues ha fun tt htt => ⟨_, (ht s).trans (if_pos rfl), ?_⟩)
      rw [hst] at htt
      cases htt
      rfl
    · rw [hst] at hst'
      cases hst'
      have hxleft : x ∈ left := hkeeps x (.inr ⟨hx, by simpa [hv] using hne⟩)
      refine .inr ⟨_, (ht s).trans (if_pos rfl), ?_, x, hxleft, v, ha.revises.local?_eq id hv, hne⟩
      obtain ⟨y, hy, ho⟩ := hcovers o (List.ne_nil_of_mem hxleft) ⟨e, .inr he, ho⟩
      exact ⟨y, hy, ha₃.covers (ha₂.covers ho)⟩
  · exact hkept.accrues ha (fun _ => False.elim) (by rw [ht, if_neg hs, hstat])

/-- Dropping self-assignments loses no offset, as the last expression of a leaf is spared. -/
theorem covers_dropSelfAssignments (h : Method.dropSelfAssignments g s = .ok g')
    (hshown : ∃ e, g.Holds t e ∧ g.Covers e o) : ∃ e, g'.Holds t e ∧ g'.Covers e o := by
  obtain ⟨st, hst, h⟩ := Checked.bind_eq_ok.1 h
  cases hexprs : st.exprs? with
  | none =>
    rw [hexprs] at h
    cases h
    exact hshown
  | some exprs =>
    rw [hexprs] at h
    obtain ⟨⟨g₁, left⟩, h₁, h₂⟩ := Checked.bind_eq_ok.1 h
    obtain ⟨ha, hstat, -, hcovers⟩ := dropFromLeaf_covers hst hexprs h₁ h₂
    obtain ⟨-, -, -, hlone, -⟩ := dropFrom_covers h₁
    obtain ⟨e, ⟨tt, htt, he⟩, ho⟩ := hshown
    obtain ⟨tt', htt', hdecl, hkind⟩ := hstat t tt htt
    rcases List.mem_append.1 he with he | he
    · by_cases hs : s = t
      · subst hs
        rw [hst] at htt
        cases htt
        rw [if_pos rfl] at hkind
        rw [Stat.exprs?_eq_some.1 hexprs] at he
        have hne : left ≠ [] := fun hnil => by
          rw [hlone rfl hnil] at he
          cases he
        obtain ⟨x, hx, ho⟩ := hcovers o hne ⟨e, he, ho⟩
        exact ⟨x, ⟨tt', htt', List.mem_append_left _ (hkind ▸ hx)⟩, ho⟩
      · rw [if_neg hs] at hkind
        exact ⟨e, ⟨tt', htt', List.mem_append_left _ (hkind ▸ he)⟩, ha.covers ho⟩
    · exact ⟨e, ⟨tt', htt', List.mem_append_right _ (hdecl ▸ he)⟩, ha.covers ho⟩

/-! ## What a merge loses -/

/-- The offset is one of a list in the tree that declares the variable and holds nothing else. -/
def Forfeits (g : Graph) (v : Local) (o : ℕ) : Prop :=
  ∃ s st l, g.InTree s ∧ g.stat s = .ok st ∧ (st.exprs? = some l ∨ st.declarations = l) ∧
    (∀ e ∈ l, g.local? e = .ok (some v)) ∧ ∃ e ∈ l, g.Covers e o

/-- The occurrences of a variable that stand on their own, by statement. -/
def bareOccurrences (nodes : List OwnedNode) (source : Local) : List (StatId × ExprId) :=
  ((nodes.filter fun n => n.expr.local? = some source).filter fun n => n.id = n.top).map
    fun n => (n.stat, n.id)

theorem local?_of_mem_bareOccurrences {nodes : List OwnedNode}
    (hnodes : ∀ n, n ∈ nodes ↔ g.Owned n) (h : (s, e) ∈ bareOccurrences nodes source) :
    g.local? e = .ok (some source) := by
  obtain ⟨n, hn, hne⟩ := List.mem_map.1 h
  cases hne
  exact local?_of_mem_filter hnodes (List.mem_of_mem_filter hn)

/-- What a statement lists as an occurrence is one that stands on its own. -/
theorem mem_bareOccurrences_iff {nodes : List OwnedNode} (hnodes : ∀ n, n ∈ nodes ↔ g.Owned n)
    {st : Stat} (hs : g.InTree s) (hst : g.stat s = .ok st) (he : e ∈ st.kind.exprs) :
    (s, e) ∈ bareOccurrences nodes source ↔ g.local? e = .ok (some source) := by
  refine ⟨local?_of_mem_bareOccurrences hnodes, fun hlocal => ?_⟩
  obtain ⟨w, hw, hwv⟩ := local?_eq_ok.1 hlocal
  have howned : ⟨s, e, e, .var w⟩ ∈ nodes := (hnodes _).2 ⟨hs, ⟨st, hst, he⟩, .refl, hw⟩
  refine List.mem_map.2 ⟨_, List.mem_filter.2 ⟨List.mem_filter.2 ⟨howned, ?_⟩, ?_⟩, rfl⟩
  · exact decide_eq_true (congrArg some hwv)
  · simp

/-- An offset that the tree shows is lost only with a whole list. -/
theorem Legible.forfeits_or_stillShows (hL : g.Legible) {nodes : List OwnedNode}
    (hnodes : ∀ n, n ∈ nodes ↔ g.Owned n) (ho : g.Shown o) :
    g.Forfeits source o ∨
      ∃ s, g.InTree s ∧ g.StillShows (bareOccurrences nodes source) source s o := by
  obtain ⟨s, e, hs, ⟨st, hst, he⟩, ho⟩ := ho
  rcases List.mem_append.1 he with he | he
  · by_cases hall : ∃ l, st.exprs? = some l ∧ ∀ x ∈ l, (s, x) ∈ bareOccurrences nodes source
    · obtain ⟨l, hl, hall⟩ := hall
      rw [Stat.exprs?_eq_some.1 hl] at he
      exact .inl ⟨s, st, l, hs, hst, .inl hl,
        fun x hx => local?_of_mem_bareOccurrences hnodes (hall x hx), e, he, ho⟩
    · push Not at hall
      exact .inr ⟨s, hs, .inl ⟨st, hst, ⟨e, he, ho⟩, hall⟩⟩
  · by_cases hall : ∀ x ∈ st.declarations, g.local? x = .ok (some source)
    · exact .inl ⟨s, st, _, hs, hst, .inr rfl, hall, e, he, ho⟩
    · push Not at hall
      obtain ⟨x, hx, hne⟩ := hall
      obtain ⟨v, hv⟩ := (hL.grounded s x hs ⟨st, hst, List.mem_append_right _ hx⟩).local?
      exact .inr ⟨s, hs, .inr ⟨st, hst, ⟨e, he, ho⟩, x, hx, v, hv, fun h => hne (h ▸ hv)⟩⟩

end Graph

namespace Method

open Decompiler.Graph

variable {m m' : Method} {g g' : Graph} {source target : Local} {o : ℕ}

/-- Renaming one variable to another loses an offset only with a whole list of its declarations. -/
theorem renameOccurrences_shown (hL : g.Legible) {nodes : List OwnedNode}
    (hnodes : ∀ n, n ∈ nodes ↔ g.Owned n) {ty : Ty}
    (h : renameOccurrences g nodes source target ty = .ok g') (hf : Folds g g' source target)
    (ho : g.Shown o) : g'.Shown o ∨ g.Forfeits source o := by
  simp only [renameOccurrences, Checked.bind_eq_ok] at h
  obtain ⟨constants, -, g₁, h₁, g₂, h₂, stats, -, g₃, h₃, h₄⟩ := h
  -- no offset changes as long as occurrences and constants are changed in place
  have ha₁ : Accrues g g₁ (g.OccursAt source) :=
    .foldlM_modifyExpr (i := OwnedNode.id) h₁ (fun _ => Expr.mapVar_shape) fun n hn hocc =>
      absurd ((occursAt_iff hnodes).2 ⟨n, hn, rfl⟩) hocc
  have ha₂ : Accrues g₁ g₂ (g.OccursAt source) :=
    .foldlM_modifyExpr (i := id) h₂ (fun x => by cases x <;> rfl) fun _ _ _ x => by cases x <;> rfl
  have hstat : ∀ s, g₂.stat s = g.stat s := fun s => by
    rw [stat, (foldlM_modifyExpr_frame (i := id) h₂).1,
      (foldlM_modifyExpr_frame (i := OwnedNode.id) h₁).1, stat]
  rcases hL.forfeits_or_stillShows hnodes ho with hlost | ⟨s, hs, hkept⟩
  · exact .inr hlost
  · left
    have hkept₂ := hkept.accrues (ha₁.trans ha₂) (fun _ => OccursAt.local?) (hstat s)
    have hkept₃ : g₃.StillShows (bareOccurrences nodes source) source s o :=
      Checked.foldlM_keeps (fun g => g.StillShows (bareOccurrences nodes source) source s o) h₃
        hkept₂ fun _ _ _ _ hkept h => hkept.dropBareDeclarations h
    have hkept' : g'.StillShows (bareOccurrences nodes source) source s o :=
      Checked.foldlM_keeps (fun g => g.StillShows (bareOccurrences nodes source) source s o) h₄
        hkept₃ fun _ _ _ _ hkept h => hkept.mergeDeclarations h
    exact hkept'.shown ((hf.revises.inTree_iff hL.forest).2 hs)

/-- A merge loses an offset only with a whole list of declarations of the variable that goes
away. -/
theorem unify_shown (hL : m.graph.Legible) (h : m.unify source target = .ok (m', .merged)) :
    ∀ o, m.graph.Shown o → m'.graph.Shown o ∨ m.graph.Forfeits source o := by
  obtain ⟨-, hf, -⟩ := unify_folds hL h
  obtain ⟨-, ty, nodes, -, hnodes, hgraph, -⟩ := unify_eq_merged h
  exact fun o => renameOccurrences_shown hL (fun n => mem_ownedNodes hnodes) hgraph hf

/-! ## Rounds -/

namespace Merging

variable {ρ : Type} {S : Merging ρ} {p q : Method × ρ}

/-- What is done after a merge loses no offset. -/
def TidiesUp (S : Merging ρ) : Prop :=
  ∀ g g', g.Legible → S.tidy g = .ok g' → ∀ o, g.Shown o → g'.Shown o

/-- Some round from `p` on merges a variable and loses the offset with a list of its
declarations. -/
def Loses (S : Merging ρ) (p : Method × ρ) (o : ℕ) : Prop :=
  ∃ q c m, S.Rounds p q ∧ S.Merges q c m ∧ q.1.graph.Forfeits c.source o

theorem Rounds.shown (htrims : S.TrimsLists) (htidy : S.TidiesUp) (hL : p.1.graph.Legible)
    (h : S.Rounds p q) (ho : p.1.graph.Shown o) : q.1.graph.Shown o ∨ S.Loses p o := by
  refine h.keeps (P := fun m => m.graph.Shown o ∨ S.Loses p o) (.inl ho)
    fun q c m g hrounds hshown hmerges hg => ?_
  rcases hshown with ho | hlost
  · have hLq := hrounds.legible htrims hL
    have hLm := (unify_folds hLq hmerges.2).2.1.legible hLq
    exact (unify_shown hLq hmerges.2 o ho).imp (htidy m.graph g hLm hg o)
      fun hlost => ⟨q, c, m, hrounds, hmerges, hlost⟩
  · exact .inr hlost

end Merging

theorem tidiesUp_versions (arrange : Occurrences → Occurrences) :
    (mergingVersions arrange).TidiesUp := by
  intro g g' hL hg o ⟨s, e, hs, he, ho⟩
  have ht := trimsLists_versions arrange g g' hL hg
  obtain ⟨stats, -, h⟩ := Checked.bind_eq_ok.1 hg
  have hkept : ∃ e, g'.Holds s e ∧ g'.Covers e o :=
    Checked.foldlM_keeps (fun g => ∃ e, g.Holds s e ∧ g.Covers e o) h ⟨e, he, ho⟩
      fun _ _ _ _ hshown h => covers_dropSelfAssignments h hshown
  obtain ⟨e, he, ho⟩ := hkept
  exact ⟨s, e, (ht.revises.inTree_iff hL.forest).2 hs, he, ho⟩

theorem tidiesUp_scopes : mergingScopes.TidiesUp := by
  intro g g' _ h
  cases h
  exact fun _ => id

/-- `g'` covers all that `g` covers, but for what is lost. -/
def ConservesBut (g g' : Graph) (lost : ℕ → Prop) : Prop :=
  Returns (g.statOffsets root) fun before => Returns (g'.statOffsets root) fun after =>
    ∀ o ∈ before.toList, o ∈ after.toList ∨ lost o

theorem conservesBut_of_shown {lost : ℕ → Prop} (hL : g.Legible) (hL' : g'.Legible)
    (h : ∀ o, g.Shown o → g'.Shown o ∨ lost o) : ConservesBut g g' lost := by
  obtain ⟨before, hbefore, hmem⟩ := hL.forest.statOffsets hL.grounded
  obtain ⟨after, hafter, hmem'⟩ := hL'.forest.statOffsets hL'.grounded
  exact ⟨before, hbefore, after, hafter, fun o ho => (h o ((hmem o).1 ho)).imp_left (hmem' o).2⟩

/-- Merging a variable into another one conserves offsets, but for those of lists that hold nothing
but declarations of the variable that goes away. Merging versions and merging across scopes conserve
offsets as well, but for those that one of their merges loses in this way. -/
theorem merging_conserves_offsets (hw : m.graph.WellFormed) (he : m.graph.ExprsGrounded) :
    (∀ source target m', m.unify source target = .ok (m', .merged) →
      ConservesBut m.graph m'.graph (m.graph.Forfeits source)) ∧
    (∀ arrange m' r, m.mergeVersionsBy arrange = .ok (m', r) →
      ConservesBut m.graph m'.graph ((mergingVersions arrange).Loses (m, []))) ∧
    ∀ m' r, m.mergeScoped = .ok (m', r) →
      ConservesBut m.graph m'.graph (mergingScopes.Loses (m, .empty)) := by
  have hL := legible_of_wellFormed hw he
  refine ⟨fun source target m' h => ?_, fun arrange m' r h => ?_, fun m' r h => ?_⟩
  · exact conservesBut_of_shown hL ((unify_folds hL h).2.1.legible hL) (unify_shown hL h)
  · obtain ⟨refused, hrounds, -⟩ := mergeVersionsIn_rounds h
    have htrims := trimsLists_versions arrange
    exact conservesBut_of_shown hL (hrounds.legible htrims hL) fun o =>
      hrounds.shown htrims (tidiesUp_versions arrange) hL
  · obtain ⟨refused, hrounds, -⟩ := mergeScopedIn_rounds h
    exact conservesBut_of_shown hL (hrounds.legible trimsLists_scopes hL) fun o =>
      hrounds.shown trimsLists_scopes tidiesUp_scopes hL

/-- `int v5; v3 = 0; v5 = v3;` in two leaves, with the given expressions in each of them. The
declaration has the offset 9. -/
def declaredCopy (first second : List ExprId) : Method where
  graph :=
    { stats := ⟨#[
        ⟨.exit, none, none, [], [], [], [], []⟩,
        ⟨.root, none, some ⟨2⟩, [⟨2⟩], [], [], [], []⟩,
        ⟨.sequence, some ⟨1⟩, some ⟨3⟩, [⟨3⟩, ⟨4⟩], [], [], [], []⟩,
        ⟨.block first, some ⟨2⟩, none, [], [], [⟨0⟩], [], []⟩,
        ⟨.block second, some ⟨2⟩, none, [], [], [], [⟨0⟩], []⟩]⟩
      edges := ⟨#[⟨.regular, ⟨3⟩, ⟨4⟩, none, false, false⟩]⟩
      exprs :=
        let occurrence (index : ℕ) (marked : Bool) : Expr :=
          .var ⟨⟨index, 0⟩, ⟨.int, 0⟩, marked, false, none⟩
        ⟨#[
          ⟨occurrence 5 true, .single 9⟩,
          ⟨occurrence 3 false, .single 1⟩,
          ⟨.const ⟨.int, 0⟩ (.int 0), .single 2⟩,
          ⟨.assign ⟨1⟩ ⟨2⟩, .single 3⟩,
          ⟨occurrence 5 false, .single 4⟩,
          ⟨occurrence 3 false, .single 5⟩,
          ⟨.assign ⟨4⟩ ⟨5⟩, .single 6⟩]⟩ }
  vars := { Registry.empty with origins := .ofList [(3, ⟨1, 3⟩), (5, ⟨1, 5⟩)] }

/-- A declaration in front of another expression of its leaf. -/
def sharedLeaf : Method := declaredCopy [⟨0⟩, ⟨3⟩] [⟨6⟩]

/-- A declaration that is all of its leaf. -/
def loneDeclaration : Method := declaredCopy [⟨0⟩] [⟨3⟩, ⟨6⟩]

theorem merging_conserves_offsets_sharedLeaf :
    sharedLeaf.graph.WellFormed ∧ sharedLeaf.graph.ExprsGrounded ∧
      Returns (sharedLeaf.unify ⟨5, 0⟩ ⟨3, 0⟩) (fun r => r.2 = .merged ∧
        ConservesBut sharedLeaf.graph r.1.graph (sharedLeaf.graph.Forfeits ⟨5, 0⟩)) ∧
      Returns sharedLeaf.mergeVersions (fun r => r.2 = .ok 1 ∧
        ConservesBut sharedLeaf.graph r.1.graph ((mergingVersions id).Loses (sharedLeaf, []))) ∧
      Returns sharedLeaf.mergeScoped fun r => r.2 = .ok () ∧
        ConservesBut sharedLeaf.graph r.1.graph (mergingScopes.Loses (sharedLeaf, .empty)) := by
  have hw : sharedLeaf.graph.WellFormed := by decide +kernel
  have he : sharedLeaf.graph.ExprsGrounded := by decide +kernel
  have hunify : Returns (sharedLeaf.unify ⟨5, 0⟩ ⟨3, 0⟩) fun r => r.2 = .merged := by
    decide +kernel
  have hversions : Returns sharedLeaf.mergeVersions fun r => r.2 = .ok 1 := by decide +kernel
  have hscoped : Returns sharedLeaf.mergeScoped fun r => r.2 = .ok () := by decide +kernel
  obtain ⟨hmerge, hall, hscopes⟩ := merging_conserves_offsets hw he
  refine ⟨hw, he, ?_, ?_, ?_⟩
  · obtain ⟨⟨m', _⟩, hu, rfl⟩ := hunify
    exact ⟨_, hu, rfl, hmerge _ _ m' hu⟩
  · obtain ⟨r, hr, hcount⟩ := hversions
    exact ⟨r, hr, hcount, hall id _ _ hr⟩
  · obtain ⟨r, hr, hdone⟩ := hscoped
    exact ⟨r, hr, hdone, hscopes _ _ hr⟩

/-- The offset of a declaration that is all of its leaf is lost. -/
theorem not_conserved_of_lone_declaration :
    loneDeclaration.graph.WellFormed ∧ loneDeclaration.graph.ExprsGrounded ∧
      Returns (loneDeclaration.graph.statOffsets root) (fun before => 9 ∈ before.toList) ∧
      Returns (loneDeclaration.unify ⟨5, 0⟩ ⟨3, 0⟩) (fun r => r.2 = .merged ∧
        Returns (r.1.graph.statOffsets root) fun after => 9 ∉ after.toList) ∧
      Returns loneDeclaration.mergeVersions fun r => r.2 = .ok 1 ∧
        Returns (r.1.graph.statOffsets root) fun after => 9 ∉ after.toList := by
  decide +kernel

end Method

end Decompiler

import Decompiler.Proofs.Loops.Phases
import Decompiler.Proofs.Loops.Visits
import Decompiler.Proofs.Monitors

/-!
# Offsets are conserved

The rewrites of loops and of monitors drop expressions, and each time the offsets of what is dropped
go to an expression that is still evaluated somewhere in the tree.

* `Graph.Sound`: the invariant of a run. Statements that have left the tree stay in the set `K` on
  which lists of children and parents match, since a sweep may come by them later.
* `Graph.Conserves`: no expression loses an offset, and none that the tree shows is lost to it.
* `Graph.sound_visitLoop`, `Graph.sound_cleanMonitor`: one visit keeps the invariant and conserves.
* `Graph.offsets_conserved`: so does a run of both passes.
-/

namespace Decompiler.Graph

open Relation

variable {g g' g'' : Graph} {K : StatId → Prop} {loop s : StatId} {e : ExprId} {o : ℕ}
  {options : Options} {f : Loop → Loop} {cuts : List (StatId × ExprId)}

/-! ## The invariant -/

/-- What a statement of the tree is in the course of a run: it has the shape rewrites leave behind,
declares nothing, and names expressions that are there. -/
def SoundStat (g : Graph) (st : Stat) : Prop :=
  st.Fits ∧ st.declarations = [] ∧ ∀ e ∈ st.kind.named, ∃ n, g.node e = .ok n

/-- The invariant of a run. -/
structure Sound (g : Graph) (K : StatId → Prop) : Prop where
  /-- Lists of children and parents match. -/
  forest : Forest g K
  /-- Expressions have no cycles. -/
  acyclic : g.Acyclic
  /-- What the statements of the tree are. -/
  stat : ∀ s st, g.InTree s → g.stat s = .ok st → g.SoundStat st

/-- An expression that the tree evaluates covers the offset. -/
def Shown (g : Graph) (o : ℕ) : Prop := ∃ s e, g.InTree s ∧ g.Holds s e ∧ g.Covers e o

/-- No expression loses an offset of its own, and what the tree shows it still shows. -/
structure Conserves (g g' : Graph) : Prop where
  /-- Own offsets only grow. -/
  grows : Grows g g'
  /-- What is shown stays shown. -/
  shown : ∀ o, g.Shown o → g'.Shown o

theorem Conserves.refl (g : Graph) : Conserves g g := ⟨.refl g, fun _ h => h⟩

theorem Conserves.trans (h : Conserves g g') (h' : Conserves g' g'') : Conserves g g'' :=
  ⟨h.grows.trans h'.grows, fun o ho => h'.shown o (h.shown o ho)⟩

theorem SoundStat.of_grows {st : Stat} (h : g.SoundStat st) (hg : Grows g g') : g'.SoundStat st :=
  ⟨h.1, h.2.1, fun e he => hg.exists_node (h.2.2 e he)⟩

namespace Sound

theorem entersChildren (h : Sound g K) (hs : g.InTree s) : g.EntersChildren s :=
  entersChildren_of_fits (fun s st hs hst => (h.stat s st hs hst).1) hs

theorem holds_iff (hS : Sound g K) (hs : g.InTree s) {st : Stat} (hst : g.stat s = .ok st) :
    g.Holds s e ↔ e ∈ st.kind.exprs := by
  rw [Graph.holds_iff hst, (hS.stat s st hs hst).2.1, List.append_nil]

theorem exists_slot (hS : Sound g K) (hloop : g.InTree loop) {st : Stat} {l : Loop}
    (hst : g.stat loop = .ok st) (hl : st.loop? = some l) (e : ExprId)
    (he : l.init = some e ∨ l.condition = some e ∨ l.step = some e) : ∃ n, g.node e = .ok n := by
  refine (hS.stat loop st hloop hst).2.2 e ?_
  rw [Stat.loop?_eq_some.1 hl]
  simpa [StatKind.named, or_assoc] using he

theorem of_sameTree (hS : Sound g K) (h : SameTree g g') : Sound g' K := by
  have hlinks := h.sameLinks
  refine ⟨hlinks.forest hS.forest, hS.acyclic.of_exprs_eq h.exprs, fun s st' hs hst' => ?_⟩
  obtain ⟨st, hst, heq⟩ := bareStat_eq_ok.1 ((h.stats s).symm.trans (bareStat_of_stat hst'))
  obtain ⟨hkind, -, -, -, hdecl⟩ := Stat.bare_eq_iff.1 heq
  obtain ⟨hfits, hnone, hnamed⟩ := hS.stat s st (hlinks.inTree_iff.1 hs) hst
  exact SoundStat.of_grows ⟨hfits.of_bare_eq heq.symm, hdecl ▸ hnone, hkind ▸ hnamed⟩
    (.of_exprs_eq h.exprs)

/-- Filling slots with expressions that are there keeps the invariant. -/
theorem of_refits (hS : Sound g K) (r : Refits g g' loop f cuts)
    (hslots : ∀ st l, g.InTree loop → g.stat loop = .ok st → st.loop? = some l →
      ∀ e ∈ (StatKind.loop (f l)).named, ∃ n, g'.node e = .ok n) : Sound g' K := by
  have hlinks := r.sameLinks
  refine ⟨hlinks.forest hS.forest, r.acyclic hS.acyclic, fun s st' hs hst' => ?_⟩
  have hs := hlinks.inTree_iff.1 hs
  obtain ⟨st, hst, heq⟩ := r.stat_before hst'
  obtain ⟨hkind, -, -, -, hdecl⟩ := Stat.bare_eq_iff.1 heq
  have hsound := hS.stat s st hs hst
  obtain ⟨hfits, hnone, hnamed⟩ := hsound.of_grows r.grows
  refine ⟨hfits.refit.of_bare_eq heq, ?_, fun e he => ?_⟩
  · rw [hdecl, Stat.refit_declarations, hnone]
  · rw [hkind] at he
    rcases Stat.mem_refit_named he with he | ⟨l, hl, he⟩
    · exact hnamed e he
    · by_cases hsl : s = loop
      · subst hsl
        exact hslots st l hs hst hl e (by simpa using he)
      · rw [if_neg hsl] at he
        refine hnamed e ?_
        rw [Stat.loop?_eq_some.1 hl]
        exact he

theorem of_pruned {old : StatId} {kept fresh : Option StatId} (hS : Sound g K)
    (hP : Pruned g g' K old kept fresh) : Sound g' fun s => K s ∨ fresh = some s := by
  refine ⟨hP.forest, hS.acyclic.of_exprs_eq hP.exprs, fun s st' hs hst' => ?_⟩
  rcases (hP.inTree s).1 hs with ⟨hs, hso, -⟩ | hfresh
  · obtain ⟨st, hst⟩ := hS.forest.exists_stat hs
    obtain ⟨st'', hst'', -, hnamed', hdecl, hfits'⟩ := hP.stat s st hso hst
    rw [hst'] at hst''
    cases hst''
    obtain ⟨hfits, hnone, hnamed⟩ := (hS.stat s st hs hst).of_grows (.of_exprs_eq hP.exprs)
    exact ⟨hfits' hfits, hdecl.trans hnone, hnamed'.symm ▸ hnamed⟩
  · obtain ⟨-, st'', hst'', hkind, hdecl, hfits⟩ := hP.leaf s hfresh
    rw [hst'] at hst''
    cases hst''
    refine ⟨hfits, hdecl, ?_⟩
    rw [hkind]
    nofun

end Sound

theorem Conserves.of_sameTree (h : SameTree g g') : Conserves g g' := by
  refine ⟨.of_exprs_eq h.exprs, ?_⟩
  rintro o ⟨s, e, hs, ⟨st, hst, he⟩, ho⟩
  obtain ⟨st', hst', hkind, -, -, -, hdecl⟩ := h.stat hst
  refine ⟨s, e, h.sameLinks.inTree_iff.2 hs, (holds_iff hst').2 ?_,
    (Grows.of_exprs_eq h.exprs).covers ho⟩
  rwa [hkind, hdecl]

/-- What is cut from a leaf, and what the loop held if it is changed, must be taken over by
something that is held. -/
theorem Conserves.of_refits (hS : Sound g K) (r : Refits g g' loop f cuts)
    (hlost : ∀ s e, g.InTree s → g.Holds s e → (s, e) ∈ cuts ∨ (s = loop ∧ f ≠ id) →
      ∃ t x, g.InTree t ∧ g'.Holds t x ∧ Takes g g' x e) : Conserves g g' := by
  refine ⟨r.grows, ?_⟩
  rintro o ⟨s, e, hs, he, ho⟩
  by_cases hcut : (s, e) ∈ cuts ∨ (s = loop ∧ f ≠ id)
  · obtain ⟨t, x, ht, hx, htakes⟩ := hlost s e hs he hcut
    exact ⟨t, x, r.sameLinks.inTree_iff.2 ht, hx, htakes o ho⟩
  · rw [not_or, not_and, not_not] at hcut
    obtain ⟨st, hst⟩ := hS.forest.exists_stat hs
    exact ⟨s, e, r.sameLinks.inTree_iff.2 hs, (r.holds_iff hcut.2 hst).2 ⟨he, fun _ _ => hcut.1⟩,
      r.grows.covers ho⟩

/-- What stays in the tree holds what it held. -/
theorem Pruned.holds {old : StatId} {kept fresh : Option StatId}
    (hP : Pruned g g' K old kept fresh) (hso : s ≠ old) (he : g.Holds s e) : g'.Holds s e := by
  obtain ⟨st, hst, he⟩ := he
  obtain ⟨st', hst', hexprs, -, hdecl, -⟩ := hP.stat s st hso hst
  rw [holds_iff hst', hexprs, hdecl]
  exact he

/-! ## One rewrite -/

/-- The invariant holds again, for at least the same statements, and offsets are conserved. -/
def Advances (g g' : Graph) (K : StatId → Prop) : Prop :=
  ∃ K', Sound g' K' ∧ (∀ s, K s → K' s) ∧ Conserves g g'

theorem Advances.refl (hS : Sound g K) : Advances g g K := ⟨K, hS, fun _ hs => hs, .refl g⟩

theorem Advances.trans (h : Advances g g' K)
    (h' : ∀ K', Sound g' K' → (∀ s, K s → K' s) → Advances g' g'' K') : Advances g g'' K := by
  obtain ⟨K₁, hS₁, hK₁, hcons₁⟩ := h
  obtain ⟨K₂, hS₂, hK₂, hcons₂⟩ := h' K₁ hS₁ hK₁
  exact ⟨K₂, hS₂, fun s hs => hK₂ s (hK₁ s hs), hcons₁.trans hcons₂⟩

/-- The condition a loop is given is an expression of the graph. -/
theorem exists_condition {head condition new : ExprId} (ha : g.Acyclic) (ha' : g'.Acyclic)
    (hg : Grows g g') (htest : g.expr head = .ok (.test condition))
    (hnew : IsCondition g' condition new) : ∃ n, g'.node new = .ok n := by
  obtain ⟨n, hn, hexpr⟩ := expr_eq_ok.1 htest
  rcases hnew with rfl | hneg | hneg
  · have hsub : g.SubOf head new := ⟨n, hn, by rw [hexpr]; exact List.mem_singleton_self new⟩
    exact hg.exists_node ((ha head n hn).sub hsub).exists_node
  · obtain ⟨m, hm, hexpr⟩ := expr_eq_ok.1 hneg
    have hsub : g'.SubOf condition new := ⟨m, hm, by rw [hexpr]; exact List.mem_singleton_self new⟩
    exact ((ha' condition m hm).sub hsub).exists_node
  · obtain ⟨m, hm, -⟩ := expr_eq_ok.1 hneg
    exact ⟨m, hm⟩

/-- An endless loop that takes the condition of a test shows it. -/
theorem holds_condition {kind : LoopKind} {new : ExprId}
    (r : Refits g g' loop (fun l => { l with kind := kind, condition := some new }) cuts)
    (hkind : kind = .whileDo ∨ kind = .doWhile) {st : Stat} {l : Loop}
    (hst : g.stat loop = .ok st) (hl : st.loop? = some l) : g'.Holds loop new := by
  obtain ⟨st', hst', hl'⟩ := r.loop?_eq hst hl
  rw [holds_iff hst', Stat.loop?_eq_some.1 hl']
  rcases hkind with rfl | rfl <;> simp [StatKind.exprs, Stat.loopBefore, Stat.loopAfter]

theorem advances_testMoves {kind : LoopKind} {t : LoopTest} {kept : Option StatId} (hS : Sound g K)
    (hloop : g.InTree loop) {lt : Stat} {l : Loop} (hlt : g.stat loop = .ok lt)
    (hl : lt.loop? = some l) (hendless : l.kind = .endless)
    (hkind : kind = .whileDo ∨ kind = .doWhile) (hat : TestAt g loop t kept)
    (h : TestMoves g g' loop kind t kept) : Advances g g' K ∧ g'.InTree loop := by
  obtain ⟨new, g₁, g₂, r, htakes, hnew, -, hstep, e⟩ := h
  have hlinks := r.sameLinks
  have hfits := fun s st hs hst => (hS.stat s st hs hst).1
  have hS₁ : Sound g₁ K := by
    refine hS.of_refits r fun st l' _ hst hl' e he => ?_
    simp only [StatKind.named, List.mem_append, Option.mem_toList, Option.some.injEq] at he
    have hold := hS.exists_slot hloop hst hl'
    rcases he with (he | rfl) | he
    · exact r.grows.exists_node (hold e (.inl he))
    · exact exists_condition hS.acyclic (r.acyclic hS.acyclic) r.grows hat.test hnew
    · exact r.grows.exists_node (hold e (.inr (.inr he)))
  obtain ⟨fresh, hP⟩ := hat.pruned hS.forest hloop hfits hlinks hstep
  obtain ⟨-, htloop, -⟩ := hS.forest.ne_of_below hloop hat.below
  have hloop₂ : g₂.InTree loop := by
    refine (hP.inTree loop).2 (.inl ⟨hlinks.inTree_iff.2 hloop, htloop.symm, fun hc => ?_⟩)
    rw [hlinks.childOf_eq] at hc
    exact absurd (hat.below.tail hc) (hS.forest.acyclic hloop)
  refine ⟨⟨_, (hS₁.of_pruned hP).of_sameTree e, fun s hs => .inl hs, Conserves.trans
    ⟨r.grows.trans (.of_exprs_eq hP.exprs), ?_⟩ (.of_sameTree e)⟩, e.sameLinks.inTree_iff.2 hloop₂⟩
  rintro o ⟨s, e, hs, he, ho⟩
  have hcovers : ∀ {x}, g₁.Covers x o → g₂.Covers x o := (Grows.of_exprs_eq hP.exprs).covers
  by_cases hst : s = t.stat
  · -- the head of the test is taken over by the condition
    subst hst
    obtain ⟨tt, htt, ⟨b, hb, hhead⟩, -⟩ := hat.stat
    rw [hS.holds_iff hs htt, hb] at he
    obtain rfl : e = t.head := (List.mem_singleton.1 he).trans hhead
    exact ⟨loop, new, hloop₂, hP.holds htloop.symm (holds_condition r hkind hlt hl),
      hcovers (htakes o ho)⟩
  · obtain ⟨st, hstat⟩ := hS.forest.exists_stat hs
    have hsloop : s ≠ loop := by
      rintro rfl
      rw [hS.holds_iff hs hlt, Stat.loop?_eq_some.1 hl] at he
      simp [StatKind.exprs, Stat.loopBefore, Stat.loopAfter, hendless] at he
    have he₁ : g₁.Holds s e :=
      (r.holds_iff (absurd · hsloop) hstat).2 ⟨he, fun _ _ => List.not_mem_nil⟩
    have hs₂ : g₂.InTree s := by
      refine (hP.inTree s).2 (.inl ⟨hlinks.inTree_iff.2 hs, hst, fun hc => ?_⟩)
      rw [hlinks.childOf_eq] at hc
      by_contra hne
      obtain ⟨ct, hct, hblock, -⟩ := hat.empty hS.forest hloop hfits hc hne
      rw [hS.holds_iff hs hct, hblock] at he
      cases he
    exact ⟨s, e, hs₂, hP.holds hst he₁, hcovers (r.grows.covers ho)⟩

/-- Taking an empty leaf out loses nothing. -/
theorem advances_pruneLeaf {leaf : StatId} {lt : Stat} (hS : Sound g K) (hloop : g.InTree loop)
    (hleaf : g.InTree leaf) (hroot : leaf ≠ root) (hlt : g.stat leaf = .ok lt)
    (hempty : lt.kind = .block []) (hstep : PruneStep loop leaf none g g') : Advances g g' K := by
  have hnil : lt.children = [] := by
    have hshape := (hS.stat leaf lt hleaf hlt).1.children
    rwa [hempty] at hshape
  have hchildless : ∀ c, ¬ g.ChildOf leaf c := fun c hc => by
    rw [childOf_iff hlt, hnil] at hc
    cases hc
  obtain ⟨fresh, hP⟩ := hstep.pruned hS.forest hloop (hS.entersChildren hloop) hleaf hroot nofun
    fun c ct hc => absurd hc (hchildless c)
  refine ⟨_, hS.of_pruned hP, fun s hs => .inl hs, .of_exprs_eq hP.exprs, ?_⟩
  rintro o ⟨s, e, hs, he, ho⟩
  have hne : s ≠ leaf := by
    rintro rfl
    rw [hS.holds_iff hs hlt, hempty] at he
    cases he
  exact ⟨s, e, (hP.inTree s).2 (.inl ⟨hs, hne, fun hc => absurd hc (hchildless s)⟩),
    hP.holds hne he, (Grows.of_exprs_eq hP.exprs).covers ho⟩

theorem Sound.holds_while (hS : Sound g K) (hloop : g.InTree loop) {lt : Stat} {l : Loop}
    (hlt : g.stat loop = .ok lt) (hl : lt.loop? = some l) (hwhile : l.kind = .whileDo)
    (he : g.Holds loop e) : l.condition = some e := by
  rw [hS.holds_iff hloop hlt, Stat.loop?_eq_some.1 hl] at he
  simpa [StatKind.exprs, Stat.loopBefore, Stat.loopAfter, hwhile] using he

theorem advances_forForm (hS : Sound g K) (hloop : g.InTree loop) {lt : Stat} {l : Loop}
    (hlt : g.stat loop = .ok lt) (hl : lt.loop? = some l) (hwhile : l.kind = .whileDo)
    (h : g.forForm? loop options = .ok (some g')) : Advances g g' K := by
  obtain ⟨leaf, ft, exprs, step, init, g₁, hbelow, hft, hexprs, hstep, hinit, r, -, h⟩ :=
    stepMoves_forForm h
  obtain ⟨hleaf, -, hroot⟩ := hS.forest.ne_of_below hloop (hbelow (hS.entersChildren hloop))
  obtain ⟨lt₁, hlt₁, hl₁⟩ := r.loop?_eq hlt hl
  have hcondition : (initSlot init l).condition = l.condition := by cases init <;> rfl
  have hholds : ∀ e, (initSlot init l).init = some e ∨ l.condition = some e ∨ e = step →
      g₁.Holds loop e := by
    intro e he
    rw [holds_iff hlt₁, Stat.loop?_eq_some.1 hl₁]
    simp only [StatKind.exprs, Stat.loopBefore, Stat.loopAfter, hcondition, List.mem_append,
      Option.mem_toList, Option.some.injEq]
    tauto
  have hS₁ : Sound g₁ K := by
    refine hS.of_refits r fun st l' _ hst hl' e he => r.grows.exists_node ?_
    rw [hlt] at hst
    cases hst
    rw [hl] at hl'
    cases hl'
    simp only [StatKind.named, hcondition, List.mem_append, Option.mem_toList,
      Option.some.injEq] at he
    rcases he with (he | he) | rfl
    · cases init with
      | none => exact hS.exists_slot hloop hlt hl e (.inl he)
      | some p =>
        obtain ⟨before, init⟩ := p
        cases he
        obtain ⟨-, -, left, right, hassign⟩ := initBefore?_eq_some hinit
        obtain ⟨n, hn, -⟩ := expr_eq_ok.1 hassign
        exact ⟨n, hn⟩
    · exact hS.exists_slot hloop hlt hl e (.inr (.inl he))
    · refine (hS.stat leaf ft hleaf hft).2.2 _ ?_
      rw [hexprs]
      exact List.mem_of_getLast? hstep
  have hcons : Conserves g g₁ := by
    refine .of_refits hS r fun s e hs he hcut => ⟨loop, e, hloop, hholds e ?_, .of_grows r.grows e⟩
    simp only [List.mem_append, Option.mem_toList, List.mem_singleton, Prod.mk.injEq] at hcut
    rcases hcut with (rfl | ⟨-, rfl⟩) | ⟨rfl, -⟩
    · exact .inl rfl
    · exact .inr (.inr rfl)
    · exact .inr (.inl (hS.holds_while hloop hlt hl hwhile he))
  rcases h with rfl | ⟨g₂, ⟨ft₁, hft₁, hempty⟩, e, hprune⟩
  · exact ⟨K, hS₁, fun _ hs => hs, hcons⟩
  · have hlinks : SameLinks g g₂ := r.sameLinks.trans e.sameLinks
    obtain ⟨ft₂, hft₂, hkind, -⟩ := e.stat hft₁
    have hadv : Advances g g₂ K :=
      ⟨K, hS₁.of_sameTree e, fun _ hs => hs, hcons.trans (.of_sameTree e)⟩
    exact hadv.trans fun K₂ hS₂ _ => advances_pruneLeaf hS₂ (hlinks.inTree_iff.2 hloop)
      (hlinks.inTree_iff.2 hleaf) hroot hft₂ (hkind.trans (Stat.isEmptyLeaf_iff.1 hempty)) hprune

theorem advances_forEachForm (hS : Sound g K) (hloop : g.InTree loop) {lt : Stat} {l : Loop}
    (hlt : g.stat loop = .ok lt) (hl : lt.loop? = some l) (hwhile : l.kind = .whileDo)
    (h : g.forEachForm? loop = .ok (some g')) : Advances g g' K := by
  obtain ⟨element, source, cuts, t⟩ := takesElements_forEachForm h
  obtain ⟨lt', hlt', hl'⟩ := t.refits.loop?_eq hlt hl
  have hholds : ∀ e, e = element ∨ e = source → g'.Holds loop e := by
    intro e he
    rw [holds_iff hlt', Stat.loop?_eq_some.1 hl']
    simp only [StatKind.exprs, elementSlots, Stat.loopBefore, Stat.loopAfter, List.mem_append,
      Option.mem_toList, Option.some.injEq]
    tauto
  refine ⟨K, hS.of_refits t.refits fun _ _ _ _ _ e he => ?_, fun _ hs => hs,
    .of_refits hS t.refits fun s e hs he hcut => ?_⟩
  · simp only [StatKind.named, elementSlots, Option.toList_some, Option.toList_none,
      List.append_nil, List.mem_append, List.mem_singleton] at he
    rcases he with rfl | rfl
    · exact t.slots.1
    · exact t.slots.2
  · rcases hcut with hcut | ⟨rfl, -⟩
    · rcases t.cut s e hcut with htakes | htakes
      · exact ⟨loop, element, hloop, hholds _ (.inl rfl), htakes⟩
      · exact ⟨loop, source, hloop, hholds _ (.inr rfl), htakes⟩
    · have hcondition := hS.holds_while hloop hlt hl hwhile he
      exact ⟨s, element, hloop, hholds _ (.inl rfl), t.condition lt l e hlt hl hcondition⟩

/-! ## A run of loop recognition -/

/-- One visit of a loop in the tree. -/
theorem advances_betterForm (hS : Sound g K) (hloop : g.InTree loop)
    (h : g.betterForm? loop options = .ok (some g')) : Advances g g' K := by
  have formOfWhile : ∀ {g g' : Graph} {K : StatId → Prop}, Sound g K → g.InTree loop →
      g.IsLoop loop .whileDo → g.formOfWhile? loop options = .ok (some g') → Advances g g' K := by
    intro g g' K hS hloop hwhile h
    obtain ⟨st, l, hst, hl, hkind⟩ := isLoop_iff.1 hwhile
    rcases formOfWhile?_eq_some h with h | h
    · exact advances_forEachForm hS hloop hst hl hkind h
    · exact advances_forForm hS hloop hst hl hkind h
  obtain ⟨st, hst, l, hl, ⟨hkind, ⟨g₁, hwhile, hnext⟩ | hdo⟩ | ⟨hkind, hform⟩⟩ :=
    betterForm?_cases h
  · obtain ⟨t, kept, -, hat, hmoves⟩ := testMoves_whileForm hwhile
    replace hat := hat (hS.entersChildren hloop)
    obtain ⟨hadv, hloop₁⟩ := advances_testMoves hS hloop hst hl hkind (.inl rfl) hat hmoves
    rcases hnext with rfl | hform
    · exact hadv
    · exact hadv.trans fun K₁ hS₁ _ =>
        formOfWhile hS₁ hloop₁ (hmoves.isLoop (isLoop_iff.2 ⟨st, l, hst, hl, hkind⟩)) hform
  · obtain ⟨t, kept, -, hat, hmoves⟩ := testMoves_doWhileForm hdo
    exact (advances_testMoves hS hloop hst hl hkind (.inr rfl)
      (hat (hS.entersChildren hloop)) hmoves).1
  · exact formOfWhile hS hloop (isLoop_iff.2 ⟨st, l, hst, hl, hkind⟩) hform

theorem advances_visitLoop {n n' : ℕ} (hS : Sound g K) (hs : K s)
    (h : visitLoop options (g, n) s = .ok (g', n')) : Advances g g' K := by
  rcases visitLoop_eq_ok hS.forest hs h with rfl | ⟨-, hloop, hform⟩
  · exact .refl hS
  · exact advances_betterForm hS hloop hform

/-- One round. A sweep may come by statements that have left the tree, but none outside of `K`. -/
theorem advances_recogniseOnce {n : ℕ} (hS : Sound g K)
    (h : g.recogniseOnce options = .ok (g', n)) : Advances g g' K := by
  simp only [recogniseOnce, Checked.bind_eq_ok] at h
  obtain ⟨order, horder, h⟩ := h
  obtain ⟨order', horder', -, hmem⟩ := hS.forest.postorder .refl
  rw [horder] at horder'
  cases horder'
  refine Checked.foldlM_keeps (fun acc : Graph × ℕ => Advances g acc.1 K) h (.refl hS) ?_
  rintro s hs ⟨g₁, n₁⟩ ⟨g₂, n₂⟩ hadv hvisit
  have hsK : K s := hS.forest.mem ((hmem s).1 hs)
  exact hadv.trans fun K₁ hS₁ hK₁ => advances_visitLoop hS₁ (hK₁ s hsK) hvisit

theorem advances_recogniseIn {rounds total n : ℕ} (hS : Sound g K)
    (h : recogniseIn options rounds g total = .ok (g', n)) : Advances g g' K := by
  induction rounds generalizing g K total with
  | zero => cases h
  | succ rounds ih =>
    simp only [recogniseIn, Checked.bind_eq_ok] at h
    obtain ⟨⟨g₁, changed⟩, h₁, h⟩ := h
    have hadv := advances_recogniseOnce hS h₁
    simp only at h
    split at h
    · cases h
      exact hadv
    · exact hadv.trans fun K₁ hS₁ _ => ih hS₁ h

/-! ## Monitors -/

/-- The expression that enters the monitor takes the offsets of the dropped copy over. -/
theorem advances_cleanMonitor (hS : Sound g K) (hs : g.InTree s)
    (h : g.cleanMonitor s = .ok (some g')) : Advances g g' K := by
  obtain ⟨m, g₁, rfl, hm, -, h₁, h₂⟩ := cleanMonitor_eq_some h
  obtain ⟨st, hst, -, -, body, hkind⟩ := hm.sync
  have r₁ := Refits.removeExpr m.sync h₁
  have r : Refits g g' m.sync id [m.cut] := r₁.trans (refits_absorb m.sync h₂)
  have hholds : g'.Holds m.sync m.head := by
    refine (r.holds_iff (fun _ => rfl) hst).2 ⟨?_, fun _ ⟨l, hl⟩ => ?_⟩
    · rw [holds_iff hst, hkind]
      simp [StatKind.exprs]
    · rw [hkind] at hl
      cases hl
  refine ⟨K, hS.of_refits r fun st' l _ hst' hl => ?_, fun _ hs => hs,
    .of_refits hS r fun t e _ _ hcut => ?_⟩
  · rw [hst] at hst'
    cases hst'
    rw [Stat.loop?_eq_some, hkind] at hl
    cases hl
  · rcases hcut with hcut | ⟨-, hne⟩
    · obtain ⟨-, rfl⟩ := Prod.mk.inj (List.mem_singleton.1 hcut)
      exact ⟨m.sync, m.head, hs, hholds, (Takes.absorb h₂).before r₁.grows⟩
    · exact absurd rfl hne

theorem sameLinks_cleanMonitor (h : g.cleanMonitor s = .ok (some g')) : SameLinks g g' := by
  obtain ⟨m, g₁, -, -, -, h₁, h₂⟩ := cleanMonitor_eq_some h
  exact (maps_dropCopy h₁ h₂).sameLinks_refit

theorem advances_cleanMonitors {n : ℕ} (hS : Sound g K) (h : g.cleanMonitors = .ok (g', n)) :
    Advances g g' K := by
  simp only [cleanMonitors, Checked.bind_eq_ok] at h
  obtain ⟨order, horder, h⟩ := h
  obtain ⟨order', horder', -, hmem⟩ := hS.forest.postorder .refl
  rw [horder] at horder'
  cases horder'
  refine (Checked.foldlM_keeps (fun acc : Graph × ℕ => Advances g acc.1 K ∧ SameLinks g acc.1) h
    ⟨.refl hS, .refl g⟩ ?_).1
  rintro s hs ⟨g₁, n₁⟩ ⟨g₂, n₂⟩ ⟨hadv, hlinks⟩ hvisit
  simp only [visitMonitor, Checked.bind_eq_ok] at hvisit
  obtain ⟨_ | g₃, h₃, hvisit⟩ := hvisit
  · cases hvisit
    exact ⟨hadv, hlinks⟩
  · cases hvisit
    have hs₁ : g₁.InTree s := hlinks.inTree_iff.2 ((hmem s).1 hs)
    exact ⟨hadv.trans fun K₁ hS₁ _ => advances_cleanMonitor hS₁ hs₁ h₃,
      hlinks.trans (sameLinks_cleanMonitor h₃)⟩

/-! ## Both passes -/

/-- The expressions of the graph can all be listed, and the statements of the tree name no others.
-/
def ExprsWellFormed (g : Graph) : Prop :=
  (∀ e ∈ g.exprs.ids, Returns (g.nodes e) fun _ => True) ∧
    g.EachStat fun st => ∀ e ∈ st.kind.named, e ∈ g.exprs.ids

instance (g : Graph) : Decidable g.ExprsWellFormed := inferInstanceAs (Decidable (_ ∧ _))

theorem sound_of_wellFormed (hwf : g.WellFormed) (hdecl : g.EachStat fun st => st.declarations = [])
    (hexprs : g.ExprsWellFormed) : Sound g g.InTree := by
  obtain ⟨hlisted, hnamed⟩ := hexprs
  refine ⟨hwf.forest, fun e n hn => ?_, fun s st hs hst => ⟨hwf.fits hs hst, hdecl.stat hs hst, ?_⟩⟩
  · obtain ⟨l, hl, -⟩ := hlisted e (Arena.mem_ids.2 ⟨n, hn⟩)
    exact grounded_of_nodes hl
  · exact fun e he => Arena.mem_ids.1 (hnamed.stat hs hst e he)

/-- The offsets of the whole tree are those it shows. -/
theorem Forest.statOffsets (hF : Forest g K)
    (hground : ∀ s e, g.InTree s → g.Holds s e → g.Grounded e) :
    Returns (g.statOffsets Graph.root) fun offsets => ∀ o, o ∈ offsets.toList ↔ g.Shown o := by
  obtain ⟨l, hl⟩ := hF.exprsIn .refl
  have hmem : ∀ e, e ∈ l ↔ ∃ s, g.InTree s ∧ g.Holds s e := fun e => hF.mem_exprsIn .refl hl
  have htrees : Returns (l.mapM g.subtreeOffsets)
      (List.Forall₂ (fun e u => ∀ o, o ∈ Offsets.toList u ↔ g.Covers e o) l) := by
    refine Returns.mapM fun e he => ?_
    obtain ⟨s, hs, hse⟩ := (hmem e).1 he
    obtain ⟨u, hu⟩ := (hground s e hs hse).subtreeOffsets
    exact ⟨u, hu, fun o => mem_subtreeOffsets hu⟩
  obtain ⟨us, hus, hforall⟩ := htrees
  refine ⟨us.foldl Offsets.union .empty, ?_, fun o => ?_⟩
  · simp only [Graph.statOffsets, hl, Checked.ok_bind, hus]
    rfl
  · rw [mem_foldl_union fun u : Offsets => u]
    constructor
    · rintro (ho | ⟨u, hu, ho⟩)
      · cases ho
      · obtain ⟨e, he, heu⟩ := Checked.exists_of_mem hforall.flip hu
        obtain ⟨s, hs, hse⟩ := (hmem e).1 he
        exact ⟨s, e, hs, hse, (heu o).1 ho⟩
    · rintro ⟨s, e, hs, hse, ho⟩
      obtain ⟨u, hu, heu⟩ := Checked.exists_of_mem hforall ((hmem e).2 ⟨s, hs, hse⟩)
      exact .inr ⟨u, hu, (heu o).2 ho⟩

theorem Sound.statOffsets (hS : Sound g K) :
    Returns (g.statOffsets Graph.root) fun offsets => ∀ o, o ∈ offsets.toList ↔ g.Shown o := by
  refine hS.forest.statOffsets fun s e hs hse => ?_
  obtain ⟨st, hst⟩ := hS.forest.exists_stat hs
  rw [hS.holds_iff hs hst] at hse
  obtain ⟨n, hn⟩ := (hS.stat s st hs hst).2.2 e (StatKind.mem_named hse)
  exact hS.acyclic e n hn

/-- **Offsets are conserved** by loop recognition followed by the cleaning of monitors: no
expression loses an offset of its own, and the tree covers afterwards all that it covered before. -/
theorem offsets_conserved {g₁ g₂ : Graph} {n m : ℕ} (hwf : g.WellFormed)
    (hdecl : g.EachStat fun st => st.declarations = []) (hexprs : g.ExprsWellFormed)
    (h₁ : g.recogniseLoops options = .ok (g₁, n)) (h₂ : g₁.cleanMonitors = .ok (g₂, m)) :
    (∀ e own, g.offsets e = .ok own →
      Returns (g₂.offsets e) fun own' => ∀ o ∈ own.toList, o ∈ own'.toList) ∧
    Returns (g.statOffsets root) fun before => Returns (g₂.statOffsets root) fun after =>
      ∀ o ∈ before.toList, o ∈ after.toList := by
  have hS := sound_of_wellFormed hwf hdecl hexprs
  have hadv : Advances g g₂ g.InTree := (advances_recogniseIn hS h₁).trans
    fun K₁ hS₁ _ => advances_cleanMonitors hS₁ h₂
  obtain ⟨K₂, hS₂, -, hcons⟩ := hadv
  refine ⟨fun e own hown => ?_, ?_⟩
  · simp only [Graph.offsets, Checked.bind_eq_ok, Checked.pure_eq_ok] at hown
    obtain ⟨node, hnode, rfl⟩ := hown
    obtain ⟨node', hnode', -, hsub⟩ := hcons.grows e node hnode
    exact ⟨node'.offsets, by simp [Graph.offsets, hnode'], hsub⟩
  · obtain ⟨before, hbefore, hmem⟩ := hS.statOffsets
    obtain ⟨after, hafter, hmem'⟩ := hS₂.statOffsets
    exact ⟨before, hbefore, after, hafter, fun o ho => (hmem' o).2 (hcons.shown o ((hmem o).1 ho))⟩

theorem offsets_conserved_countingMethod :
    Returns (countingMethod.recogniseLoops .default) fun r => r.2 = 1 ∧
      Returns r.1.cleanMonitors fun r' => r'.2 = 1 ∧
        (∀ e own, countingMethod.offsets e = .ok own →
          Returns (r'.1.offsets e) fun own' => ∀ o ∈ own.toList, o ∈ own'.toList) ∧
        Returns (countingMethod.statOffsets root) fun before =>
          Returns (r'.1.statOffsets root) fun after => ∀ o ∈ before.toList, o ∈ after.toList := by
  have hrun : Returns (countingMethod.recogniseLoops .default) fun r => r.2 = 1 ∧
      Returns r.1.cleanMonitors fun r' => r'.2 = 1 := by
    decide +kernel
  obtain ⟨r, hr, hcount, r', hr', hcount'⟩ := hrun
  exact ⟨r, hr, hcount, r', hr', hcount', offsets_conserved (by decide +kernel)
    (by decide +kernel) (by decide +kernel) hr hr'⟩

end Decompiler.Graph

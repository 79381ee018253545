import Decompiler.Proofs.Graph.Sides
import Decompiler.Proofs.Loops.Phases
import Decompiler.Proofs.Loops.Visits

/-!
# Edge lists while loops are recognised

The rewrites of loops detach edges, lead them elsewhere and attach them again from another source.

* `Graph.Shaped`: the shape of the tree that the rewrites rely on, and `Graph.shaped_betterForm`
  that a visit keeps it. It is what tells a replaced statement from its parent and from what takes
  its place.
* `Graph.Sheds`: how each rewrite starts. The slots of the loop are filled, and some edges are
  detached. What follows is told by `Graph.whileNot_eq_ok`, `Graph.whileGuard_eq_ok`,
  `Graph.doWhileTest_eq_ok` and `Graph.forForm_phases`.
* `Graph.inSync_betterForm`: a visit keeps the lists of edges in sync.
* `Graph.EdgeStep`, `Graph.inSync_of_steps`: so does every sequence of the operations on edges and
  statements, provided that none of them puts a statement in its own place.
-/

namespace Decompiler.Graph

open Relation

variable {g g' g'' : Graph} {K : StatId → Prop} {loop leaf s old : StatId} {e : EdgeId}
  {options : Options} {detached : EdgeId → Prop}

/-! ## The shape of the tree -/

/-- Lists of children and parents match, and the statements of the tree have the children that
rewrites leave them. -/
structure Shaped (g : Graph) (K : StatId → Prop) : Prop where
  /-- Lists of children and parents match. -/
  forest : Forest g K
  /-- Leaves and `if`s have the children they need. -/
  fits : ∀ s st, g.InTree s → g.stat s = .ok st → st.Fits

namespace Shaped

theorem entersChildren (h : Shaped g K) (hs : g.InTree s) : g.EntersChildren s :=
  entersChildren_of_fits h.fits hs

theorem of_sameTree (h : Shaped g K) (hg : SameTree g g') : Shaped g' K := by
  refine ⟨hg.sameLinks.forest h.forest, fun s st' hs hst' => ?_⟩
  obtain ⟨st, hst, heq⟩ := bareStat_eq_ok.1 ((hg.stats s).symm.trans (bareStat_of_stat hst'))
  exact (h.fits s st (hg.sameLinks.inTree_iff.1 hs) hst).of_bare_eq heq.symm

theorem of_refits {f : Loop → Loop} {cuts : List (StatId × ExprId)} (h : Shaped g K)
    (r : Refits g g' loop f cuts) : Shaped g' K := by
  refine ⟨r.sameLinks.forest h.forest, fun s st' hs hst' => ?_⟩
  obtain ⟨st, hst, heq⟩ := r.stat_before hst'
  exact (h.fits s st (r.sameLinks.inTree_iff.1 hs) hst).refit.of_bare_eq heq

theorem of_pruned {kept fresh : Option StatId} (h : Shaped g K)
    (hP : Pruned g g' K old kept fresh) : Shaped g' fun s => K s ∨ fresh = some s := by
  refine ⟨hP.forest, fun s st' hs hst' => ?_⟩
  rcases (hP.inTree s).1 hs with ⟨hs, hso, -⟩ | hfresh
  · obtain ⟨st, hst⟩ := h.forest.exists_stat hs
    obtain ⟨st'', hst'', -, -, -, hfits⟩ := hP.stat s st hso hst
    rw [hst'] at hst''
    cases hst''
    exact hfits (h.fits s st hs hst)
  · obtain ⟨-, st'', hst'', -, -, hfits⟩ := hP.leaf s hfresh
    rw [hst'] at hst''
    cases hst''
    exact hfits

end Shaped

/-- The shape holds again, for at least the same statements. -/
def Reshapes (g' : Graph) (K : StatId → Prop) : Prop := ∃ K', Shaped g' K' ∧ ∀ s, K s → K' s

theorem shaped_testMoves {kind : LoopKind} {t : LoopTest} {kept : Option StatId} (hS : Shaped g K)
    (hloop : g.InTree loop) (hat : TestAt g loop t kept) (h : TestMoves g g' loop kind t kept) :
    Reshapes g' K ∧ g'.InTree loop := by
  obtain ⟨new, g₁, g₂, r, -, -, -, hstep, e⟩ := h
  have hlinks := r.sameLinks
  obtain ⟨fresh, hP⟩ := hat.pruned hS.forest hloop hS.fits hlinks hstep
  obtain ⟨-, htloop, -⟩ := hS.forest.ne_of_below hloop hat.below
  have hloop₂ : g₂.InTree loop := by
    refine (hP.inTree loop).2 (.inl ⟨hlinks.inTree_iff.2 hloop, htloop.symm, fun hc => ?_⟩)
    rw [hlinks.childOf_eq] at hc
    exact absurd (hat.below.tail hc) (hS.forest.acyclic hloop)
  exact ⟨⟨_, ((hS.of_refits r).of_pruned hP).of_sameTree e, fun s hs => .inl hs⟩,
    e.sameLinks.inTree_iff.2 hloop₂⟩

theorem shaped_forForm (hS : Shaped g K) (hloop : g.InTree loop)
    (h : g.forForm? loop options = .ok (some g')) : Reshapes g' K := by
  obtain ⟨leaf, ft, exprs, step, init, g₁, hbelow, hft, hexprs, -, -, r, -, h⟩ :=
    stepMoves_forForm h
  have henters := hS.entersChildren hloop
  obtain ⟨hleaf, -, hroot⟩ := hS.forest.ne_of_below hloop (hbelow henters)
  rcases h with rfl | ⟨g₂, -, e, hprune⟩
  · exact ⟨K, hS.of_refits r, fun _ hs => hs⟩
  · have hlinks : SameLinks g g₂ := r.sameLinks.trans e.sameLinks
    have hS₂ := (hS.of_refits r).of_sameTree e
    have hchildless : ∀ c, ¬ g₂.ChildOf leaf c := fun c hc => by
      have hshape := (hS.fits leaf ft hleaf hft).children
      rw [hexprs] at hshape
      rw [hlinks.childOf_eq, childOf_iff hft, hshape] at hc
      cases hc
    obtain ⟨fresh, hP⟩ := hprune.pruned hS₂.forest (hlinks.inTree_iff.2 hloop)
      (henters.congr hlinks) (hlinks.inTree_iff.2 hleaf) hroot nofun
      fun c ct hc => absurd hc (hchildless c)
    exact ⟨_, hS₂.of_pruned hP, fun s hs => .inl hs⟩

theorem shaped_formOfWhile (hS : Shaped g K) (hloop : g.InTree loop)
    (h : g.formOfWhile? loop options = .ok (some g')) : Reshapes g' K := by
  rcases formOfWhile?_eq_some h with h | h
  · obtain ⟨element, source, cuts, t⟩ := takesElements_forEachForm h
    exact ⟨K, hS.of_refits t.refits, fun _ hs => hs⟩
  · exact shaped_forForm hS hloop h

/-- One visit of a loop in the tree keeps the shape of the tree. -/
theorem shaped_betterForm (hS : Shaped g K) (hloop : g.InTree loop)
    (h : g.betterForm? loop options = .ok (some g')) : Reshapes g' K := by
  obtain ⟨st, -, l, -, ⟨-, ⟨g₁, hwhile, hnext⟩ | hdo⟩ | ⟨-, hform⟩⟩ := betterForm?_cases h
  · obtain ⟨t, kept, -, hat, hmoves⟩ := testMoves_whileForm hwhile
    obtain ⟨⟨K₁, hS₁, hK₁⟩, hloop₁⟩ :=
      shaped_testMoves hS hloop (hat (hS.entersChildren hloop)) hmoves
    rcases hnext with rfl | hform
    · exact ⟨K₁, hS₁, hK₁⟩
    · obtain ⟨K₂, hS₂, hK₂⟩ := shaped_formOfWhile hS₁ hloop₁ hform
      exact ⟨K₂, hS₂, fun s hs => hK₂ s (hK₁ s hs)⟩
  · obtain ⟨t, kept, -, hat, hmoves⟩ := testMoves_doWhileForm hdo
    exact (shaped_testMoves hS hloop (hat (hS.entersChildren hloop)) hmoves).1
  · exact shaped_formOfWhile hS hloop hform

/-! ## Changes without edges -/

namespace SameEdges

variable {target source condition head element x : ExprId} {f : Loop → Loop} {m : ElementLoop}

theorem modifyLoop (h : g.modifyLoop loop f = .ok g') : SameEdges g g' := by
  refine .modifyStat h fun st r => ?_
  unfold Stat.mapLoop
  split <;> cases r <;> rfl

theorem removeExpr (h : g.removeExpr leaf x = .ok g') : SameEdges g g' := by
  refine .modifyStat h fun st r => ?_
  unfold Stat.withExprs
  split <;> cases r <;> rfl

theorem absorb? {source : Option ExprId} (h : g.absorb? target source = .ok g') :
    SameEdges g g' := by
  obtain ⟨hs, he, -⟩ := absorb?_frame h
  exact .of_stats_eq hs he

theorem absorb (h : g.absorb target source = .ok g') : SameEdges g g' := by
  have h' : g.absorb? target (some source) = .ok g' := h
  exact .absorb? h'

theorem negate {new : ExprId} (h : g.negate condition = .ok (g', new)) : SameEdges g g' := by
  obtain ⟨hs, he, -⟩ := negate_frame h
  exact .of_stats_eq hs he

theorem setCondition (h : g.setCondition loop condition head = .ok g') : SameEdges g g' := by
  simp only [Graph.setCondition, Checked.bind_eq_ok] at h
  obtain ⟨slots, -, g₁, h₁, offsets, -, g₂, h₂, h₃⟩ := h
  obtain ⟨n, -, -, hs, he, -⟩ := node_addOffsets h₂
  exact .trans (.absorb? h₁) (.trans (.of_stats_eq hs he) (.modifyLoop h₃))

theorem moveToSlot {o : Option ExprId} (h : g.moveToSlot loop leaf x o f = .ok g') :
    SameEdges g g' := by
  simp only [Graph.moveToSlot, Checked.bind_eq_ok] at h
  obtain ⟨g₁, h₁, g₂, h₂, h₃⟩ := h
  exact .trans (.removeExpr h₁) (.trans (.absorb? h₂) (.modifyLoop h₃))

/-- Up to the leaf that may be left empty, making a counted loop does not concern edges. -/
theorem toCounted {step : ExprId} {init : Option (StatId × ExprId)}
    (h : g.toCounted loop leaf step init = .ok g') :
    ∃ f cuts g₁, SameEdges g g₁ ∧ Refits g g₁ loop f cuts ∧
      g₁.dropEmptyLeaf loop leaf = .ok g' := by
  simp only [Graph.toCounted, Checked.bind_eq_ok] at h
  obtain ⟨g₁, h₁, slots, -, h⟩ := h
  have r₁ := refits_setKind h₁
  cases init with
  | none =>
    simp only [Checked.bind_eq_ok, Checked.pure_eq_ok] at h
    obtain ⟨_, rfl, g₂, h₂, h⟩ := h
    exact ⟨_, _, g₂, .trans (.modifyLoop h₁) (.moveToSlot h₂), r₁.trans (refits_moveToSlot h₂), h⟩
  | some p =>
    simp only [Checked.bind_eq_ok] at h
    obtain ⟨g₂, h₂, g₃, h₃, h⟩ := h
    exact ⟨_, _, g₃, .trans (.modifyLoop h₁) (.trans (.moveToSlot h₂) (.moveToSlot h₃)),
      r₁.trans ((refits_moveToSlot h₂).trans (refits_moveToSlot h₃)), h⟩

theorem toForEach (h : g.toForEach loop element source = .ok g') : SameEdges g g' := by
  simp only [Graph.toForEach, Checked.bind_eq_ok] at h
  obtain ⟨slots, -, g₁, h₁, g₂, h₂, g₃, h₃, h₄⟩ := h
  exact .trans (.absorb? h₁) (.trans (.absorb? h₂) (.trans (.absorb? h₃) (.modifyLoop h₄)))

theorem foldArrayCopy {a : ArrayLoop} (h : g.foldArrayCopy m a = .ok g') : SameEdges g g' := by
  obtain ⟨rfl, -⟩ | ⟨copyInit, source, -, h⟩ := foldArrayCopy_eq_ok h
  · exact .refl _
  simp only [Checked.bind_eq_ok] at h
  obtain ⟨g₁, h₁, g₂, h₂, g₃, h₃, h₄⟩ := h
  exact .trans (.removeExpr h₁) (.trans (.absorb h₂) (.trans (.absorb h₃) (.modifyLoop h₄)))

theorem overArray (h : g.overArray? m = .ok (some g')) : SameEdges g g' := by
  simp only [overArray?, Checked.bind_eq_ok] at h
  obtain ⟨_ | a, -, h⟩ := h
  · cases h
  simp only [Checked.bind_eq_ok, Checked.pure_eq_ok, Option.some.injEq, exists_eq_right] at h
  obtain ⟨g₁, h₁, g₂, h₂, g₃, h₃, g₄, h₄, g₅, h₅, g₆, h₆, g₇, h₇, g₈, h₈, g₉, h₉, h⟩ := h
  have e₄ : SameEdges g g₄ := .trans (.absorb h₁) (.trans (.absorb h₂) (.trans (.absorb h₃)
    (.absorb h₄)))
  have e₉ : SameEdges g₅ g₉ := .trans (.removeExpr h₆) (.trans (.removeExpr h₇)
    (.trans (.removeExpr h₈) (.removeExpr h₉)))
  exact e₄.trans (.trans (.toForEach h₅) (e₉.trans (.foldArrayCopy h)))

theorem forEachForm (h : g.forEachForm? loop = .ok (some g')) : SameEdges g g' := by
  obtain ⟨m, -, ⟨init, -, h⟩ | h⟩ := forEachForm?_eq_some h
  · obtain ⟨p, -, h⟩ := overCollection?_eq_some h
    simp only [Checked.bind_eq_ok] at h
    obtain ⟨g₁, h₁, g₂, h₂, g₃, h₃, g₄, h₄, h₅⟩ := h
    exact .trans (.absorb h₁) (.trans (.absorb h₂) (.trans (.toForEach h₃)
      (.trans (.removeExpr h₄) (.removeExpr h₅))))
  · exact .overArray h

end SameEdges

/-! ## Changes of edges -/

namespace Synced

/-- A detached edge is given a new source and attached again, unless the loop has a successor. -/
theorem liftExit_cases (h : Synced g detached) (he : detached e)
    (hg : g.liftExit loop e = .ok g') : g' = g ∨
      ∃ st edge, g.stat loop = .ok st ∧ g.edge e = .ok edge ∧
        (Synced g' fun x => detached x ∧ x ≠ e) ∧
        ∀ x, g'.edge x = if e = x then .ok { edge with
          source := loop
          closure := if edge.closure = some loop then st.parent else edge.closure } else g.edge x := by
  simp only [Graph.liftExit, Checked.bind_eq_ok] at hg
  obtain ⟨st, hst, hg⟩ := hg
  split at hg
  · exact .inl (Checked.pure_eq_ok.1 hg).symm
  · obtain ⟨g₁, h₁, hg⟩ := Checked.bind_eq_ok.1 hg
    obtain ⟨edge, hedge, hx, -⟩ := edge_modifyEdge h₁
    have s₁ : Synced g₁ detached := ⟨h.linked.modifyEdge h₁ fun _ _ hnot => absurd he hnot,
      fun x hx' => exists_edge_of_read hx (h.exists_edge x hx')⟩
    refine .inr ⟨st, edge, hst, hedge, s₁.attachEdge he hg, fun x => ?_⟩
    rw [Graph.edge, edges_attachEdge hg]
    exact hx x

theorem liftExit (h : Synced g detached) (he : detached e) (hg : g.liftExit loop e = .ok g') :
    g'.InSync := by
  rcases h.liftExit_cases he hg with rfl | ⟨-, -, -, -, hs, -⟩
  · exact inSync_iff.2 ⟨_, h⟩
  · exact inSync_iff.2 ⟨_, hs⟩

theorem raiseClosure (h : Synced g detached) (he : ¬ detached e)
    (hg : Graph.raiseClosure loop g e = .ok g') : Synced g' detached := by
  simp only [Graph.raiseClosure, Checked.bind_eq_ok] at hg
  obtain ⟨edge, -, hg⟩ := hg
  split at hg
  · obtain ⟨inside, -, hg⟩ := Checked.bind_eq_ok.1 hg
    split at hg
    · exact (h.setClosure he hg).1
    · exact Checked.pure_eq_ok.1 hg ▸ h
  · exact Checked.pure_eq_ok.1 hg ▸ h

theorem continueLoop (h : Synced g detached) (he : ¬ detached e)
    (hg : Graph.continueLoop loop g e = .ok g') : Synced g' detached := by
  simp only [Graph.continueLoop, Checked.bind_eq_ok] at hg
  obtain ⟨g₁, h₁, g₂, h₂, hg⟩ := hg
  obtain ⟨edge, -, hx, -⟩ := edge_modifyEdge h₁
  have s₁ : Synced g₁ detached := ⟨h.linked.modifyEdge h₁ fun r _ _ => by cases r <;> rfl,
    fun x hx' => exists_edge_of_read hx (h.exists_edge x hx')⟩
  exact ((s₁.changeDestination he h₂).1.setClosure he hg).1

/-- The edges of some kinds that lead to a statement are attached. -/
theorem not_detached_of_predecessorEdges {kinds : EdgeKinds} {l : List EdgeId}
    (h : Synced g detached) (hl : g.predecessorEdges s kinds = .ok l) (he : e ∈ l) :
    ¬ detached e := by
  simp only [predecessorEdges, Checked.bind_eq_ok] at hl
  obtain ⟨st, hst, hl⟩ := hl
  have hpred : g.listed .destination s = st.predecessors := listed_of_stat hst _
  exact h.not_detached (hpred.symm ▸ Checked.mem_of_filterM hl he)

end Synced

/-- What is detached stays so. -/
def Retains (g' : Graph) (detached : EdgeId → Prop) : Prop :=
  ∃ detached', Synced g' detached' ∧ ∀ x, detached x → detached' x

/-- A statement of the tree is taken out. -/
theorem PruneStep.retains {kept : Option StatId} (h : PruneStep loop old kept g g')
    (hs : Synced g detached) (hF : Forest g K) (hold : g.InTree old) (hroot : old ≠ root)
    (hloop : old ≠ loop) (hkept : ∀ c, kept = some c → old ≠ c) : Retains g' detached := by
  obtain ⟨ot, hot⟩ := hF.exists_stat hold
  cases h with
  | remove _ h => exact hs.removeStat h
  | @empty _ g₁ _ b first alloc replace =>
    have hfresh : old ≠ b := by
      rintro rfl
      exact (stat_block alloc).2.1 ot hot
    exact ⟨detached, ((hs.of_sameEdges (.block alloc)).replaceStat hfresh replace).2 hloop,
      fun _ hx => hx⟩
  | @child _ g₁ _ p c st stat parent detach replace =>
    obtain ⟨p', hp', hpTree, hpc⟩ := hF.exists_parent hold hroot stat
    rw [parent] at hp'
    cases hp'
    exact ⟨detached, ((hs.of_sameEdges (.removeChild detach)).replaceStat (hkept c rfl) replace).2
      (hF.ne_of_childOf hpTree hpc), fun _ hx => hx⟩
  | orphan => exact ⟨detached, hs, fun _ hx => hx⟩

/-- The same, told from the tree of an earlier graph. -/
theorem PruneStep.retains_below {g₁ g₂ : Graph} {kept : Option StatId}
    (h : PruneStep loop old kept g₁ g₂) (hs : Synced g₁ detached) (hF : Forest g K)
    (hlinks : SameLinks g g₁) (hloop : g.InTree loop) (hbelow : TransGen g.ChildOf loop old)
    (hkept : ∀ c, kept = some c → g.ChildOf old c) : Retains g₂ detached := by
  obtain ⟨hold, hne, hroot⟩ := hF.ne_of_below hloop hbelow
  exact h.retains hs (hlinks.forest hF) (hlinks.inTree_iff.2 hold) hroot hne fun c hc =>
    (hF.ne_of_childOf hold (hkept c hc)).symm

theorem Synced.dropEmptyTail (hs : Synced g detached) (hF : Forest g K) (hold : g.InTree old)
    (hroot : old ≠ root) (hloop : old ≠ loop) (h : g.dropEmptyTail loop old = .ok g') :
    Retains g' detached := by
  obtain ⟨l, g₁, hl, h₁, hstep⟩ := dropEmptyTail_eq_ok h
  obtain ⟨ot, hot⟩ := hF.exists_stat hold
  have hpred : g.listed .destination old = ot.predecessors := listed_of_stat hot _
  have s₁ : Synced g₁ detached := Checked.foldlM_keeps (Synced · detached) h₁ hs
    fun e he _ _ hb hstep => hb.continueLoop (hs.not_detached (hpred.symm ▸ hl ot hot e he)) hstep
  have e₁ : SameTree g g₁ := .foldlM h₁ fun e _ _ _ he => sameTree_continueLoop he
  exact hstep.retains s₁ (e₁.sameLinks.forest hF) (e₁.sameLinks.inTree_iff.2 hold) hroot hloop nofun

/-! ## The phases of a rewrite -/

/-- The slots of a loop are filled, and then some edges are detached. -/
def Sheds (loop : StatId) (l : List EdgeId) (g g' : Graph) : Prop :=
  ∃ f cuts g₁, SameEdges g g₁ ∧ Refits g g₁ loop f cuts ∧ l.foldlM detachEdge g₁ = .ok g'

namespace Sheds

variable {l : List EdgeId} (h : Sheds loop l g g')

include h

theorem refits : ∃ f cuts, Refits g g' loop f cuts := by
  obtain ⟨f, cuts, g₁, -, r, h⟩ := h
  have e : SameTree g₁ g' := .foldlM h fun e _ _ _ he => sameTree_detachEdge he
  exact ⟨_, _, r.trans (.of_sameTree loop e)⟩

theorem sameLinks : SameLinks g g' := by
  obtain ⟨f, cuts, r⟩ := h.refits
  exact r.sameLinks

theorem edge (x : EdgeId) : g'.edge x = g.edge x := by
  obtain ⟨f, cuts, g₁, e, -, h⟩ := h
  rw [Graph.edge, edges_detachAll h, Graph.edge, e.edges]

theorem synced (hs : Synced g detached) : Synced g' fun x => detached x ∨ x ∈ l := by
  obtain ⟨f, cuts, g₁, e, -, h⟩ := h
  exact (hs.of_sameEdges e).detachAll h

end Sheds

/-- A leading test on which the loop is left: its edges are detached, the loop takes over the one by
which it is left, and the `if` is taken out. -/
theorem whileNot_eq_ok {t : LoopTest} (h : g.whileNot loop t = .ok g') :
    ∃ g₁ g₂, Sheds loop [t.thenEdge, t.elseEdge] g g₁ ∧ g₁.liftExit loop t.thenEdge = .ok g₂ ∧
      PruneStep loop t.stat none g₂ g' := by
  simp only [whileNot, Checked.bind_eq_ok] at h
  obtain ⟨g₁, h₁, ⟨g₂, new⟩, h₂, g₃, h₃, g₄, h₄, g₅, h₅, g₆, h₆, lt, hlt, h⟩ := h
  have e₃ : SameEdges g g₃ := .trans (.modifyLoop h₁) (.trans (.negate h₂) (.setCondition h₃))
  have r₃ := ((refits_setKind h₁).trans (refits_negate loop h₂)).trans (refits_setCondition h₃).1
  refine ⟨g₅, g₆, ⟨_, _, g₃, e₃, r₃, by simpa [h₄] using h₅⟩, h₆, ?_⟩
  split at h
  · next hfirst =>
    obtain ⟨⟨g₇, b⟩, h₇, h⟩ := Checked.bind_eq_ok.1 h
    exact .empty ⟨lt, hlt, hfirst⟩ h₇ h
  · next hfirst => exact .remove ⟨lt, hlt, hfirst⟩ h

/-- A leading test with a branch: the branch takes the place of the `if`, and then the labels of
the breaks out of the loop are moved. -/
theorem whileGuard_eq_ok {t : LoopTest} {body : StatId} (h : g.whileGuard loop t body = .ok g') :
    ∃ exitEdge g₁ g₂, g.edge t.elseEdge = .ok exitEdge ∧ Sheds loop [t.thenEdge, t.elseEdge] g g₁ ∧
      g₁.liftExit loop t.elseEdge = .ok g₂ ∧
      ((g' = g₂ ∧ Returns (g₂.stat t.stat) fun st => st.parent = none) ∨
        ∃ g₃ g₄ breaks, PruneStep loop t.stat (some body) g₂ g₃ ∧
          g₃.predecessorEdges exitEdge.destination [.breakTo] = .ok breaks ∧
          breaks.foldlM (raiseClosure loop) g₃ = .ok g₄ ∧ g₄.lowerBreaks loop = .ok g') := by
  simp only [whileGuard, Checked.bind_eq_ok] at h
  obtain ⟨exitEdge, hexit, g₁, h₁, g₃, h₃, g₄, h₄, g₅, h₅, g₆, h₆, st, hst, h⟩ := h
  have e₃ : SameEdges g g₃ := .trans (.modifyLoop h₁) (.setCondition h₃)
  have r₃ := (refits_setKind h₁).trans (refits_setCondition h₃).1
  refine ⟨exitEdge, g₅, g₆, hexit, ⟨_, _, g₃, e₃, r₃, by simpa [h₄] using h₅⟩, h₆, ?_⟩
  cases hparent : st.parent with
  | none =>
    rw [hparent] at h
    exact .inl ⟨(Checked.pure_eq_ok.1 h).symm, st, hst, hparent⟩
  | some parent =>
    rw [hparent] at h
    simp only [Checked.bind_eq_ok] at h
    obtain ⟨g₇, h₇, g₈, h₈, breaks, hbreaks, g₉, h₉, h⟩ := h
    exact .inr ⟨g₈, g₉, breaks, .child hst hparent h₇ h₈, hbreaks, h₉, h⟩

/-- A trailing test: its edges are detached, the `if` is taken out, and then the loop takes over the
edge by which it is left. Where the block in front of the test stays, it continues the loop. -/
theorem doWhileTest_eq_ok {t : LoopTest} {leavesOnTrue : Bool} {ht : Stat}
    (hht : g.stat t.headBlock = .ok ht) (h : g.doWhileTest loop t leavesOnTrue = .ok g') :
    ∃ g₁ g₂, Sheds loop [t.thenEdge, t.elseEdge] g g₁ ∧
      g₂.liftExit loop (t.trailingExit leavesOnTrue) = .ok g' ∧
      ((t.keptBlock ht = none ∧ g₁.dropEmptyTail loop t.stat = .ok g₂) ∨
        (g₂ = g₁ ∧ Returns (g₁.stat t.stat) fun st => st.parent = none) ∨
        ∃ g₃ e, t.keptBlock ht = some t.headBlock ∧
          PruneStep loop t.stat (some t.headBlock) g₁ g₃ ∧
          g₃.addEdge ⟨.continueTo, t.headBlock, loop, some loop, true, true⟩ = .ok (g₂, e)) := by
  obtain ⟨g₁, h₁, h⟩ := Checked.bind_eq_ok.1 h
  rw [Checked.ite_bind] at h
  simp only [Checked.bind_eq_ok] at h
  obtain ⟨⟨g₂, new⟩, h₂, g₃, h₃, g₄, h₄, g₅, h₅, bt, hbt, h⟩ := h
  have h₂' : SameEdges g₁ g₂ ∧ Refits g₁ g₂ loop id [] := by
    split at h₂
    · exact ⟨.negate h₂, refits_negate loop h₂⟩
    · cases h₂
      exact ⟨.refl g₁, .of_sameTree loop (.refl g₁)⟩
  have e₃ : SameEdges g g₃ := .trans (.modifyLoop h₁) (h₂'.1.trans (.setCondition h₃))
  have r₃ := ((refits_setKind h₁).trans h₂'.2).trans (refits_setCondition h₃).1
  have r₅ := r₃.trans (.of_sameTree loop (.trans (sameTree_detachEdge h₄) (sameTree_detachEdge h₅)))
  have hshed : Sheds loop [t.thenEdge, t.elseEdge] g g₅ :=
    ⟨_, _, g₃, e₃, r₃, by simpa [h₄] using h₅⟩
  rw [LoopTest.keptBlock, ← r₅.isEmptyLeaf_eq hht hbt]
  split at h
  · next hleaf =>
    obtain ⟨g₆, h₆, h⟩ := Checked.bind_eq_ok.1 h
    exact ⟨g₅, g₆, hshed, h, .inl ⟨if_pos hleaf, h₆⟩⟩
  · next hleaf =>
    obtain ⟨st, hst, h⟩ := Checked.bind_eq_ok.1 h
    cases hparent : st.parent with
    | none =>
      rw [hparent] at h
      exact ⟨g₅, g₅, hshed, h, .inr (.inl ⟨rfl, st, hst, hparent⟩)⟩
    | some parent =>
      rw [hparent] at h
      simp only [Checked.bind_eq_ok, Checked.pure_eq_ok] at h
      obtain ⟨g₆, h₆, g₇, h₇, ⟨g₈, e⟩, h₈, _, rfl, h⟩ := h
      exact ⟨g₅, g₈, hshed, h, .inr (.inr ⟨g₇, e, if_neg hleaf, .child hst hparent h₆ h₇, h₈⟩)⟩

/-- A step at the end of the body: its leaf loses its first edge and is dropped, if it is empty
then. -/
theorem forForm_phases (h : g.forForm? loop options = .ok (some g')) :
    ∃ st body leaf lt, g.stat loop = .ok st ∧ st.first = some body ∧
      g.lastLeaf? body = .ok (some leaf) ∧ g.stat leaf = .ok lt ∧
      (Sheds loop [] g g' ∨
        ∃ g₁, Sheds loop lt.successors.head?.toList g g₁ ∧
          g₁.dropEmptyTail loop leaf = .ok g') := by
  obtain ⟨st, body, leaf, lt, step, init, hst, hfirst, hleaf, hlt, -, -, h, -⟩ := forForm?_eq_some h
  refine ⟨st, body, leaf, lt, hst, hfirst, hleaf, hlt, ?_⟩
  obtain ⟨f, cuts, g₁, e₁, r₁, h⟩ := SameEdges.toCounted h
  rcases dropEmptyLeaf_eq_ok h with rfl | ⟨lt₁, g₂, hlt₁, -, h₂, h⟩
  · exact .inl ⟨f, cuts, g', e₁, r₁, rfl⟩
  · have hsucc : lt₁.successors = lt.successors := by
      have hlists := e₁.lists .source leaf
      rwa [listed_of_stat hlt₁, listed_of_stat hlt] at hlists
    exact .inr ⟨g₂, ⟨f, cuts, g₁, e₁, r₁, hsucc ▸ h₂⟩, h⟩

/-! ## Rewrites -/

theorem inSync_whileNot {t : LoopTest} (hF : Forest g K) (hloop : g.InTree loop)
    (hbelow : TransGen g.ChildOf loop t.stat) (hs : Synced g detached)
    (h : g.whileNot loop t = .ok g') : g'.InSync := by
  obtain ⟨g₁, g₂, hshed, hlift, hstep⟩ := whileNot_eq_ok h
  obtain ⟨detached₂, s₂⟩ := inSync_iff.1 ((hshed.synced hs).liftExit (.inr (by simp)) hlift)
  obtain ⟨detached', s', -⟩ := hstep.retains_below s₂ hF
    (hshed.sameLinks.trans (sameTree_liftExit hlift).sameLinks) hloop hbelow nofun
  exact inSync_iff.2 ⟨detached', s'⟩

theorem inSync_whileGuard {t : LoopTest} {body : StatId} (hF : Forest g K) (hloop : g.InTree loop)
    (hbelow : TransGen g.ChildOf loop t.stat) (hbody : g.ChildOf t.stat body)
    (hs : Synced g detached) (h : g.whileGuard loop t body = .ok g') : g'.InSync := by
  obtain ⟨exitEdge, g₁, g₂, -, hshed, hlift, h⟩ := whileGuard_eq_ok h
  obtain ⟨detached₂, s₂⟩ := inSync_iff.1 ((hshed.synced hs).liftExit (.inr (by simp)) hlift)
  rcases h with ⟨rfl, -⟩ | ⟨g₃, g₄, breaks, hstep, hbreaks, hraise, h⟩
  · exact inSync_iff.2 ⟨_, s₂⟩
  · obtain ⟨detached₃, s₃, -⟩ := hstep.retains_below s₂ hF
      (hshed.sameLinks.trans (sameTree_liftExit hlift).sameLinks) hloop hbelow fun c hc =>
        Option.some.inj hc ▸ hbody
    have s₄ : Synced g₄ detached₃ := Checked.foldlM_keeps (Synced · detached₃) hraise s₃
      fun e he _ _ hb hstep =>
        hb.raiseClosure (s₃.not_detached_of_predecessorEdges hbreaks he) hstep
    exact inSync_iff.2 ⟨_, s₄.lowerBreaks h⟩

theorem inSync_doWhileTest {t : LoopTest} {leavesOnTrue : Bool} (hF : Forest g K)
    (hloop : g.InTree loop) (hbelow : TransGen g.ChildOf loop t.stat)
    (hhead : g.ChildOf t.stat t.headBlock) (hs : Synced g detached)
    (h : g.doWhileTest loop t leavesOnTrue = .ok g') : g'.InSync := by
  obtain ⟨htTree, htloop, htroot⟩ := hF.ne_of_below hloop hbelow
  obtain ⟨ht, hht⟩ := hF.exists_stat (htTree.child hhead)
  obtain ⟨g₁, g₂, hshed, hlift, h⟩ := doWhileTest_eq_ok hht h
  have s₁ := hshed.synced hs
  have hlinks := hshed.sameLinks
  have hexit : t.trailingExit leavesOnTrue ∈ [t.thenEdge, t.elseEdge] := by
    cases leavesOnTrue <;> simp [LoopTest.trailingExit]
  rcases h with ⟨-, h⟩ | ⟨rfl, -⟩ | ⟨g₃, e, -, hstep, h⟩
  · obtain ⟨detached₂, s₂, hsub⟩ := s₁.dropEmptyTail (hlinks.forest hF)
      (hlinks.inTree_iff.2 htTree) htroot htloop h
    exact s₂.liftExit (hsub _ (.inr hexit)) hlift
  · exact s₁.liftExit (.inr hexit) hlift
  · obtain ⟨detached₃, s₃, hsub⟩ := hstep.retains_below s₁ hF hlinks hloop hbelow fun c hc =>
      Option.some.inj hc ▸ hhead
    exact (s₃.addEdge h).liftExit (hsub _ (.inr hexit)) hlift

theorem inSync_forForm (hS : Shaped g K) (hloop : g.InTree loop) (hs : Synced g detached)
    (h : g.forForm? loop options = .ok (some g')) : g'.InSync := by
  obtain ⟨st, body, leaf, lt, hst, hfirst, hleaf, -, hshed | ⟨g₁, hshed, h⟩⟩ := forForm_phases h
  · exact inSync_iff.2 ⟨_, hshed.synced hs⟩
  · have hbelow : TransGen g.ChildOf loop leaf :=
      .head' (hS.entersChildren hloop loop body .refl ⟨st, hst, hfirst⟩) (within_lastLeafIn hleaf)
    obtain ⟨hleafTree, hne, hroot⟩ := hS.forest.ne_of_below hloop hbelow
    have hlinks := hshed.sameLinks
    obtain ⟨detached', s', -⟩ := (hshed.synced hs).dropEmptyTail (hlinks.forest hS.forest)
      (hlinks.inTree_iff.2 hleafTree) hroot hne h
    exact inSync_iff.2 ⟨_, s'⟩

theorem inSync_formOfWhile (hS : Shaped g K) (hloop : g.InTree loop) (hs : g.InSync)
    (h : g.formOfWhile? loop options = .ok (some g')) : g'.InSync := by
  obtain ⟨detached, hs⟩ := inSync_iff.1 hs
  rcases formOfWhile?_eq_some h with h | h
  · exact inSync_iff.2 ⟨_, hs.of_sameEdges (.forEachForm h)⟩
  · exact inSync_forForm hS hloop hs h

theorem inSync_whileForm (hS : Shaped g K) (hloop : g.InTree loop) (hs : g.InSync)
    (h : g.whileForm? loop = .ok (some g')) : g'.InSync := by
  obtain ⟨detached, hs⟩ := inSync_iff.1 hs
  obtain ⟨s, t, hleading, ht, h⟩ := whileForm?_eq_some h
  obtain ⟨rfl, st, b, bt, hst, hkind, hfirst, -, haccepts, hbody, -⟩ := loopTest?_eq_some ht
  have hbelow : TransGen g.ChildOf loop t.stat :=
    below_of_leading (hS.entersChildren hloop) hleading
  rcases h with ⟨-, h⟩ | ⟨body, hsome, h⟩
  · exact inSync_whileNot hS.forest hloop hbelow hs h
  · simp only [acceptsLeading, Bool.and_eq_true, decide_eq_true_eq] at haccepts
    obtain ⟨htTree, -⟩ := hS.forest.ne_of_below hloop hbelow
    have hmem := (mem_children_of_fits (hS.fits _ st htTree hst) hkind haccepts.2 hfirst).2
      (.inr (hbody.symm.trans hsome))
    exact inSync_whileGuard hS.forest hloop hbelow ⟨st, hst, hmem⟩ hs h

theorem inSync_doWhileForm (hS : Shaped g K) (hloop : g.InTree loop) (hs : g.InSync)
    (h : g.doWhileForm? loop = .ok (some g')) : g'.InSync := by
  obtain ⟨detached, hs⟩ := inSync_iff.1 hs
  obtain ⟨s, t, leavesOnTrue, htrailing, ht, -, h⟩ := doWhileForm?_eq_some h
  obtain ⟨rfl, st, b, bt, hst, -, hfirst, -⟩ := loopTest?_eq_some ht
  have hbelow : TransGen g.ChildOf loop t.stat :=
    below_of_trailing (hS.entersChildren hloop) htrailing
  have htTree := (hS.forest.ne_of_below hloop hbelow).1
  exact inSync_doWhileTest hS.forest hloop hbelow
    (hS.entersChildren htTree t.stat t.headBlock .refl ⟨st, hst, hfirst⟩) hs h

/-- One visit of a loop in the tree keeps the lists of edges. -/
theorem inSync_betterForm (hS : Shaped g K) (hs : g.InSync) (hloop : g.InTree loop)
    (h : g.betterForm? loop options = .ok (some g')) : g'.InSync := by
  obtain ⟨st, -, l, -, ⟨-, ⟨g₁, hwhile, hnext⟩ | hdo⟩ | ⟨-, hform⟩⟩ := betterForm?_cases h
  · have hs₁ := inSync_whileForm hS hloop hs hwhile
    rcases hnext with rfl | hform
    · exact hs₁
    · obtain ⟨t, kept, -, hat, hmoves⟩ := testMoves_whileForm hwhile
      obtain ⟨⟨K₁, hS₁, -⟩, hloop₁⟩ :=
        shaped_testMoves hS hloop (hat (hS.entersChildren hloop)) hmoves
      exact inSync_formOfWhile hS₁ hloop₁ hs₁ hform
  · exact inSync_doWhileForm hS hloop hs hdo
  · exact inSync_formOfWhile hS hloop hs hform

theorem inSync_recogniseLoops {n : ℕ} (hwf : g.WellFormed) (hs : g.InSync)
    (h : g.recogniseLoops options = .ok (g', n)) : g'.InSync := by
  have hS : Shaped g g.InTree := ⟨hwf.forest, fun _ _ hs hst => hwf.fits hs hst⟩
  obtain ⟨K', hS', hs'⟩ := recogniseIn_keeps (I := fun g K => Shaped g K ∧ g.InSync)
    (fun _ _ hI => hI.1.forest) (fun g g' K loop hI hloop hform => by
      obtain ⟨K', hS', hK'⟩ := shaped_betterForm hI.1 hloop hform
      exact ⟨K', ⟨hS', inSync_betterForm hI.1 hI.2 hloop hform⟩, hK'⟩) ⟨hS, hs⟩ h
  exact hs'

/-! ## All operations -/

/-- One operation on the edges or the statements of a graph. An edge is attached only if it is
detached, and led elsewhere or labelled only if it is attached. A statement may be replaced by any
other one, but not below itself, and loops are recognised in well-formed graphs. -/
inductive EdgeStep : Graph → Graph → Prop
  | addEdge {g g' : Graph} {edge : Edge} {e : EdgeId} (h : g.addEdge edge = .ok (g', e)) :
      EdgeStep g g'
  | detachEdge {g g' : Graph} {e : EdgeId} (h : g.detachEdge e = .ok g') : EdgeStep g g'
  | attachEdge {g g' : Graph} {e : EdgeId} (detached : ¬ g.Attached e)
      (h : g.attachEdge e = .ok g') : EdgeStep g g'
  | changeDestination {g g' : Graph} {e : EdgeId} {s : StatId} (attached : g.Attached e)
      (h : g.changeDestination e s = .ok g') : EdgeStep g g'
  | setClosure {g g' : Graph} {e : EdgeId} {s : StatId} (attached : g.Attached e)
      (h : g.setClosure s e = .ok g') : EdgeStep g g'
  | clearClosure {g g' : Graph} {e : EdgeId} (h : g.clearClosure e = .ok g') : EdgeStep g g'
  | replaceStat {g g' : Graph} {parent old new : StatId} (other : old ≠ new)
      (below : old ≠ parent) (h : g.replaceStat parent old new = .ok g') : EdgeStep g g'
  | removeStat {g g' : Graph} {s : StatId} (h : g.removeStat s = .ok g') : EdgeStep g g'
  | lowerBreaks {g g' : Graph} {s : StatId} (h : g.lowerBreaks s = .ok g') : EdgeStep g g'
  | recogniseLoops {g g' : Graph} {options : Options} {n : ℕ} (wellFormed : g.WellFormed)
      (h : g.recogniseLoops options = .ok (g', n)) : EdgeStep g g'

theorem inSync_of_step (hs : g.InSync) (h : EdgeStep g g') : g'.InSync := by
  obtain ⟨detached, hsync⟩ := inSync_iff.1 hs
  have hattached : ∀ {e}, g.Attached e → ¬ detached e := fun he => (hsync.attached_iff.1 he).1
  rw [inSync_iff]
  cases h with
  | addEdge h => exact ⟨_, hsync.addEdge h⟩
  | detachEdge h => exact ⟨_, hsync.detachEdge h⟩
  | @attachEdge e hd h =>
    have hd : detached e := by
      obtain ⟨edge, hedge, -⟩ := Checked.bind_eq_ok.1 h
      by_contra hnd
      exact hd (hsync.attached_iff.2 ⟨hnd, edge, hedge⟩)
    exact ⟨_, hsync.attachEdge hd h⟩
  | changeDestination he h => exact ⟨_, (hsync.changeDestination (hattached he) h).1⟩
  | setClosure he h => exact ⟨_, (hsync.setClosure (hattached he) h).1⟩
  | clearClosure h => exact ⟨_, (hsync.clearClosure h).1⟩
  | replaceStat hne hparent h => exact ⟨_, (hsync.replaceStat hne h).2 hparent⟩
  | removeStat h =>
    obtain ⟨detached', hsync', -⟩ := hsync.removeStat h
    exact ⟨_, hsync'⟩
  | lowerBreaks h => exact ⟨_, hsync.lowerBreaks h⟩
  | recogniseLoops hwf h => exact inSync_iff.1 (inSync_recogniseLoops hwf hs h)

/-- **Edge lists stay in sync** under any sequence of operations, and a statement that was replaced
by another one is left with no edge in any of its lists. -/
theorem edgeLists_inSync (hs : g.InSync) :
    (∀ g', ReflTransGen EdgeStep g g' → g'.InSync) ∧
      ∀ parent old new g', old ≠ new → g.replaceStat parent old new = .ok g' →
        Returns (g'.stat old) fun st =>
          st.successors = [] ∧ st.predecessors = [] ∧ st.labels = [] := by
  refine ⟨fun g' h => ?_, fun parent old new g' hne h => ?_⟩
  · induction h with
    | refl => exact hs
    | tail _ hstep ih => exact inSync_of_step ih hstep
  · obtain ⟨detached, hsync⟩ := inSync_iff.1 hs
    have hnil := (hsync.replaceStat hne h).1
    simp only [Graph.replaceStat, Checked.bind_eq_ok] at h
    obtain ⟨-, -, -, -, -, -, -, -, -, -, -, -, -, -, g₆, -, h₇⟩ := h
    obtain ⟨st, -, ht, -⟩ := stat_modifyStat h₇
    have hold : g'.stat old = .ok { st with labels := [] } := (ht old).trans (if_pos rfl)
    simp only [listed_of_stat hold] at hnil
    exact ⟨_, hold, hnil .source, hnil .destination, rfl⟩

theorem edgeLists_inSync_countingMethod :
    Returns (countingMethod.recogniseLoops .default) fun r => r.2 = 1 ∧ r.1.InSync ∧
      Returns (r.1.replaceStat ⟨4⟩ ⟨5⟩ ⟨8⟩) fun g' => g'.InSync ∧
        Returns (g'.stat ⟨5⟩) fun st =>
          st.successors = [] ∧ st.predecessors = [] ∧ st.labels = [] := by
  have hrun : Returns (countingMethod.recogniseLoops .default) fun r => r.2 = 1 ∧
      Returns (r.1.replaceStat ⟨4⟩ ⟨5⟩ ⟨8⟩) fun _ => True := by
    decide +kernel
  obtain ⟨r, hr, hcount, g', hg', -⟩ := hrun
  have hloops : EdgeStep countingMethod r.1 := .recogniseLoops (by decide +kernel) hr
  obtain ⟨hkept, -⟩ := edgeLists_inSync (g := countingMethod) (by decide +kernel)
  have hs := hkept r.1 (.single hloops)
  obtain ⟨-, hcleared⟩ := edgeLists_inSync hs
  exact ⟨r, hr, hcount, hs, g', hg',
    hkept g' (.tail (.single hloops) (.replaceStat (by decide) (by decide) hg')),
    hcleared _ _ _ g' (by decide) hg'⟩

/-- A method whose body is left by a jump that is relative to the body itself. -/
def jumpOutOfBody : Graph where
  stats := ⟨#[
    ⟨.exit, none, none, [], [], [], [⟨0⟩], []⟩,
    ⟨.root, none, some ⟨2⟩, [⟨2⟩], [], [], [], []⟩,
    ⟨.block [], some ⟨1⟩, none, [], [], [⟨0⟩], [], [⟨0⟩]⟩,
    ⟨.block [], none, none, [], [], [], [], []⟩]⟩
  edges := ⟨#[⟨.breakTo, ⟨2⟩, exit, some ⟨2⟩, true, true⟩]⟩
  exprs := .empty

/-- A statement that is replaced below itself becomes the closure of an edge that leaves it, and
then loses its labels. That every climb for a statement that is not there and every listing comes to
an end says that the ways up and down in the graph are finite. -/
theorem not_inSync_of_replaceStat_below_itself :
    jumpOutOfBody.WellFormed ∧ jumpOutOfBody.InSync ∧
      (∀ s ∈ jumpOutOfBody.stats.ids,
        Returns (jumpOutOfBody.containsStrict ⟨9⟩ s) (fun inside => inside = false) ∧
          Returns (jumpOutOfBody.postorder s) fun _ => True) ∧
      Returns (jumpOutOfBody.replaceStat ⟨2⟩ ⟨2⟩ ⟨3⟩) fun g' => ¬ g'.InSync := by
  decide +kernel

end Decompiler.Graph

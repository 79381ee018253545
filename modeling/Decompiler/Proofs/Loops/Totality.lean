import Decompiler.Proofs.Loops.Lookups
import Decompiler.Proofs.Loops.Phases

/-!
# Every match of a loop form comes to a result

On an intact graph each matcher either finds nothing or makes a rewrite, after which the graph is
intact again.

* `Graph.Intact.whileForm?`, `Graph.Intact.doWhileForm?`: the matchers of a test at one end of the
  body.
* `Graph.Intact.forForm?`, `Graph.Intact.forEachForm?`: the matchers of a `while` loop that steps
  something or takes elements.
* `Graph.Intact.betterForm?`: so a visit of a loop comes to a result.
-/

namespace Decompiler

theorem Stat.refit_roles {s : Stat} {f : Loop → Loop} {keep : ExprId → Bool} :
    (s.refit f keep).kind.roles = s.kind.roles := by
  obtain ⟨kind, parent, first, children, declarations, successors, predecessors, labels⟩ := s
  cases kind <;> rfl

theorem Stat.refit_edgesAt {s : Stat} {f : Loop → Loop} {keep : ExprId → Bool} (r : EdgeEnd) :
    (s.refit f keep).edgesAt r = s.edgesAt r := by
  obtain ⟨kind, parent, first, children, declarations, successors, predecessors, labels⟩ := s
  cases kind <;> cases r <;> rfl

namespace Graph

open Relation

variable {g : Graph} {loop leaf s c : StatId} {e : EdgeId} {x target source : ExprId} {st : Stat}
  {options : Options}

/-- What a matcher made of the graph, if anything, enlarges it. -/
def EnlargesTo (g : Graph) (r : Option Graph) : Prop := ∀ g', r = some g' → Enlarges g g'

theorem enlargesTo_none (g : Graph) : Returns (pure none) (EnlargesTo g) := Returns.pure_none

theorem enlargesTo_some {a : Checked Graph} (h : Returns a (Enlarges g)) :
    Returns (do return some (← a)) (EnlargesTo g) :=
  h.bind fun _ _ hx => Returns.pure_iff.2 fun _ hg' => Option.some.inj hg' ▸ hx

namespace Intact

variable (hI : g.Intact)

include hI

/-! ## Slots -/

theorem refit {f : Loop → Loop} (keep : ExprId → Bool) (hs : s ∈ g.stats.ids)
    (hf : ∀ st l, g.stat s = .ok st → st.loop? = some l →
      ∀ x ∈ (StatKind.loop (f l)).named, x ∈ g.exprs.ids) :
    Returns (g.modifyStat s (Stat.refit f keep)) (Enlarges g) := by
  obtain ⟨st, hst⟩ := exists_stat hs
  have hres := hI.stat s st hst
  refine hI.modifyStat hst ⟨fun t ht => ?_, fun r e he => ?_, fun x hx => ?_⟩ (fun c hc => ?_)
    fun p hp => ?_
  · rw [Stat.relatives, Stat.refit_parent, Stat.refit_children, Stat.refit_first,
      Stat.refit_roles] at ht
    exact hres.relatives t ht
  · exact hres.incident r e (Stat.refit_edgesAt r ▸ he)
  · rcases Stat.mem_refit_named hx with hx | ⟨l, hl, hx⟩
    · exact hres.named x hx
    · exact hf st l hst hl x hx
  · exact .inl (Stat.refit_children ▸ hc)
  · exact .inl (Stat.refit_parent ▸ hp)

/-- The slots of a loop are in use. -/
theorem slots (hst : g.stat s = .ok st) {l : Loop} (hl : st.loop? = some l) :
    ∀ x ∈ (StatKind.loop l).named, x ∈ g.exprs.ids := by
  have hnamed := (hI.stat s st hst).named
  rwa [Stat.loop?_eq_some.1 hl] at hnamed

theorem modifyLoop {f : Loop → Loop} (hloop : loop ∈ g.stats.ids)
    (hf : ∀ l, (∀ x ∈ (StatKind.loop l).named, x ∈ g.exprs.ids) →
      ∀ x ∈ (StatKind.loop (f l)).named, x ∈ g.exprs.ids) :
    Returns (g.modifyLoop loop f) (Enlarges g) := by
  rw [Graph.modifyLoop, Stat.mapLoop_eq_refit]
  exact hI.refit _ hloop fun st l hst hl => hf l (hI.slots hst hl)

theorem removeExpr (x : ExprId) (hleaf : leaf ∈ g.stats.ids) :
    Returns (g.removeExpr leaf x) (Enlarges g) := by
  rw [Graph.removeExpr, Stat.withExprs_eq_refit]
  exact hI.refit _ hleaf fun st l hst hl => hI.slots hst hl

theorem setKind (kind : LoopKind) (hloop : loop ∈ g.stats.ids) :
    Returns (g.setKind loop kind) (Enlarges g) :=
  hI.modifyLoop hloop fun _ hl => hl

/-- What a slot of a loop holds is in use. -/
theorem loop? (hs : s ∈ g.stats.ids) : Returns (g.loop? s) fun l =>
    ∀ x, l.bind Loop.init = some x ∨ l.bind Loop.condition = some x ∨ l.bind Loop.step = some x →
      x ∈ g.exprs.ids := by
  obtain ⟨st, hst⟩ := exists_stat hs
  refine ⟨st.loop?, loop?_eq_ok.2 ⟨st, hst, rfl⟩, fun x hx => ?_⟩
  cases hl : st.loop? with
  | none => simp [hl] at hx
  | some l =>
    refine hI.slots hst hl x ?_
    simpa [hl, StatKind.named, or_assoc] using hx

theorem setCondition {condition head : ExprId} (hloop : loop ∈ g.stats.ids)
    (hcondition : condition ∈ g.exprs.ids) (hhead : head ∈ g.exprs.ids) :
    Returns (g.setCondition loop condition head) (Enlarges g) := by
  refine (hI.loop? hloop).bind fun slots _ hslots => ?_
  refine Enlarges.bind (hI.absorb? hcondition fun x hx => hslots x (.inr (.inl hx)))
    fun g₁ _ x₁ => ?_
  obtain ⟨n, hn⟩ := exists_node (x₁.exprs hhead)
  have hoffsets : g₁.offsets head = .ok n.offsets := by simp [Graph.offsets, hn]
  simp only [hoffsets, Checked.ok_bind]
  refine Enlarges.bind (x₁.intact.addOffsets n.offsets (x₁.exprs hcondition)) fun g₂ _ x₂ => ?_
  have x := x₁.trans x₂
  refine x₂.intact.modifyLoop (x.stats loop hloop) fun l hl y hy => ?_
  simp only [StatKind.named, List.mem_append, Option.mem_toList, Option.some.injEq] at hl hy
  rcases hy with (hy | rfl) | hy
  · exact hl y (.inl (.inl hy))
  · exact x.exprs hcondition
  · exact hl y (.inr hy)

theorem moveToSlot {old : Option ExprId} {fill : Loop → Loop} (hloop : loop ∈ g.stats.ids)
    (hleaf : leaf ∈ g.stats.ids) (hx : x ∈ g.exprs.ids)
    (hold : ∀ y, old = some y → y ∈ g.exprs.ids)
    (hfill : ∀ l, ∀ y ∈ (StatKind.loop (fill l)).named, y ∈ (StatKind.loop l).named ∨ y = x) :
    Returns (g.moveToSlot loop leaf x old fill) (Enlarges g) := by
  refine Enlarges.bind (hI.removeExpr x hleaf) fun g₁ _ x₁ => Enlarges.bind
    (x₁.intact.absorb? (x₁.exprs hx) fun y hy => x₁.exprs (hold y hy)) fun g₂ _ x₂ => ?_
  have x := x₁.trans x₂
  refine x₂.intact.modifyLoop (x.stats loop hloop) fun l hl y hy => ?_
  rcases hfill l y hy with hy | rfl
  · exact hl y hy
  · exact x.exprs hx

theorem toForEach {element : ExprId} (hloop : loop ∈ g.stats.ids) (helement : element ∈ g.exprs.ids)
    (hsource : source ∈ g.exprs.ids) :
    Returns (g.toForEach loop element source) (Enlarges g) := by
  refine (hI.loop? hloop).bind fun slots _ hslots => ?_
  refine Enlarges.bind (hI.absorb? helement fun y hy => hslots y (.inl hy)) fun g₁ _ x₁ => ?_
  refine Enlarges.bind (x₁.intact.absorb? (x₁.exprs hsource) fun y hy =>
    x₁.exprs (hslots y (.inr (.inr hy)))) fun g₂ _ x₂ => ?_
  have x := x₁.trans x₂
  refine Enlarges.bind (x₂.intact.absorb? (x.exprs helement) fun y hy =>
    x.exprs (hslots y (.inr (.inl hy)))) fun g₃ _ x₃ => ?_
  have x := x.trans x₃
  refine x₃.intact.modifyLoop (x.stats loop hloop) fun l _ y hy => ?_
  simp only [StatKind.named, Option.toList_some, Option.toList_none, List.append_nil,
    List.mem_append, List.mem_singleton] at hy
  rcases hy with rfl | rfl
  · exact x.exprs helement
  · exact x.exprs hsource

/-! ## Exits and leaves -/

theorem liftExit (hloop : loop ∈ g.stats.ids) (he : e ∈ g.edges.ids) :
    Returns (g.liftExit loop e) (Enlarges g) := by
  obtain ⟨st, hst⟩ := exists_stat hloop
  simp only [Graph.liftExit, hst, Checked.ok_bind]
  split
  · exact Returns.pure_iff.2 (.refl hI)
  · refine Enlarges.bind (hI.modifyEdge he fun edge hedge r t ht => ?_) fun g₁ _ x₁ =>
      x₁.intact.attachEdge (x₁.edges e he)
    cases r with
    | source => exact Option.some.inj ht ▸ hloop
    | destination => exact hI.edge e edge hedge .destination t ht
    | closure =>
      simp only [Edge.statAt] at ht
      split at ht
      · exact (hI.stat loop st hst).relatives t (Stat.mem_relatives_of_parent ht)
      · exact hI.edge e edge hedge .closure t ht

theorem raiseClosure (hloop : loop ∈ g.stats.ids) (he : e ∈ g.edges.ids) :
    Returns (Graph.raiseClosure loop g e) (Enlarges g) := by
  obtain ⟨edge, hedge⟩ := exists_edge he
  simp only [Graph.raiseClosure, hedge, Checked.ok_bind]
  split
  swap
  · exact Returns.pure_iff.2 (.refl hI)
  next closure hclosure =>
  refine (hI.containsStrict loop (hI.edge e edge hedge .closure closure hclosure)).bind
    fun inside _ _ => ?_
  split
  · exact hI.setClosure hloop he
  · exact Returns.pure_iff.2 (.refl hI)

theorem continueLoop (hloop : loop ∈ g.stats.ids) (he : e ∈ g.edges.ids) :
    Returns (Graph.continueLoop loop g e) (Enlarges g) := by
  refine Enlarges.bind (hI.changeKind he .continueTo) fun g₁ _ x₁ => Enlarges.bind
    (x₁.intact.changeDestination (x₁.edges e he) (x₁.stats loop hloop)) fun g₂ _ x₂ => ?_
  have x := x₁.trans x₂
  exact x₂.intact.setClosure (x.stats loop hloop) (x.edges e he)

theorem dropEmptyTail {empty : StatId} (hloop : loop ∈ g.stats.ids)
    (hempty : empty ∈ g.stats.ids) : Returns (g.dropEmptyTail loop empty) (Enlarges g) := by
  obtain ⟨st, hst⟩ := exists_stat hloop
  simp only [Graph.dropEmptyTail, hst, Checked.ok_bind]
  split
  · exact Enlarges.bind_pair (hI.block (List.forall_mem_nil _)) fun r h₁ x₁ hr =>
      hI.replaceByLeaf hloop hempty h₁ x₁ hr.1 hr.2
  · obtain ⟨et, het⟩ := exists_stat hempty
    have hpred := (hI.stat empty et het).incident .destination
    simp only [het, Checked.ok_bind]
    exact Enlarges.bind (Enlarges.foldlM hI fun e he g₁ x₁ =>
      x₁.intact.continueLoop (x₁.stats loop hloop) (x₁.edges e (hpred e he))) fun g₁ _ x₁ =>
        x₁.intact.removeStat (x₁.stats empty hempty)

theorem dropEmptyLeaf (hloop : loop ∈ g.stats.ids) (hleaf : leaf ∈ g.stats.ids) :
    Returns (g.dropEmptyLeaf loop leaf) (Enlarges g) := by
  obtain ⟨lt, hlt⟩ := exists_stat hleaf
  have hsucc := (hI.stat leaf lt hlt).incident .source
  simp only [Graph.dropEmptyLeaf, hlt, Checked.ok_bind]
  split
  swap
  · exact Returns.pure_iff.2 (.refl hI)
  split
  · next e rest hcons =>
    refine Enlarges.bind (hI.detachEdge (hsucc e (by simp [Stat.edgesAt, hcons]))) fun g₁ _ x₁ =>
      x₁.intact.dropEmptyTail (x₁.stats loop hloop) (x₁.stats leaf hleaf)
  · exact hI.dropEmptyTail hloop hleaf

/-! ## Tests at the ends of the body -/

theorem whileNot {t : LoopTest} (hloop : loop ∈ g.stats.ids) (ht : g.KnownTest t) :
    Returns (g.whileNot loop t) (Enlarges g) := by
  refine Enlarges.bind (hI.setKind .whileDo hloop) fun g₁ _ x₁ => Enlarges.bind_pair
    (x₁.intact.negate (ht.enlarges x₁).condition) fun ⟨g₂, condition⟩ _ x₂ hcondition => ?_
  have x := x₁.trans x₂
  refine Enlarges.bind (x₂.intact.setCondition (x.stats loop hloop) hcondition (ht.enlarges x).head)
    fun g₃ _ x₃ => ?_
  have x := x.trans x₃
  refine Enlarges.bind (x₃.intact.detachEdge (ht.enlarges x).thenEdge) fun g₄ _ x₄ => ?_
  have x := x.trans x₄
  refine Enlarges.bind (x₄.intact.detachEdge (ht.enlarges x).elseEdge) fun g₅ _ x₅ => ?_
  have x := x.trans x₅
  refine Enlarges.bind (x₅.intact.liftExit (x.stats loop hloop) (ht.enlarges x).thenEdge)
    fun g₆ _ x₆ => ?_
  have x := x.trans x₆
  have hloop := x.stats loop hloop
  obtain ⟨lt, hlt⟩ := exists_stat hloop
  simp only [hlt, Checked.ok_bind]
  split
  · exact Enlarges.bind_pair (x₆.intact.block (List.forall_mem_nil _))
      fun _ h₇ x₇ hb => x₆.intact.replaceByLeaf hloop (ht.enlarges x).stat h₇ x₇ hb.1 hb.2
  · exact x₆.intact.removeStat (ht.enlarges x).stat

end Intact

/-- A child that may take the place of its parent: the two know of each other, and so does what
lists the parent. -/
structure Liftable (g : Graph) (old c : StatId) : Prop where
  /-- It is listed. -/
  child : g.ChildOf old c
  /-- It names its parent. -/
  parent : g.ParentOf c old
  /-- The parent is listed by what it names. -/
  place : ∀ p, g.ParentOf old p → g.ChildOf p old

theorem ParentOf.congr {g' : Graph} {p : StatId} (h : SameLinks g g') (hp : g.ParentOf s p) :
    g'.ParentOf s p := by
  obtain ⟨st, hst, hp⟩ := hp
  obtain ⟨st', hst', hparent, -⟩ := links_eq_ok ((h s).trans (links_of_stat hst))
  exact ⟨st', hst', hparent.trans hp⟩

theorem Liftable.congr {g' : Graph} {old : StatId} (h : g.Liftable old c)
    (hlinks : SameLinks g g') :
    g'.Liftable old c := by
  refine ⟨?_, h.parent.congr hlinks, fun p hp => ?_⟩
  · rw [hlinks.childOf_eq]
    exact h.child
  · rw [hlinks.childOf_eq]
    exact h.place p (hp.congr hlinks.symm)

theorem Forest.liftable {K : StatId → Prop} {old : StatId} (hF : Forest g K) (hold : g.InTree old)
    (hc : g.ChildOf old c) : g.Liftable old c where
  child := hc
  parent := (hF.down old c (hF.mem hold) hc).2
  place p hp := by
    obtain ⟨st, hst, hp⟩ := hp
    exact (hF.inTree_parent hold hst hp).2

namespace Intact

variable (hI : g.Intact)

include hI

theorem whileGuard {t : LoopTest} {body : StatId} (hloop : loop ∈ g.stats.ids)
    (ht : g.KnownTest t) (hbody : g.Liftable t.stat body) :
    Returns (g.whileGuard loop t body) (Enlarges g) := by
  obtain ⟨out, hout⟩ := exists_edge ht.elseEdge
  simp only [Graph.whileGuard, hout, Checked.ok_bind]
  refine Enlarges.bind (hI.setKind .whileDo hloop) fun g₁ h₁ x₁ => ?_
  refine Enlarges.bind (x₁.intact.setCondition (x₁.stats loop hloop) (ht.enlarges x₁).condition
    (ht.enlarges x₁).head) fun g₂ h₂ x₂ => ?_
  have x := x₁.trans x₂
  refine Enlarges.bind (x₂.intact.detachEdge (ht.enlarges x).thenEdge) fun g₃ h₃ x₃ => ?_
  have x := x.trans x₃
  refine Enlarges.bind (x₃.intact.detachEdge (ht.enlarges x).elseEdge) fun g₄ h₄ x₄ => ?_
  have x := x.trans x₄
  refine Enlarges.bind (x₄.intact.liftExit (x.stats loop hloop) (ht.enlarges x).elseEdge)
    fun g₅ h₅ x₅ => ?_
  have x := x.trans x₅
  have hlinks : SameLinks g g₅ := (refits_setKind h₁).sameLinks.trans <|
    (refits_setCondition h₂).1.sameLinks.trans <| (sameTree_detachEdge h₃).sameLinks.trans <|
      (sameTree_detachEdge h₄).sameLinks.trans (sameTree_liftExit h₅).sameLinks
  have hbody := hbody.congr hlinks
  obtain ⟨tt, htt⟩ := exists_stat (ht.enlarges x).stat
  simp only [htt, Checked.ok_bind]
  split
  swap
  · exact Returns.pure_iff.2 (.refl x₅.intact)
  next parent hparent =>
  have hplace : g₅.ParentOf t.stat parent := ⟨tt, htt, hparent⟩
  obtain ⟨bt, hbt, -⟩ := hbody.parent
  refine Enlarges.bind (x₅.intact.removeChild (ht.enlarges x).stat (mem_stats_ids hbt))
    fun g₆ h₆ x₆ => Enlarges.bind (x₅.intact.replaceByChild h₆ x₆ hbody.child hbody.parent hplace
      (hbody.place parent hplace)) fun g₇ _ x₇ => ?_
  have x := (x.trans x₆).trans x₇
  have hdest : out.destination ∈ g₇.stats.ids :=
    x.stats _ (hI.edge t.elseEdge out hout .destination _ rfl)
  refine (x₇.intact.predecessorEdges [.breakTo] hdest).bind fun breaks _ hbreaks => ?_
  exact Enlarges.bind (Enlarges.foldlM x₇.intact fun e he g₈ x₈ =>
    x₈.intact.raiseClosure ((x.trans x₈).stats loop hloop) (x₈.edges e (hbreaks e he)))
    fun g₈ _ x₈ => x₈.intact.lowerBreaks ((x.trans x₈).stats loop hloop)

theorem whileForm? {K : StatId → Prop} (hF : Forest g K)
    (hfits : ∀ s st, g.InTree s → g.stat s = .ok st → st.Fits) (hloop : g.InTree loop) :
    Returns (g.whileForm? loop) (EnlargesTo g) := by
  obtain ⟨lt, hlt⟩ := hF.exists_stat hloop
  have hmem := mem_stats_ids hlt
  have henters := entersChildren_of_fits hfits hloop
  refine (hI.leading? henters hmem).bind fun r hr _ => ?_
  obtain _ | s := r
  · exact Returns.pure_none
  have hbelow := below_of_leading henters hr
  obtain ⟨hs, -⟩ := hF.ne_of_below hloop hbelow
  obtain ⟨st, hst⟩ := hF.exists_stat hs
  refine (hI.loopTest? _ (mem_stats_ids hst)).bind fun r hr ht => ?_
  obtain _ | t := r
  · exact Returns.pure_none
  have ht := ht t rfl
  obtain ⟨rfl, st', b, -, hst', hkind, -, -, -, hbody, -⟩ := loopTest?_eq_some hr
  rw [hst] at hst'
  cases hst'
  cases hbranch : t.body with
  | none =>
    obtain ⟨edge, hedge⟩ := exists_edge ht.thenEdge
    simp only [hbranch, hedge, Checked.ok_bind]
    refine (hI.fallsInto edge.destination hmem).bind fun falls _ _ => ?_
    split
    · exact enlargesTo_some (hI.whileNot hmem ht)
    · exact enlargesTo_none g
  | some body =>
    obtain ⟨edge, hedge⟩ := exists_edge ht.elseEdge
    simp only [hbranch, hedge, Checked.ok_bind]
    refine (hI.fallsInto edge.destination hmem).bind fun falls _ _ => ?_
    split
    · have hchild : g.ChildOf t.stat body := by
        refine ⟨st, hst, (hfits _ st hs hst).holdsRoles.branches body ?_⟩
        rw [hkind, StatKind.branches, ← hbody, hbranch]
        simp
      exact enlargesTo_some (hI.whileGuard hmem ht (hF.liftable hs hchild))
    · exact enlargesTo_none g

theorem doWhileTest {t : LoopTest} (leavesOnTrue : Bool) (hloop : loop ∈ g.stats.ids)
    (ht : g.KnownTest t) (hblock : g.Liftable t.stat t.headBlock) :
    Returns (g.doWhileTest loop t leavesOnTrue) (Enlarges g) := by
  refine Enlarges.bind (hI.setKind .doWhile hloop) fun g₁ h₁ x₁ => ?_
  have hturn : Returns (if leavesOnTrue then g₁.negate t.condition else pure (g₁, t.condition))
      fun r => Enlarges g₁ r.1 ∧ r.2 ∈ r.1.exprs.ids := by
    split
    · exact x₁.intact.negate (ht.enlarges x₁).condition
    · exact Returns.pure_iff.2 ⟨.refl x₁.intact, (ht.enlarges x₁).condition⟩
  rw [Checked.ite_bind]
  refine Enlarges.bind_pair hturn fun ⟨g₂, condition⟩ h₂ x₂ hcondition => ?_
  have x := x₁.trans x₂
  refine Enlarges.bind (x₂.intact.setCondition (x.stats loop hloop) hcondition (ht.enlarges x).head)
    fun g₃ h₃ x₃ => ?_
  have x := x.trans x₃
  refine Enlarges.bind (x₃.intact.detachEdge (ht.enlarges x).thenEdge) fun g₄ h₄ x₄ => ?_
  have x := x.trans x₄
  refine Enlarges.bind (x₄.intact.detachEdge (ht.enlarges x).elseEdge) fun g₅ h₅ x₅ => ?_
  have x := x.trans x₅
  have hlift : ∀ g₆, Enlarges g₅ g₆ → Returns
      (g₆.liftExit loop (if leavesOnTrue then t.thenEdge else t.elseEdge)) (Enlarges g₆) := by
    intro g₆ x₆
    refine x₆.intact.liftExit ((x.trans x₆).stats loop hloop) ?_
    split
    · exact (ht.enlarges (x.trans x₆)).thenEdge
    · exact (ht.enlarges (x.trans x₆)).elseEdge
  obtain ⟨bt, hbt⟩ := exists_stat (ht.enlarges x).headBlock
  simp only [hbt, Checked.ok_bind]
  split
  · exact Enlarges.bind (x₅.intact.dropEmptyTail (x.stats loop hloop) (ht.enlarges x).stat)
      fun g₆ _ x₆ => hlift g₆ x₆
  obtain ⟨tt, htt⟩ := exists_stat (ht.enlarges x).stat
  simp only [htt, Checked.ok_bind]
  split
  · exact hlift g₅ (.refl x₅.intact)
  next parent hparent =>
  have hturned : SameLinks g₁ g₂ := by
    split at h₂
    · exact (refits_negate loop h₂).sameLinks
    · cases h₂
      exact .refl g₁
  have hlinks : SameLinks g g₅ := (refits_setKind h₁).sameLinks.trans <| hturned.trans <|
    (refits_setCondition h₃).1.sameLinks.trans <| (sameTree_detachEdge h₄).sameLinks.trans
      (sameTree_detachEdge h₅).sameLinks
  have hblock := hblock.congr hlinks
  have hplace : g₅.ParentOf t.stat parent := ⟨tt, htt, hparent⟩
  refine Enlarges.bind (x₅.intact.removeChild (ht.enlarges x).stat (ht.enlarges x).headBlock)
    fun g₆ h₆ x₆ => Enlarges.bind (x₅.intact.replaceByChild h₆ x₆ hblock.child hblock.parent hplace
      (hblock.place parent hplace)) fun g₇ _ x₇ => ?_
  have x' := x.trans (x₆.trans x₇)
  refine Enlarges.bind_pair (P := fun _ => True) ((x₇.intact.addEdge fun r s hs => ?_).mono
    fun _ h => ⟨h, trivial⟩) fun ⟨g₈, _⟩ _ x₈ _ => hlift g₈ ((x₆.trans x₇).trans x₈)
  cases r with
  | source => exact Option.some.inj hs ▸ (ht.enlarges x').headBlock
  | destination => exact Option.some.inj hs ▸ x'.stats loop hloop
  | closure => exact Option.some.inj hs ▸ x'.stats loop hloop

theorem doWhileForm? {K : StatId → Prop} (hF : Forest g K)
    (hfits : ∀ s st, g.InTree s → g.stat s = .ok st → st.Fits) (hloop : g.InTree loop) :
    Returns (g.doWhileForm? loop) (EnlargesTo g) := by
  obtain ⟨lt, hlt⟩ := hF.exists_stat hloop
  have hmem := mem_stats_ids hlt
  have henters := entersChildren_of_fits hfits hloop
  refine (hI.trailing? henters hmem).bind fun r hr _ => ?_
  obtain _ | s := r
  · exact enlargesTo_none g
  have hbelow := below_of_trailing henters hr
  obtain ⟨hs, -⟩ := hF.ne_of_below hloop hbelow
  obtain ⟨st, hst⟩ := hF.exists_stat hs
  refine (hI.loopTest? _ (mem_stats_ids hst)).bind fun r hr ht => ?_
  obtain _ | t := r
  · exact enlargesTo_none g
  have ht := ht t rfl
  obtain ⟨rfl, st', -, -, hst', -, hfirst, -⟩ := loopTest?_eq_some hr
  have hchild : g.ChildOf t.stat t.headBlock :=
    entersChildren_of_fits hfits hs t.stat t.headBlock .refl ⟨st', hst', hfirst⟩
  refine (hI.leavesOrContinues hmem ht.thenEdge ht.elseEdge).bind fun onTrue _ _ =>
    (hI.leavesOrContinues hmem ht.elseEdge ht.thenEdge).bind fun onFalse _ _ => ?_
  split
  · exact enlargesTo_none g
  refine (hI.neighbours _ .backward hmem).bind fun continues _ _ => ?_
  split
  · exact enlargesTo_none g
  · exact enlargesTo_some (hI.doWhileTest onTrue hmem ht (hF.liftable hs hchild))

/-! ## Loops that step something -/

theorem toCounted {step : ExprId} {init : Option (StatId × ExprId)} (hloop : loop ∈ g.stats.ids)
    (hleaf : leaf ∈ g.stats.ids) (hstep : step ∈ g.exprs.ids)
    (hinit : ∀ p, init = some p → p.1 ∈ g.stats.ids ∧ p.2 ∈ g.exprs.ids) :
    Returns (g.toCounted loop leaf step init) (Enlarges g) := by
  refine Enlarges.bind (hI.setKind .counted hloop) fun g₁ _ x₁ => ?_
  refine (x₁.intact.loop? (x₁.stats loop hloop)).bind fun slots _ hslots => ?_
  have hrest : ∀ g₂, Enlarges g₁ g₂ → Returns (do
      let g ← g₂.moveToSlot loop leaf step (slots.bind Loop.step) fun l =>
        { l with step := some step }
      g.dropEmptyLeaf loop leaf) (Enlarges g₂) := by
    intro g₂ x₂
    have x := x₁.trans x₂
    refine Enlarges.bind (x₂.intact.moveToSlot (x.stats loop hloop) (x.stats leaf hleaf)
      (x.exprs hstep) (fun y hy => x₂.exprs (hslots y (.inr (.inr hy)))) fun l y hy => ?_)
      fun g₃ _ x₃ => x₃.intact.dropEmptyLeaf ((x.trans x₃).stats loop hloop)
        ((x.trans x₃).stats leaf hleaf)
    simp only [StatKind.named, List.mem_append, Option.mem_toList, Option.some.injEq] at hy ⊢
    grind
  obtain _ | ⟨before, init⟩ := init
  · exact hrest g₁ (.refl x₁.intact)
  · obtain ⟨hbefore, hinit⟩ := hinit (before, init) rfl
    refine Enlarges.bind (x₁.intact.moveToSlot (x₁.stats loop hloop) (x₁.stats before hbefore)
      (x₁.exprs hinit) (fun y hy => hslots y (.inl hy)) fun l y hy => ?_)
      fun g₂ _ x₂ => hrest g₂ x₂
    simp only [StatKind.named, List.mem_append, Option.mem_toList, Option.some.injEq] at hy ⊢
    grind

theorem forForm? (options : Options) (hloop : loop ∈ g.stats.ids) :
    Returns (g.forForm? loop options) (EnlargesTo g) := by
  obtain ⟨st, hst⟩ := exists_stat hloop
  simp only [Graph.forForm?, hst, Checked.ok_bind]
  cases hfirst : st.first with
  | none => exact enlargesTo_none g
  | some body =>
    have hbody := (hI.stat loop st hst).relatives body
      (Stat.mem_relatives_of_first hfirst)
    refine (hI.lastLeaf? hbody).bind fun r _ hr => ?_
    obtain _ | leaf := r
    · exact enlargesTo_none g
    have hleaf := hr leaf rfl
    obtain ⟨lt, hlt⟩ := exists_stat hleaf
    simp only [hlt, Checked.ok_bind]
    cases hlast : (lt.exprs?.getD []).getLast? with
    | none => exact enlargesTo_none g
    | some step =>
      have hstep : step ∈ g.exprs.ids := by
        refine (hI.stat leaf lt hlt).named step ?_
        cases hexprs : lt.exprs? with
        | none => simp [hexprs] at hlast
        | some exprs =>
          rw [Stat.exprs?_eq_some.1 hexprs]
          rw [hexprs] at hlast
          exact List.mem_of_getLast? hlast
      have hasStep : ∀ p : Prop, [Decidable p] →
          Returns (if p then pure true else Expr.isStep <$> g.expr step) fun _ => True := by
        intro p _
        split
        · exact Returns.pure_iff.2 trivial
        · obtain ⟨y, hy, -⟩ := hI.expr hstep
          exact ⟨y.isStep, by rw [hy]; rfl, trivial⟩
      simp only
      rw [Checked.ite_bind]
      refine (hasStep _).bind fun isStep _ _ => ?_
      split
      · exact enlargesTo_none g
      refine (hI.initBefore? hloop).bind fun init _ hinit => ?_
      split
      · exact enlargesTo_none g
      refine (hI.neighbours _ .backward hloop).bind fun continues _ _ => ?_
      split
      · exact enlargesTo_none g
      · exact enlargesTo_some (hI.toCounted hloop hleaf hstep hinit)

end Intact

/-! ## Loops over elements -/

/-- The parts of a loop that may run over elements are in use. -/
structure KnownElements (g : Graph) (m : ElementLoop) : Prop where
  loop : m.loop ∈ g.stats.ids
  before : m.before ∈ g.stats.ids
  init : ∀ x, m.init = some x → x ∈ g.exprs.ids
  init2 : ∀ x, m.init2 = some x → x ∈ g.exprs.ids
  init3 : ∀ x, m.init3 = some x → x ∈ g.exprs.ids
  first : m.first ∈ g.stats.ids
  fetch : m.fetch ∈ g.exprs.ids
  last : ∀ p, m.last = some p → p.1 ∈ g.stats.ids ∧ p.2 ∈ g.exprs.ids

namespace Intact

variable (hI : g.Intact)

include hI

theorem elementLoop? (hloop : loop ∈ g.stats.ids) :
    Returns (g.elementLoop? loop) fun r => ∀ m, r = some m → g.KnownElements m := by
  obtain ⟨st, hst⟩ := exists_stat hloop
  simp only [Graph.elementLoop?, hst, Checked.ok_bind]
  cases st.loop? with
  | none => exact Returns.pure_none
  | some l =>
    simp only
    split
    · exact Returns.pure_none
    refine (hI.leafBefore? false hloop).bind fun r _ hr => ?_
    obtain _ | before := r
    · exact Returns.pure_none
    have hbefore := hr before rfl
    obtain ⟨bt, hbt⟩ := exists_stat hbefore
    simp only [hbt, Checked.ok_bind]
    cases hexprs : bt.exprs? with
    | none => exact Returns.pure_none
    | some exprs =>
      have hmem : ∀ (i : ℕ) (x : ExprId), exprs.reverse[i]? = some x → x ∈ g.exprs.ids := by
        intro i x hx
        refine (hI.stat before bt hbt).named x ?_
        rw [Stat.exprs?_eq_some.1 hexprs]
        exact List.mem_reverse.1 (List.mem_of_getElem? hx)
      refine (hI.assignment? (hmem 0)).bind fun init _ hinit =>
        (hI.assignment? (hmem 1)).bind fun init2 _ hinit2 =>
          (hI.assignment? (hmem 2)).bind fun init3 _ hinit3 => ?_
      cases hfirst : st.first with
      | none => exact Returns.pure_none
      | some body =>
        have hbody := (hI.stat loop st hst).relatives body
          (Stat.mem_relatives_of_first hfirst)
        refine (hI.firstLeaf? hbody).bind fun r _ hr => ?_
        obtain _ | first := r
        · exact Returns.pure_none
        have hfirst := hr first rfl
        obtain ⟨ft, hft⟩ := exists_stat hfirst
        simp only [hft, Checked.ok_bind]
        cases hhead : ft.exprs?.bind List.head? with
        | none => exact Returns.pure_none
        | some fetch =>
          have hfetch : fetch ∈ g.exprs.ids := by
            obtain ⟨exprs, hexprs, hx⟩ := Option.bind_eq_some_iff.1 hhead
            refine (hI.stat first ft hft).named fetch ?_
            rw [Stat.exprs?_eq_some.1 hexprs]
            exact List.mem_of_head? hx
          refine (hI.assign? hfetch).bind fun r _ _ => ?_
          obtain _ | assigned := r
          · exact Returns.pure_none
          refine (hI.lastOf? hbody).bind fun last _ hlast => Returns.pure_iff.2 fun m hm => ?_
          cases hm
          exact ⟨hloop, hbefore, hinit, hinit2, hinit3, hfirst, hfetch, hlast⟩

theorem overCollection? {m : ElementLoop} {init : ExprId} (hm : g.KnownElements m)
    (hinit : init ∈ g.exprs.ids) : Returns (g.overCollection? m init) (EnlargesTo g) := by
  refine (hI.loop? hm.loop).bind fun slots _ hslots => ?_
  cases hcondition : slots.bind Loop.condition with
  | none => exact enlargesTo_none g
  | some condition =>
    have hcondition := hslots condition (.inr (.inl hcondition))
    refine (hI.tested hcondition).bind fun hasNext _ hhasNext =>
      (hI.isCall _ _ _ hhasNext).bind fun more _ _ => ?_
    split
    · exact enlargesTo_none g
    refine (hI.assign? hm.fetch).bind fun r _ hr => ?_
    obtain _ | ⟨element, next⟩ := r
    · exact enlargesTo_none g
    obtain ⟨helement, hnext⟩ := hr element next rfl
    refine (hI.isCall _ _ _ hnext).bind fun takes _ _ => ?_
    split
    · exact enlargesTo_none g
    refine (hI.var? helement).bind fun var _ _ => ?_
    split
    · exact enlargesTo_none g
    refine (hI.assign? hinit).bind fun r _ hr => ?_
    obtain _ | ⟨holder, iterator⟩ := r
    · exact enlargesTo_none g
    obtain ⟨hholder, hiterator⟩ := hr holder iterator rfl
    -- the receivers of the three calls
    refine (hI.call? hnext).bind fun nextCall _ hnextCall => ?_
    cases hnextOn : nextCall.bind Call.receiver with
    | none => exact enlargesTo_none g
    | some nextOn =>
      refine (hI.call? hhasNext).bind fun moreCall _ hmoreCall => ?_
      cases hmoreOn : moreCall.bind Call.receiver with
      | none => exact enlargesTo_none g
      | some moreOn =>
        refine (hI.call? hiterator).bind fun sourceCall _ hsourceCall => ?_
        cases hsourceOn : sourceCall.bind Call.receiver with
        | none => exact enlargesTo_none g
        | some source =>
          refine (hI.sameLocal hholder (hnextCall nextOn hnextOn)).bind fun same _ _ => ?_
          split
          · exact enlargesTo_none g
          refine (hI.sameLocal hholder (hmoreCall moreOn hmoreOn)).bind fun same _ _ => ?_
          split
          · exact enlargesTo_none g
          refine (hI.isUsed _ hholder hm.loop).bind fun used _ _ => ?_
          split
          · exact enlargesTo_none g
          have hsource := hsourceCall source hsourceOn
          refine (hI.absorb hsource hinit).bind fun g₁ _ x₁ => ?_
          refine (x₁.intact.absorb (x₁.exprs helement) (x₁.exprs hm.fetch)).bind fun g₂ _ x₂ => ?_
          have x := x₁.trans x₂
          refine (x₂.intact.toForEach (x.stats _ hm.loop) (x.exprs helement) (x.exprs hsource)).bind
            fun g₃ _ x₃ => ?_
          have x := x.trans x₃
          refine (x₃.intact.removeExpr init (x.stats _ hm.before)).bind fun g₄ _ x₄ => ?_
          have x := x.trans x₄
          refine (x₄.intact.removeExpr m.fetch (x.stats _ hm.first)).bind fun g₅ _ x₅ => ?_
          exact Returns.pure_iff.2 fun g' hg' => Option.some.inj hg' ▸ x.trans x₅

end Intact

/-- The parts of a loop over an array are in use. -/
structure KnownArray (g : Graph) (a : ArrayLoop) : Prop where
  counterInit : a.counterInit ∈ g.exprs.ids
  lengthInit : a.lengthInit ∈ g.exprs.ids
  lengthOf : a.lengthOf ∈ g.exprs.ids
  element : a.element ∈ g.exprs.ids
  array : a.array ∈ g.exprs.ids
  lastLeaf : a.lastLeaf ∈ g.stats.ids
  step : a.step ∈ g.exprs.ids

namespace Intact

variable (hI : g.Intact)

include hI

theorem arrayLoop? {m : ElementLoop} (hm : g.KnownElements m) :
    Returns (g.arrayLoop? m) fun r => ∀ a, r = some a → g.KnownArray a := by
  unfold Graph.arrayLoop?
  cases hcounterInit : m.init with
  | none => exact Returns.pure_none
  | some counterInit =>
    have hcounterInit := hm.init counterInit hcounterInit
    cases hlengthInit : m.init2 with
    | none => exact Returns.pure_none
    | some lengthInit =>
      have hlengthInit := hm.init2 lengthInit hlengthInit
      refine (hI.assign? hm.fetch).bind fun r _ hr => ?_
      obtain _ | ⟨element, fetched⟩ := r
      · exact Returns.pure_none
      obtain ⟨helement, hfetched⟩ := hr element fetched rfl
      refine (hI.expr hfetched).bind fun y _ hy => ?_
      split
      swap
      · exact Returns.pure_none
      next array index _ =>
      have harray : array ∈ g.exprs.ids := hy array (by simp [Expr.children])
      have hindex : index ∈ g.exprs.ids := hy index (by simp [Expr.children])
      refine (hI.var? helement).bind fun var _ _ => ?_
      split
      · exact Returns.pure_none
      cases hlast : m.last with
      | none => exact Returns.pure_none
      | some last =>
        obtain ⟨lastLeaf, step⟩ := last
        obtain ⟨hlastLeaf, hstep⟩ := hm.last _ hlast
        refine (hI.expr hstep).bind fun y _ hy => ?_
        split
        swap
        · exact Returns.pure_none
        next op counter _ =>
        have hcounter : counter ∈ g.exprs.ids := hy counter (by simp [Expr.children])
        split
        · exact Returns.pure_none
        refine (hI.assign? hcounterInit).bind fun r _ hr => ?_
        obtain _ | ⟨counterVar, start⟩ := r
        · exact Returns.pure_none
        obtain ⟨hcounterVar, hstart⟩ := hr counterVar start rfl
        refine (hI.assign? hlengthInit).bind fun r _ hr => ?_
        obtain _ | ⟨_, length⟩ := r
        · exact Returns.pure_none
        obtain ⟨-, hlength⟩ := hr _ length rfl
        refine (hI.expr hstart).bind fun y _ _ => ?_
        split
        swap
        · exact Returns.pure_none
        refine (hI.expr hlength).bind fun y _ hy => ?_
        split
        swap
        · exact Returns.pure_none
        next lengthOf _ =>
        have hlengthOf : lengthOf ∈ g.exprs.ids := hy lengthOf (by simp [Expr.children])
        obtain ⟨st, hst⟩ := exists_stat hm.loop
        simp only [hst, Checked.ok_bind]
        cases hcondition : st.loop?.bind Loop.condition with
        | none => exact Returns.pure_none
        | some condition =>
          have hcondition : condition ∈ g.exprs.ids := by
            obtain ⟨l, hl, hc⟩ := Option.bind_eq_some_iff.1 hcondition
            exact hI.slots hst hl condition (by simp [StatKind.named, hc])
          refine (hI.expr hcondition).bind fun y _ _ => ?_
          split
          swap
          · exact Returns.pure_none
          refine (hI.var? harray).bind fun var _ _ => ?_
          split
          · exact Returns.pure_none
          refine (hI.sameLocal hcounter hindex).bind fun same _ _ => ?_
          split
          · exact Returns.pure_none
          refine (hI.sameLocal hcounter hcounterVar).bind fun same _ _ => ?_
          split
          · exact Returns.pure_none
          cases hfirst : st.first with
          | none => exact Returns.pure_none
          | some body =>
            have hbody := (hI.stat m.loop st hst).relatives body
              (Stat.mem_relatives_of_first hfirst)
            refine (hI.isUsed _ hcounter hbody).bind fun used _ _ => ?_
            split
            · exact Returns.pure_none
            · refine Returns.pure_iff.2 fun a ha => ?_
              cases ha
              exact ⟨hcounterInit, hlengthInit, hlengthOf, helement, harray, hlastLeaf, hstep⟩

theorem foldArrayCopy {m : ElementLoop} {a : ArrayLoop} (hm : g.KnownElements m)
    (ha : g.KnownArray a) : Returns (g.foldArrayCopy m a) (Enlarges g) := by
  unfold Graph.foldArrayCopy
  cases hcopyInit : m.init3 with
  | none => exact Returns.pure_iff.2 (.refl hI)
  | some copyInit =>
    have hcopyInit := hm.init3 copyInit hcopyInit
    refine (hI.assign? hcopyInit).bind fun r _ hr => ?_
    obtain _ | ⟨copy, source⟩ := r
    · exact Returns.pure_iff.2 (.refl hI)
    obtain ⟨hcopy, hsource⟩ := hr copy source rfl
    refine (hI.sameLocal hcopy ha.array).bind fun same _ _ => ?_
    split
    · exact Returns.pure_iff.2 (.refl hI)
    refine Enlarges.bind (hI.removeExpr copyInit hm.before) fun g₁ _ x₁ => Enlarges.bind
      (x₁.intact.absorb (x₁.exprs hsource) (x₁.exprs hcopyInit)) fun g₂ _ x₂ => ?_
    have x := x₁.trans x₂
    refine Enlarges.bind (x₂.intact.absorb (x.exprs hsource) (x.exprs ha.lengthOf))
      fun g₃ _ x₃ => ?_
    have x := x.trans x₃
    refine x₃.intact.modifyLoop (x.stats _ hm.loop) fun l hl y hy => ?_
    simp only [StatKind.named, List.mem_append, Option.mem_toList, Option.some.injEq] at hl hy
    rcases hy with (hy | hy) | rfl
    · exact hl y (.inl (.inl hy))
    · exact hl y (.inl (.inr hy))
    · exact x.exprs hsource

theorem overArray? {m : ElementLoop} (hm : g.KnownElements m) :
    Returns (g.overArray? m) (EnlargesTo g) := by
  refine (hI.arrayLoop? hm).bind fun r _ hr => ?_
  obtain _ | a := r
  · exact enlargesTo_none g
  have ha := hr a rfl
  refine (hI.absorb ha.lengthOf ha.counterInit).bind fun g₁ _ x₁ => ?_
  refine (x₁.intact.absorb (x₁.exprs ha.lengthOf) (x₁.exprs ha.lengthInit)).bind fun g₂ _ x₂ => ?_
  have x := x₁.trans x₂
  refine (x₂.intact.absorb (x.exprs ha.lengthOf) (x.exprs ha.step)).bind fun g₃ _ x₃ => ?_
  have x := x.trans x₃
  refine (x₃.intact.absorb (x.exprs ha.element) (x.exprs hm.fetch)).bind fun g₄ _ x₄ => ?_
  have x := x.trans x₄
  refine (x₄.intact.toForEach (x.stats _ hm.loop) (x.exprs ha.element) (x.exprs ha.lengthOf)).bind
    fun g₅ _ x₅ => ?_
  have x := x.trans x₅
  refine (x₅.intact.removeExpr a.counterInit (x.stats _ hm.before)).bind fun g₆ _ x₆ => ?_
  have x := x.trans x₆
  refine (x₆.intact.removeExpr a.lengthInit (x.stats _ hm.before)).bind fun g₇ _ x₇ => ?_
  have x := x.trans x₇
  refine (x₇.intact.removeExpr m.fetch (x.stats _ hm.first)).bind fun g₈ _ x₈ => ?_
  have x := x.trans x₈
  refine (x₈.intact.removeExpr a.step (x.stats _ ha.lastLeaf)).bind fun g₉ _ x₉ => ?_
  have x := x.trans x₉
  refine (x₉.intact.foldArrayCopy ?_ ?_).bind fun g' _ x' =>
    Returns.pure_iff.2 fun _ hg' => Option.some.inj hg' ▸ x.trans x'
  · exact ⟨x.stats _ hm.loop, x.stats _ hm.before, fun y hy => x.exprs (hm.init y hy),
      fun y hy => x.exprs (hm.init2 y hy), fun y hy => x.exprs (hm.init3 y hy), x.stats _ hm.first,
      x.exprs hm.fetch, fun p hp => ⟨x.stats _ (hm.last p hp).1, x.exprs (hm.last p hp).2⟩⟩
  · exact ⟨x.exprs ha.counterInit, x.exprs ha.lengthInit, x.exprs ha.lengthOf, x.exprs ha.element,
      x.exprs ha.array, x.stats _ ha.lastLeaf, x.exprs ha.step⟩

theorem forEachForm? (hloop : loop ∈ g.stats.ids) :
    Returns (g.forEachForm? loop) (EnlargesTo g) := by
  refine (hI.elementLoop? hloop).bind fun r _ hr => ?_
  obtain _ | m := r
  · exact enlargesTo_none g
  have hm := hr m rfl
  cases hinit : m.init with
  | none => simpa [hinit] using enlargesTo_none g
  | some init =>
    have hmem := hm.init init hinit
    simp only [hinit]
    refine (hI.assign? hmem).bind fun r _ hr => ?_
    obtain _ | ⟨holder, value⟩ := r
    · exact enlargesTo_none g
    obtain ⟨-, hvalue⟩ := hr holder value rfl
    refine (hI.asksForIterator hvalue).bind fun asks _ _ => ?_
    split
    · exact hI.overCollection? hm hmem
    · exact hI.overArray? hm

/-! ## Visits -/

theorem formOfWhile? (options : Options) (hloop : loop ∈ g.stats.ids) :
    Returns (g.formOfWhile? loop options) (EnlargesTo g) := by
  refine (hI.forEachForm? hloop).bind fun r _ hr => ?_
  obtain _ | g' := r
  · exact hI.forForm? options hloop
  · exact Returns.pure_iff.2 hr

/-- A visit of a loop of the tree comes to a result. -/
theorem betterForm? {K : StatId → Prop} (options : Options) (hF : Forest g K)
    (hfits : ∀ s st, g.InTree s → g.stat s = .ok st → st.Fits) (hloop : g.InTree loop) :
    Returns (g.betterForm? loop options) (EnlargesTo g) := by
  obtain ⟨lt, hlt⟩ := hF.exists_stat hloop
  have hmem := mem_stats_ids hlt
  refine (hI.loop? hmem).bind fun l _ _ => ?_
  split
  · refine (hI.whileForm? hF hfits hloop).bind fun r _ hr => ?_
    obtain _ | g₁ := r
    · simp only
      split
      · exact hI.doWhileForm? hF hfits hloop
      · exact enlargesTo_none g
    · have x₁ := hr g₁ rfl
      refine (x₁.intact.formOfWhile? options (x₁.stats loop hmem)).bind fun r _ hr =>
        Returns.pure_iff.2 fun g' hg' => ?_
      cases hg'
      obtain _ | g₂ := r
      · exact x₁
      · exact x₁.trans (hr g₂ rfl)
  · exact hI.formOfWhile? options hmem
  · exact enlargesTo_none g

end Intact

end Graph

end Decompiler

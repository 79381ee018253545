import Decompiler.Proofs.Loops.Phases
import Decompiler.Proofs.Loops.Visits

/-!
# The tree while loops are recognised

A rewrite of a loop splices a branch or a block into the place of the `if` it stood in, and takes
leaves out of nested bodies. The statements stay a tree all the same.

* `Graph.CutsBelow`: what a rewrite does to the tree. The slots of the loop are filled, and one
  statement below it is taken out: the `if` of a test (`Graph.TestMoves.cutsBelow`) or the last leaf
  of the body (`Graph.cutsBelow_forForm`).
* `Graph.Everywhere`: every statement of the tree satisfies a condition on its shape, and
  `Graph.CutsBelow.everywhere` when it still does.
* `Graph.TreeStep`, `Graph.treeConsistent_of_steps`: every sequence of operations on the tree keeps
  it a tree.
-/

namespace Decompiler

open Relation

/-! ## Conditions on shapes -/

namespace Stat

/-- A condition on the kind, the entry and the children of a statement, for which neither the slots
of a loop nor the expressions of a leaf matter. -/
structure IsShape (P : Stat → Prop) : Prop where
  /-- It looks at the kind, the entry and the children only. -/
  congr : ∀ {s t : Stat}, t.kind = s.kind → t.first = s.first → t.children = s.children → P s → P t
  /-- It does not look at slots and expressions. -/
  refit : ∀ {s : Stat} (f : Loop → Loop) (keep : ExprId → Bool), P s → P (s.refit f keep)
  /-- Empty leaves satisfy it. -/
  leaf : ∀ {s : Stat}, s.kind = .block [] → s.first = none → s.children = [] → P s

variable {s : Stat} {f : Loop → Loop} {keep : ExprId → Bool} {old : StatId} {new : Option StatId}

theorem IsShape.of_bare_eq {P : Stat → Prop} (hP : IsShape P) {t : Stat} (h : t.bare = s.bare)
    (hs : P s) : P t := by
  obtain ⟨hkind, -, hfirst, hchildren, -⟩ := bare_eq_iff.1 h
  exact hP.congr hkind hfirst hchildren hs

theorem exchange_refit : (s.refit f keep).exchange old new = (s.exchange old new).refit f keep := by
  obtain ⟨kind, parent, first, children, declarations, successors, predecessors, labels⟩ := s
  cases new <;> cases kind <;> rfl

/-- A change of one child is seen through a change of slots and expressions. -/
theorem IsShape.exchange_of_refit {P : Stat → Prop} (hP : IsShape P) {t : Stat}
    (h : t.bare = (s.refit f keep).bare) (hs : P (s.exchange old new)) :
    P (t.exchange old new) := by
  have heq : (t.exchange old new).bare = ((s.exchange old new).refit f keep).bare := by
    rw [exchange_bare, h, ← exchange_bare, exchange_refit]
  exact hP.of_bare_eq heq (hP.refit f keep hs)

theorem refit_branches : (s.refit f keep).kind.branches = s.kind.branches := by
  obtain ⟨kind, parent, first, children, declarations, successors, predecessors, labels⟩ := s
  cases kind <;> rfl

theorem isShape_holdsRoles : IsShape HoldsRoles where
  congr hkind hfirst hchildren h := h.congr hkind hfirst hchildren
  refit f keep h := by
    refine ⟨?_, ?_⟩
    · rw [refit_first, refit_children, h.first]
    · rw [refit_branches, refit_children]
      exact h.branches
  leaf hkind hfirst hchildren := by
    refine ⟨?_, ?_⟩
    · rw [hfirst, hchildren, List.head?_nil]
    · rw [hkind]
      nofun

end Stat

namespace Graph

variable {g g' : Graph} {K : StatId → Prop} {loop p old s : StatId} {kept fresh : Option StatId}
  {f : Loop → Loop} {cuts : List (StatId × ExprId)} {options : Options} {P : Stat → Prop}

/-- Every statement of the tree satisfies a condition. -/
def Everywhere (g : Graph) (P : Stat → Prop) : Prop :=
  ∀ s st, g.InTree s → g.stat s = .ok st → P st

namespace Everywhere

theorem of_sameTree (h : g.Everywhere P) (hP : Stat.IsShape P) (e : SameTree g g') :
    g'.Everywhere P := by
  intro s st' hs hst'
  obtain ⟨st, hst, heq⟩ := bareStat_eq_ok.1 ((e.stats s).symm.trans (bareStat_of_stat hst'))
  exact hP.of_bare_eq heq.symm (h s st (e.sameLinks.inTree_iff.1 hs) hst)

theorem of_refits (h : g.Everywhere P) (hP : Stat.IsShape P) (r : Refits g g' loop f cuts) :
    g'.Everywhere P := by
  intro s st' hs hst'
  obtain ⟨st, hst, heq⟩ := r.stat_before hst'
  exact hP.of_bare_eq heq (hP.refit _ _ (h s st (r.sameLinks.inTree_iff.1 hs) hst))

/-- A statement is taken out of the tree, and its parent satisfies the condition with what took the
place, or with a child less. -/
theorem of_cutOut (h : g.Everywhere P) (hP : Stat.IsShape P) (hF : Forest g K)
    (hcut : CutOut g g' K p old kept fresh)
    (hparent : ∀ pt, g.stat p = .ok pt → P (pt.exchange old (kept.or fresh))) :
    g'.Everywhere P := by
  intro s st' hs hst'
  rcases hcut.inTree_before hF hs with ⟨hs, hso⟩ | hfresh
  · obtain ⟨st, hst⟩ := hF.exists_stat hs
    by_cases hsp : s = p
    · subst hsp
      obtain ⟨st₁, hst₁, heq⟩ := hcut.at_parent st hst
      rw [hst'] at hst₁
      cases hst₁
      exact hP.of_bare_eq heq (hparent st hst)
    · obtain ⟨st₁, hst₁, hkind, hfirst, hchildren, -⟩ := hcut.elsewhere s st hsp hso hst
      rw [hst'] at hst₁
      cases hst₁
      exact hP.congr hkind hfirst hchildren (h s st hs hst)
  · obtain ⟨-, st₁, hst₁, hkind, hfirst, hchildren, -⟩ := hcut.leaf s hfresh
    rw [hst'] at hst₁
    cases hst₁
    exact hP.leaf hkind hfirst hchildren

end Everywhere

theorem Coherent.of_refits (hC : Coherent g K) (r : Refits g g' loop f cuts) : Coherent g' K :=
  ⟨r.sameLinks.forest hC.forest,
    Everywhere.of_refits (P := Stat.HoldsRoles) hC.roles Stat.isShape_holdsRoles r⟩

/-! ## What a rewrite does to the tree -/

/-- The slots of a loop are filled, and then a statement below the loop is taken out. Where `kept`
names one of its children, that one takes its place. -/
structure CutsBelow (g g' : Graph) (loop old : StatId) (kept : Option StatId) : Prop where
  /-- The statement lies below the loop. -/
  below : TransGen g.ChildOf loop old
  /-- What is kept is one of its children. -/
  kept_below : ∀ c, kept = some c → g.ChildOf old c
  /-- The two phases. -/
  phases : ∃ f cuts g₁ g₂,
    Refits g g₁ loop f cuts ∧ PruneStep loop old kept g₁ g₂ ∧ SameTree g₂ g'

namespace CutsBelow

/-- The second phase takes the statement out of the tree. If nothing takes its place, it is not the
body of the loop. -/
theorem exists_cutOut (h : CutsBelow g g' loop old kept) (hC : Coherent g K)
    (hloop : g.InTree loop) :
    ∃ f cuts g₁ g₂ p fresh, Refits g g₁ loop f cuts ∧ CutOut g₁ g₂ K p old kept fresh ∧
      SameTree g₂ g' ∧
      (kept.or fresh = none → Returns (g.stat loop) fun st => st.first ≠ some old) := by
  obtain ⟨f, cuts, g₁, g₂, r, hstep, e⟩ := h.phases
  obtain ⟨hold, -, hroot⟩ := hC.forest.ne_of_below hloop h.below
  have hlinks := r.sameLinks
  have hC₁ : Coherent g₁ K := hC.of_refits r
  have hloop₁ := hlinks.inTree_iff.2 hloop
  obtain ⟨p, fresh, hcut, hvacant⟩ := hstep.cutOut hC₁.forest hloop₁ (hC₁.entersChildren hloop₁)
    (hlinks.inTree_iff.2 hold) hroot fun c hc => by
      rw [hlinks.childOf_eq]
      exact h.kept_below c hc
  refine ⟨f, cuts, g₁, g₂, p, fresh, r, hcut, e, fun hnone => ?_⟩
  obtain ⟨lt₁, hlt₁, hfirst⟩ := hvacant hnone
  obtain ⟨lt, hlt, heq⟩ := r.stat_before hlt₁
  have hsame : lt₁.first = lt.first := by
    rw [(Stat.bare_eq_iff.1 heq).2.2.1, Stat.refit_first]
  exact ⟨lt, hlt, fun hbody => hfirst (hsame.trans hbody)⟩

/-- What is in the tree afterwards, of the statements there were. -/
theorem inTree_iff (h : CutsBelow g g' loop old kept) (hC : Coherent g K) (hloop : g.InTree loop)
    {st : Stat} (hst : g.stat s = .ok st) :
    g'.InTree s ↔ g.InTree s ∧ (g.Within old s → ∃ c, kept = some c ∧ g.Within c s) := by
  obtain ⟨f, cuts, g₁, g₂, p, fresh, r, hcut, e, -⟩ := h.exists_cutOut hC hloop
  have hfresh : fresh ≠ some s := by
    intro hs
    obtain ⟨st₁, hst₁, -⟩ := r.stat hst
    exact (hcut.leaf s hs).1 st₁ hst₁
  have hbelow : (∃ c, kept = some c ∧ g.Within c s) → g.InTree s := by
    rintro ⟨c, hc, hcs⟩
    exact ((hC.forest.ne_of_below hloop h.below).1.child (h.kept_below c hc)).within hcs
  rw [e.sameLinks.inTree_iff, hcut.inTree, r.sameLinks.within_eq, r.sameLinks.inTree_iff]
  constructor
  · rintro (⟨hs, hold⟩ | hkept | hs)
    · exact ⟨hs, fun hw => absurd hw hold⟩
    · exact ⟨hbelow hkept, fun _ => hkept⟩
    · exact absurd hs hfresh
  · rintro ⟨hs, hkept⟩
    by_cases hw : g.Within old s
    · exact .inr (.inl (hkept hw))
    · exact .inl ⟨hs, hw⟩

theorem parent_old (h : CutsBelow g g' loop old kept) (hC : Coherent g K) (hloop : g.InTree loop) :
    Returns (g'.stat old) fun st => st.parent = none := by
  obtain ⟨f, cuts, g₁, g₂, p, fresh, -, hcut, e, -⟩ := h.exists_cutOut hC hloop
  obtain ⟨ot, hot, hnone⟩ := hcut.at_old
  obtain ⟨ot', hot', -, hparent, -⟩ := e.stat hot
  exact ⟨ot', hot', hparent.trans hnone⟩

/-- A condition on shapes holds everywhere after a rewrite, if the parent of what is taken out still
satisfies it with another child in the place, or with a child less. -/
theorem everywhere (h : CutsBelow g g' loop old kept) (hC : Coherent g K) (hloop : g.InTree loop)
    (hP : Stat.IsShape P)
    (hparent : ∀ p pt new, g.InTree p → g.stat p = .ok pt → old ∈ pt.children →
      (new = none → kept = none ∧ Returns (g.stat loop) fun st => st.first ≠ some old) →
      (∀ b, new = some b → b ∉ pt.children) → P pt → P (pt.exchange old new))
    (hg : g.Everywhere P) : g'.Everywhere P := by
  obtain ⟨f, cuts, g₁, g₂, p, fresh, r, hcut, e, hvacant⟩ := h.exists_cutOut hC hloop
  have hlinks := r.sameLinks
  refine ((hg.of_refits hP r).of_cutOut hP (hlinks.forest hC.forest) hcut
    fun pt₁ hpt₁ => ?_).of_sameTree hP e
  obtain ⟨pt, hpt, heq⟩ := r.stat_before hpt₁
  have hp : g.InTree p := hlinks.inTree_iff.1 hcut.parent
  have hchildren : pt₁.children = pt.children := by
    rw [(Stat.bare_eq_iff.1 heq).2.2.2.1, Stat.refit_children]
  have hexchange : P (pt.exchange old (kept.or fresh)) := by
    refine hparent p pt _ hp hpt ?_
      (fun hnone => ⟨(Option.or_eq_none_iff.1 hnone).1, hvacant hnone⟩)
      (fun b hb hmem => ?_) (hg p pt hp hpt)
    · rw [← hchildren, ← childOf_iff hpt₁]
      exact hcut.child
    · rw [← hchildren, ← childOf_iff hpt₁] at hmem
      exact hcut.not_childOf_new (hlinks.forest hC.forest) hb hmem
  exact hP.exchange_of_refit heq hexchange

/-- A rewrite keeps the tree, and the loop in it. -/
theorem coherent (h : CutsBelow g g' loop old kept) (hC : Coherent g K) (hloop : g.InTree loop) :
    (∃ K', Coherent g' K' ∧ ∀ s, K s → K' s) ∧ g'.InTree loop := by
  have hroles : g'.Everywhere Stat.HoldsRoles :=
    h.everywhere hC hloop Stat.isShape_holdsRoles
      (fun _ _ _ _ _ _ _ _ hpt => hpt.exchange) hC.roles
  obtain ⟨f, cuts, g₁, g₂, p, fresh, r, hcut, e, -⟩ := h.exists_cutOut hC hloop
  refine ⟨⟨_, ⟨e.sameLinks.forest hcut.forest, hroles⟩, fun s hs => .inl hs⟩, ?_⟩
  refine e.sameLinks.inTree_iff.2 ((hcut.inTree loop).2 (.inl ⟨r.sameLinks.inTree_iff.2 hloop, ?_⟩))
  rw [r.sameLinks.within_eq]
  exact fun hw => hC.forest.acyclic hloop (h.below.trans_left hw)

end CutsBelow

/-! ## Rewrites -/

theorem TestMoves.cutsBelow {kind : LoopKind} {t : LoopTest} (hC : Coherent g K)
    (hloop : g.InTree loop) (hat : TestAt g loop t kept) (h : TestMoves g g' loop kind t kept) :
    CutsBelow g g' loop t.stat kept := by
  obtain ⟨new, g₁, g₂, r, -, -, -, hstep, e⟩ := h
  obtain ⟨htTree, -, -⟩ := hC.forest.ne_of_below hloop hat.below
  exact ⟨hat.below, fun c hc => hat.childOf_kept (fun tt htt => hC.roles _ tt htTree htt) hc,
    _, _, g₁, g₂, r, hstep, e⟩

/-- Only the last leaf of the body may be taken out for a step. -/
theorem cutsBelow_forForm (henters : g.EntersChildren loop)
    (h : g.forForm? loop options = .ok (some g')) :
    ∃ st body leaf, g.stat loop = .ok st ∧ st.first = some body ∧
      g.lastLeaf? body = .ok (some leaf) ∧
      ((∃ f cuts, Refits g g' loop f cuts) ∨ CutsBelow g g' loop leaf none) := by
  obtain ⟨st, body, leaf, lt, step, init, hst, hfirst, hleaf, -, -, -, h, -⟩ := forForm?_eq_some h
  refine ⟨st, body, leaf, hst, hfirst, hleaf, ?_⟩
  obtain ⟨g₁, r, -, h⟩ := refits_toCounted h
  rcases pruneStep_dropEmptyLeaf h with rfl | ⟨g₂, -, e, hstep⟩
  · exact .inl ⟨_, _, r⟩
  · refine .inr
      ⟨.head' (henters loop body .refl ⟨st, hst, hfirst⟩) (within_lastLeafIn hleaf), nofun, ?_⟩
    exact ⟨_, _, g₂, g', r.trans (.of_sameTree loop e), hstep, .refl g'⟩

theorem coherent_formOfWhile (hC : Coherent g K) (hloop : g.InTree loop)
    (h : g.formOfWhile? loop options = .ok (some g')) : ∃ K', Coherent g' K' ∧ ∀ s, K s → K' s := by
  rcases formOfWhile?_eq_some h with h | h
  · obtain ⟨element, source, cuts, t⟩ := takesElements_forEachForm h
    exact ⟨K, hC.of_refits t.refits, fun _ hs => hs⟩
  · obtain ⟨st, body, leaf, -, -, -, ⟨f, cuts, r⟩ | hcut⟩ :=
      cutsBelow_forForm (hC.entersChildren hloop) h
    · exact ⟨K, hC.of_refits r, fun _ hs => hs⟩
    · exact (hcut.coherent hC hloop).1

/-- One visit of a loop in the tree keeps the tree. -/
theorem coherent_betterForm (hC : Coherent g K) (hloop : g.InTree loop)
    (h : g.betterForm? loop options = .ok (some g')) : ∃ K', Coherent g' K' ∧ ∀ s, K s → K' s := by
  obtain ⟨st, -, l, -, ⟨-, ⟨g₁, hwhile, hnext⟩ | hdo⟩ | ⟨-, hform⟩⟩ := betterForm?_cases h
  · obtain ⟨t, kept, -, hat, hmoves⟩ := testMoves_whileForm hwhile
    obtain ⟨⟨K₁, hC₁, hK₁⟩, hloop₁⟩ :=
      (hmoves.cutsBelow hC hloop (hat (hC.entersChildren hloop))).coherent hC hloop
    rcases hnext with rfl | hform
    · exact ⟨K₁, hC₁, hK₁⟩
    · obtain ⟨K₂, hC₂, hK₂⟩ := coherent_formOfWhile hC₁ hloop₁ hform
      exact ⟨K₂, hC₂, fun s hs => hK₂ s (hK₁ s hs)⟩
  · obtain ⟨t, kept, -, hat, hmoves⟩ := testMoves_doWhileForm hdo
    exact ((hmoves.cutsBelow hC hloop (hat (hC.entersChildren hloop))).coherent hC hloop).1
  · exact coherent_formOfWhile hC hloop hform

theorem treeConsistent_recogniseLoops {n : ℕ} (h : g.TreeConsistent)
    (hg : g.recogniseLoops options = .ok (g', n)) : g'.TreeConsistent := by
  obtain ⟨K', hC'⟩ := recogniseIn_keeps (I := Coherent) (fun _ _ hC => hC.forest)
    (fun _ _ _ _ hC hloop hform => coherent_betterForm hC hloop hform) h.coherent hg
  exact hC'.treeConsistent

/-! ## All operations -/

/-- One operation on the tree of a graph. A child of a statement of the tree may be replaced by the
top of a tree of its own. A child may be dropped from a statement that lists it, but one that is in
the tree only from a statement of the tree. Any statement but the root may be removed, and loops may
be recognised. -/
inductive TreeStep : Graph → Graph → Prop
  | replaceStat {g g' : Graph} {p old new : StatId} (parent : g.InTree p) (child : g.ChildOf p old)
      (tree : g.IsTree new) (apart : ∀ s, g.Within new s → ¬ g.InTree s)
      (h : g.replaceStat p old new = .ok g') : TreeStep g g'
  | removeChild {g g' : Graph} {p c : StatId} (child : g.ChildOf p c)
      (parent : g.InTree c → g.InTree p) (h : g.removeChild p c = .ok g') : TreeStep g g'
  | removeStat {g g' : Graph} {s : StatId} (ne_root : s ≠ root) (h : g.removeStat s = .ok g') :
      TreeStep g g'
  | recogniseLoops {g g' : Graph} {options : Options} {n : ℕ}
      (h : g.recogniseLoops options = .ok (g', n)) : TreeStep g g'

theorem treeConsistent_of_step (h : g.TreeConsistent) (hstep : TreeStep g g') :
    g'.TreeConsistent := by
  cases hstep with
  | replaceStat hp hold htree hapart hg =>
    exact treeConsistent_replaceStat h hp hold htree hapart hg
  | removeChild hpc hp hg => exact treeConsistent_removeChild h (fun hc => ⟨hp hc, hpc⟩) hg
  | removeStat hs hg => exact treeConsistent_removeStat h hs hg
  | recogniseLoops hg => exact treeConsistent_recogniseLoops h hg

/-- **The statement tree stays a tree** under any sequence of operations on it, whatever the edges
of the graph are. -/
theorem treeConsistent_of_steps (h : g.TreeConsistent) (hsteps : ReflTransGen TreeStep g g') :
    g'.TreeConsistent := by
  induction hsteps with
  | refl => exact h
  | tail _ hstep ih => exact treeConsistent_of_step ih hstep

theorem treeConsistent_of_steps_countingMethod :
    countingMethod.TreeConsistent ∧
      Returns (countingMethod.recogniseLoops .default) fun r => r.2 = 1 ∧
        Returns (r.1.replaceStat ⟨2⟩ ⟨3⟩ ⟨6⟩) fun g₁ => Returns (g₁.removeChild ⟨2⟩ ⟨9⟩) fun g₂ =>
          Returns (g₂.removeStat ⟨4⟩) fun g₃ => g₃.TreeConsistent := by
  have hrun : Returns (countingMethod.recogniseLoops .default) fun r =>
      (r.2 = 1 ∧ r.1.IsTree ⟨6⟩ ∧ Returns (r.1.stat ⟨2⟩) (fun st => ⟨3⟩ ∈ st.children) ∧
        Returns r.1.statements fun l => ⟨2⟩ ∈ l ∧
          Returns (r.1.preorderIn r.1.statLevels ⟨6⟩) fun l₆ => ∀ s ∈ l₆, s ∉ l) ∧
      Returns (r.1.replaceStat ⟨2⟩ ⟨3⟩ ⟨6⟩) fun g₁ =>
        (Returns (g₁.stat ⟨2⟩) (fun st => ⟨9⟩ ∈ st.children) ∧
          Returns g₁.statements fun l => ⟨2⟩ ∈ l) ∧
        Returns (g₁.removeChild ⟨2⟩ ⟨9⟩) fun g₂ => Returns (g₂.removeStat ⟨4⟩) fun _ => True := by
    decide +kernel
  obtain ⟨r, hr, ⟨hcount, htree, hold, l, hl, hp, l₆, hl₆, hapart⟩, g₁, h₁, ⟨hchild, l₁, hl₁, hp₁⟩,
    g₂, h₂, g₃, h₃, -⟩ := hrun
  have hcons : countingMethod.TreeConsistent := by decide +kernel
  refine ⟨hcons, r, hr, hcount, g₁, h₁, g₂, h₂, g₃, h₃, ?_⟩
  refine treeConsistent_of_steps hcons (.tail (.tail (.tail (.single (.recogniseLoops hr))
    (.replaceStat ((mem_preorderIn hl _).1 hp) hold htree (fun s hs hsTree => ?_) h₁))
    (.removeChild hchild (fun _ => (mem_preorderIn hl₁ _).1 hp₁) h₂)) (.removeStat (by decide) h₃))
  exact hapart s ((mem_preorderIn hl₆ s).2 hs) ((mem_preorderIn hl s).2 hsTree)

/-- A method whose body holds a leaf that another sequence, which is not in the tree, lists too. -/
def sharedLeaf : Graph where
  stats := ⟨#[
    ⟨.exit, none, none, [], [], [], [], []⟩,
    ⟨.root, none, some ⟨4⟩, [⟨4⟩], [], [], [], []⟩,
    ⟨.block [], some ⟨4⟩, none, [], [], [], [], []⟩,
    ⟨.sequence, none, some ⟨2⟩, [⟨2⟩], [], [], [], []⟩,
    ⟨.sequence, some ⟨1⟩, some ⟨2⟩, [⟨2⟩], [], [], [], []⟩]⟩
  edges := .empty
  exprs := .empty

/-- Dropping a child of the tree from a statement that is not in the tree clears its parent. -/
theorem not_treeConsistent_of_removeChild_outside :
    sharedLeaf.TreeConsistent ∧ sharedLeaf.ChildOf ⟨3⟩ ⟨2⟩ ∧
      Returns (sharedLeaf.removeChild ⟨3⟩ ⟨2⟩) fun g' => ¬ g'.TreeConsistent :=
  ⟨by decide +kernel, ⟨_, rfl, by decide⟩, by decide +kernel⟩

end Graph

end Decompiler

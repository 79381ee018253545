import Decompiler.Proofs.Loops.EdgeLists
import Decompiler.Proofs.Loops.Fixpoint
import Decompiler.Proofs.Loops.Totality
import Decompiler.Proofs.Loops.Trees
import Mathlib.Algebra.Order.BigOperators.Group.List
import Mathlib.Algebra.Order.Ring.Nat
import Mathlib.Data.List.Chain

/-!
# Recognition comes to an end

The loops of a method are visited until a round counts no change, and each round visits the
statements that were in the tree when it started. The number of rounds is bounded by the number of
changes that the kinds of the loops allow: a visit that is counted takes one of them away, and no
other loop is touched by it. That a single visit ends is another matter: it may follow an edge or a
label out of the tree (`Graph.strayLabel`, `Graph.strayLeaf`).

* `LoopKind.Precedes`: the changes of kind that a visit makes.
* `Graph.Recasts`: what a rewrite does to the kinds of loops (`Graph.recasts_betterForm`).
* `Graph.changesLeft`: the number of changes that a list of loops allows.
* `Graph.Progressing`: the invariant of a run. A visit, a sweep and a run count no more changes than
  were left, and come to a result where every walk does.
-/

namespace Decompiler

/-! ## Kinds -/

namespace LoopKind

/-- The kinds that a loop may take after the one it has. -/
def Precedes : (old new : LoopKind) → Prop
  | .endless, new => new ≠ .endless
  | .whileDo, new => new = .counted ∨ new = .forEach
  | .doWhile, _ | .counted, _ | .forEach, _ => False

/-- A kind stays or makes way for a later one. -/
def LeadsTo (old new : LoopKind) : Prop := new = old ∨ old.Precedes new

/-- How often a loop of a kind may change. -/
def changesLeft : LoopKind → ℕ
  | .endless => 2
  | .whileDo => 1
  | .doWhile | .counted | .forEach => 0

variable {old new newer : LoopKind}

theorem Precedes.changesLeft_lt (h : old.Precedes new) : new.changesLeft < old.changesLeft := by
  cases old <;> cases new <;> simp_all [Precedes, changesLeft]

theorem LeadsTo.trans (h : old.LeadsTo new) (h' : new.LeadsTo newer) : old.LeadsTo newer := by
  cases old <;> cases new <;> cases newer <;> simp_all [LeadsTo, Precedes]

end LoopKind

namespace Graph

variable {g g' g'' : Graph} {K : StatId → Prop} {loop s : StatId} {options : Options}
  {kind kind' : LoopKind} {loops : List StatId}

/-- The kind of a statement that is a loop. -/
def kindAt (g : Graph) (s : StatId) : Option LoopKind := (g.loopAt s).map Loop.kind

/-- The same statements are loops as before, and the kind of each has stayed or moved on. -/
def MovesForward (g g' : Graph) : Prop :=
  ∀ s, Option.Rel LoopKind.LeadsTo (g.kindAt s) (g'.kindAt s)

namespace MovesForward

theorem refl (g : Graph) : MovesForward g g := fun s => by
  cases g.kindAt s with
  | none => exact .none
  | some kind => exact .some (.inl rfl)

theorem trans (h : MovesForward g g') (h' : MovesForward g' g'') : MovesForward g g'' := fun s => by
  have hs := h s
  have hs' := h' s
  generalize g.kindAt s = a, g'.kindAt s = b, g''.kindAt s = c at hs hs' ⊢
  cases hs with
  | none => exact hs'
  | some hab =>
    cases hs' with
    | some hbc => exact .some (hab.trans hbc)

end MovesForward

instance : Trans MovesForward MovesForward MovesForward := ⟨.trans⟩

/-! ## One rewrite -/

/-- The loop at `loop` takes another kind, all other statements are loops of the kind they were of,
and no loop comes into the tree. -/
structure Recasts (g g' : Graph) (loop : StatId) (kind : LoopKind) : Prop where
  /-- The kinds of all loops. -/
  kinds : ∀ s, g'.kindAt s = (g.kindAt s).map fun old => if s = loop then kind else old
  /-- The loops of the tree were in it. -/
  tree : ∀ s, g'.InTree s → (g'.kindAt s).isSome → g.InTree s

theorem Refits.kindAt {f : Loop → Loop} {cuts : List (StatId × ExprId)}
    (h : Refits g g' loop f cuts) (hf : ∀ l, (f l).kind = kind) (s : StatId) :
    g'.kindAt s = (g.kindAt s).map fun old => if s = loop then kind else old := by
  rw [Graph.kindAt, Graph.kindAt, h.loopAt, Option.map_map, Option.map_map]
  congr 1
  funext l
  by_cases hs : s = loop
  · simp [hs, hf]
  · simp [hs]

theorem SameLoops.kindAt (h : SameLoops g g') (s : StatId) : g'.kindAt s = g.kindAt s :=
  congrArg (Option.map Loop.kind) (h s)

theorem stat_of_kindAt (h : (g.kindAt s).isSome) : ∃ st, g.stat s = .ok st := by
  obtain ⟨kind, hkind⟩ := Option.isSome_iff_exists.1 h
  obtain ⟨l, hl, -⟩ := Option.map_eq_some_iff.1 hkind
  obtain ⟨st, hst, -⟩ := loopAt_eq_some.1 hl
  exact ⟨st, hst⟩

namespace Recasts

theorem isSome_kindAt (h : Recasts g g' loop kind) (s : StatId) :
    (g'.kindAt s).isSome = (g.kindAt s).isSome := by
  rw [h.kinds, Option.isSome_map]

theorem trans (h : Recasts g g' loop kind) (h' : Recasts g' g'' loop kind') :
    Recasts g g'' loop kind' := by
  refine ⟨fun s => ?_, fun s hs hkind => ?_⟩
  · rw [h'.kinds, h.kinds, Option.map_map]
    congr 1
    funext old
    simp only [Function.comp_apply]
    split <;> rfl
  · have hkind' : (g'.kindAt s).isSome := h'.isSome_kindAt s ▸ hkind
    exact h.tree s (h'.tree s hs hkind) hkind'

theorem of_refits {f : Loop → Loop} {cuts : List (StatId × ExprId)}
    (h : Refits g g' loop f cuts) (hf : ∀ l, (f l).kind = kind) : Recasts g g' loop kind :=
  ⟨h.kindAt hf, fun _ hs _ => h.sameLinks.inTree_iff.1 hs⟩

/-- Where a statement below the loop is taken out, no loop comes in. -/
theorem of_cutsBelow {old : StatId} {kept : Option StatId} (h : CutsBelow g g' loop old kept)
    (hC : Coherent g K) (hloop : g.InTree loop)
    (hkinds : ∀ s, g'.kindAt s = (g.kindAt s).map fun old => if s = loop then kind else old) :
    Recasts g g' loop kind := by
  refine ⟨hkinds, fun s hs hkind => ?_⟩
  rw [hkinds, Option.isSome_map] at hkind
  obtain ⟨st, hst⟩ := stat_of_kindAt hkind
  exact ((h.inTree_iff hC hloop hst).1 hs).1

end Recasts

theorem Shaped.coherent (h : Shaped g K) : Coherent g K :=
  ⟨h.forest, fun s st hs hst => (h.fits s st hs hst).holdsRoles⟩

theorem recasts_testMoves {t : LoopTest} {kept : Option StatId} (hS : Shaped g K)
    (hloop : g.InTree loop) (hat : TestAt g loop t kept) (h : TestMoves g g' loop kind t kept) :
    Recasts g g' loop kind := by
  refine .of_cutsBelow (h.cutsBelow hS.coherent hloop hat) hS.coherent hloop fun s => ?_
  obtain ⟨new, g₁, g₂, r, -, -, -, hstep, e⟩ := h
  rw [(SameLoops.of_sameTree e).kindAt, hstep.sameLoops.kindAt, r.kindAt fun _ => rfl]

theorem recasts_forForm (hC : Coherent g K) (hloop : g.InTree loop)
    (h : g.forForm? loop options = .ok (some g')) : Recasts g g' loop .counted := by
  obtain ⟨leaf, lt, exprs, step, init, g₁, hbelow, -, -, -, -, r, -, h⟩ := stepMoves_forForm h
  rcases h with rfl | ⟨g₂, -, e, hstep⟩
  · exact .of_refits r fun _ => rfl
  · have hcuts : CutsBelow g g' loop leaf none :=
      ⟨hbelow (hC.entersChildren hloop), nofun, _, _, g₂, g', r.trans (.of_sameTree loop e), hstep,
        .refl g'⟩
    refine .of_cutsBelow hcuts hC hloop fun s => ?_
    rw [hstep.sameLoops.kindAt, (SameLoops.of_sameTree e).kindAt, r.kindAt fun _ => rfl]

theorem recasts_formOfWhile (hC : Coherent g K) (hloop : g.InTree loop)
    (h : g.formOfWhile? loop options = .ok (some g')) :
    ∃ kind, (kind = .counted ∨ kind = .forEach) ∧ Recasts g g' loop kind := by
  rcases formOfWhile?_eq_some h with h | h
  · obtain ⟨element, source, cuts, t⟩ := takesElements_forEachForm h
    exact ⟨.forEach, .inr rfl, .of_refits t.refits fun _ => rfl⟩
  · exact ⟨.counted, .inl rfl, recasts_forForm hC hloop h⟩

/-- A visit that makes a rewrite gives the loop one of the kinds that come after its own. -/
theorem recasts_betterForm (hS : Shaped g K) (hloop : g.InTree loop)
    (h : g.betterForm? loop options = .ok (some g')) :
    ∃ old new, g.kindAt loop = some old ∧ old.Precedes new ∧ Recasts g g' loop new := by
  obtain ⟨st, hst, l, hl, hforms⟩ := betterForm?_cases h
  have hkindAt : g.kindAt loop = some l.kind := by
    rw [kindAt, loopAt_of_stat hst, hl, Option.map_some]
  refine ⟨l.kind, ?_⟩
  rcases hforms with ⟨hkind, ⟨g₁, hwhile, hnext⟩ | hdo⟩ | ⟨hkind, hform⟩
  · obtain ⟨t, kept, -, hat, hmoves⟩ := testMoves_whileForm hwhile
    replace hat := hat (hS.entersChildren hloop)
    have r₁ := recasts_testMoves hS hloop hat hmoves
    rcases hnext with rfl | hform
    · exact ⟨.whileDo, hkindAt, by simp [hkind, LoopKind.Precedes], r₁⟩
    · obtain ⟨⟨K₁, hS₁, -⟩, hloop₁⟩ := shaped_testMoves hS hloop hat hmoves
      obtain ⟨new, hnew, r⟩ := recasts_formOfWhile hS₁.coherent hloop₁ hform
      refine ⟨new, hkindAt, ?_, r₁.trans r⟩
      rcases hnew with rfl | rfl <;> simp [hkind, LoopKind.Precedes]
  · obtain ⟨t, kept, -, hat, hmoves⟩ := testMoves_doWhileForm hdo
    exact ⟨.doWhile, hkindAt, by simp [hkind, LoopKind.Precedes],
      recasts_testMoves hS hloop (hat (hS.entersChildren hloop)) hmoves⟩
  · obtain ⟨new, hnew, r⟩ := recasts_formOfWhile hS.coherent hloop hform
    exact ⟨new, hkindAt, by simpa [hkind, LoopKind.Precedes] using hnew, r⟩

theorem Recasts.movesForward {old : LoopKind} (h : Recasts g g' loop kind)
    (hloop : g.kindAt loop = some old) (hprec : old.Precedes kind) : MovesForward g g' := by
  intro s
  rw [h.kinds]
  by_cases hs : s = loop
  · subst hs
    rw [hloop, Option.map_some, if_pos rfl]
    exact .some (.inr hprec)
  · simpa only [if_neg hs, Option.map_id_fun', id] using MovesForward.refl g s

/-! ## Changes that are left -/

/-- How often the loops among the given statements may still change. -/
def changesLeft (g : Graph) (loops : List StatId) : ℕ :=
  (loops.map fun s => ((g.kindAt s).map LoopKind.changesLeft).getD 0).sum

/-- A rewrite of a listed loop uses up one of the changes. -/
theorem Recasts.changesLeft_lt {old : LoopKind} (h : Recasts g g' loop kind)
    (hmem : loop ∈ loops) (hloop : g.kindAt loop = some old) (hprec : old.Precedes kind) :
    g'.changesLeft loops < g.changesLeft loops := by
  refine List.sum_lt_sum _ _ (fun s _ => ?_) ⟨loop, hmem, ?_⟩
  · rw [h.kinds]
    by_cases hs : s = loop
    · subst hs
      simpa [hloop] using hprec.changesLeft_lt.le
    · simp [hs]
  · rw [h.kinds]
    simpa [hloop] using hprec.changesLeft_lt

/-! ## Runs -/

/-- What a run keeps: the tree is in shape, and the loops of the tree are among the given ones. -/
structure Progressing (loops : List StatId) (g : Graph) (K : StatId → Prop) : Prop where
  /-- The tree is in shape. -/
  shaped : Shaped g K
  /-- The loops of the tree are listed. -/
  listed : ∀ s, g.InTree s → (g.kindAt s).isSome → s ∈ loops

/-- Two parts of a run that meet in `g'`. -/
theorem pairwise_append_of_meet {l l' : List Graph} (h : (g :: (l ++ [g'])).Pairwise MovesForward)
    (h' : (g' :: l').Pairwise MovesForward) : (g :: (l ++ l')).Pairwise MovesForward := by
  have hjoined : (g :: l ++ g' :: l').Pairwise MovesForward := by
    rw [← List.isChain_iff_pairwise, List.isChain_split, List.isChain_iff_pairwise,
      List.isChain_iff_pairwise]
    exact ⟨h, h'⟩
  exact hjoined.sublist ((List.sublist_cons_self g' l').append_left (g :: l))

namespace Progressing

variable {order : List StatId} {acc r : Graph × ℕ} {n total rounds : ℕ}

/-! ### What a run has done when it has come to a result -/

/-- A visit counts a change only if it uses up one of those left. -/
theorem visit (h : Progressing loops g K) (hs : K s)
    (hvisit : visitLoop options (g, n) s = .ok acc) :
    (∃ K', Progressing loops acc.1 K' ∧ ∀ t, K t → K' t) ∧ MovesForward g acc.1 ∧
      acc.2 + acc.1.changesLeft loops ≤ n + g.changesLeft loops := by
  obtain ⟨g', n'⟩ := acc
  rcases visitLoop_cases hvisit with ⟨rfl, rfl⟩ | ⟨rfl, hinside, hform⟩
  · exact ⟨⟨K, h, fun _ ht => ht⟩, .refl g', le_refl _⟩
  · have hloop := h.shaped.forest.inTree_of_contains hs hinside
    obtain ⟨old, new, hold, hprec, r⟩ := recasts_betterForm h.shaped hloop hform
    obtain ⟨K', hS', hK'⟩ := shaped_betterForm h.shaped hloop hform
    have hlisted : ∀ t, g'.InTree t → (g'.kindAt t).isSome → t ∈ loops := fun t ht hkind =>
      h.listed t (r.tree t ht hkind) (r.isSome_kindAt t ▸ hkind)
    have hmem : s ∈ loops := h.listed s hloop (by rw [hold]; rfl)
    have hlt := r.changesLeft_lt hmem hold hprec
    exact ⟨⟨K', ⟨hS', hlisted⟩, hK'⟩, r.movesForward hold hprec, by simp only; omega⟩

/-- A sweep makes no more changes than are left. -/
theorem sweep (h : Progressing loops g K) (horder : ∀ s ∈ order, K s)
    (hsweep : order.foldlM (visitLoop options) (g, n) = .ok acc) :
    (∃ K', Progressing loops acc.1 K') ∧
      acc.2 + acc.1.changesLeft loops ≤ n + g.changesLeft loops ∧
      Returns (visitsAlong options order (g, n)) fun l =>
        (g :: (l.map Prod.fst ++ [acc.1])).Pairwise MovesForward := by
  induction order generalizing g K n with
  | nil =>
    obtain rfl := Checked.pure_eq_ok.1 hsweep
    refine ⟨⟨K, h⟩, le_refl _, [], rfl, ?_⟩
    simpa using MovesForward.refl g
  | cons s order ih =>
    rw [List.foldlM_cons] at hsweep
    obtain ⟨⟨g₁, n₁⟩, hvisit, hsweep⟩ := Checked.bind_eq_ok.1 hsweep
    obtain ⟨⟨K₁, h₁, hK₁⟩, hforward, hcount⟩ := h.visit (horder s (by simp)) hvisit
    obtain ⟨hI, hcount', l, hl, hrun⟩ :=
      ih h₁ (fun t ht => hK₁ t (horder t (by simp [ht]))) hsweep
    refine ⟨hI, hcount'.trans hcount, (g, s) :: l, by simp [visitsAlong, hvisit, hl], ?_⟩
    have hfirst : (g :: ([g] ++ [g₁])).Pairwise MovesForward := by
      simpa [hforward] using MovesForward.refl g
    exact pairwise_append_of_meet (l := [g]) hfirst hrun

/-- The same for a sweep over the whole tree. -/
theorem round (h : Progressing loops g K) (hround : g.recogniseOnce options = .ok acc) :
    (∃ K', Progressing loops acc.1 K') ∧ acc.2 + acc.1.changesLeft loops ≤ g.changesLeft loops ∧
      Returns (g.postorder root >>= fun order => visitsAlong options order (g, 0)) fun l =>
        (g :: (l.map Prod.fst ++ [acc.1])).Pairwise MovesForward := by
  obtain ⟨order, horder, hsweep⟩ := Checked.bind_eq_ok.1 hround
  obtain ⟨order', horder', -, hmem⟩ := h.shaped.forest.postorder .refl
  obtain rfl := Except.ok.inj (horder.symm.trans horder')
  simpa only [horder, Checked.ok_bind, Nat.zero_add] using
    h.sweep (fun s hs => h.shaped.forest.mem ((hmem s).1 hs)) hsweep

/-- A run makes no more changes than are left. -/
theorem run (h : Progressing loops g K) (hrun : recogniseIn options rounds g total = .ok r) :
    r.2 ≤ total + g.changesLeft loops ∧
      Returns (visitsIn options rounds g) fun l =>
        (g :: (l.map Prod.fst ++ [r.1])).Pairwise MovesForward := by
  induction rounds generalizing g K total with
  | zero => cases hrun
  | succ rounds ih =>
    obtain ⟨⟨g₁, changed⟩, hround, hrun⟩ := Checked.bind_eq_ok.1 hrun
    obtain ⟨⟨K₁, h₁⟩, hcount, sweep, hsweep, hforward⟩ := h.round hround
    obtain ⟨order, horder, hsweep⟩ := Checked.bind_eq_ok.1 hsweep
    simp only at hcount hforward hrun
    simp only [visitsIn, hround, horder, hsweep, Checked.ok_bind]
    split at hrun
    · next hzero =>
      obtain rfl := Checked.pure_eq_ok.1 hrun
      rw [if_pos hzero]
      exact ⟨Nat.le_add_right _ _, Returns.pure_iff.2 hforward⟩
    · next hchanged =>
      obtain ⟨hbound, l, hl, hrest⟩ := ih (g := g₁) h₁ hrun
      rw [if_neg hchanged]
      refine ⟨by omega, sweep ++ l, by simp [hl], ?_⟩
      simp only [List.map_append, List.append_assoc]
      exact pairwise_append_of_meet hforward hrest

/-! ### When a run comes to a result -/

end Progressing

end Graph

end Decompiler

import Decompiler.Proofs.Loops.Removals

/-!
# The parts of compound statements

A loop needs a body, an `if` the block in front of its test, a synchronized statement its body, and
the cases of a `switch` have to be among its children.

* `Stat.HasParts`: a statement has these parts, and `Stat.Requires` that it needs a child for them.
* `Stat.HasParts.replace`, `Stat.HasParts.drop`: a child can always be replaced, and dropped unless
  it is required.
* `Graph.recogniseLoops_keepsParts`: while loops are recognised all parts are kept, as long as no
  rewrite drops a statement that its parent requires. `Graph.not_hasParts_of_inner_step` is a run in
  which one does.
-/

namespace Decompiler

open Relation

/-! ## One statement -/

/-- A statement of a kind has its parts among its children: a loop has one child, its body, the body
of a synchronized statement and the cases of a `switch` are children, and what stands first in an
`if` is not one of its branches. -/
def StatKind.HasParts (children : List StatId) : StatKind → Prop
  | .loop _ => children.length = 1
  | .synchronized _ body => body ∈ children
  | .switch _ cases => ∀ c ∈ cases, c ∈ children
  | .branch b => ∀ c ∈ children.head?.toList, c ∉ (StatKind.branch b).branches
  | _ => True

instance (children : List StatId) : (kind : StatKind) → Decidable (kind.HasParts children)
  | .loop _ => inferInstanceAs (Decidable (children.length = 1))
  | .synchronized _ body => inferInstanceAs (Decidable (body ∈ children))
  | .switch _ cases => inferInstanceAs (Decidable (∀ c ∈ cases, c ∈ children))
  | .branch _ => inferInstanceAs (Decidable (∀ c ∈ children.head?.toList, c ∉ _))
  | .block _ | .sequence | .tryCatch _ | .catchAll _ _ _ | .root | .exit => isTrue trivial

/-- A statement of a kind needs a child: the body of a loop, the body of a synchronized statement,
or the block in front of a test. -/
def StatKind.Requires (children : List StatId) (c : StatId) : StatKind → Prop
  | .loop _ => c ∈ children
  | .synchronized _ body => body = c
  | .branch _ => children.head? = some c
  | _ => False

instance (children : List StatId) (c : StatId) : (kind : StatKind) →
    Decidable (kind.Requires children c)
  | .loop _ => inferInstanceAs (Decidable (c ∈ children))
  | .synchronized _ body => inferInstanceAs (Decidable (body = c))
  | .branch _ => inferInstanceAs (Decidable (children.head? = some c))
  | .block _ | .sequence | .switch _ _ | .tryCatch _ | .catchAll _ _ _ | .root | .exit =>
    isFalse not_false

namespace Stat

/-- The statement has its parts. -/
def HasParts (s : Stat) : Prop := s.kind.HasParts s.children

instance (s : Stat) : Decidable s.HasParts :=
  inferInstanceAs (Decidable (s.kind.HasParts s.children))

/-- The statement needs the child. -/
def Requires (s : Stat) (c : StatId) : Prop := s.kind.Requires s.children c

instance (s : Stat) (c : StatId) : Decidable (s.Requires c) :=
  inferInstanceAs (Decidable (s.kind.Requires s.children c))

variable {s : Stat} {old b : StatId}

theorem isShape_hasParts : IsShape HasParts where
  congr hkind _ hchildren h := by
    unfold HasParts
    rwa [hkind, hchildren]
  refit {s} f keep h := by
    obtain ⟨kind, parent, first, children, declarations, successors, predecessors, labels⟩ := s
    cases kind <;> exact h
  leaf {s} hkind _ _ := by
    unfold HasParts
    rw [hkind]
    trivial

/-- The first child of an `if` stays apart from its branches when a child is replaced by a statement
that is not a child yet. -/
theorem first_not_mem_replace (h : ∀ c ∈ s.children.head?.toList, c ∉ s.kind.branches)
    (hbranches : ∀ c ∈ s.kind.branches, c ∈ s.children) (hb : b ∉ s.children) :
    ∀ c ∈ (s.exchange old (some b)).children.head?.toList,
      c ∉ (s.exchange old (some b)).kind.branches := by
  intro c hc hmem
  have hfirst : (s.exchange old (some b)).children.head? =
      s.children.head?.map fun c => if c = old then b else c := List.head?_map
  rw [hfirst, Option.mem_toList, Option.map_eq_some_iff] at hc
  obtain ⟨first, hfirst, rfl⟩ := hc
  have hnot : first ∉ s.kind.branches := h first (Option.mem_toList.2 hfirst)
  rcases mem_exchange_branches.1 hmem with ⟨hbranch, hne⟩ | ⟨hold, heq⟩
  · split at hbranch
    · exact hb (hbranches b hbranch)
    · exact hnot hbranch
  · split at heq
    · next hfo => exact hnot (hfo ▸ hold)
    · exact hb (Option.some.inj heq ▸ List.mem_of_head? hfirst)

/-- And when another child is dropped. -/
theorem first_not_mem_drop (h : ∀ c ∈ s.children.head?.toList, c ∉ s.kind.branches)
    (hold : s.children.head? ≠ some old) :
    ∀ c ∈ (s.exchange old none).children.head?.toList,
      c ∉ (s.exchange old none).kind.branches := by
  intro c hc hmem
  have hfirst : (s.exchange old none).children.head? = s.children.head? := by
    change (s.children.filter _).head? = s.children.head?
    cases hs : s.children with
    | nil => rfl
    | cons first rest =>
      rw [hs] at hold
      rw [List.filter_cons_of_pos (by simpa using hold), List.head?_cons, List.head?_cons]
  rw [hfirst] at hc
  rcases mem_exchange_branches.1 hmem with ⟨hbranch, -⟩ | ⟨-, heq⟩
  · exact h c hc hbranch
  · cases heq

/-- A child may be replaced by a statement that is not a child yet. -/
theorem HasParts.replace (h : s.HasParts) (hroles : s.HoldsRoles) (hb : b ∉ s.children) :
    (s.exchange old (some b)).HasParts := by
  obtain ⟨kind, parent, first, children, declarations, successors, predecessors, labels⟩ := s
  cases kind with
  | loop l => exact (List.length_map _).trans h
  | synchronized head body => exact List.mem_map_of_mem h
  | switch head cases =>
    intro c hc
    obtain ⟨d, hd, rfl⟩ := List.mem_map.1 hc
    exact List.mem_map_of_mem (h d hd)
  | branch br => exact first_not_mem_replace h hroles.branches hb
  | _ => trivial

/-- A child that is not required may be dropped. -/
theorem HasParts.drop (h : s.HasParts) (hold : old ∈ s.children) (hnot : ¬ s.Requires old) :
    (s.exchange old none).HasParts := by
  obtain ⟨kind, parent, first, children, declarations, successors, predecessors, labels⟩ := s
  cases kind with
  | loop l => exact absurd hold hnot
  | synchronized head body =>
    have hbody : body ≠ old := hnot
    exact List.mem_filter.2 ⟨h, decide_eq_true hbody⟩
  | switch head cases =>
    intro c hc
    obtain ⟨hc, hne⟩ := List.mem_filter.1 hc
    exact List.mem_filter.2 ⟨h c hc, hne⟩
  | branch br => exact first_not_mem_drop h hnot
  | _ => trivial

end Stat

namespace Graph

variable {g g' : Graph} {K : StatId → Prop} {loop old : StatId} {kept : Option StatId}
  {options : Options}

/-! ## Removals that leave all parts in place -/

/-- A statement the place of which is left vacant is not required by its parent. -/
def Removal.SparesParts (r : Removal) : Prop :=
  r.vacant = true → Returns (r.graph.stat r.old) fun ot => ∀ p ∈ ot.parent.toList,
    Returns (r.graph.stat p) fun pt => ¬ pt.Requires r.old

instance (r : Removal) : Decidable r.SparesParts :=
  inferInstanceAs (Decidable (_ → Returns (r.graph.stat r.old) _))

/-- The tree and the parts of its statements. -/
structure Furnished (g : Graph) (K : StatId → Prop) : Prop where
  /-- The statements are a tree. -/
  coherent : Coherent g K
  /-- They have their parts. -/
  parts : g.Everywhere Stat.HasParts

theorem Furnished.of_refits {f : Loop → Loop} {cuts : List (StatId × ExprId)} (h : Furnished g K)
    (r : Refits g g' loop f cuts) : Furnished g' K :=
  ⟨h.coherent.of_refits r, h.parts.of_refits Stat.isShape_hasParts r⟩

/-- Taking a statement out keeps the parts, if it is spared where its place is left vacant. -/
theorem Furnished.of_cutsBelow (h : Furnished g K) (hloop : g.InTree loop)
    (hcut : CutsBelow g g' loop old kept) {r : Removal} (hr : r.SparesParts) (hgraph : r.graph = g)
    (hold : r.old = old)
    (hvacant : kept = none → (Returns (g.stat loop) fun st => st.first ≠ some old) →
      r.vacant = true) :
    (∃ K', Furnished g' K' ∧ ∀ s, K s → K' s) ∧ g'.InTree loop := by
  subst hgraph hold
  have hF := h.coherent.forest
  have hparts : g'.Everywhere Stat.HasParts := by
    refine hcut.everywhere h.coherent hloop Stat.isShape_hasParts ?_ h.parts
    intro p pt new hp hpt hmem hnone hnew hpt'
    cases new with
    | some b => exact hpt'.replace (h.coherent.roles p pt hp hpt) (hnew b rfl)
    | none =>
      obtain ⟨hkept, hfirst⟩ := hnone rfl
      obtain ⟨ot, hot, hspares⟩ := hr (hvacant hkept hfirst)
      have hparent : ot.parent = some p := hF.parent_eq (hF.mem hp) ⟨pt, hpt, hmem⟩ hot
      obtain ⟨pt', hpt₁, hnot⟩ := hspares p (Option.mem_toList.2 hparent)
      rw [hpt] at hpt₁
      cases hpt₁
      exact hpt'.drop hmem hnot
  obtain ⟨⟨K', hC', hK'⟩, hloop'⟩ := hcut.coherent h.coherent hloop
  exact ⟨⟨K', ⟨hC', hparts⟩, hK'⟩, hloop'⟩

/-- One rewrite that spares parts keeps the parts. -/
theorem furnished_rewrite (h : Furnished g K) (hloop : g.InTree loop)
    (hg : Rewrite Removal.SparesParts loop options g g') :
    (∃ K', Furnished g' K' ∧ ∀ s, K s → K' s) ∧ g'.InTree loop := by
  cases hg with
  | @leading t st hst hfound htest hwhile hspares =>
    obtain ⟨hat, hmoves⟩ := testMoves_leading hfound htest hwhile
    exact h.of_cutsBelow hloop
      (hmoves.cutsBelow h.coherent hloop (hat (h.coherent.entersChildren hloop))) hspares rfl rfl
      fun hkept hfirst => (removal_vacant hst).2 ⟨hkept, hfirst⟩
  | @trailing t st bt leavesOnTrue hst hfound htest hbt hdo hspares =>
    obtain ⟨bt', hbt', hat, hmoves⟩ := testMoves_trailing hfound htest hdo
    rw [hbt] at hbt'
    cases hbt'
    exact h.of_cutsBelow hloop
      (hmoves.cutsBelow h.coherent hloop (hat (h.coherent.entersChildren hloop))) hspares rfl rfl
      fun hkept hfirst => (removal_vacant hst).2 ⟨hkept, hfirst⟩
  | elements hform =>
    obtain ⟨element, source, cuts, t⟩ := takesElements_forEachForm hform
    exact ⟨⟨K, h.of_refits t.refits, fun _ hs => hs⟩, t.refits.sameLinks.inTree_iff.2 hloop⟩
  | step hform hspares =>
    obtain ⟨st, body, leaf, hst, hfirst, hleaf, ⟨f, cuts, r⟩ | hcut⟩ :=
      cutsBelow_forForm (h.coherent.entersChildren hloop) hform
    · exact ⟨⟨K, h.of_refits r, fun _ hs => hs⟩, r.sameLinks.inTree_iff.2 hloop⟩
    · have hF := h.coherent.forest
      obtain ⟨lt, hlt⟩ := hF.exists_stat (hF.ne_of_below hloop hcut.below).1
      exact h.of_cutsBelow hloop hcut (hspares st body leaf lt hst hfirst hleaf hlt
        (hcut.parent_old h.coherent hloop)) rfl rfl fun _ hne => (stepRemoval_vacant hst).2 hne

/-! ## Runs -/

theorem Forest.eachStat {P : Stat → Prop} (hF : Forest g K) (h : g.Everywhere P) :
    g.EachStat P := by
  obtain ⟨l, hl, -, hmem⟩ := hF.statements
  refine ⟨l, hl, fun s hs => ?_⟩
  have hs := (hmem s).1 hs
  obtain ⟨st, hst⟩ := hF.exists_stat hs
  exact ⟨st, hst, h s st hs hst⟩

/-- **Compound statements keep their parts** while loops are recognised, provided that no statement
that its parent requires is taken out without anything in its place. -/
theorem recogniseLoops_keepsParts {n : ℕ} (htree : g.TreeConsistent)
    (hparts : g.EachStat Stat.HasParts)
    (hspares : Returns (g.removals options) fun l => ∀ r ∈ l, r.SparesParts)
    (h : g.recogniseLoops options = .ok (g', n)) :
    g'.TreeConsistent ∧ g'.EachStat Stat.HasParts := by
  have hI : Furnished g g.InTree := ⟨htree.coherent, fun _ _ hs hst => hparts.stat hs hst⟩
  obtain ⟨K', hI'⟩ := recogniseLoops_keeps (I := Furnished) (fun _ _ hI => hI.coherent.forest)
    (fun _ _ _ _ hI hloop hg => furnished_rewrite hI hloop hg) hspares hI h
  exact ⟨hI'.coherent.treeConsistent, hI'.coherent.forest.eachStat hI'.parts⟩

theorem recogniseLoops_keepsParts_countingMethod :
    (countingMethod.TreeConsistent ∧ countingMethod.EachStat Stat.HasParts ∧
      Returns (countingMethod.removals .default) fun l =>
        l.map (fun r => (r.old, r.vacant)) = [(⟨6⟩, true), (⟨8⟩, true)] ∧
          ∀ r ∈ l, r.SparesParts) ∧
      Returns (countingMethod.recogniseLoops .default) fun r =>
        r.1.TreeConsistent ∧ r.1.EachStat Stat.HasParts := by
  have htree : countingMethod.TreeConsistent := by decide +kernel
  have hparts : countingMethod.EachStat Stat.HasParts := by decide +kernel
  have hremovals : Returns (countingMethod.removals .default) fun l =>
      l.map (fun r => (r.old, r.vacant)) = [(⟨6⟩, true), (⟨8⟩, true)] ∧
        ∀ r ∈ l, r.SparesParts := by decide +kernel
  have hrun : Returns (countingMethod.recogniseLoops .default) fun _ => True := by decide +kernel
  obtain ⟨r, hr, -⟩ := hrun
  exact ⟨⟨htree, hparts, hremovals⟩, r, hr,
    recogniseLoops_keepsParts htree hparts (hremovals.mono fun _ h => h.2) hr⟩

/-- The body of a method in which the step of the outer loop stands in the inner one:
`i = 0; while (i < 9) { while (In.more()) { i++; } }`. -/
def innerStep : Graph where
  stats := ⟨#[
    ⟨.exit, none, none, [], [], [], [], []⟩,
    ⟨.root, none, some ⟨6⟩, [⟨6⟩], [], [], [], []⟩,
    ⟨.block [⟨2⟩], some ⟨6⟩, none, [], [], [⟨0⟩], [], []⟩,
    ⟨.block [⟨8⟩], some ⟨4⟩, none, [], [], [⟨1⟩], [], []⟩,
    ⟨.loop ⟨.whileDo, none, some ⟨6⟩, none⟩, some ⟨5⟩, some ⟨3⟩, [⟨3⟩], [], [], [⟨1⟩], [⟨1⟩]⟩,
    ⟨.loop ⟨.whileDo, none, some ⟨5⟩, none⟩, some ⟨6⟩, some ⟨4⟩, [⟨4⟩], [], [], [⟨0⟩], []⟩,
    ⟨.sequence, some ⟨1⟩, some ⟨2⟩, [⟨2⟩, ⟨5⟩], [], [], [], []⟩]⟩
  edges := ⟨#[
    ⟨.regular, ⟨2⟩, ⟨5⟩, none, true, true⟩,
    ⟨.continueTo, ⟨3⟩, ⟨4⟩, some ⟨4⟩, true, true⟩]⟩
  exprs :=
    let counter : Expr := .var ⟨⟨1, 0⟩, ⟨.int, 0⟩, false, false, none⟩
    ⟨#[
      ⟨counter, .empty⟩,
      ⟨.const ⟨.int, 0⟩ (.int 0), .empty⟩,
      ⟨.assign ⟨0⟩ ⟨1⟩, .empty⟩,
      ⟨counter, .empty⟩,
      ⟨.const ⟨.int, 0⟩ (.int 9), .empty⟩,
      ⟨.apply .lt [⟨3⟩, ⟨4⟩], .empty⟩,
      ⟨.call ⟨"In", "more", "()Z", none, []⟩, .empty⟩,
      ⟨counter, .empty⟩,
      ⟨.apply .postInc [⟨7⟩], .empty⟩]⟩

/-- The step is taken from the body of the inner loop, which is empty then and is dropped, so that
the inner loop has no body. -/
theorem not_hasParts_of_inner_step :
    (innerStep.TreeConsistent ∧ innerStep.EachStat Stat.HasParts) ∧
      Returns (innerStep.recogniseLoops .default) fun r => ¬ r.1.EachStat Stat.HasParts := by
  decide +kernel

end Graph

end Decompiler

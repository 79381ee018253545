import Decompiler.Proofs.Graph.Labels

/-!
# Breaks whose labels are moved down

A break names a statement that it leaves, its closure. `lowerBreaks` moves the closures of breaks
down the tree, step by step, to the child that the break starts in, as long as control falls from
that child to where the break leads. All steps can be judged in the graph that the pass started
from, since neither containment nor falling through depends on closures.

* `Graph.Lowers`: one step down. There is at most one from each statement
  (`Graph.Forest.lowers_unique`).
* `Graph.Lowered`: the breaks whose closures lie in a set have moved as far down as they can. This
  holds of the pass over a statement (`Graph.lowered_lowerBreaksIn`), by induction over the levels
  of the tree, as the closures in different children do not meet (`Graph.Lowered.union`).
* `Graph.Traceable`: what the pass looks up is there, so that it comes to a result.
* `Graph.lowerBreaks_settles`: the closures that the pass ends with.
-/

namespace Decompiler

open Relation

namespace Graph

variable {g g' g₁ g₂ : Graph} {s t c d : StatId} {e : EdgeId} {edge : Edge}
  {detached : EdgeId → Prop} {S T : StatId → Prop}

/-! ## One step down -/

/-- Whether a statement may become the closure of an edge: the edge starts strictly inside it, and
control falls from it to where the edge leads. -/
def admits (g : Graph) (edge : Edge) (c : StatId) : Checked Bool := do
  if ← g.containsStrict c edge.source then g.fallsInto c edge.destination else return false

/-- The closure of an edge moves from a statement to a child. -/
def Lowers (g : Graph) (edge : Edge) (s c : StatId) : Prop :=
  g.ChildOf s c ∧ TransGen g.ParentOf edge.source c ∧ g.fallsInto c edge.destination = .ok true

theorem lowerLabel_eq : lowerLabel e g c = do
    let edge ← g.edge e
    if ← g.admits edge c then g.setClosure c e else return g := by
  unfold lowerLabel admits
  refine bind_congr fun edge => ?_
  rw [bind_assoc]
  refine bind_congr fun inside => ?_
  cases inside <;> rfl

/-- A child that was found to admit an edge, or not to, is a step down for it, or none. -/
theorem lowers_iff (hc : g.ChildOf s c) {b : Bool} (h : g.admits edge c = .ok b) :
    b = true ↔ g.Lowers edge s c := by
  simp only [admits, Checked.bind_eq_ok] at h
  obtain ⟨inside, hinside, h⟩ := h
  rw [Lowers, ← containsStrict_iff hinside]
  cases inside with
  | true =>
    rw [if_pos rfl] at h
    simp [hc, h]
  | false =>
    cases h
    simp

theorem Relabelled.admits (h : Relabelled g g') (edge : Edge) (c : StatId) :
    g'.admits edge c = g.admits edge c := by
  simp only [Graph.admits, h.containsStrict, h.fallsInto]

theorem Relabelled.lowers_eq (h : Relabelled g g') (edge : Edge) :
    g'.Lowers edge = g.Lowers edge := by
  ext s c
  rw [Lowers, Lowers, h.childOf_eq, h.parentOf_eq, h.fallsInto]

/-- At most one child of a statement is a step down for an edge. -/
theorem Forest.lowers_unique (hF : Forest g g.InTree) (hs : g.InTree s)
    (h : g.Lowers edge s c) (h' : g.Lowers edge s d) : c = d := by
  obtain ⟨hc, hcs, -⟩ := h
  obtain ⟨hd, hds, -⟩ := h'
  rcases climb_total hcs.to_reflTransGen hds.to_reflTransGen with hcd | hdc
  · exact (hF.eq_of_within hs hd hc (hF.within_of_climb (hs.child hc) hcd).2 .refl).symm
  · exact hF.eq_of_within hs hc hd (hF.within_of_climb (hs.child hd) hdc).2 .refl

/-! ## Closures that cannot move on -/

/-- No child of a statement was found to admit the edge. -/
def Rests (g : Graph) (edge : Edge) (c : StatId) : Prop :=
  ∀ d, g.ChildOf c d → g.admits edge d = .ok false

/-- Steps down lead from one closure to another, from which there is none. -/
def Settles (g : Graph) (edge : Edge) (c c' : StatId) : Prop :=
  ReflTransGen (g.Lowers edge) c c' ∧ g.Rests edge c'

theorem Rests.not_lowers (h : g.Rests edge c) (d : StatId) : ¬ g.Lowers edge c d := by
  intro hd
  exact absurd ((lowers_iff hd.1 (h d hd.1)).2 hd) (by simp)

theorem within_of_lowers (h : ReflTransGen (g.Lowers edge) c d) : g.Within c d :=
  ReflTransGen.mono (fun _ _ h => h.1) _ _ h

theorem Relabelled.settles_iff (h : Relabelled g g') :
    g'.Settles edge c d ↔ g.Settles edge c d := by
  simp only [Settles, Rests, h.lowers_eq, h.childOf_eq, h.admits]

/-- Steps down from a statement of the tree end in one place. -/
theorem Forest.settles_unique (hF : Forest g g.InTree) (hc : g.InTree c)
    (h : ReflTransGen (g.Lowers edge) c d) (hd : ∀ x, ¬ g.Lowers edge d x)
    (h' : ReflTransGen (g.Lowers edge) c t) (ht : ∀ x, ¬ g.Lowers edge t x) : t = d := by
  induction h using ReflTransGen.head_induction_on with
  | refl =>
    rcases ReflTransGen.cases_head h' with rfl | ⟨x, hx, -⟩
    · rfl
    · exact absurd hx (hd x)
  | head hstep _ ih =>
    rcases ReflTransGen.cases_head h' with rfl | ⟨x, hx, hxt⟩
    · exact absurd hstep (ht _)
    · obtain rfl := hF.lowers_unique hc hstep hx
      exact ih (hc.child hstep.1) hxt

/-! ## Breaks with closures in a set -/

/-- An attached break whose closure is in the set. -/
def BreakIn (g : Graph) (S : StatId → Prop) (e : EdgeId) : Prop :=
  g.Attached e ∧ Returns (g.edge e) fun edge =>
    edge.kind = .breakTo ∧ ∃ c, edge.closure = some c ∧ S c

theorem breakIn_iff (hedge : g.edge e = .ok edge) : g.BreakIn S e ↔
    g.Attached e ∧ edge.kind = .breakTo ∧ ∃ c, edge.closure = some c ∧ S c := by
  rw [BreakIn, hedge, Returns.ok_iff]

theorem not_breakIn_of_closure (hedge : g.edge e = .ok edge) (hc : edge.closure = some c)
    (h : ¬ S c) : ¬ g.BreakIn S e := by
  rw [breakIn_iff hedge]
  rintro ⟨-, -, d, hd, hSd⟩
  rw [hc] at hd
  cases hd
  exact h hSd

/-- A break with its closure in `T` after a change of those with closures in `S` had its closure in
one of the two sets before. -/
theorem Confined.breakIn (h : Confined (g.BreakIn S) g g') (he : g'.BreakIn T e) :
    g.BreakIn (fun x => S x ∨ T x) e := by
  by_cases hS : g.BreakIn S e
  · obtain ⟨hatt, edge, hedge, hkind, c, hc, hSc⟩ := hS
    exact (breakIn_iff hedge).2 ⟨hatt, hkind, c, hc, .inl hSc⟩
  · obtain ⟨hatt, edge, hedge, hkind, c, hc, hTc⟩ := he
    rw [h.edge e hS] at hedge
    exact (breakIn_iff hedge).2 ⟨h.relabelled.attached_iff.1 hatt, hkind, c, hc, .inr hTc⟩

theorem BreakIn.mono (h : g.BreakIn S e) (hST : ∀ x, S x → T x) : g.BreakIn T e :=
  ⟨h.1, h.2.mono fun _ ⟨hkind, c, hc, hSc⟩ => ⟨hkind, c, hc, hST c hSc⟩⟩

/-! ## Moving the labels of one statement -/

/-- Moves the label of an edge, if it is a break, to the last of some statements that admits it. -/
def lowerAmong (children : List StatId) (g : Graph) (e : EdgeId) : Checked Graph := do
  if (← g.edge e).kind = .breakTo then children.foldlM (lowerLabel e) g else return g

theorem lowerLabels_eq : g.lowerLabels s =
    (g.stat s >>= fun st => st.labels.foldlM (lowerAmong st.children) g) := rfl

/-- The label of an edge stays where it is when none of some statements admits the edge, and ends at
one that does otherwise. -/
theorem confined_lowerLabel {l : List StatId} (hedge : g.edge e = .ok edge)
    (h : l.foldlM (lowerLabel e) g = .ok g') : Confined (· = e) g g' ∧
      ((g' = g ∧ ∀ c ∈ l, g.admits edge c = .ok false) ∨
        ∃ c ∈ l, g.admits edge c = .ok true ∧ g'.edge e = .ok { edge with closure := some c }) := by
  induction l generalizing g edge with
  | nil =>
    cases h
    exact ⟨.refl _, .inl ⟨rfl, List.forall_mem_nil _⟩⟩
  | cons c l ih =>
    simp only [List.foldlM_cons, lowerLabel_eq, hedge, Checked.ok_bind, Checked.bind_eq_ok] at h
    obtain ⟨g₁, ⟨b, hb, h₁⟩, h⟩ := h
    cases b with
    | false =>
      cases h₁
      obtain ⟨hconf, hcases⟩ := ih hedge h
      refine ⟨hconf, ?_⟩
      rcases hcases with ⟨heq, hnone⟩ | ⟨d, hd, hrest⟩
      · exact .inl ⟨heq, List.forall_mem_cons.2 ⟨hb, hnone⟩⟩
      · exact .inr ⟨d, List.mem_cons_of_mem c hd, hrest⟩
    | true =>
      have hc₁ := Confined.setClosure h₁
      obtain ⟨edge', hedge', hx⟩ := edge_setClosure h₁
      rw [hedge] at hedge'
      cases hedge'
      have hedge₁ := (hx e).trans (if_pos rfl)
      obtain ⟨hconf, hcases⟩ := ih hedge₁ h
      refine ⟨hc₁.trans hconf, .inr ?_⟩
      rcases hcases with ⟨rfl, -⟩ | ⟨d, hd, hadmits, hend⟩
      · exact ⟨c, by simp, hb, hedge₁⟩
      · rw [hc₁.relabelled.admits] at hadmits
        exact ⟨d, by simp [hd], hadmits, hend⟩

/-- Where the label of a break ends that is moved among the children of its closure. -/
def Moved (g g' : Graph) (children : List StatId) (e : EdgeId) (edge : Edge) : Prop :=
  (g'.edge e = .ok edge ∧ ∀ c ∈ children, g.admits edge c = .ok false) ∨
    ∃ c ∈ children, g.admits edge c = .ok true ∧ g'.edge e = .ok { edge with closure := some c }

theorem moved_lowerAmong {children : List StatId} (hedge : g.edge e = .ok edge)
    (h : lowerAmong children g e = .ok g') :
    Confined (fun x => x = e ∧ edge.kind = .breakTo) g g' ∧
      (edge.kind = .breakTo → Moved g g' children e edge) := by
  simp only [lowerAmong, hedge, Checked.ok_bind] at h
  split at h
  · next hkind =>
    obtain ⟨hconf, hcases⟩ := confined_lowerLabel hedge h
    refine ⟨hconf.mono fun x hx => ⟨hx, hkind⟩, fun _ => hcases.imp_left ?_⟩
    rintro ⟨rfl, hnone⟩
    exact ⟨hedge, hnone⟩
  · next hkind =>
    cases h
    exact ⟨.refl g, fun hbreak => absurd hbreak hkind⟩

theorem moved_foldlM {children : List StatId} {l : List EdgeId} (hl : l.Nodup)
    (hedges : ∀ e ∈ l, ∃ edge, g.edge e = .ok edge)
    (h : l.foldlM (lowerAmong children) g = .ok g') :
    Confined (fun e => e ∈ l ∧ Returns (g.edge e) fun edge => edge.kind = .breakTo) g g' ∧
      ∀ e ∈ l, ∀ edge, g.edge e = .ok edge → edge.kind = .breakTo →
        Moved g g' children e edge := by
  induction l generalizing g with
  | nil =>
    cases h
    exact ⟨.refl _, nofun⟩
  | cons a l ih =>
    simp only [List.foldlM_cons, Checked.bind_eq_ok] at h
    obtain ⟨g₁, h₁, h⟩ := h
    obtain ⟨edge, hedge⟩ := hedges a (by simp)
    obtain ⟨ha, hl⟩ := List.nodup_cons.1 hl
    obtain ⟨hc₁, hm₁⟩ := moved_lowerAmong hedge h₁
    -- the labels after the first one have not been touched yet
    have hsame : ∀ e ∈ l, g₁.edge e = g.edge e := fun e he =>
      hc₁.edge e fun hea => ha (hea.1 ▸ he)
    obtain ⟨hc₂, hm₂⟩ := ih hl (fun e he => hsame e he ▸ hedges e (by simp [he])) h
    refine ⟨.trans (hc₁.mono fun e he => ?_) (hc₂.mono fun e he => ?_), fun e he edge' hedge' => ?_⟩
    · obtain ⟨rfl, hkind⟩ := he
      exact ⟨by simp, edge, hedge, hkind⟩
    · exact ⟨by simp [he.1], hsame e he.1 ▸ he.2⟩
    rcases List.mem_cons.1 he with rfl | he
    · rw [hedge] at hedge'
      cases hedge'
      intro hkind
      have hkeep : g'.edge e = g₁.edge e := hc₂.edge e fun hmem => ha hmem.1
      unfold Moved
      rw [hkeep]
      exact hm₁ hkind
    · intro hkind
      have := hm₂ e he edge' ((hsame e he).trans hedge') hkind
      unfold Moved at this
      simp only [hc₁.relabelled.admits] at this
      exact this

/-- Moving the labels of one statement moves the breaks of which it is the closure. -/
theorem moved_lowerLabels (hS : Synced g detached) {st : Stat} (hst : g.stat s = .ok st)
    (h : g.lowerLabels s = .ok g') : Confined (g.BreakIn (· = s)) g g' ∧
      ∀ e edge, g.Attached e → g.edge e = .ok edge → edge.kind = .breakTo →
        edge.closure = some s → Moved g g' st.children e edge := by
  have hlabels : g.listed .closure s = st.labels := listed_of_stat hst _
  have hmem : ∀ e, e ∈ st.labels ↔ ¬ detached e ∧ Returns (g.edge e) fun edge =>
      edge.closure = some s := fun e => hlabels ▸ hS.linked.mem_iff .closure s e
  rw [lowerLabels_eq, hst, Checked.ok_bind] at h
  obtain ⟨hconf, hmoved⟩ := moved_foldlM (hlabels ▸ hS.linked.nodup .closure s)
    (fun e he => ((hmem e).1 he).2.imp fun _ h => h.1) h
  refine ⟨hconf.mono fun e he => ?_, fun e edge hatt hedge hkind hclosure => ?_⟩
  · obtain ⟨he, edge, hedge, hkind⟩ := he
    obtain ⟨hnd, edge', hedge', hclosure⟩ := (hmem e).1 he
    rw [hedge] at hedge'
    cases hedge'
    exact (breakIn_iff hedge).2 ⟨hS.attached_iff.2 ⟨hnd, edge, hedge⟩, hkind, s, hclosure, rfl⟩
  · exact hmoved e ((hmem e).2 ⟨(hS.attached_iff.1 hatt).1, edge, hedge, hclosure⟩) edge hedge hkind

/-! ## Moving all labels in a subtree -/

/-- The breaks whose closures lie in a set have moved as far down as they can, and nothing else has
changed. -/
structure Lowered (S : StatId → Prop) (g g' : Graph) : Prop where
  /-- Only those breaks move. -/
  confined : Confined (g.BreakIn S) g g'
  /-- Each of them ends where it cannot move on. -/
  settled : ∀ e edge c, g.Attached e → g.edge e = .ok edge → edge.kind = .breakTo →
    edge.closure = some c → S c →
      ∃ c', g'.edge e = .ok { edge with closure := some c' } ∧ g.Settles edge c c'

theorem Lowered.congr (h : Lowered S g g') (hST : ∀ x, S x ↔ T x) : Lowered T g g' := by
  obtain rfl : S = T := funext fun x => propext (hST x)
  exact h

/-- The closures in two sets that do not meet are moved one set after the other. -/
theorem Lowered.union (h₁ : Lowered S g g₁) (h₂ : Lowered T g₁ g₂)
    (hST : ∀ x, S x → ¬ T x) (hS : ∀ x y, S x → g.Within x y → S y) :
    Lowered (fun x => S x ∨ T x) g g₂ := by
  refine ⟨.trans (h₁.confined.mono fun e he => he.mono fun x => .inl)
    (h₂.confined.mono fun e he => h₁.confined.breakIn he), fun e edge c hatt hedge hkind hc => ?_⟩
  rintro (hSc | hTc)
  · -- the second change leaves the closure alone that the first one has settled
    obtain ⟨c', hedge₁, hsettles⟩ := h₁.settled e edge c hatt hedge hkind hc hSc
    have hSc' : S c' := hS c c' hSc (within_of_lowers hsettles.1)
    refine ⟨c', ?_, hsettles⟩
    rw [h₂.confined.edge e (not_breakIn_of_closure hedge₁ rfl (hST c' hSc')), hedge₁]
  · have hnot : ¬ g.BreakIn S e :=
      not_breakIn_of_closure hedge hc fun hSc => hST c hSc hTc
    have hedge₁ : g₁.edge e = .ok edge := (h₁.confined.edge e hnot).trans hedge
    have hrel := h₁.confined.relabelled
    obtain ⟨c', hend, hsettles⟩ :=
      h₂.settled e edge c (hrel.attached_iff.2 hatt) hedge₁ hkind hc hTc
    exact ⟨c', hend, hrel.settles_iff.1 hsettles⟩

/-- Moving the labels of a statement to its children and then on in all of them moves the labels in
the whole statement. -/
theorem lowered_of_children (hF : Forest g g.InTree) (hS : Synced g detached) (hs : g.InTree s)
    {st : Stat} (hst : g.stat s = .ok st) (h₁ : g.lowerLabels s = .ok g₁)
    (h₂ : Lowered (fun x => ∃ c ∈ st.children, g.Within c x) g₁ g₂) :
    Lowered (g.Within s) g g₂ := by
  obtain ⟨hconf, hmoved⟩ := moved_lowerLabels hS hst h₁
  have hrel := hconf.relabelled
  have hchild : ∀ c ∈ st.children, g.ChildOf s c := fun c hc => ⟨st, hst, hc⟩
  refine ⟨.trans (hconf.mono fun e he => he.mono ?_) (h₂.confined.mono fun e he =>
    (hconf.breakIn he).mono ?_), fun e edge c hatt hedge hkind hc hsc => ?_⟩
  · rintro x rfl
    exact .refl
  · rintro x (rfl | ⟨c, hc, hcx⟩)
    · exact .refl
    · exact .head (hchild c hc) hcx
  have hatt₁ := hrel.attached_iff.2 hatt
  rcases ReflTransGen.cases_head hsc with rfl | ⟨d, hd, hdc⟩
  · rcases hmoved e edge hatt hedge hkind hc with ⟨hstay, hnone⟩ | ⟨d, hd, hadmits, hmove⟩
    · -- `s` is in none of its children
      have hout : ¬ g₁.BreakIn (fun x => ∃ c ∈ st.children, g.Within c x) e :=
        not_breakIn_of_closure hstay hc fun ⟨d, hd, hds⟩ =>
          hF.acyclic hs (.head' (hchild d hd) hds)
      refine ⟨s, ?_, .refl, fun d hd => hnone d ((childOf_iff hst).1 hd)⟩
      rw [h₂.confined.edge e hout, hstay, ← hc]
    · obtain ⟨c', hend, hsettles⟩ :=
        h₂.settled e _ d hatt₁ hmove hkind rfl ⟨d, hd, .refl⟩
      obtain ⟨hsteps, hrests⟩ := hrel.settles_iff.1 hsettles
      have hstep : g.Lowers edge s d := (lowers_iff (hchild d hd) hadmits).1 rfl
      exact ⟨c', hend, .head hstep hsteps, hrests⟩
  · have hne : c ≠ s := by
      rintro rfl
      exact hF.acyclic hs (.head' hd hdc)
    have hstay : g₁.edge e = .ok edge :=
      (hconf.edge e (not_breakIn_of_closure hedge hc hne)).trans hedge
    obtain ⟨c', hend, hsettles⟩ :=
      h₂.settled e edge c hatt₁ hstay hkind hc ⟨d, (childOf_iff hst).1 hd, hdc⟩
    exact ⟨c', hend, hrel.settles_iff.1 hsettles⟩

/-- Moving the labels in some children of a statement, one child after the other. -/
theorem lowered_foldlM {f : Graph → StatId → Checked Graph} {l : List StatId}
    (hF : Forest g g.InTree) (hS : Synced g detached) (hs : g.InTree s) (hl : l.Nodup)
    (hchild : ∀ c ∈ l, g.ChildOf s c) (h : l.foldlM f g = .ok g')
    (hf : ∀ c ∈ l, ∀ g₁ g₂, Relabelled g g₁ → Synced g₁ detached → f g₁ c = .ok g₂ →
      Lowered (g.Within c) g₁ g₂ ∧ Synced g₂ detached) :
    Lowered (fun x => ∃ c ∈ l, g.Within c x) g g' := by
  induction l generalizing g with
  | nil =>
    cases h
    exact ⟨.refl _, fun _ _ _ _ _ _ _ ⟨c, hc, _⟩ => absurd hc List.not_mem_nil⟩
  | cons a l ih =>
    simp only [List.foldlM_cons, Checked.bind_eq_ok] at h
    obtain ⟨g₁, h₁, h⟩ := h
    obtain ⟨ha, hl⟩ := List.nodup_cons.1 hl
    obtain ⟨hlow, hS₁⟩ := hf a (by simp) g g₁ (.refl g) hS h₁
    have hrel := hlow.confined.relabelled
    have hrest : Lowered (fun x => ∃ c ∈ l, g₁.Within c x) g₁ g' := by
      refine ih (hrel.forest hF) hS₁ (hrel.inTree_iff.2 hs) hl (fun c hc => ?_) h
        fun c hc g₂ g₃ hrel₂ hS₂ h₂ => ?_
      · rw [hrel.childOf_eq]
        exact hchild c (by simp [hc])
      · rw [hrel.within_eq]
        exact hf c (by simp [hc]) g₂ g₃ (hrel.trans hrel₂) hS₂ h₂
    rw [hrel.within_eq] at hrest
    refine (hlow.union hrest (fun x hax => ?_) fun x y hax hxy => hax.trans hxy).congr fun x => ?_
    · rintro ⟨c, hc, hcx⟩
      obtain rfl := hF.eq_of_within hs (hchild a (by simp)) (hchild c (by simp [hc])) hax hcx
      exact ha hc
    · simp

theorem lowered_lowerBreaksIn {n : ℕ} (hF : Forest g g.InTree) (hS : Synced g detached)
    (hs : g.InTree s) (h : lowerBreaksIn n g s = .ok g') : Lowered (g.Within s) g g' := by
  induction n generalizing g g' s with
  | zero => cases h
  | succ n ih =>
    simp only [lowerBreaksIn, Checked.bind_eq_ok] at h
    obtain ⟨g₁, h₁, st₁, hst₁, h⟩ := h
    obtain ⟨st, hst⟩ := hF.exists_stat hs
    have hrel := (moved_lowerLabels hS hst h₁).1.relabelled
    obtain ⟨st', hst', -, -, -, hchildren, -⟩ := hrel.sameTree.stat hst
    rw [hst₁] at hst'
    cases hst'
    rw [hchildren] at h
    have hs₁ : g₁.InTree s := hrel.inTree_iff.2 hs
    have hchild : ∀ c ∈ st.children, g₁.ChildOf s c := fun c hc => ⟨st₁, hst₁, hchildren ▸ hc⟩
    refine lowered_of_children hF hS hs hst h₁ ?_
    rw [← hrel.within_eq]
    refine lowered_foldlM (hrel.forest hF) (hS.lowerLabels h₁) hs₁ (hF.nodup s st hs hst) hchild h
      fun c hc g₂ g₃ hrel₂ hS₂ h₂ => ?_
    rw [← hrel₂.within_eq]
    have hc₂ : g₂.InTree c := hrel₂.inTree_iff.2 (hs₁.child (hchild c hc))
    exact ⟨ih (hrel₂.forest (hrel.forest hF)) hS₂ hc₂ h₂, hS₂.lowerBreaksIn h₂⟩

/-! ## A second pass -/

theorem foldlM_eq_self {β : Type} {f : β → α → Checked β} {b : β} {l : List α}
    (h : ∀ a ∈ l, f b a = .ok b) : l.foldlM f b = .ok b := by
  induction l with
  | nil => rfl
  | cons a l ih =>
    rw [List.foldlM_cons, h a (by simp), Checked.ok_bind]
    exact ih fun a ha => h a (by simp [ha])

/-- The pass changes nothing where no break in its reach can move. -/
theorem lowerBreaksIn_eq_self {n : ℕ} (hF : Forest g g.InTree) (hS : Synced g detached)
    (hs : g.InTree s) (hn : g.stats.size ≤ n)
    (hrests : ∀ e edge c, g.Attached e → g.edge e = .ok edge → edge.kind = .breakTo →
      edge.closure = some c → g.Within s c → g.Rests edge c) :
    lowerBreaksIn n g s = .ok g := by
  refine hF.walk (P := fun n s => (∀ e edge c, g.Attached e → g.edge e = .ok edge →
    edge.kind = .breakTo → edge.closure = some c → g.Within s c → g.Rests edge c) →
      lowerBreaksIn n g s = .ok g) (fun n s st hs hst hbelow hrests => ?_) hs hn hrests
  have hlabels : g.lowerLabels s = .ok g := by
    rw [lowerLabels_eq, hst, Checked.ok_bind]
    refine foldlM_eq_self fun e he => ?_
    have hlisted : e ∈ g.listed .closure s := listed_of_stat hst .closure ▸ he
    obtain ⟨hnd, edge, hedge, hc⟩ := (hS.linked.mem_iff .closure s e).1 hlisted
    rw [lowerAmong, hedge, Checked.ok_bind]
    split
    · next hkind =>
      have hatt : g.Attached e := hS.attached_iff.2 ⟨hnd, edge, hedge⟩
      refine foldlM_eq_self fun d hd => ?_
      have hrest := hrests e edge s hatt hedge hkind hc .refl d ⟨st, hst, hd⟩
      simp only [lowerLabel_eq, hedge, hrest, Checked.ok_bind]
      rfl
    · rfl
  simp only [lowerBreaksIn, hlabels, hst, Checked.ok_bind]
  exact foldlM_eq_self fun c hc => hbelow c hc fun e edge d hatt hedge hkind hd hcd =>
    hrests e edge d hatt hedge hkind hd (.head ⟨st, hst, hc⟩ hcd)

/-- After the pass no break in its reach can move. -/
theorem Lowered.rests (h : Lowered S g g') (e : EdgeId) (edge : Edge) (c : StatId)
    (hatt : g'.Attached e) (hedge : g'.edge e = .ok edge) (hkind : edge.kind = .breakTo)
    (hc : edge.closure = some c) (hSc : S c) : g'.Rests edge c := by
  have hrel := h.confined.relabelled
  have hin : g.BreakIn S e := (h.confined.breakIn (T := S)
    ((breakIn_iff hedge).2 ⟨hatt, hkind, c, hc, hSc⟩)).mono fun x hx => hx.elim id id
  obtain ⟨hatt₀, edge₀, hedge₀, hkind₀, c₀, hc₀, hSc₀⟩ := hin
  obtain ⟨c', hend, hsettles⟩ := h.settled e edge₀ c₀ hatt₀ hedge₀ hkind₀ hc₀ hSc₀
  rw [hedge] at hend
  cases hend
  cases hc
  exact (hrel.settles_iff.2 hsettles).2

/-! ## The pass comes to a result -/

/-- What the pass over a statement looks up is there: the statements above the sources of the breaks
that it may move, and those that have a role in a statement of the tree, such as the cases of a
`switch`. -/
structure Traceable (g : Graph) (s : StatId) : Prop where
  /-- The way up from the source of each break comes to an end. -/
  climbs : ∀ e, g.BreakIn (g.Within s) e → Returns (g.edge e) fun edge => g.Climbs edge.source
  /-- Statements with a role are in use. -/
  roles : ∀ t st, g.InTree t → g.stat t = .ok st → ∀ c ∈ st.kind.roles, c ∈ g.stats.ids

/-- A graph that the pass over `s` may meet on its way. -/
def Amid (g : Graph) (detached : EdgeId → Prop) (s : StatId) (g₁ : Graph) : Prop :=
  Confined (g.BreakIn (g.Within s)) g g₁ ∧ Synced g₁ detached

section Returning

variable (hF : Forest g g.InTree) (hS : Synced g detached) (htr : g.Traceable s)

include hF hS htr

theorem Traceable.admits_returns (he : g.BreakIn (g.Within s) e) (hedge : g.edge e = .ok edge)
    (hc : g.InTree c) : Returns (g.admits edge c) fun _ => True := by
  obtain ⟨edge', hedge', hclimbs⟩ := htr.climbs e he
  rw [hedge] at hedge'
  cases hedge'
  refine (hclimbs.containsStrict c).bind fun inside _ _ => ?_
  split
  · exact hS.fallsInto_returns hF htr.roles hc edge.destination
  · exact Returns.pure_iff.2 trivial

theorem Traceable.lowerLabel_returns (h : Amid g detached s g₁) (he : g.BreakIn (g.Within s) e)
    (hc : g.InTree c) : Returns (lowerLabel e g₁ c) (Amid g detached s) := by
  obtain ⟨hconf, hS₁⟩ := h
  have hrel := hconf.relabelled
  obtain ⟨hatt, edge, hedge, -⟩ := id he
  obtain ⟨edge₁, hedge₁, heq⟩ := hrel.exists_edge hedge
  have hadmits : g₁.admits edge₁ c = g.admits edge c := by
    rw [hrel.admits]
    change g.admits edge₁.unlabelled c = _
    rw [heq]
    rfl
  rw [lowerLabel_eq, hedge₁, Checked.ok_bind, hadmits]
  refine (htr.admits_returns hF hS he hedge hc).bind fun b _ _ => ?_
  have hatt₁ := hrel.attached_iff.2 hatt
  split
  · obtain ⟨ct, hct⟩ := hF.exists_stat hc
    obtain ⟨ct₁, hct₁, -⟩ := hrel.sameTree.stat hct
    obtain ⟨g₂, h₂⟩ := hS₁.setClosure_returns hatt₁ (mem_stats_ids hct₁)
    refine ⟨g₂, h₂, hconf.trans ((Confined.setClosure h₂).mono ?_),
      (hS₁.setClosure (hS₁.attached_iff.1 hatt₁).1 h₂).1⟩
    rintro x rfl
    exact he
  · exact Returns.pure_iff.2 ⟨hconf, hS₁⟩

theorem Traceable.lowerLabels_returns (h : Amid g detached s g₁) (hs : g.InTree s)
    (ht : g.Within s t) : Returns (g₁.lowerLabels t) (Amid g detached s) := by
  obtain ⟨tt, htt⟩ := hF.exists_stat (hs.within ht)
  obtain ⟨tt₁, htt₁, -, -, -, hchildren, -⟩ := h.1.relabelled.sameTree.stat htt
  rw [lowerLabels_eq, htt₁, Checked.ok_bind]
  refine Returns.foldlM h fun e he g₂ h₂ => ?_
  have hmem : e ∈ g₁.listed .closure t := listed_of_stat htt₁ .closure ▸ he
  obtain ⟨hnd, edge, hedge, hc⟩ := (h.2.linked.mem_iff .closure t e).1 hmem
  obtain ⟨edge₂, hedge₂, heq⟩ := (h.1.relabelled.symm.trans h₂.1.relabelled).exists_edge hedge
  rw [lowerAmong, hedge₂, Checked.ok_bind]
  split
  · next hkind =>
    have hkind : edge.kind = .breakTo := (congrArg Edge.kind heq).symm.trans hkind
    have hin : g.BreakIn (g.Within s) e := (h.1.breakIn (T := g.Within s) ((breakIn_iff hedge).2
      ⟨h.2.attached_iff.2 ⟨hnd, edge, hedge⟩, hkind, t, hc, ht⟩)).mono fun x hx => hx.elim id id
    refine Returns.foldlM h₂ fun c hc g₃ h₃ => htr.lowerLabel_returns hF hS h₃ hin ?_
    exact (hs.within ht).child ⟨tt, htt, hchildren ▸ hc⟩
  · exact Returns.pure_iff.2 h₂

theorem Traceable.lowerBreaks_returns (hs : g.InTree s) : ∃ g', g.lowerBreaks s = .ok g' := by
  have key : ∀ n t, g.InTree t → g.stats.size ≤ n → g.Within s t → ∀ g₁, Amid g detached s g₁ →
      Returns (lowerBreaksIn n g₁ t) (Amid g detached s) := fun n t hTree hn => by
    refine hF.walk (P := fun n t => g.Within s t → ∀ g₁, Amid g detached s g₁ →
      Returns (lowerBreaksIn n g₁ t) (Amid g detached s)) (fun n t tt _ htt hbelow ht g₁ h₁ => ?_)
      hTree hn
    refine (htr.lowerLabels_returns hF hS h₁ hs ht).bind fun g₂ _ h₂ => ?_
    obtain ⟨tt₂, htt₂, -, -, -, hchildren, -⟩ := h₂.1.relabelled.sameTree.stat htt
    rw [htt₂, Checked.ok_bind, hchildren]
    exact Returns.foldlM h₂ fun c hc g₃ h₃ => hbelow c hc (ht.tail ⟨tt, htt, hc⟩) g₃ h₃
  obtain ⟨g', hg', -⟩ := key g.statLevels s hs (Nat.le_succ _) .refl g ⟨.refl g, hS⟩
  exact ⟨g', hg'⟩

end Returning

/-! ## The closures that the pass ends with -/

/-- **Labels move as far down as control falls through.** The pass over a statement of the tree
changes nothing but closures of attached breaks whose closure lies in the statement, and the labels
that go with them. Each of these breaks ends at the one closure that is reached from its old closure
by steps to the child which strictly contains its source and from which control falls to its
destination, and from which there is no such step. A second pass changes nothing.

That the pass comes to a result takes one more condition on the graph, `Graph.Traceable`: the way up
from the source of each of these breaks ends, and what has a role in a statement of the tree is
there. The tree and the lists of edges do not imply it (`Graph.strayBreak`). -/
theorem lowerBreaks_settles (hwf : g.WellFormed) (hsync : g.InSync) (hs : g.InTree s) :
    (g.Traceable s → ∃ g', g.lowerBreaks s = .ok g') ∧
      ∀ g', g.lowerBreaks s = .ok g' →
        g'.InSync ∧ Confined (g.BreakIn (g.Within s)) g g' ∧
        (∀ e, g.BreakIn (g.Within s) e → ∃ edge c c',
          g.edge e = .ok edge ∧ edge.closure = some c ∧
          g'.edge e = .ok { edge with closure := some c' } ∧
          ReflTransGen (g.Lowers edge) c c' ∧ (∀ d, ¬ g'.Lowers edge c' d) ∧
          (∀ d, ReflTransGen (g.Lowers edge) c d → (∀ x, ¬ g.Lowers edge d x) → d = c') ∧
          (c' ≠ c → TransGen g'.ParentOf edge.source c' ∧
            g'.fallsInto c' edge.destination = .ok true)) ∧
        g'.lowerBreaks s = .ok g' := by
  have hF := hwf.forest
  have hS := hsync.synced
  refine ⟨fun htr => htr.lowerBreaks_returns hF hS hs, fun g' hg' => ?_⟩
  have hS' := hS.lowerBreaks hg'
  have hlow := lowered_lowerBreaksIn hF hS hs hg'
  have hrel := hlow.confined.relabelled
  refine ⟨hS'.inSync, hlow.confined, fun e he => ?_, ?_⟩
  · obtain ⟨hatt, edge, hedge, hkind, c, hc, hsc⟩ := he
    obtain ⟨c', hend, hsteps, hrests⟩ := hlow.settled e edge c hatt hedge hkind hc hsc
    refine ⟨edge, c, c', hedge, hc, hend, hsteps, ?_, fun d hd hstuck => ?_, fun hne => ?_⟩
    · rw [hrel.lowers_eq]
      exact hrests.not_lowers
    · exact hF.settles_unique (hs.within hsc) hsteps hrests.not_lowers hd hstuck
    · -- a closure that has changed was reached by a last step
      rcases ReflTransGen.cases_tail hsteps with rfl | ⟨d, -, -, hsource, hfalls⟩
      · exact absurd rfl hne
      · rw [hrel.parentOf_eq, hrel.fallsInto]
        exact ⟨hsource, hfalls⟩
  · refine lowerBreaksIn_eq_self (hrel.forest hF) hS' (hrel.inTree_iff.2 hs) (Nat.le_succ _)
      fun e edge c hatt hedge hkind hc hsc => ?_
    rw [hrel.within_eq] at hsc
    exact hlow.rests e edge c hatt hedge hkind hc hsc

/-- A break out of an endless loop that is alone in a sequence, labelled by the whole body:
`label: { { do { break label; } } }`. -/
def nestedBreak : Graph where
  stats := ⟨#[
    ⟨.exit, none, none, [], [], [], [], []⟩,
    ⟨.root, none, some ⟨2⟩, [⟨2⟩], [], [], [], []⟩,
    ⟨.sequence, some ⟨1⟩, some ⟨3⟩, [⟨3⟩, ⟨7⟩], [], [], [], [⟨1⟩]⟩,
    ⟨.sequence, some ⟨2⟩, some ⟨4⟩, [⟨4⟩], [], [⟨0⟩], [], []⟩,
    ⟨.loop ⟨.endless, none, none, none⟩, some ⟨3⟩, some ⟨5⟩, [⟨5⟩], [], [], [⟨2⟩], [⟨2⟩]⟩,
    ⟨.sequence, some ⟨4⟩, some ⟨6⟩, [⟨6⟩], [], [], [], []⟩,
    ⟨.block [], some ⟨5⟩, none, [], [], [⟨1⟩, ⟨2⟩], [], []⟩,
    ⟨.block [], some ⟨2⟩, none, [], [], [], [⟨0⟩, ⟨1⟩], []⟩]⟩
  edges := ⟨#[
    ⟨.regular, ⟨3⟩, ⟨7⟩, none, false, false⟩,
    ⟨.breakTo, ⟨6⟩, ⟨7⟩, some ⟨2⟩, false, true⟩,
    ⟨.continueTo, ⟨6⟩, ⟨4⟩, some ⟨4⟩, false, false⟩]⟩
  exprs := .empty

/-- The break out of the loop moves two levels down, to the loop, and no further: control does not
fall out of the body of the loop. -/
theorem lowerBreaks_settles_nestedBreak :
    nestedBreak.WellFormed ∧ nestedBreak.InSync ∧ nestedBreak.InTree ⟨2⟩ ∧
      nestedBreak.Traceable ⟨2⟩ ∧ nestedBreak.BreakIn (nestedBreak.Within ⟨2⟩) ⟨1⟩ ∧
      Returns (nestedBreak.lowerBreaks ⟨2⟩) fun g' =>
        g'.edge ⟨1⟩ = .ok ⟨.breakTo, ⟨6⟩, ⟨7⟩, some ⟨4⟩, false, true⟩ ∧
        g'.InSync ∧ Confined (nestedBreak.BreakIn (nestedBreak.Within ⟨2⟩)) nestedBreak g' ∧
        (∀ e, nestedBreak.BreakIn (nestedBreak.Within ⟨2⟩) e → ∃ edge c c',
          nestedBreak.edge e = .ok edge ∧ edge.closure = some c ∧
          g'.edge e = .ok { edge with closure := some c' } ∧
          ReflTransGen (nestedBreak.Lowers edge) c c' ∧ (∀ d, ¬ g'.Lowers edge c' d) ∧
          (∀ d, ReflTransGen (nestedBreak.Lowers edge) c d →
            (∀ x, ¬ nestedBreak.Lowers edge d x) → d = c') ∧
          (c' ≠ c → TransGen g'.ParentOf edge.source c' ∧
            g'.fallsInto c' edge.destination = .ok true)) ∧
        g'.lowerBreaks ⟨2⟩ = .ok g' := by
  have hwf : nestedBreak.WellFormed := by decide +kernel
  have hsync : nestedBreak.InSync := by decide +kernel
  have hs : nestedBreak.InTree ⟨2⟩ := .single ⟨_, rfl, by decide⟩
  have hbreak : nestedBreak.BreakIn (nestedBreak.Within ⟨2⟩) ⟨1⟩ :=
    ⟨by decide +kernel, _, rfl, rfl, ⟨2⟩, rfl, .refl⟩
  have hsources : ∀ e ∈ nestedBreak.edges.ids, Returns (nestedBreak.edge e) fun edge =>
      edge.kind = .breakTo → edge.source = ⟨6⟩ := by decide +kernel
  have hroles : ∀ t ∈ nestedBreak.stats.ids, Returns (nestedBreak.stat t) fun st =>
      ∀ c ∈ st.kind.roles, c ∈ nestedBreak.stats.ids := by decide +kernel
  have hinner : nestedBreak.InTree ⟨6⟩ :=
    (((hs.child (c := ⟨3⟩) ⟨_, rfl, by decide⟩).child (c := ⟨4⟩) ⟨_, rfl, by decide⟩).child
      (c := ⟨5⟩) ⟨_, rfl, by decide⟩).child ⟨_, rfl, by decide⟩
  have htraceable : nestedBreak.Traceable ⟨2⟩ := by
    constructor
    · rintro e ⟨-, edge, hedge, hkind, -⟩
      obtain ⟨edge', hedge', hsource⟩ := hsources e (Arena.mem_ids.2 ⟨edge, hedge⟩)
      obtain rfl := Except.ok.inj (hedge.symm.trans hedge')
      exact ⟨edge, hedge, hwf.forest.climbs (hsource hkind ▸ hinner)⟩
    · intro t st _ hst
      obtain ⟨st', hst', hall⟩ := hroles t (mem_stats_ids hst)
      obtain rfl := Except.ok.inj (hst.symm.trans hst')
      exact hall
  obtain ⟨hreturns, hsettles⟩ := lowerBreaks_settles hwf hsync hs
  obtain ⟨g', hg'⟩ := hreturns htraceable
  have hrun : Returns (nestedBreak.lowerBreaks ⟨2⟩) fun g' =>
      g'.edge ⟨1⟩ = .ok ⟨.breakTo, ⟨6⟩, ⟨7⟩, some ⟨4⟩, false, true⟩ := by decide +kernel
  obtain ⟨g'', hg'', hedge⟩ := hrun
  obtain rfl := Except.ok.inj (hg'.symm.trans hg'')
  exact ⟨hwf, hsync, hs, htraceable, hbreak, g', hg', hedge, hsettles g' hg'⟩

/-- A break into the tree that comes from a sequence outside of it, which was put in the place of
its own child: `label: { { } }`. -/
def strayBreak : Graph where
  stats := ⟨#[
    ⟨.exit, none, none, [], [], [], [], []⟩,
    ⟨.root, none, some ⟨2⟩, [⟨2⟩], [], [], [], []⟩,
    ⟨.sequence, some ⟨1⟩, some ⟨3⟩, [⟨3⟩], [], [], [], [⟨0⟩]⟩,
    ⟨.block [], some ⟨2⟩, none, [], [], [], [⟨0⟩], []⟩,
    ⟨.sequence, some ⟨4⟩, some ⟨4⟩, [⟨4⟩], [], [⟨0⟩], [], []⟩]⟩
  edges := ⟨#[⟨.breakTo, ⟨4⟩, ⟨3⟩, some ⟨2⟩, true, true⟩]⟩
  exprs := .empty

/-- The way up from the source of the break never ends, however many steps it may take. -/
theorem lowerBreaks_strayBreak :
    strayBreak.WellFormed ∧ strayBreak.InSync ∧ strayBreak.InTree ⟨2⟩ ∧
      (∀ levels, strayBreak.climbsTo ⟨3⟩ levels ⟨4⟩ = .error .cyclic) ∧
      strayBreak.lowerBreaks ⟨2⟩ = .error .cyclic := by
  have hself : strayBreak.ParentOf ⟨4⟩ ⟨4⟩ := ⟨_, rfl, rfl⟩
  exact ⟨by decide +kernel, by decide +kernel, .single ⟨_, rfl, by decide⟩,
    climbsTo_of_parentOf_self hself (by decide), by decide +kernel⟩

end Graph

end Decompiler

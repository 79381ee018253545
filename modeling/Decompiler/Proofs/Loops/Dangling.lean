import Decompiler.Proofs.Graph.Sides
import Decompiler.Proofs.Loops.EdgeLists
import Decompiler.Proofs.Loops.Removals

/-!
# Dangling edges

Whatever leaves the tree while loops are recognised should take its edges along, so that no edge of
a statement that stays leads to one that is gone.

* `Graph.NoDangling`: the edges that statements of the tree list touch nothing outside of it.
* `Graph.Removal.Clean`: no edge but those that are detached touches what is lost with a statement.
* `Graph.CleanCut`: the setting in which a rewrite makes such a removal. While it does, the
  statement it takes out counts as one of the tree (`Graph.Removal.side`), and in the end it has no
  edges left (`Graph.CleanCut.pruneStep`).
* `Graph.recogniseLoops_noDangling`: where all removals of a run are clean, no edge is left
  dangling. `Graph.dangling_of_exceptional_test` is a run in which one is.
-/

namespace Decompiler.Graph

open Relation

variable {g g' : Graph} {K : StatId → Prop} {loop s : StatId} {e : EdgeId} {k : EdgeEnd}
  {options : Options} {detached : EdgeId → Prop} {S T : EdgeEnd → StatId → Prop}

/-! ## Edges of the tree -/

/-- The statement is in the tree, or it is the synthetic exit. -/
def Live (g : Graph) (s : StatId) : Prop := s = exit ∨ g.InTree s

/-- Every edge that a statement of the tree or the synthetic exit lists has all its ends there. -/
def NoDangling (g : Graph) : Prop :=
  Returns g.statements fun l => ∀ s ∈ exit :: l, ∀ k, ∀ e ∈ g.listed k s,
    Returns (g.edge e) fun edge => ∀ k', ∀ x ∈ (edge.statAt k').toList, x ∈ exit :: l

instance (g : Graph) : Decidable g.NoDangling :=
  inferInstanceAs (Decidable (Returns g.statements _))

/-- No edge dangles exactly when none crosses from the tree to what is outside of it. -/
theorem noDangling_iff (hF : Forest g K) (hs : Synced g detached) :
    g.NoDangling ↔ Parted g detached fun _ => g.Live := by
  obtain ⟨l, hl, -, hmem⟩ := hF.statements
  have hlive : ∀ s, s ∈ exit :: l ↔ g.Live s := fun s => by rw [List.mem_cons, hmem, Live]
  constructor
  · rintro ⟨l', hl', h⟩
    rw [hl] at hl'
    cases hl'
    refine ⟨hs, fun e edge hx hedge => ?_⟩
    have key : ∀ k x k' y, edge.statAt k = some x → edge.statAt k' = some y → g.Live x →
        g.Live y := by
      intro k x k' y hx' hy hlx
      obtain ⟨edge', hedge', hends⟩ := h x ((hlive x).2 hlx) k e
        ((hs.linked.mem_iff k x e).2 ⟨hx, edge, hedge, hx'⟩)
      rw [hedge] at hedge'
      cases hedge'
      exact (hlive y).1 (hends k' y (Option.mem_toList.2 hy))
    exact fun k x hat => ⟨key k x .source _ hat rfl, key .source _ k x rfl hat⟩
  · intro h
    refine ⟨l, hl, fun s hs' k e he => ?_⟩
    obtain ⟨hx, edge, hedge, hat⟩ := (hs.linked.mem_iff k s e).1 he
    have hside := h.oneSided e edge hx hedge
    refine ⟨edge, hedge, fun k' x hx' => (hlive x).2 ?_⟩
    exact (hside k' x (Option.mem_toList.1 hx')).2 ((hside k s hat).1 ((hlive s).1 hs'))

/-! ## Clean removals -/

namespace Removal

/-- The statements that stay with the one that takes the place. -/
def saved (r : Removal) : Checked (List StatId) :=
  match r.kept with
  | none => return []
  | some c => r.graph.preorderIn r.graph.statLevels c

/-- The statements below the one that is taken out that leave the tree with it. -/
def lost (r : Removal) : Checked (List StatId) := do
  let below ← r.graph.preorderIn r.graph.statLevels r.old
  let saved ← r.saved
  return below.filter fun s => s ≠ r.old && !saved.contains s

/-- No edge but the detached ones touches a statement that is lost, nor has the statement that is
taken out as its closure if nothing takes its place. The edge by which the loop is left leads
elsewhere. -/
def Clean (r : Removal) : Prop :=
  Returns r.lost fun lost =>
    (∀ s ∈ lost, ∀ k, ∀ e ∈ r.graph.listed k s, e ∈ r.edges) ∧
    (r.vacant = true → ∀ e ∈ r.graph.listed .closure r.old, e ∈ r.edges) ∧
    ∀ e ∈ r.exit.toList, Returns (r.graph.edge e) fun edge =>
      ∀ x ∈ edge.destination :: edge.closure.toList, x ≠ r.old ∧ x ∉ lost

instance (r : Removal) : Decidable r.Clean := inferInstanceAs (Decidable (Returns r.lost _))

/-- What is on the side of the tree until the removal is done: what is in the tree afterwards, and
the statement that is taken out. As a closure it is only where its labels are moved. -/
def side (r : Removal) (g' : Graph) : EdgeEnd → StatId → Prop
  | .closure, s => g'.Live s ∨ (s = r.old ∧ r.vacant = false)
  | _, s => g'.Live s ∨ s = r.old

variable {r : Removal}

theorem mem_saved {l : List StatId} (h : r.saved = .ok l) :
    s ∈ l ↔ ∃ c, r.kept = some c ∧ r.graph.Within c s := by
  unfold saved at h
  cases hk : r.kept with
  | none =>
    rw [hk] at h
    cases h
    simp
  | some c =>
    rw [hk] at h
    simp [mem_preorderIn h s]

theorem mem_lost {l : List StatId} (h : r.lost = .ok l) :
    s ∈ l ↔ r.graph.Within r.old s ∧ s ≠ r.old ∧ ¬ ∃ c, r.kept = some c ∧ r.graph.Within c s := by
  simp only [lost, Checked.bind_eq_ok, Checked.pure_eq_ok] at h
  obtain ⟨below, hbelow, saved, hsaved, rfl⟩ := h
  simp only [List.mem_filter, mem_preorderIn hbelow s, ← mem_saved hsaved, Bool.and_eq_true,
    decide_eq_true_eq, Bool.not_eq_true', List.contains_eq_mem, decide_eq_false_iff_not]

theorem side_of_live (hs : g'.Live s) : ∀ k, r.side g' k s
  | .source | .destination | .closure => .inl hs

theorem side_old (h : k = .closure → r.vacant = false) : r.side g' k r.old := by
  cases k with
  | closure => exact .inr ⟨rfl, h rfl⟩
  | _ => exact .inr rfl

theorem eq_old_of_side (h : r.side g' k s) (hs : ¬ g'.Live s) :
    s = r.old ∧ (k = .closure → r.vacant = false) := by
  cases k with
  | closure =>
    obtain ⟨hso, hv⟩ := h.resolve_left hs
    exact ⟨hso, fun _ => hv⟩
  | _ => exact ⟨h.resolve_left hs, nofun⟩

end Removal

/-- In a graph without dangling edges, a rewrite of a loop into `g'` makes a clean removal. -/
structure CleanCut (r : Removal) (g' : Graph) (K : StatId → Prop) (loop : StatId)
    (detached : EdgeId → Prop) : Prop where
  /-- The statements are a tree. -/
  coherent : Coherent r.graph K
  /-- The loop is in the tree. -/
  inTree : r.graph.InTree loop
  /-- What the rewrite does to the tree. -/
  cut : CutsBelow r.graph g' loop r.old r.kept
  /-- When nothing takes the place of what is taken out. -/
  vacant : r.vacant = true ↔
    r.kept = none ∧ Returns (r.graph.stat loop) fun st => st.first ≠ some r.old
  /-- No edge dangles. -/
  parted : Parted r.graph detached fun _ => r.graph.Live
  /-- The removal is clean. -/
  clean : r.Clean

namespace CleanCut

variable {r : Removal} {g₁ g₂ : Graph} {detached₁ : EdgeId → Prop}
  (h : CleanCut r g' K loop detached)

include h

theorem forest : Forest r.graph K := h.coherent.forest

theorem old_facts : r.graph.InTree r.old ∧ r.old ≠ loop ∧ r.old ≠ root :=
  h.forest.ne_of_below h.inTree h.cut.below

theorem parent_ne_none (hlinks : SameLinks r.graph g₁) {st : Stat} (hst : g₁.stat r.old = .ok st) :
    st.parent ≠ none := by
  obtain ⟨hold, -, hroot⟩ := h.old_facts
  obtain ⟨p, hp, -⟩ :=
    (hlinks.forest h.forest).exists_parent (hlinks.inTree_iff.2 hold) hroot hst
  simp [hp]

theorem enters_old : r.graph.EntersChildren r.old := h.coherent.entersChildren h.old_facts.1

/-- What is not in the statement that is taken out stays in the tree. -/
theorem inTree_of_not_within (hs : r.graph.InTree s) (hw : ¬ r.graph.Within r.old s) :
    g'.InTree s := by
  obtain ⟨st, hst⟩ := h.forest.exists_stat hs
  exact (h.cut.inTree_iff h.coherent h.inTree hst).2 ⟨hs, fun hw' => absurd hw' hw⟩

theorem not_within_loop : ¬ r.graph.Within r.old loop := fun hw =>
  h.forest.acyclic h.inTree (h.cut.below.trans_left hw)

theorem inTree_loop : g'.InTree loop := h.inTree_of_not_within h.inTree h.not_within_loop

theorem inTree_parent {p : StatId} (hp : r.graph.InTree p) (hc : r.graph.ChildOf p r.old) :
    g'.InTree p :=
  h.inTree_of_not_within hp fun hw => h.forest.acyclic hp (.head' hc hw)

theorem inTree_kept {c : StatId} (hc : r.kept = some c) : g'.InTree c := by
  have hcTree := h.old_facts.1.child (h.cut.kept_below c hc)
  obtain ⟨ct, hct⟩ := h.forest.exists_stat hcTree
  exact (h.cut.inTree_iff h.coherent h.inTree hct).2 ⟨hcTree, fun _ => ⟨c, hc, .refl⟩⟩

/-- What was live and is neither taken out nor lost is live. -/
theorem live_of_not_mem {lost : List StatId} (hlost : r.lost = .ok lost) (hs : r.graph.Live s)
    (hso : s ≠ r.old) (hsl : s ∉ lost) : g'.Live s := by
  rcases hs with hexit | hs
  · exact .inl hexit
  · obtain ⟨st, hst⟩ := h.forest.exists_stat hs
    refine .inr ((h.cut.inTree_iff h.coherent h.inTree hst).2 ⟨hs, fun hw => ?_⟩)
    rw [Removal.mem_lost hlost] at hsl
    by_contra hnone
    exact hsl ⟨hw, hso, hnone⟩

/-- What is live was live, if it was a statement at all. -/
theorem live_before {st : Stat} (hst : r.graph.stat s = .ok st) (hs : g'.Live s) :
    r.graph.Live s :=
  hs.imp_right fun hs => ((h.cut.inTree_iff h.coherent h.inTree hst).1 hs).1

/-- Once the edges that go with the removal are detached, none crosses to what is lost. -/
theorem parted_of_sheds (hshed : Sheds loop r.edges r.graph g₁) :
    Parted g₁ (fun x => detached x ∨ x ∈ r.edges) (r.side g') := by
  obtain ⟨lost, hlost, hedges, hlabels, -⟩ := h.clean
  refine ⟨hshed.synced h.parted.synced, fun e edge hx hedge => ?_⟩
  rw [hshed.edge] at hedge
  rw [not_or] at hx
  -- the ends of an edge that stays attached are on the side of the tree exactly if they were live
  have hends : ∀ k x, edge.statAt k = some x → (r.side g' k x ↔ r.graph.Live x) := by
    intro k x hat
    have hlisted : e ∈ r.graph.listed k x :=
      (h.parted.synced.linked.mem_iff k x e).2 ⟨hx.1, edge, hedge, hat⟩
    obtain ⟨st, hst⟩ := Arena.mem_ids.1 (mem_stats_ids_of_listed hlisted)
    constructor
    · intro hside
      by_cases hlive : g'.Live x
      · exact h.live_before hst hlive
      · rw [(Removal.eq_old_of_side hside hlive).1]
        exact .inr h.old_facts.1
    · intro hlive
      by_cases hxo : x = r.old
      · subst hxo
        refine Removal.side_old fun hk => ?_
        subst hk
        by_contra hv
        exact hx.2 (hlabels (by simpa using hv) e hlisted)
      · exact Removal.side_of_live (h.live_of_not_mem hlost hlive hxo fun hmem =>
          hx.2 (hedges x hmem k e hlisted)) k
  intro k x hat
  rw [hends k x hat, hends .source _ rfl]
  exact h.parted.oneSided e edge hx.1 hedge k x hat

/-- The edge by which the loop is left leads to what stays. -/
theorem exit_live (hexit : r.exit = some e) (hs : r.graph.Live s) (he : e ∈ r.graph.listed k s)
    {edge : Edge} (hedge : r.graph.edge e = .ok edge) :
    ∀ k x, k ≠ .source → edge.statAt k = some x → g'.Live x := by
  intro k' x hk hat'
  obtain ⟨lost, hlost, -, -, hleads⟩ := h.clean
  obtain ⟨edge₁, hedge₁, hends⟩ := hleads e (Option.mem_toList.2 hexit)
  rw [hedge] at hedge₁
  cases hedge₁
  obtain ⟨hx, edge₂, hedge₂, hat⟩ := (h.parted.synced.linked.mem_iff k s e).1 he
  rw [hedge] at hedge₂
  cases hedge₂
  have hside := h.parted.oneSided e edge hx hedge
  have hmem : x ∈ edge.destination :: edge.closure.toList := by
    cases k' with
    | source => exact absurd rfl hk
    | destination => exact Option.some.inj hat' ▸ List.mem_cons_self
    | closure => exact List.mem_cons_of_mem _ (Option.mem_toList.2 hat')
  obtain ⟨hxo, hxl⟩ := hends x hmem
  exact h.live_of_not_mem hlost ((hside k' x hat').2 ((hside k s hat).1 hs)) hxo hxl

/-- Whether the place is left vacant is seen from every graph with the same tree. -/
theorem vacant_iff (hlinks : SameLinks r.graph g₁) : r.vacant = true ↔
    r.kept = none ∧ Returns (g₁.stat loop) fun st => st.first ≠ some r.old := by
  obtain ⟨st, hst⟩ := h.forest.exists_stat h.inTree
  obtain ⟨st₁, hst₁, -, hfirst, -⟩ := links_eq_ok ((hlinks loop).trans (links_of_stat hst))
  rw [h.vacant, hst, hst₁, Returns.ok_iff, Returns.ok_iff, hfirst]

omit h in
/-- Once the statement has no edges, it may as well count as one outside of the tree. -/
theorem parted_live (hP : Parted g₁ detached₁ (r.side g'))
    (hnil : ∀ k, (k = .closure → r.vacant = false) → g₁.listed k r.old = []) :
    Parted g₁ detached₁ fun _ => g'.Live := by
  refine hP.congr fun k x hx => ⟨fun hlive => Removal.side_of_live hlive k, fun hside => ?_⟩
  by_contra hlive
  obtain ⟨rfl, hk⟩ := Removal.eq_old_of_side hside hlive
  exact hx (hnil k hk)

omit h in
/-- The statement gives its place to another one. -/
theorem parted_replaceStat {p c : StatId} (hP : Parted g₁ detached₁ (r.side g'))
    (hv : r.vacant = false) (hp : g'.InTree p) (hpo : r.old ≠ p) (hc : g'.InTree c)
    (hco : r.old ≠ c) (hg : g₁.replaceStat p r.old c = .ok g₂) :
    Parted g₂ detached₁ (fun _ => g'.Live) ∧ Leads (r.side g') (fun _ => g'.Live) g₁ g₂ := by
  obtain ⟨hP₂, hl, hnil⟩ := hP.replaceStat (T := fun _ => g'.Live)
    (fun k _ hx => Removal.side_of_live hx k) hco hpo (fun k => Removal.side_old fun _ => hv)
    (fun _ => .inr hc) (.inr hp) hg
  exact ⟨parted_live hP₂ fun k _ => hnil k, hl⟩

/-- Taking the statement out leaves it without edges, so that none crosses from the tree. -/
theorem pruneStep (hlinks : SameLinks r.graph g₁) (hP : Parted g₁ detached₁ (r.side g'))
    (hstep : PruneStep loop r.old r.kept g₁ g₂) (e : SameTree g₂ g') :
    ∃ detached₂, Parted g₂ detached₂ (fun _ => g'.Live) ∧ (∀ x, detached₁ x → detached₂ x) ∧
      Leads (r.side g') (fun _ => g'.Live) g₁ g₂ := by
  obtain ⟨hold, hne, hroot⟩ := h.old_facts
  have hF := hlinks.forest h.forest
  have hold₁ : g₁.InTree r.old := hlinks.inTree_iff.2 hold
  have hvacant := h.vacant_iff hlinks
  generalize hkept : r.kept = kept at hstep
  cases hstep with
  | remove inner hg =>
    have hv : r.vacant = true := hvacant.2 ⟨hkept, inner⟩
    obtain ⟨detached₂, hP₂, hsub, hedges, hnil⟩ := hP.removeStat hg
    refine ⟨detached₂, parted_live hP₂ fun k hk => hnil k fun hc => ?_, hsub, .of_edges_eq hedges⟩
    rw [hk hc] at hv
    cases hv
  | @empty _ g₃ _ b first alloc replace =>
    obtain ⟨st₁, hst₁, hbody⟩ := first
    have hv : r.vacant = false := by
      rw [Bool.eq_false_iff, ne_eq, hvacant, hst₁, Returns.ok_iff]
      exact fun hv => hv.2 hbody
    have hcut := cutOut_of_block alloc replace hF (hlinks.inTree_iff.2 h.inTree)
      ((h.coherent.entersChildren h.inTree).congr hlinks loop r.old .refl ⟨st₁, hst₁, hbody⟩)
    have hb : g'.InTree b := e.sameLinks.inTree_iff.2 ((hcut.inTree b).2 (.inr (.inr rfl)))
    have hbo : r.old ≠ b := fun heq => (hF.exists_stat hold₁).elim (heq ▸ (stat_block alloc).2.1)
    have e₃ : SameEdges g₁ g₃ := .block alloc
    obtain ⟨hP₂, hl⟩ := parted_replaceStat (hP.of_sameEdges e₃) hv h.inTree_loop hne hb hbo replace
    exact ⟨detached₁, hP₂, fun _ hx => hx, .trans (.of_edges_eq e₃.edges) hl⟩
  | @child _ g₃ _ p c st stat parent detach replace =>
    have hv : r.vacant = false := by
      rw [Bool.eq_false_iff, ne_eq, hvacant, hkept]
      exact fun hv => nomatch hv.1
    obtain ⟨p', hp', hpTree, hpc⟩ := hF.exists_parent hold₁ hroot stat
    rw [parent] at hp'
    cases hp'
    rw [hlinks.inTree_iff] at hpTree
    rw [hlinks.childOf_eq] at hpc
    have e₃ : SameEdges g₁ g₃ := .removeChild detach
    obtain ⟨hP₂, hl⟩ := parted_replaceStat (hP.of_sameEdges e₃) hv (h.inTree_parent hpTree hpc)
      (h.forest.ne_of_childOf hpTree hpc) (h.inTree_kept hkept)
      (h.forest.ne_of_childOf hold (h.cut.kept_below c hkept)).symm replace
    exact ⟨detached₁, hP₂, fun _ hx => hx, .trans (.of_edges_eq e₃.edges) hl⟩
  | orphan stat parent => exact absurd parent (h.parent_ne_none hlinks stat)

end CleanCut

/-! ## Labels and continues -/

theorem Leads.continueLoop (hTS : ∀ k x, T k x → S k x) (he : g.StartsIn S e)
    (hloop : ∀ k, T k loop) (h : Graph.continueLoop loop g e = .ok g') : Leads S T g g' := by
  simp only [Graph.continueLoop, Checked.bind_eq_ok] at h
  obtain ⟨g₁, h₁, g₂, h₂, h⟩ := h
  obtain ⟨edge, hedge, hx, -⟩ := edge_modifyEdge h₁
  have l₁ : Leads S T g g₁ := .of_read he hedge hx fun k x hat => .inl (by cases k <;> exact hat)
  have l₂ := l₁.trans (.changeDestination (l₁.startsIn hTS he) (hloop _) h₂)
  exact l₂.trans (.setClosure (l₂.startsIn hTS he) (hloop _) h)

theorem Leads.raiseClosure (he : g.StartsIn S e) (hloop : T .closure loop)
    (h : Graph.raiseClosure loop g e = .ok g') : Leads S T g g' := by
  simp only [Graph.raiseClosure, Checked.bind_eq_ok] at h
  obtain ⟨edge, -, h⟩ := h
  split at h
  · obtain ⟨inside, -, h⟩ := Checked.bind_eq_ok.1 h
    split at h
    · exact .setClosure he hloop h
    · exact Checked.pure_eq_ok.1 h ▸ .of_edges_eq rfl
  · exact Checked.pure_eq_ok.1 h ▸ .of_edges_eq rfl

theorem Leads.lowerLabel {c : StatId} (he : g.StartsIn S e) (hc : T .closure c)
    (h : Graph.lowerLabel e g c = .ok g') : Leads S T g g' := by
  simp only [Graph.lowerLabel, Checked.bind_eq_ok] at h
  obtain ⟨edge, -, inside, -, h⟩ := h
  split at h
  · obtain ⟨falls, -, h⟩ := Checked.bind_eq_ok.1 h
    split at h
    · exact .setClosure he hc h
    · exact Checked.pure_eq_ok.1 h ▸ .of_edges_eq rfl
  · exact Checked.pure_eq_ok.1 h ▸ .of_edges_eq rfl

theorem Leads.lowerLabels (hTS : ∀ k x, T k x → S k x)
    (hl : ∀ e ∈ g.listed .closure s, g.StartsIn S e) (hc : ∀ c, g.ChildOf s c → T .closure c)
    (h : g.lowerLabels s = .ok g') : Leads S T g g' := by
  simp only [Graph.lowerLabels, Checked.bind_eq_ok] at h
  obtain ⟨st, hst, h⟩ := h
  rw [listed_of_stat hst] at hl
  refine .foldlM hTS h hl fun e _ g₁ g₂ he hstep => ?_
  obtain ⟨edge, -, hstep⟩ := Checked.bind_eq_ok.1 hstep
  split at hstep
  · exact Checked.foldlM_keeps (Leads S T g₁) hstep (.of_edges_eq rfl) fun c hc' _ _ hb hstep =>
      hb.trans (.lowerLabel (hb.startsIn hTS he) (hc c ((childOf_iff hst).2 hc')) hstep)
  · exact Checked.pure_eq_ok.1 hstep ▸ .of_edges_eq rfl

namespace Parted

/-- Labels are moved down within the tree. -/
theorem lowerBreaksIn {n : ℕ} (h : Parted g detached S) (hS : ∀ s, g.InTree s → ∀ k, S k s)
    (hs : g.InTree s) (hg : Graph.lowerBreaksIn n g s = .ok g') : Parted g' detached S := by
  induction n generalizing g g' s with
  | zero => cases hg
  | succ n ih =>
    simp only [Graph.lowerBreaksIn, Checked.bind_eq_ok] at hg
    obtain ⟨g₁, h₁, st, hst, hg⟩ := hg
    have l₁ : Leads S S g g₁ := .lowerLabels (fun _ _ hx => hx)
      (fun e he => h.startsIn (hS s hs .closure) he) (fun c hc => hS c (hs.child hc) .closure) h₁
    have p₁ := h.of_leads (fun _ _ hx => hx) (h.synced.lowerLabels h₁) l₁
    have t₁ := (sameTree_lowerLabels h₁).sameLinks
    have hchild : ∀ c ∈ st.children, g₁.InTree c := fun c hc =>
      (t₁.inTree_iff.2 hs).child ⟨st, hst, hc⟩
    refine (Checked.foldlM_keeps (fun g₂ => Parted g₂ detached S ∧ SameLinks g₁ g₂) hg
      ⟨p₁, .refl g₁⟩ fun c hc g₂ g₃ hb hstep => ⟨?_, ?_⟩).1
    · refine ih hb.1 (fun x hx => hS x ?_) (hb.2.inTree_iff.2 (hchild c hc)) hstep
      exact t₁.inTree_iff.1 (hb.2.inTree_iff.1 hx)
    · exact hb.2.trans (sameTree_lowerBreaksIn hstep).sameLinks

/-- The loop takes over an edge that leads to the set. -/
theorem liftExit (h : Parted g detached S) (he : detached e) (hloop : S .source loop)
    (hends : ∀ edge, g.edge e = .ok edge →
      ∀ k x, k ≠ .source → edge.statAt k = some x → S k x)
    (hparent : ∀ st p, g.stat loop = .ok st → st.parent = some p → S .closure p)
    (hg : g.liftExit loop e = .ok g') : ∃ detached', Parted g' detached' S := by
  rcases h.synced.liftExit_cases he hg with rfl | ⟨st, edge, hst, hedge, hs, hx⟩
  · exact ⟨detached, h⟩
  · refine ⟨_, hs, fun x edge' hx' hedge' => ?_⟩
    rw [hx] at hedge'
    split at hedge'
    · cases hedge'
      have hin : ∀ k y, Edge.statAt { edge with
          source := loop
          closure := if edge.closure = some loop then st.parent else edge.closure } k = some y →
          S k y := by
        intro k y hat
        cases k with
        | source => exact Option.some.inj hat ▸ hloop
        | destination => exact hends edge hedge .destination y nofun hat
        | closure =>
          simp only [Edge.statAt] at hat
          split at hat
          · exact hparent st y hst hat
          · exact hends edge hedge .closure y nofun hat
      exact fun k y hat => iff_of_true (hin k y hat) hloop
    · next hxe => exact h.oneSided x edge' (fun hd => hx' ⟨hd, Ne.symm hxe⟩) hedge'

end Parted

/-! ## Rewrites -/

/-- Both edges of a test leave statements below the loop. -/
theorem mem_listed_of_loopTest {accepts : Branch → Stat → Bool} {t : LoopTest}
    (henters : g.EntersChildren t.stat) (h : g.loopTest? t.stat accepts = .ok (some t)) :
    t.thenEdge ∈ g.listed .source t.headBlock ∧ t.elseEdge ∈ g.listed .source t.stat ∧
      g.ChildOf t.stat t.headBlock := by
  obtain ⟨-, st, b, ht, hst, -, hfirst, hht, -, -, -, -, hthen, helse⟩ := loopTest?_eq_some h
  have hedges : ∀ {s st l x}, g.stat s = .ok st → g.successorEdges s .direct = .ok l →
      l[0]? = some x → x ∈ g.listed .source s := by
    intro s st l x hst hl hx
    simp only [successorEdges, hst, Checked.ok_bind] at hl
    rw [listed_of_stat hst]
    exact Checked.mem_of_filterM hl (List.mem_of_getElem? hx)
  simp only [thenEdge?, headEdges, hst, hfirst, Checked.ok_bind, Checked.bind_eq_ok,
    Checked.pure_eq_ok] at hthen
  simp only [exitEdge?, Checked.bind_eq_ok, Checked.pure_eq_ok] at helse
  obtain ⟨l, hl, hthen⟩ := hthen
  obtain ⟨l', hl', helse⟩ := helse
  exact ⟨hedges hht hl hthen, hedges hst hl' helse, henters _ _ .refl ⟨st, hst, hfirst⟩⟩

namespace CleanCut

variable {r : Removal} {g₁ g₂ : Graph} {detached₁ : EdgeId → Prop}

/-- The loop takes over its exit before the statement is taken out. -/
theorem liftExit_before (h : CleanCut r g' K loop detached) (hshed : Sheds loop r.edges r.graph g₁)
    (hexit : r.exit = some e) (hmem : e ∈ r.edges) (hs : r.graph.Live s)
    (he : e ∈ r.graph.listed k s) (hg : g₁.liftExit loop e = .ok g₂) :
    ∃ detached₂, Parted g₂ detached₂ (r.side g') := by
  refine (h.parted_of_sheds hshed).liftExit (.inr hmem) (.inl (.inr h.inTree_loop))
    (fun edge hedge k x hk hat => ?_) (fun st₁ p hst₁ hp => .inl (.inr ?_)) hg
  · rw [hshed.edge] at hedge
    exact Removal.side_of_live (h.exit_live hexit hs he hedge k x hk hat) k
  · obtain ⟨st, hst, hparent, -⟩ :=
      links_eq_ok ((hshed.sameLinks loop).symm.trans (links_of_stat hst₁))
    obtain ⟨hpTree, hpl⟩ := h.forest.inTree_parent h.inTree hst (hparent.trans hp)
    exact h.inTree_of_not_within hpTree fun hw => h.not_within_loop (hw.tail hpl)

/-- The exit still leads to what stays after the statement was taken out. -/
theorem exit_live_after (h : CleanCut r g' K loop detached) (hshed : Sheds loop r.edges r.graph g₁)
    (hexit : r.exit = some e) (hs : r.graph.Live s) (he : e ∈ r.graph.listed k s)
    (hl : Leads (r.side g') (fun _ => g'.Live) g₁ g₂) {edge : Edge} (hedge : g₂.edge e = .ok edge) :
    ∀ k x, k ≠ .source → edge.statAt k = some x → g'.Live x := by
  intro k x hk hat
  obtain ⟨edge₁, hedge₁, hends⟩ := hl e edge hedge
  rw [hshed.edge] at hedge₁
  rcases hends k x hat with hat | ⟨hlive, -⟩
  · exact h.exit_live hexit hs he hedge₁ k x hk hat
  · exact hlive

/-- The loop takes over its exit after the statement was taken out. -/
theorem liftExit_after {K' : StatId → Prop} (h : CleanCut r g' K loop detached)
    (hF' : Forest g' K') (hP : Parted g₁ detached₁ fun _ => g'.Live) (he : detached₁ e)
    (hends : ∀ edge, g₁.edge e = .ok edge →
      ∀ k x, k ≠ .source → edge.statAt k = some x → g'.Live x)
    (hg : g₁.liftExit loop e = .ok g') : ∃ detached', Parted g' detached' fun _ => g'.Live := by
  refine hP.liftExit he (.inr h.inTree_loop) hends (fun st p hst hp => .inr ?_) hg
  obtain ⟨st', hst', -, hparent, -⟩ := (sameTree_liftExit hg).stat hst
  exact (hF'.inTree_parent h.inTree_loop hst' (hparent.trans hp)).1

/-- What led to an empty statement continues the loop, and then the statement is taken out. -/
theorem dropEmptyTail (h : CleanCut r g' K loop detached) (hlinks : SameLinks r.graph g₁)
    (hkept : r.kept = none) (hP : Parted g₁ detached₁ (r.side g'))
    (hg : g₁.dropEmptyTail loop r.old = .ok g₂) (e : SameTree g₂ g') :
    ∃ detached₂, Parted g₂ detached₂ (fun _ => g'.Live) ∧ (∀ x, detached₁ x → detached₂ x) ∧
      Leads (r.side g') (fun _ => g'.Live) g₁ g₂ := by
  obtain ⟨l, g₃, hl, h₃, hstep⟩ := dropEmptyTail_eq_ok hg
  obtain ⟨ot, hot⟩ := (hlinks.forest h.forest).exists_stat (hlinks.inTree_iff.2 h.old_facts.1)
  have hlisted : ∀ x ∈ l, x ∈ g₁.listed .destination r.old := fun x hx => by
    rw [listed_of_stat hot]
    exact hl ot hot x hx
  have hTS : ∀ k x, g'.Live x → r.side g' k x := fun k _ hx => Removal.side_of_live hx k
  have l₃ : Leads (r.side g') (fun _ => g'.Live) g₁ g₃ := .foldlM hTS h₃
    (fun x hx => hP.startsIn (r := .destination) (.inr rfl) (hlisted x hx))
    fun x _ _ _ hx hstep => .continueLoop hTS hx (fun _ => .inr h.inTree_loop) hstep
  have s₃ : Synced g₃ detached₁ := Checked.foldlM_keeps (Synced · detached₁) h₃ hP.synced
    fun x hx _ _ hb hstep => hb.continueLoop (hP.synced.not_detached (hlisted x hx)) hstep
  have t₃ : SameTree g₁ g₃ := .foldlM h₃ fun x _ _ _ hx => sameTree_continueLoop hx
  obtain ⟨detached₂, hP₂, hsub, hl₂⟩ := h.pruneStep (hlinks.trans t₃.sameLinks)
    (hP.of_leads hTS s₃ l₃) (hkept ▸ hstep) e
  exact ⟨detached₂, hP₂, hsub, l₃.trans hl₂⟩

theorem whileNot {t : LoopTest} {first : Option StatId}
    (h : CleanCut (t.removal g first t.body t.leadingExit) g' K loop detached)
    (htest : g.loopTest? t.stat acceptsLeading = .ok (some t)) (hbody : t.body = none)
    (hg : g.whileNot loop t = .ok g') : ∃ detached', Parted g' detached' fun _ => g'.Live := by
  obtain ⟨g₁, g₂, hshed, hlift, hstep⟩ := whileNot_eq_ok hg
  obtain ⟨hthen, -, hhead⟩ := mem_listed_of_loopTest h.enters_old htest
  have hexit : t.leadingExit = t.thenEdge := by simp [LoopTest.leadingExit, hbody]
  have hlinks := hshed.sameLinks.trans (sameTree_liftExit hlift).sameLinks
  obtain ⟨detached₂, hP₂⟩ := h.liftExit_before hshed (congrArg some hexit)
    (by simp [LoopTest.removal]) (.inr (h.old_facts.1.child hhead)) hthen hlift
  obtain ⟨detached', hP', -⟩ := h.pruneStep hlinks hP₂ (hbody ▸ hstep) (.refl g')
  exact ⟨detached', hP'⟩

theorem whileGuard {t : LoopTest} {first : Option StatId} {body : StatId}
    (h : CleanCut (t.removal g first t.body t.leadingExit) g' K loop detached)
    (htest : g.loopTest? t.stat acceptsLeading = .ok (some t)) (hbody : t.body = some body)
    (hg : g.whileGuard loop t body = .ok g') :
    ∃ detached', Parted g' detached' fun _ => g'.Live := by
  obtain ⟨exitEdge, g₁, g₂, hedge, hshed, hlift, hg⟩ := whileGuard_eq_ok hg
  obtain ⟨-, helse, -⟩ := mem_listed_of_loopTest h.enters_old htest
  have hold := h.old_facts.1
  have hexit : t.leadingExit = t.elseEdge := by simp [LoopTest.leadingExit, hbody]
  have hlinks := hshed.sameLinks.trans (sameTree_liftExit hlift).sameLinks
  obtain ⟨detached₂, hP₂⟩ := h.liftExit_before hshed (congrArg some hexit)
    (by simp [LoopTest.removal]) (.inr hold) helse hlift
  rcases hg with ⟨-, st, hst, hnone⟩ | ⟨g₃, g₄, breaks, hstep, hbreaks, hraise, hlower⟩
  · exact absurd hnone (h.parent_ne_none hlinks hst)
  have t₃ : SameTree g₃ g₄ := .foldlM hraise fun x _ _ _ hx => sameTree_raiseClosure hx
  have t₄ : SameTree g₄ g' := sameTree_lowerBreaksIn hlower
  obtain ⟨detached₃, hP₃, -⟩ := h.pruneStep hlinks hP₂ (hbody ▸ hstep) (t₃.trans t₄)
  -- breaks to where the loop is left start in the tree
  have hout : g'.Live exitEdge.destination :=
    h.exit_live (congrArg some hexit) (.inr hold) helse hedge .destination _ (by decide) rfl
  have hlisted : ∀ x ∈ breaks, x ∈ g₃.listed .destination exitEdge.destination := by
    intro x hx
    simp only [predecessorEdges, Checked.bind_eq_ok] at hbreaks
    obtain ⟨st, hst, hbreaks⟩ := hbreaks
    rw [listed_of_stat hst]
    exact Checked.mem_of_filterM hbreaks hx
  have l₄ : Leads (fun _ => g'.Live) (fun _ => g'.Live) g₃ g₄ := .foldlM (fun _ _ hx => hx) hraise
    (fun x hx => hP₃.startsIn hout (hlisted x hx))
    fun x _ _ _ hx hstep => .raiseClosure hx (.inr h.inTree_loop) hstep
  have s₄ : Synced g₄ detached₃ := Checked.foldlM_keeps (Synced · detached₃) hraise hP₃.synced
    fun x hx _ _ hb hstep => hb.raiseClosure (hP₃.synced.not_detached (hlisted x hx)) hstep
  refine ⟨detached₃, (hP₃.of_leads (fun _ _ hx => hx) s₄ l₄).lowerBreaksIn (fun x hx _ => .inr ?_)
    (t₄.sameLinks.inTree_iff.1 h.inTree_loop) hlower⟩
  exact t₄.sameLinks.inTree_iff.2 hx

theorem doWhileTest {t : LoopTest} {first : Option StatId} {ht : Stat} {leavesOnTrue : Bool}
    {K' : StatId → Prop}
    (h : CleanCut (t.removal g first (t.keptBlock ht) (t.trailingExit leavesOnTrue)) g' K loop
      detached) (hF' : Forest g' K')
    (htest : g.loopTest? t.stat acceptsTrailing = .ok (some t)) (hht : g.stat t.headBlock = .ok ht)
    (hg : g.doWhileTest loop t leavesOnTrue = .ok g') :
    ∃ detached', Parted g' detached' fun _ => g'.Live := by
  obtain ⟨g₁, g₂, hshed, hlift, hg⟩ := doWhileTest_eq_ok hht hg
  obtain ⟨hthen, helse, hhead⟩ := mem_listed_of_loopTest h.enters_old htest
  have hold := h.old_facts.1
  have hlinks := hshed.sameLinks
  have hP₁ := h.parted_of_sheds hshed
  obtain ⟨s, hs, hmem, hlisted⟩ : ∃ s, g.Live s ∧
      t.trailingExit leavesOnTrue ∈ [t.thenEdge, t.elseEdge] ∧
      t.trailingExit leavesOnTrue ∈ g.listed .source s := by
    cases leavesOnTrue with
    | true => exact ⟨_, .inr (hold.child hhead), by simp [LoopTest.trailingExit], hthen⟩
    | false => exact ⟨_, .inr hold, by simp [LoopTest.trailingExit], helse⟩
  rcases hg with ⟨hkept, hg⟩ | ⟨rfl, st, hst, hnone⟩ | ⟨g₃, x, hkept, hstep, hadd⟩
  · obtain ⟨detached₂, hP₂, hsub, hl⟩ :=
      h.dropEmptyTail hlinks hkept hP₁ hg (sameTree_liftExit hlift)
    exact h.liftExit_after hF' hP₂ (hsub _ (.inr hmem))
      (fun _ hedge => h.exit_live_after hshed rfl hs hlisted hl hedge) hlift
  · exact absurd hnone (h.parent_ne_none hlinks hst)
  · obtain ⟨detached₃, hP₃, hsub, hl⟩ := h.pruneStep hlinks hP₁ (hkept ▸ hstep)
      ((sameTree_addEdge hadd).trans (sameTree_liftExit hlift))
    have hnew : ∀ k y, Edge.statAt ⟨.continueTo, t.headBlock, loop, some loop, true, true⟩ k =
        some y → g'.Live y := by
      intro k y hat
      cases k with
      | source => exact .inr (Option.some.inj hat ▸ h.inTree_kept hkept)
      | _ => exact .inr (Option.some.inj hat ▸ h.inTree_loop)
    refine h.liftExit_after hF' (hP₃.addEdge hnew hadd) (hsub _ (.inr hmem)) (fun edge hedge => ?_)
      hlift
    rw [edge_addEdge hadd] at hedge
    split at hedge
    · cases hedge
      exact fun k y _ hat => hnew k y hat
    · exact h.exit_live_after hshed rfl hs hlisted hl hedge

end CleanCut

/-! ## Runs -/

/-- The leaf of a step is taken out. -/
theorem cutsBelow_dropEmptyTail {body leaf : StatId} {l : List EdgeId} {g₁ : Graph}
    (hbody : g.ChildOf loop body) (hleaf : g.lastLeaf? body = .ok (some leaf))
    (hshed : Sheds loop l g g₁)
    (hg : g₁.dropEmptyTail loop leaf = .ok g') : CutsBelow g g' loop leaf none := by
  obtain ⟨f, cuts, r⟩ := hshed.refits
  obtain ⟨g₂, e, hstep⟩ := pruneStep_dropEmptyTail hg
  exact ⟨.head' hbody (within_lastLeafIn hleaf), nofun, _, _, g₂, g',
    r.trans (.of_sameTree loop e), hstep, .refl g'⟩

/-- A tree without dangling edges. -/
structure Anchored (g : Graph) (K : StatId → Prop) : Prop where
  /-- The statements are a tree. -/
  coherent : Coherent g K
  /-- No attached edge crosses from the tree to what is outside of it. -/
  parted : ∃ detached, Parted g detached fun _ => g.Live

/-- Nothing happens to edges and to the tree. -/
theorem Parted.of_same (h : Parted g detached fun _ => g.Live) (e : SameEdges g g')
    (hlinks : SameLinks g g') : Parted g' detached fun _ => g'.Live :=
  (h.of_sameEdges e).congr fun _ _ _ => or_congr_right hlinks.inTree_iff

/-- One rewrite with clean removals leaves no edge dangling. -/
theorem anchored_rewrite (h : Anchored g K) (hloop : g.InTree loop)
    (hg : Rewrite Removal.Clean loop options g g') :
    (∃ K', Anchored g' K' ∧ ∀ s, K s → K' s) ∧ g'.InTree loop := by
  have hC := h.coherent
  obtain ⟨detached, hP⟩ := h.parted
  have hF := hC.forest
  cases hg with
  | @leading t st hst hfound htest hwhile hclean =>
    obtain ⟨hat, hmoves⟩ := testMoves_leading hfound htest hwhile
    have hcut := hmoves.cutsBelow hC hloop (hat (hC.entersChildren hloop))
    have hclean : CleanCut (t.removal g st.first t.body t.leadingExit) g' K loop detached :=
      ⟨hC, hloop, hcut, removal_vacant hst, hP, hclean⟩
    obtain ⟨⟨K', hC', hK'⟩, hloop'⟩ := hcut.coherent hC hloop
    refine ⟨⟨K', ⟨hC', ?_⟩, hK'⟩, hloop'⟩
    rcases hwhile with ⟨hbody, hg⟩ | ⟨body, hbody, hg⟩
    · exact hclean.whileNot htest hbody hg
    · exact hclean.whileGuard htest hbody hg
  | @trailing t st ht leavesOnTrue hst hfound htest hht hdo hclean =>
    obtain ⟨ht', hht', hat, hmoves⟩ := testMoves_trailing hfound htest hdo
    rw [hht] at hht'
    cases hht'
    have hcut := hmoves.cutsBelow hC hloop (hat (hC.entersChildren hloop))
    obtain ⟨⟨K', hC', hK'⟩, hloop'⟩ := hcut.coherent hC hloop
    have hclean : CleanCut (t.removal g st.first (t.keptBlock ht) (t.trailingExit leavesOnTrue)) g'
        K loop detached := ⟨hC, hloop, hcut, removal_vacant hst, hP, hclean⟩
    exact ⟨⟨K', ⟨hC', hclean.doWhileTest hC'.forest htest hht hdo⟩, hK'⟩, hloop'⟩
  | elements hform =>
    obtain ⟨element, source, cuts, t⟩ := takesElements_forEachForm hform
    have hlinks := t.refits.sameLinks
    exact ⟨⟨K, ⟨hC.of_refits t.refits, detached, hP.of_same (.forEachForm hform) hlinks⟩,
      fun _ hs => hs⟩, hlinks.inTree_iff.2 hloop⟩
  | step hform hclean =>
    obtain ⟨st, body, leaf, lt, hst, hfirst, hleaf, hlt, hshed | ⟨g₁, hshed, hg⟩⟩ :=
      forForm_phases hform
    · obtain ⟨f, cuts, g₁, e, r, h⟩ := hshed
      cases h
      exact ⟨⟨K, ⟨hC.of_refits r, detached, hP.of_same e r.sameLinks⟩, fun _ hs => hs⟩,
        r.sameLinks.inTree_iff.2 hloop⟩
    · have hbody := hC.entersChildren hloop loop body .refl ⟨st, hst, hfirst⟩
      have hcut := cutsBelow_dropEmptyTail hbody hleaf hshed hg
      obtain ⟨⟨K', hC', hK'⟩, hloop'⟩ := hcut.coherent hC hloop
      have hclean : CleanCut (stepRemoval g st.first leaf lt) g' K loop detached :=
        ⟨hC, hloop, hcut, (stepRemoval_vacant hst).trans ⟨fun hne => ⟨rfl, hne⟩, And.right⟩, hP,
          hclean st body leaf lt hst hfirst hleaf hlt (hcut.parent_old hC hloop)⟩
      obtain ⟨detached', hP', -⟩ := hclean.dropEmptyTail hshed.sameLinks rfl
        (hclean.parted_of_sheds hshed) hg (.refl g')
      exact ⟨⟨K', ⟨hC', detached', hP'⟩, hK'⟩, hloop'⟩

/-- **No edge is left dangling** by a run all removals of which are clean. -/
theorem recogniseLoops_noDangling {n : ℕ} (htree : g.TreeConsistent) (hsync : g.InSync)
    (hdangling : g.NoDangling)
    (hclean : Returns (g.removals options) fun l => ∀ r ∈ l, r.Clean)
    (h : g.recogniseLoops options = .ok (g', n)) :
    g'.TreeConsistent ∧ g'.InSync ∧ g'.NoDangling := by
  have hC := htree.coherent
  obtain ⟨detached, hs⟩ := inSync_iff.1 hsync
  have hI : Anchored g g.InTree := ⟨hC, detached, (noDangling_iff hC.forest hs).1 hdangling⟩
  obtain ⟨K', hC', detached', hP'⟩ := recogniseLoops_keeps (I := Anchored)
    (fun _ _ hI => hI.coherent.forest) (fun _ _ _ _ hI hloop hg => anchored_rewrite hI hloop hg)
    hclean hI h
  exact ⟨hC'.treeConsistent, inSync_iff.2 ⟨_, hP'.synced⟩,
    (noDangling_iff hC'.forest hP'.synced).2 hP'⟩

theorem recogniseLoops_noDangling_countingMethod :
    (countingMethod.TreeConsistent ∧ countingMethod.InSync ∧ countingMethod.NoDangling ∧
      Returns (countingMethod.removals .default) fun l =>
        l.map (fun r => (r.old, r.edges)) = [(⟨6⟩, [⟨1⟩, ⟨2⟩]), (⟨8⟩, [⟨3⟩])] ∧
          ∀ r ∈ l, r.Clean) ∧
      Returns (countingMethod.recogniseLoops .default) fun r =>
        r.1.TreeConsistent ∧ r.1.InSync ∧ r.1.NoDangling := by
  have htree : countingMethod.TreeConsistent := by decide +kernel
  have hsync : countingMethod.InSync := by decide +kernel
  have hdangling : countingMethod.NoDangling := by decide +kernel
  have hremovals : Returns (countingMethod.removals .default) fun l =>
      l.map (fun r => (r.old, r.edges)) = [(⟨6⟩, [⟨1⟩, ⟨2⟩]), (⟨8⟩, [⟨3⟩])] ∧
        ∀ r ∈ l, r.Clean := by decide +kernel
  have hrun : Returns (countingMethod.recogniseLoops .default) fun _ => True := by decide +kernel
  obtain ⟨r, hr, -⟩ := hrun
  exact ⟨⟨htree, hsync, hdangling, hremovals⟩, r, hr,
    recogniseLoops_noDangling htree hsync hdangling (hremovals.mono fun _ h => h.2) hr⟩

/-- The body of a method with a loop in a `try`, the test of which may throw:
`try { do { if (In.done()) break; Out.work(); } } catch { }`. -/
def exceptionalTest : Graph where
  stats := ⟨#[
    ⟨.exit, none, none, [], [], [], [⟨0⟩], []⟩,
    ⟨.root, none, some ⟨8⟩, [⟨8⟩], [], [], [], []⟩,
    ⟨.block [], some ⟨3⟩, none, [], [], [⟨0⟩, ⟨3⟩], [], []⟩,
    ⟨.branch ⟨⟨1⟩, none, none, .plain⟩, some ⟨5⟩, some ⟨2⟩, [⟨2⟩], [], [⟨1⟩], [], []⟩,
    ⟨.block [⟨2⟩], some ⟨5⟩, none, [], [], [⟨2⟩], [⟨1⟩], []⟩,
    ⟨.sequence, some ⟨6⟩, some ⟨3⟩, [⟨3⟩, ⟨4⟩], [], [], [], []⟩,
    ⟨.loop ⟨.endless, none, none, none⟩, some ⟨8⟩, some ⟨5⟩, [⟨5⟩], [], [], [⟨2⟩], [⟨0⟩, ⟨2⟩]⟩,
    ⟨.block [], some ⟨8⟩, none, [], [], [], [⟨3⟩], []⟩,
    ⟨.tryCatch [], some ⟨1⟩, some ⟨6⟩, [⟨6⟩, ⟨7⟩], [], [], [], []⟩]⟩
  edges := ⟨#[
    ⟨.breakTo, ⟨2⟩, exit, some ⟨6⟩, true, true⟩,
    ⟨.regular, ⟨3⟩, ⟨4⟩, none, true, true⟩,
    ⟨.continueTo, ⟨4⟩, ⟨6⟩, some ⟨6⟩, true, true⟩,
    ⟨.exception, ⟨2⟩, ⟨7⟩, none, true, true⟩]⟩
  exprs := ⟨#[
    ⟨.call ⟨"In", "done", "()Z", none, []⟩, .empty⟩,
    ⟨.test ⟨0⟩, .empty⟩,
    ⟨.call ⟨"Out", "work", "()V", none, []⟩, .empty⟩]⟩

/-- The test goes to the loop and the block in front of it leaves the tree, but the edge from that
block to the handler stays attached. -/
theorem dangling_of_exceptional_test :
    (exceptionalTest.TreeConsistent ∧ exceptionalTest.InSync ∧ exceptionalTest.NoDangling) ∧
      Returns (exceptionalTest.recogniseLoops .default) fun r => ¬ r.1.NoDangling := by
  decide +kernel

end Decompiler.Graph

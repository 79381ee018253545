import Decompiler.Proofs.Graph.EdgeLists

/-!
# Edges that stay on one side

A set of statements splits the attached edges of a graph: those that touch it with every end, those
that touch it with none, and those that cross. Where none crosses, the rest of the graph can be cut
off without leaving an edge behind.

* `Graph.Parted`: no attached edge crosses. The set may differ from one end of an edge to another.
* `Graph.Leads`: the ends of the edges that start in the set are led elsewhere within it. This is
  all that operations on attached edges do, and it keeps the edges apart (`Graph.Parted.of_leads`).
* `Graph.Parted.replaceStat`, `Graph.Parted.removeStat`: operations on statements of the set keep
  the edges apart, and leave the statement that was taken out without edges.
-/

namespace Decompiler

/-- The ends of an edge lie in the set all together, or none of them does. -/
def Edge.OneSided (S : EdgeEnd → StatId → Prop) (edge : Edge) : Prop :=
  ∀ r x, edge.statAt r = some x → (S r x ↔ S .source edge.source)

namespace Graph

variable {g g' g'' : Graph} {S S' T : EdgeEnd → StatId → Prop} {s d old new parent : StatId}
  {e : EdgeId} {edge : Edge} {r : EdgeEnd} {detached : EdgeId → Prop}

/-! ## Reading edges after a change -/

theorem edges_unlabel (h : g.unlabel e = .ok g') : g'.edges = g.edges := by
  simp only [unlabel, Checked.bind_eq_ok] at h
  obtain ⟨edge, -, h⟩ := h
  split at h
  · exact Checked.pure_eq_ok.1 h ▸ rfl
  · obtain ⟨-, -, -, hedges, -⟩ := stat_modifyStat h
    exact hedges

theorem edges_detachEdge (h : g.detachEdge e = .ok g') : g'.edges = g.edges := by
  simp only [detachEdge, Checked.bind_eq_ok] at h
  obtain ⟨edge, -, g₁, h₁, g₂, h₂, h⟩ := h
  obtain ⟨-, -, -, hedges₁, -⟩ := stat_modifyStat h₁
  obtain ⟨-, -, -, hedges₂, -⟩ := stat_modifyStat h₂
  split at h
  · exact Checked.pure_eq_ok.1 h ▸ hedges₂.trans hedges₁
  · obtain ⟨-, -, -, hedges₃, -⟩ := stat_modifyStat h
    exact hedges₃.trans (hedges₂.trans hedges₁)

theorem edges_detachAll {l : List EdgeId} (h : l.foldlM detachEdge g = .ok g') :
    g'.edges = g.edges :=
  Checked.foldlM_keeps (fun g₁ => g₁.edges = g.edges) h rfl fun _ _ _ _ hb hstep =>
    (edges_detachEdge hstep).trans hb

theorem edges_attachEdge (h : g.attachEdge e = .ok g') : g'.edges = g.edges := by
  simp only [attachEdge, Checked.bind_eq_ok] at h
  obtain ⟨edge, -, g₁, h₁, g₂, h₂, h⟩ := h
  obtain ⟨-, -, -, hedges₁, -⟩ := stat_modifyStat h₁
  obtain ⟨-, -, -, hedges₂, -⟩ := stat_modifyStat h₂
  split at h
  · exact Checked.pure_eq_ok.1 h ▸ hedges₂.trans hedges₁
  · obtain ⟨-, -, -, hedges₃, -⟩ := stat_modifyStat h
    exact hedges₃.trans (hedges₂.trans hedges₁)

theorem edge_addEdge (h : g.addEdge edge = .ok (g', e)) (x : EdgeId) :
    g'.edge x = if e = x then .ok edge else g.edge x := by
  simp only [addEdge, Checked.bind_eq_ok, Checked.pure_eq_ok, Prod.mk.injEq] at h
  obtain ⟨g₁, h₁, rfl, rfl⟩ := h
  rw [Graph.edge, edges_attachEdge h₁]
  exact Arena.get_alloc g.edges edge x

/-- An edge is changed between two changes of statements. -/
theorem edge_modifyEdge_of_edges_eq {g₁ g₂ : Graph} {f : Edge → Edge} (h₁ : g₁.edges = g.edges)
    (h : g₁.modifyEdge e f = .ok g₂) (h₂ : g'.edges = g₂.edges) :
    ∃ edge, g.edge e = .ok edge ∧ ∀ x, g'.edge x = if e = x then .ok (f edge) else g.edge x := by
  obtain ⟨edge, hedge, hx, -⟩ := edge_modifyEdge h
  have hread : ∀ x, g₁.edge x = g.edge x := fun x => by rw [Graph.edge, h₁, Graph.edge]
  refine ⟨edge, (hread e).symm.trans hedge, fun x => ?_⟩
  rw [Graph.edge, h₂, ← hread x]
  exact hx x

theorem edge_changeDestination (h : g.changeDestination e d = .ok g') :
    ∃ edge, g.edge e = .ok edge ∧
      ∀ x, g'.edge x = if e = x then .ok { edge with destination := d } else g.edge x := by
  simp only [changeDestination, Checked.bind_eq_ok] at h
  obtain ⟨edge, -, g₁, h₁, g₂, h₂, h⟩ := h
  obtain ⟨-, -, -, hedges₁, -⟩ := stat_modifyStat h₁
  obtain ⟨-, -, -, hedges₂, -⟩ := stat_modifyStat h
  exact edge_modifyEdge_of_edges_eq hedges₁ h₂ hedges₂

theorem edge_setClosure (h : g.setClosure s e = .ok g') : ∃ edge, g.edge e = .ok edge ∧
    ∀ x, g'.edge x = if e = x then .ok { edge with closure := some s } else g.edge x := by
  simp only [setClosure, Checked.bind_eq_ok] at h
  obtain ⟨g₁, h₁, g₂, h₂, h⟩ := h
  obtain ⟨-, -, -, hedges₂, -⟩ := stat_modifyStat h
  exact edge_modifyEdge_of_edges_eq (edges_unlabel h₁) h₂ hedges₂

theorem edge_clearClosure (h : g.clearClosure e = .ok g') : ∃ edge, g.edge e = .ok edge ∧
    ∀ x, g'.edge x = if e = x then .ok { edge with closure := none } else g.edge x := by
  simp only [clearClosure, Checked.bind_eq_ok] at h
  obtain ⟨g₁, h₁, h⟩ := h
  exact edge_modifyEdge_of_edges_eq (edges_unlabel h₁) h rfl

/-! ## Where edges are led -/

/-- The edge, if it is one, starts in the set. -/
def StartsIn (g : Graph) (S : EdgeEnd → StatId → Prop) (e : EdgeId) : Prop :=
  ∀ edge, g.edge e = .ok edge → S .source edge.source

/-- Every end of an edge stays where it was or, if the edge started in `S`, is led to `T`. -/
def Leads (S T : EdgeEnd → StatId → Prop) (g g' : Graph) : Prop :=
  ∀ e edge', g'.edge e = .ok edge' → ∃ edge, g.edge e = .ok edge ∧
    ∀ r x, edge'.statAt r = some x → edge.statAt r = some x ∨ (T r x ∧ S .source edge.source)

namespace Leads

theorem of_edges_eq (h : g'.edges = g.edges) : Leads S T g g' := by
  intro e edge hedge
  rw [Graph.edge, h] at hedge
  exact ⟨edge, hedge, fun r x hat => .inl hat⟩

theorem trans (h : Leads S T g g') (h' : Leads S T g' g'') : Leads S T g g'' := by
  intro e edge'' hedge''
  obtain ⟨edge', hedge', hends'⟩ := h' e edge'' hedge''
  obtain ⟨edge, hedge, hends⟩ := h e edge' hedge'
  refine ⟨edge, hedge, fun r x hat => ?_⟩
  rcases hends' r x hat with hat' | ⟨hx, hsource⟩
  · exact hends r x hat'
  · refine .inr ⟨hx, ?_⟩
    rcases hends .source edge'.source rfl with hsame | ⟨-, hsource'⟩
    · rwa [← Option.some.inj hsame] at hsource
    · exact hsource'

theorem of_read {edge' : Edge} (he : g.StartsIn S e) (hedge : g.edge e = .ok edge)
    (hx : ∀ x, g'.edge x = if e = x then .ok edge' else g.edge x)
    (hends : ∀ r x, edge'.statAt r = some x → edge.statAt r = some x ∨ T r x) :
    Leads S T g g' := by
  intro x edge₁ hedge₁
  rw [hx] at hedge₁
  split at hedge₁
  · next hex =>
    subst hex
    cases hedge₁
    exact ⟨edge, hedge, fun r x hat => (hends r x hat).imp_right fun h => ⟨h, he edge hedge⟩⟩
  · exact ⟨edge₁, hedge₁, fun r x hat => .inl hat⟩

theorem changeDestination (he : g.StartsIn S e) (hd : T .destination d)
    (h : g.changeDestination e d = .ok g') : Leads S T g g' := by
  obtain ⟨edge, hedge, hx⟩ := edge_changeDestination h
  refine of_read he hedge hx fun r x hat => ?_
  cases r with
  | destination => exact .inr (Option.some.inj hat ▸ hd)
  | _ => exact .inl hat

theorem setClosure (he : g.StartsIn S e) (hs : T .closure s) (h : g.setClosure s e = .ok g') :
    Leads S T g g' := by
  obtain ⟨edge, hedge, hx⟩ := edge_setClosure h
  refine of_read he hedge hx fun r x hat => ?_
  cases r with
  | closure => exact .inr (Option.some.inj hat ▸ hs)
  | _ => exact .inl hat

theorem clearClosure (he : g.StartsIn S e) (h : g.clearClosure e = .ok g') : Leads S T g g' := by
  obtain ⟨edge, hedge, hx⟩ := edge_clearClosure h
  refine of_read he hedge hx fun r x hat => ?_
  cases r with
  | closure => cases hat
  | _ => exact .inl hat

theorem moveLabel (he : g.StartsIn S e) (hnew : T .closure new) (hparent : T .closure parent)
    (h : Graph.moveLabel parent new g e = .ok g') : Leads S T g g' := by
  simp only [Graph.moveLabel, Checked.bind_eq_ok] at h
  obtain ⟨edge, -, h⟩ := h
  split at h
  · exact setClosure he hnew h
  · obtain ⟨inside, -, h⟩ := Checked.bind_eq_ok.1 h
    split at h
    · exact clearClosure he h
    · exact setClosure he hparent h

section Within

variable (hTS : ∀ r x, T r x → S r x)

include hTS

theorem startsIn (h : Leads S T g g') (he : g.StartsIn S e) : g'.StartsIn S e := by
  intro edge' hedge'
  obtain ⟨edge, hedge, hends⟩ := h e edge' hedge'
  rcases hends .source edge'.source rfl with hsame | ⟨hsource, -⟩
  · rw [← Option.some.inj hsame]
    exact he edge hedge
  · exact hTS _ _ hsource

/-- Edges that start in the set are changed one after the other. -/
theorem foldlM {f : Graph → EdgeId → Checked Graph} {l : List EdgeId}
    (h : l.foldlM f g = .ok g') (hl : ∀ e ∈ l, g.StartsIn S e)
    (step : ∀ e ∈ l, ∀ g₁ g₂, g₁.StartsIn S e → f g₁ e = .ok g₂ → Leads S T g₁ g₂) :
    Leads S T g g' :=
  Checked.foldlM_keeps (Leads S T g) h (.of_edges_eq rfl) fun e he g₁ g₂ hb hstep =>
    hb.trans (step e he g₁ g₂ (hb.startsIn hTS (hl e he)) hstep)

theorem moveSuccessors (hl : ∀ e ∈ g.listed .source old, g.StartsIn S e) (hnew : T .source new)
    (h : g.moveSuccessors old new = .ok g') : Leads S T g g' := by
  simp only [Graph.moveSuccessors, Checked.bind_eq_ok] at h
  obtain ⟨st, hst, g₁, h₁, h⟩ := h
  obtain ⟨-, -, -, hedges, -⟩ := stat_modifyStat h₁
  have l₁ : Leads S T g g₁ := .of_edges_eq hedges
  refine l₁.trans (.foldlM hTS h (fun e he => l₁.startsIn hTS (hl e ?_))
    fun e _ g₂ g₃ he hstep => ?_)
  · rw [listed_of_stat hst]
    exact he
  · simp only [Checked.bind_eq_ok] at hstep
    obtain ⟨g₄, h₄, hstep⟩ := hstep
    obtain ⟨-, -, -, hedges₃, -⟩ := stat_modifyStat hstep
    obtain ⟨edge, hedge, hx⟩ := edge_modifyEdge_of_edges_eq (g := g₂) rfl h₄ hedges₃
    refine of_read he hedge hx fun r x hat => ?_
    cases r with
    | source => exact .inr (Option.some.inj hat ▸ hnew)
    | _ => exact .inl hat

/-- An edge is still on one side. -/
theorem oneSided (h : Leads S T g g') (hg : ∀ edge, g.edge e = .ok edge → edge.OneSided S)
    {edge' : Edge} (hedge' : g'.edge e = .ok edge') : edge'.OneSided S := by
  obtain ⟨edge, hedge, hends⟩ := h e edge' hedge'
  have hside : ∀ r x, edge'.statAt r = some x → (S r x ↔ S .source edge.source) := by
    intro r x hat
    rcases hends r x hat with hat | ⟨hx, hsource⟩
    · exact hg edge hedge r x hat
    · exact iff_of_true (hTS r x hx) hsource
  exact fun r x hat => (hside r x hat).trans (hside .source _ rfl).symm

end Within

end Leads

/-! ## Graphs without crossing edges -/

/-- The lists of edges are in sync, and no attached edge crosses from one side to the other. -/
structure Parted (g : Graph) (detached : EdgeId → Prop) (S : EdgeEnd → StatId → Prop) : Prop where
  /-- Lists and edges agree. -/
  synced : Synced g detached
  /-- An attached edge is on one side. -/
  oneSided : ∀ e edge, ¬ detached e → g.edge e = .ok edge → edge.OneSided S

namespace Parted

theorem of_sameEdges (h : Parted g detached S) (hs : SameEdges g g') : Parted g' detached S :=
  ⟨h.synced.of_sameEdges hs, fun x edge hx hedge => h.oneSided x edge hx (hs.edge x ▸ hedge)⟩

theorem of_leads (h : Parted g detached S) (hTS : ∀ r x, T r x → S r x)
    (hs : Synced g' detached) (hl : Leads S T g g') : Parted g' detached S :=
  ⟨hs, fun x _ hx hedge => hl.oneSided hTS (fun edge => h.oneSided x edge hx) hedge⟩

/-- It does not matter on which side a statement is that lists no edges. -/
theorem congr (h : Parted g detached S)
    (hS : ∀ r s, g.listed r s ≠ [] → (S' r s ↔ S r s)) : Parted g detached S' := by
  refine ⟨h.synced, fun x edge hx hedge => ?_⟩
  have hside : ∀ r s, edge.statAt r = some s → (S' r s ↔ S r s) := fun r s hat =>
    hS r s (List.ne_nil_of_mem ((h.synced.linked.mem_iff r s x).2 ⟨hx, edge, hedge, hat⟩))
  intro r s hat
  rw [hside r s hat, hside .source _ rfl]
  exact h.oneSided x edge hx hedge r s hat

/-- What a statement of the set lists starts in the set. -/
theorem startsIn (h : Parted g detached S) (hs : S r s) (he : e ∈ g.listed r s) :
    g.StartsIn S e := by
  intro edge hedge
  obtain ⟨hx, edge', hedge', hat⟩ := (h.synced.linked.mem_iff r s e).1 he
  rw [hedge] at hedge'
  cases hedge'
  exact (h.oneSided e edge hx hedge r s hat).1 hs

theorem detachAll {l : List EdgeId} (h : Parted g detached S)
    (hg : l.foldlM Graph.detachEdge g = .ok g') : Parted g' (fun x => detached x ∨ x ∈ l) S := by
  refine ⟨h.synced.detachAll hg, fun x edge hx hedge =>
    h.oneSided x edge (fun hd => hx (.inl hd)) ?_⟩
  rwa [Graph.edge, edges_detachAll hg] at hedge

/-- A new edge within the set. -/
theorem addEdge (h : Parted g detached S) (hends : ∀ r x, edge.statAt r = some x → S r x)
    (hg : g.addEdge edge = .ok (g', e)) : Parted g' detached S := by
  refine ⟨h.synced.addEdge hg, fun x edge' hx hedge' => ?_⟩
  rw [edge_addEdge hg] at hedge'
  split at hedge'
  · cases hedge'
    exact fun r y hat => iff_of_true (hends r y hat) (hends .source _ rfl)
  · exact h.oneSided x edge' hx hedge'

/-! ## Statements -/

/-- A statement of the set gives its place to another one, which takes over all of its edges. -/
theorem replaceStat (h : Parted g detached S) (hTS : ∀ r x, T r x → S r x) (hne : old ≠ new)
    (hpo : old ≠ parent) (hold : ∀ r, S r old) (hnew : ∀ r, T r new) (hparent : T .closure parent)
    (hg : g.replaceStat parent old new = .ok g') :
    Parted g' detached S ∧ Leads S T g g' ∧ ∀ r, g'.listed r old = [] := by
  obtain ⟨hnil, hs'⟩ := h.synced.replaceStat hne hg
  simp only [Graph.replaceStat, Checked.bind_eq_ok] at hg
  obtain ⟨ot, hot, g₁, h₁, g₂, h₂, g₃, h₃, g₄, h₄, g₅, h₅, ot', hot', g₆, h₆, h₇⟩ := hg
  have hpred : g.listed .destination old = ot.predecessors := listed_of_stat hot _
  have l₁ : Leads S T g g₁ := .foldlM hTS h₁
    (fun e he => h.startsIn (hold .destination) (hpred.symm ▸ he))
    fun e _ _ _ he hstep => .changeDestination he (hnew .destination) hstep
  have p₁ := h.of_leads hTS (h.synced.movePredecessors hne hot h₁).1 l₁
  have l₂ : Leads S T g₁ g₂ :=
    .moveSuccessors hTS (fun e he => p₁.startsIn (hold .source) he) (hnew .source) h₂
  have p₂ := p₁.of_leads hTS (p₁.synced.moveSuccessors hne h₂).1 l₂
  have e₅ : SameEdges g₂ g₅ := by
    refine .trans (.modifyStat h₃ fun st r => ?_) (.trans (.modifyStat h₄ fun st r => ?_)
      (.modifyStat h₅ fun st r => ?_)) <;> cases r <;> rfl
  have hlabels : g₅.listed .closure old = ot'.labels := listed_of_stat hot' _
  have l₆ : Leads S T g₅ g₆ := .foldlM hTS h₆
    (fun e he => (p₂.of_sameEdges e₅).startsIn (hold .closure)
      (hlabels.symm ▸ List.mem_reverse.1 he))
    fun e _ _ _ he hstep => .moveLabel he (hnew .closure) hparent hstep
  obtain ⟨-, -, -, e₇, -⟩ := stat_modifyStat h₇
  have hl : Leads S T g g' :=
    l₁.trans (l₂.trans (.trans (.of_edges_eq e₅.edges) (l₆.trans (.of_edges_eq e₇))))
  exact ⟨h.of_leads hTS (hs' hpo) hl, hl, hnil⟩

/-- A statement is taken out with the edges that leave it or lead to it. -/
theorem removeStat (h : Parted g detached S) (hg : g.removeStat s = .ok g') :
    ∃ detached', Parted g' detached' S ∧ (∀ x, detached x → detached' x) ∧ g'.edges = g.edges ∧
      ∀ r, r ≠ .closure → g'.listed r s = [] := by
  simp only [Graph.removeStat, Checked.bind_eq_ok] at hg
  obtain ⟨st, hst, g₁, h₁, st₁, hst₁, g₂, h₂, st₂, -, hg⟩ := hg
  have e₂ : SameEdges g₂ g' := by
    split at hg
    · exact Checked.pure_eq_ok.1 hg ▸ .refl g₂
    · exact .removeChild hg
  have p₁ := h.detachAll h₁
  have p' := (p₁.detachAll h₂).of_sameEdges e₂
  have hedges : g'.edges = g.edges :=
    e₂.edges.trans ((edges_detachAll h₂).trans (edges_detachAll h₁))
  refine ⟨_, p', fun x hx => .inl (.inl hx), hedges, fun r hr => ?_⟩
  refine List.eq_nil_iff_forall_not_mem.2 fun x hx => ?_
  obtain ⟨hnd, edge, hedge, hat⟩ := (p'.synced.linked.mem_iff r s x).1 hx
  rw [not_or, not_or] at hnd
  obtain ⟨⟨hd, hsucc⟩, hpred⟩ := hnd
  rw [Graph.edge, hedges] at hedge
  cases r with
  | source =>
    have hmem := (h.synced.linked.mem_iff .source s x).2 ⟨hd, edge, hedge, hat⟩
    rw [listed_of_stat hst] at hmem
    exact hsucc hmem
  | destination =>
    rw [← edges_detachAll h₁] at hedge
    have hmem := (p₁.synced.linked.mem_iff .destination s x).2
      ⟨not_or.2 ⟨hd, hsucc⟩, edge, hedge, hat⟩
    rw [listed_of_stat hst₁] at hmem
    exact hpred hmem
  | closure => exact hr rfl

end Parted

end Graph

end Decompiler

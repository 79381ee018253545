import Decompiler.Proofs.Graph.Intact
import Decompiler.Proofs.Loops.Pruning

/-!
# Changes of intact graphs

On an intact graph the operations on edges, statements and expressions come to a result, and the
graph is intact again.

* `Graph.Enlarges`: a change after which the graph is intact and all that was there is there.
* `Graph.Intact.modifyStat`, `Graph.Intact.modifyEdge`: the single writes that all changes are made
  of.
* `Graph.Intact.replaceStat`: a statement may be given a place below any statement that it does not
  hold; all other changes need no condition but that what they are given is in use.
-/

namespace Decompiler.Graph

open Relation

variable {g g' g'' : Graph} {s t p c : StatId} {e : EdgeId} {x : ExprId} {st : Stat}

/-- The graph is intact after the change, and all that was there is there. -/
structure Enlarges (g g' : Graph) : Prop where
  /-- The graph is intact. -/
  intact : g'.Intact
  /-- No statement is lost. -/
  stats : ∀ s ∈ g.stats.ids, s ∈ g'.stats.ids
  /-- No edge is lost. -/
  edges : ∀ e ∈ g.edges.ids, e ∈ g'.edges.ids
  /-- Expressions only gain offsets. -/
  grows : Grows g g'

namespace Enlarges

theorem refl (h : g.Intact) : Enlarges g g := ⟨h, fun _ hs => hs, fun _ he => he, .refl g⟩

theorem trans (h : Enlarges g g') (h' : Enlarges g' g'') : Enlarges g g'' :=
  ⟨h'.intact, fun s hs => h'.stats s (h.stats s hs), fun e he => h'.edges e (h.edges e he),
    h.grows.trans h'.grows⟩

theorem exprs (h : Enlarges g g') (hx : x ∈ g.exprs.ids) : x ∈ g'.exprs.ids := by
  obtain ⟨n, hn⟩ := Arena.mem_ids.1 hx
  obtain ⟨n', hn', -⟩ := h.grows x n hn
  exact Arena.mem_ids.2 ⟨n', hn'⟩

/-- One change after another. -/
theorem bind {a : Checked Graph} {f : Graph → Checked Graph} (h : Returns a (Enlarges g))
    (hf : ∀ g₁, a = .ok g₁ → Enlarges g g₁ → Returns (f g₁) (Enlarges g₁)) :
    Returns (a >>= f) (Enlarges g) :=
  h.bind fun g₁ h₁ hx => (hf g₁ h₁ hx).mono fun _ hx' => hx.trans hx'

/-- The same where the first change has another result besides. -/
theorem bind_pair {α : Type} {P : Graph × α → Prop} {a : Checked (Graph × α)}
    {f : Graph × α → Checked Graph} (h : Returns a fun r => Enlarges g r.1 ∧ P r)
    (hf : ∀ r, a = .ok r → Enlarges g r.1 → P r → Returns (f r) (Enlarges r.1)) :
    Returns (a >>= f) (Enlarges g) :=
  h.bind fun r hr ⟨hx, hP⟩ => (hf r hr hx hP).mono fun _ hx' => hx.trans hx'

/-- One change for each element of a list. -/
theorem foldlM {α : Type} {f : Graph → α → Checked Graph} {l : List α} (hI : g.Intact)
    (step : ∀ a ∈ l, ∀ g₁, Enlarges g g₁ → Returns (f g₁ a) (Enlarges g₁)) :
    Returns (l.foldlM f g) (Enlarges g) :=
  Returns.foldlM (.refl hI) fun a ha g₁ hx => (step a ha g₁ hx).mono fun _ hx' => hx.trans hx'

end Enlarges

theorem Resolves.of_ids {st : Stat} (h : g.Resolves st) (hs : ∀ s ∈ g.stats.ids, s ∈ g'.stats.ids)
    (he : ∀ e ∈ g.edges.ids, e ∈ g'.edges.ids) (hx : ∀ x ∈ g.exprs.ids, x ∈ g'.exprs.ids) :
    g'.Resolves st :=
  ⟨fun t ht => hs t (h.relatives t ht), fun r e h' => he e (h.incident r e h'),
    fun x h' => hx x (h.named x h')⟩

theorem parentOf_sameTree (h : SameTree g g') (hp : g'.ParentOf s p) : g.ParentOf s p := by
  obtain ⟨st', hst', hp⟩ := hp
  obtain ⟨st, hst, heq⟩ := bareStat_eq_ok.1 ((h.stats s).symm.trans (bareStat_of_stat hst'))
  exact ⟨st, hst, (Stat.bare_eq_iff.1 heq).2.1.trans hp⟩

theorem childOf_modifyStat {f : Stat → Stat} (h : g.modifyStat t f = .ok g')
    (hf : ∀ st, ∀ c ∈ (f st).children, c ∈ st.children) (hc : g'.ChildOf s c) : g.ChildOf s c := by
  obtain ⟨st, hst, hread, -⟩ := stat_modifyStat h
  obtain ⟨st', hst', hc⟩ := hc
  rw [hread] at hst'
  split at hst'
  · next heq =>
    cases hst'
    exact heq ▸ ⟨st, hst, hf st c hc⟩
  · exact ⟨st', hst', hc⟩

theorem parentOf_modifyStat {f : Stat → Stat} (h : g.modifyStat t f = .ok g')
    (hf : ∀ st q, (f st).parent = some q → st.parent = some q) (hp : g'.ParentOf s p) :
    g.ParentOf s p := by
  obtain ⟨st, hst, hread, -⟩ := stat_modifyStat h
  obtain ⟨st', hst', hp⟩ := hp
  rw [hread] at hst'
  split at hst'
  · next heq =>
    cases hst'
    exact heq ▸ ⟨st, hst, hf st p hp⟩
  · exact ⟨st', hst', hp⟩

namespace Intact

variable (hI : g.Intact)

include hI

/-! ## Single writes -/

/-- A statement may be changed to one that names nothing but what is there, and no new child or
parent from which a way leads back to it. -/
theorem modifyStat (hst : g.stat s = .ok st) {f : Stat → Stat} (hres : g.Resolves (f st))
    (hdown : ∀ c ∈ (f st).children, c ∈ st.children ∨ ¬ g.Within c s)
    (hup : ∀ p, (f st).parent = some p → st.parent = some p ∨ ¬ ReflTransGen g.ParentOf p s) :
    Returns (g.modifyStat s f) (Enlarges g) := by
  obtain ⟨g', h⟩ := modifyStat_returns f hst
  obtain ⟨st', hst', hread, hedges, hexprs⟩ := stat_modifyStat h
  rw [hst] at hst'
  cases hst'
  have hstats : ∀ t ∈ g.stats.ids, t ∈ g'.stats.ids := by
    intro t ht
    obtain ⟨tt, htt⟩ := Arena.mem_ids.1 ht
    rw [Arena.mem_ids]
    change ∃ tt, g'.stat t = .ok tt
    rw [hread]
    split
    · exact ⟨_, rfl⟩
    · exact ⟨tt, htt⟩
  have hresolves : ∀ {tt}, g.Resolves tt → g'.Resolves tt := fun hres =>
    hres.of_ids hstats (fun _ he => hedges ▸ he) fun _ hx => hexprs ▸ hx
  refine ⟨g', h, ⟨fun t tt htt => ?_, fun e edge he r t ht => ?_, hI.acyclic.of_exprs_eq hexprs,
    ?_,
    ?_⟩, hstats, fun _ he => hedges ▸ he, .of_exprs_eq hexprs⟩
  · rw [hread] at htt
    split at htt
    · cases htt
      exact hresolves hres
    · exact hresolves (hI.stat t tt htt)
  · rw [Graph.edge, hedges] at he
    exact hstats t (hI.edge e edge he r t ht)
  · refine acyclic_of_added (R := g.ChildOf) (s := s) ?_ hI.down
    rintro a c ⟨tt, htt, hc⟩
    rw [hread] at htt
    split at htt
    · next heq =>
      cases htt
      subst heq
      rw [childOf_iff hst]
      exact (hdown c hc).imp_right fun h => ⟨rfl, h⟩
    · exact .inl ⟨tt, htt, hc⟩
  · refine acyclic_of_added (R := g.ParentOf) (s := s) ?_ hI.up
    rintro a p ⟨tt, htt, hp⟩
    rw [hread] at htt
    split at htt
    · next heq =>
      cases htt
      subst heq
      rw [parentOf_iff hst]
      exact (hup p hp).imp_right fun h => ⟨rfl, h⟩
    · exact .inl ⟨tt, htt, hp⟩

/-- One of the lists of edges of a statement may be changed to hold other edges that are there. -/
theorem mapEdgesAt (r : EdgeEnd) (hs : s ∈ g.stats.ids) {φ : List EdgeId → List EdgeId}
    (hφ : ∀ l, ∀ e ∈ φ l, e ∈ l ∨ e ∈ g.edges.ids) :
    Returns (g.modifyStat s (Stat.mapEdgesAt r φ)) (Enlarges g) := by
  obtain ⟨st, hst⟩ := exists_stat hs
  have hres := hI.stat s st hst
  have hbare : (st.mapEdgesAt r φ).bare = st.bare := by cases r <;> rfl
  obtain ⟨hkind, hparent, hfirst, hchildren, -⟩ := Stat.bare_eq_iff.1 hbare
  refine hI.modifyStat hst ⟨?_, fun r' e he => ?_, ?_⟩ (fun c hc => .inl (hchildren ▸ hc))
    fun p hp => .inl (hparent ▸ hp)
  · rw [Stat.relatives, hkind, hparent, hfirst, hchildren]
    exact hres.relatives
  · rw [Stat.edgesAt_mapEdgesAt] at he
    split at he
    · exact (hφ _ e he).elim (hres.incident r' e) id
    · exact hres.incident r' e he
  · rw [hkind]
    exact hres.named

theorem enter (r : EdgeEnd) (hs : s ∈ g.stats.ids) (he : e ∈ g.edges.ids) :
    Returns (g.modifyStat s (Stat.mapEdgesAt r (· ++ [e]))) (Enlarges g) := by
  refine hI.mapEdgesAt r hs fun l x hx => (List.mem_append.1 hx).imp_right fun hx => ?_
  rwa [List.mem_singleton.1 hx]

theorem leave (r : EdgeEnd) (hs : s ∈ g.stats.ids) (e : EdgeId) :
    Returns (g.modifyStat s (Stat.mapEdgesAt r (List.filter (· ≠ e)))) (Enlarges g) :=
  hI.mapEdgesAt r hs fun _ _ hx => .inl (List.mem_of_mem_filter hx)

/-- An edge may be changed to one between statements that are there. -/
theorem modifyEdge (he : e ∈ g.edges.ids) {f : Edge → Edge}
    (hf : ∀ edge, g.edge e = .ok edge → ∀ r t, (f edge).statAt r = some t → t ∈ g.stats.ids) :
    Returns (g.modifyEdge e f) (Enlarges g) := by
  obtain ⟨edge, hedge⟩ := Arena.mem_ids.1 he
  obtain ⟨edges', h⟩ := Arena.modify_returns f hedge
  obtain ⟨edge', hedge', -, hread⟩ := Arena.get_modify h
  rw [hedge] at hedge'
  cases hedge'
  have hedges : ∀ e ∈ g.edges.ids, e ∈ edges'.ids := by
    intro a ha
    obtain ⟨b, hb⟩ := Arena.mem_ids.1 ha
    rw [Arena.mem_ids, hread]
    split
    · exact ⟨_, rfl⟩
    · exact ⟨b, hb⟩
  refine ⟨{ g with edges := edges' }, by simp [Graph.modifyEdge, h], ⟨fun t tt htt => ?_,
    fun a b hb => ?_, hI.acyclic.of_exprs_eq rfl, hI.down, hI.up⟩, fun _ hs => hs, hedges,
    .of_exprs_eq rfl⟩
  · exact (hI.stat t tt htt).of_ids (fun _ hs => hs) hedges fun _ hx => hx
  · change edges'.get a = .ok b at hb
    rw [hread] at hb
    split at hb
    · cases hb
      exact hf edge hedge
    · exact hI.edge a b hb

/-! ## Edges -/

theorem attachEdge (he : e ∈ g.edges.ids) : Returns (g.attachEdge e) (Enlarges g) := by
  obtain ⟨edge, hedge⟩ := exists_edge he
  have hends := hI.edge e edge hedge
  simp only [Graph.attachEdge, hedge, Checked.ok_bind]
  refine Enlarges.bind (hI.enter .source (hends .source _ rfl) he) fun g₁ _ x₁ => Enlarges.bind
    (x₁.intact.enter .destination (x₁.stats _ (hends .destination _ rfl)) (x₁.edges e he))
    fun g₂ _ x₂ => ?_
  have x := x₁.trans x₂
  split
  · exact Returns.pure_iff.2 (.refl x₂.intact)
  · next c hc => exact x₂.intact.enter .closure (x.stats c (hends .closure c hc)) (x.edges e he)

theorem detachEdge (he : e ∈ g.edges.ids) : Returns (g.detachEdge e) (Enlarges g) := by
  obtain ⟨edge, hedge⟩ := exists_edge he
  have hends := hI.edge e edge hedge
  simp only [Graph.detachEdge, hedge, Checked.ok_bind]
  refine Enlarges.bind (hI.leave .source (hends .source _ rfl) e) fun g₁ _ x₁ => Enlarges.bind
    (x₁.intact.leave .destination (x₁.stats _ (hends .destination _ rfl)) e) fun g₂ _ x₂ => ?_
  split
  · exact Returns.pure_iff.2 (.refl x₂.intact)
  · next c hc => exact x₂.intact.leave .closure ((x₁.trans x₂).stats c (hends .closure c hc)) e

theorem addEdge {edge : Edge} (hends : ∀ r t, edge.statAt r = some t → t ∈ g.stats.ids) :
    Returns (g.addEdge edge) fun r => Enlarges g r.1 := by
  have hread := Arena.get_alloc g.edges edge
  have hedges : ∀ e ∈ g.edges.ids, e ∈ (g.edges.alloc edge).1.ids := by
    intro e he
    obtain ⟨edge', he'⟩ := exists_edge he
    rw [Arena.mem_ids, hread]
    split
    · exact ⟨_, rfl⟩
    · exact ⟨edge', he'⟩
  have x : Enlarges g { g with edges := (g.edges.alloc edge).1 } := by
    refine ⟨⟨fun s st hst => ?_, fun e edge' he => ?_, hI.acyclic.of_exprs_eq rfl, hI.down, hI.up⟩,
      fun _ hs => hs, hedges, .of_exprs_eq rfl⟩
    · exact (hI.stat s st hst).of_ids (fun _ hs => hs) hedges fun _ hx => hx
    · change (g.edges.alloc edge).1.get e = .ok edge' at he
      rw [hread] at he
      split at he
      · cases he
        exact hends
      · exact hI.edge e edge' he
  have hnew : (g.edges.alloc edge).2 ∈ (g.edges.alloc edge).1.ids :=
    Arena.mem_ids.2 ⟨edge, Arena.get_alloc_new g.edges edge⟩
  exact (x.intact.attachEdge hnew).bind fun g₁ _ x₁ => Returns.pure_iff.2 (x.trans x₁)

theorem changeDestination (he : e ∈ g.edges.ids) (hs : s ∈ g.stats.ids) :
    Returns (g.changeDestination e s) (Enlarges g) := by
  obtain ⟨edge, hedge⟩ := exists_edge he
  simp only [Graph.changeDestination, hedge, Checked.ok_bind]
  refine Enlarges.bind (hI.leave .destination (hI.edge e edge hedge .destination _ rfl) e)
    fun g₁ _ x₁ => Enlarges.bind
      (x₁.intact.modifyEdge (x₁.edges e he) fun edge' hedge' r t ht => ?_)
      fun g₂ _ x₂ => x₂.intact.enter .destination ((x₁.trans x₂).stats s hs)
        ((x₁.trans x₂).edges e he)
  cases r with
  | destination => exact Option.some.inj ht ▸ x₁.stats s hs
  | source => exact x₁.intact.edge e edge' hedge' .source t ht
  | closure => exact x₁.intact.edge e edge' hedge' .closure t ht

theorem changeKind (he : e ∈ g.edges.ids) (kind : EdgeKind) :
    Returns (g.changeKind e kind) (Enlarges g) :=
  hI.modifyEdge he fun edge hedge r t ht => hI.edge e edge hedge r t (by cases r <;> exact ht)

theorem unlabel (he : e ∈ g.edges.ids) : Returns (g.unlabel e) (Enlarges g) := by
  obtain ⟨edge, hedge⟩ := exists_edge he
  simp only [Graph.unlabel, hedge, Checked.ok_bind]
  split
  · exact Returns.pure_iff.2 (.refl hI)
  · next c hc => exact hI.leave .closure (hI.edge e edge hedge .closure c hc) e

theorem setClosure (hs : s ∈ g.stats.ids) (he : e ∈ g.edges.ids) :
    Returns (g.setClosure s e) (Enlarges g) := by
  refine Enlarges.bind (hI.unlabel he) fun g₁ _ x₁ => Enlarges.bind
    (x₁.intact.modifyEdge (x₁.edges e he) fun edge hedge r t ht => ?_) fun g₂ _ x₂ =>
      x₂.intact.enter .closure ((x₁.trans x₂).stats s hs) ((x₁.trans x₂).edges e he)
  cases r with
  | closure => exact Option.some.inj ht ▸ x₁.stats s hs
  | source => exact x₁.intact.edge e edge hedge .source t ht
  | destination => exact x₁.intact.edge e edge hedge .destination t ht

theorem clearClosure (he : e ∈ g.edges.ids) : Returns (g.clearClosure e) (Enlarges g) := by
  refine Enlarges.bind (hI.unlabel he) fun g₁ _ x₁ => x₁.intact.modifyEdge (x₁.edges e he)
    fun edge hedge r t ht => ?_
  cases r with
  | closure => cases ht
  | source => exact x₁.intact.edge e edge hedge .source t ht
  | destination => exact x₁.intact.edge e edge hedge .destination t ht

theorem moveSuccessors {old new : StatId} (hold : old ∈ g.stats.ids) (hnew : new ∈ g.stats.ids) :
    Returns (g.moveSuccessors old new) (Enlarges g) := by
  obtain ⟨ot, hot⟩ := exists_stat hold
  have hsucc := (hI.stat old ot hot).incident .source
  simp only [Graph.moveSuccessors, hot, Checked.ok_bind]
  refine Enlarges.bind (hI.mapEdgesAt .source hold fun _ _ hx => absurd hx List.not_mem_nil)
    fun g₁ _ x₁ => Enlarges.foldlM x₁.intact fun e he g₂ x₂ => ?_
  have x := x₁.trans x₂
  have he := x.edges e (hsucc e he)
  refine Enlarges.bind (x₂.intact.modifyEdge he fun edge hedge r t ht => ?_) fun g₃ _ x₃ =>
    x₃.intact.enter .source ((x.trans x₃).stats new hnew) (x₃.edges e he)
  cases r with
  | source => exact Option.some.inj ht ▸ x.stats new hnew
  | destination => exact x₂.intact.edge e edge hedge .destination t ht
  | closure => exact x₂.intact.edge e edge hedge .closure t ht

theorem moveLabel {parent new : StatId} (hp : parent ∈ g.stats.ids) (hnew : new ∈ g.stats.ids)
    (he : e ∈ g.edges.ids) : Returns (Graph.moveLabel parent new g e) (Enlarges g) := by
  obtain ⟨edge, hedge⟩ := exists_edge he
  simp only [Graph.moveLabel, hedge, Checked.ok_bind]
  split
  · exact hI.setClosure hnew he
  · refine (hI.contains parent (hI.edge e edge hedge .destination _ rfl)).bind fun inside _ _ => ?_
    split
    · exact hI.clearClosure he
    · exact hI.setClosure hp he

theorem lowerLabel (he : e ∈ g.edges.ids) (hc : c ∈ g.stats.ids) :
    Returns (Graph.lowerLabel e g c) (Enlarges g) := by
  obtain ⟨edge, hedge⟩ := exists_edge he
  simp only [Graph.lowerLabel, hedge, Checked.ok_bind]
  refine (hI.containsStrict c (hI.edge e edge hedge .source _ rfl)).bind fun inside _ _ => ?_
  split
  · refine (hI.fallsInto edge.destination hc).bind fun falls _ _ => ?_
    split
    · exact hI.setClosure hc he
    · exact Returns.pure_iff.2 (.refl hI)
  · exact Returns.pure_iff.2 (.refl hI)

theorem lowerLabels (hs : s ∈ g.stats.ids) : Returns (g.lowerLabels s) (Enlarges g) := by
  obtain ⟨st, hst⟩ := exists_stat hs
  have hres := hI.stat s st hst
  simp only [Graph.lowerLabels, hst, Checked.ok_bind]
  refine Enlarges.foldlM hI fun e he g₁ x₁ => ?_
  have he := x₁.edges e (hres.incident .closure e he)
  obtain ⟨edge, hedge⟩ := exists_edge he
  simp only [hedge, Checked.ok_bind]
  split
  · refine Enlarges.foldlM x₁.intact fun c hc g₂ x₂ => x₂.intact.lowerLabel (x₂.edges e he) ?_
    exact (x₁.trans x₂).stats c (hres.relatives c (Stat.mem_relatives_of_child hc))
  · exact Returns.pure_iff.2 (.refl x₁.intact)

/-- Labels move, but the tree down which they are moved stays. -/
theorem lowerBreaks (hs : s ∈ g.stats.ids) : Returns (g.lowerBreaks s) (Enlarges g) := by
  have key := hI.descend (P := fun n s => ∀ g₁, Enlarges g g₁ → SameTree g g₁ →
    Returns (lowerBreaksIn n g₁ s) (Enlarges g₁)) (fun n s st hst hbelow g₁ x₁ e₁ => ?_) hs
    (Nat.le_succ _)
  · exact key g (.refl hI) (.refl g)
  · refine Enlarges.bind (x₁.intact.lowerLabels (x₁.stats s (mem_stats_ids hst))) fun g₂ h₂ x₂ => ?_
    have e₂ := e₁.trans (sameTree_lowerLabels h₂)
    obtain ⟨st₂, hst₂, -, -, -, hchildren, -⟩ := e₂.stat hst
    simp only [hst₂, Checked.ok_bind, hchildren]
    refine (Returns.foldlM (R := fun g₃ => Enlarges g₂ g₃ ∧ SameTree g₂ g₃)
      ⟨.refl x₂.intact, .refl g₂⟩ fun c hc g₃ ⟨x₃, e₃⟩ => ?_).mono fun _ h => h.1
    obtain ⟨g₄, h₄, x₄⟩ := hbelow c hc g₃ ((x₁.trans x₂).trans x₃) (e₂.trans e₃)
    exact ⟨g₄, h₄, x₃.trans x₄, e₃.trans (sameTree_lowerBreaksIn h₄)⟩

/-! ## Statements -/

/-- The change of a child of `p` to what is there and does not hold `p`. -/
theorem exchange (old : StatId) (new : Option StatId) (hp : p ∈ g.stats.ids)
    (hnew : ∀ b, new = some b → b ∈ g.stats.ids ∧ ¬ g.Within b p) :
    Returns (g.modifyStat p (Stat.exchange old new)) (Enlarges g) := by
  obtain ⟨pt, hpt⟩ := exists_stat hp
  have hres := hI.stat p pt hpt
  refine hI.modifyStat hpt ⟨fun t ht => ?_, fun r e he => ?_, ?_⟩ (fun c hc => ?_) fun q hq => ?_
  · exact (Stat.mem_exchange_relatives ht).elim (hres.relatives t) fun h => (hnew t h).1
  · exact hres.incident r e (Stat.exchange_edgesAt r ▸ he)
  · rw [Stat.exchange_named]
    exact hres.named
  · exact (Stat.mem_exchange_children.1 hc).imp And.left fun h => (hnew c h.2).2
  · exact .inl (Stat.exchange_parent ▸ hq)

/-- A statement may be given a parent that is not above it already. -/
theorem setParent (parent : Option StatId) (hs : s ∈ g.stats.ids)
    (hparent : ∀ p, parent = some p → p ∈ g.stats.ids ∧ ¬ ReflTransGen g.ParentOf p s) :
    Returns (g.modifyStat s fun st => { st with parent := parent }) (Enlarges g) := by
  obtain ⟨st, hst⟩ := exists_stat hs
  have hres := hI.stat s st hst
  refine hI.modifyStat hst ⟨fun t ht => ?_, fun r e he => ?_, hres.named⟩ (fun c hc => .inl hc)
    fun p hp => .inr (hparent p hp).2
  · rcases List.mem_append.1 ht with ht | ht
    · exact (hparent t (Option.mem_toList.1 ht)).1
    · exact hres.relatives t (List.mem_append_right _ ht)
  · exact hres.incident r e (by cases r <;> exact he)

theorem removeChild (hp : p ∈ g.stats.ids) (hc : c ∈ g.stats.ids) :
    Returns (g.removeChild p c) (Enlarges g) :=
  Enlarges.bind (hI.exchange c none hp (by simp)) fun _ _ x₁ =>
    x₁.intact.setParent none (x₁.stats c hc) (by simp)

/-- A statement takes the place of another one below a statement that it does not hold. -/
theorem replaceStat {old new : StatId} (hp : p ∈ g.stats.ids) (hold : old ∈ g.stats.ids)
    (hnew : new ∈ g.stats.ids) (hdown : ¬ g.Within new p)
    (hup : ¬ ReflTransGen g.ParentOf p new) : Returns (g.replaceStat p old new) (Enlarges g) := by
  obtain ⟨ot, hot⟩ := exists_stat hold
  have hpred := (hI.stat old ot hot).incident .destination
  simp only [Graph.replaceStat, hot, Checked.ok_bind]
  refine Enlarges.bind (Enlarges.foldlM hI fun e he g₁ x₁ =>
    x₁.intact.changeDestination (x₁.edges e (hpred e he)) (x₁.stats new hnew)) fun g₁ h₁ x₁ => ?_
  refine Enlarges.bind (x₁.intact.moveSuccessors (x₁.stats old hold) (x₁.stats new hnew))
    fun g₂ h₂ x₂ => ?_
  have x := x₁.trans x₂
  have e₂ : SameTree g g₂ := .trans (.foldlM h₁ fun e _ _ _ he => sameTree_changeDestination he)
    (sameTree_moveSuccessors h₂)
  -- the place below the parent
  refine Enlarges.bind (x₂.intact.exchange old (some new) (x.stats p hp) ?_)
    fun g₃ h₃ x₃ => ?_
  · rintro _ ⟨⟩
    rw [e₂.sameLinks.within_eq]
    exact ⟨x.stats new hnew, hdown⟩
  have x := x.trans x₃
  refine Enlarges.bind (x₃.intact.setParent (some p) (x.stats new hnew) ?_)
    fun g₄ _ x₄ => ?_
  · rintro _ ⟨⟩
    refine ⟨x.stats p hp, fun hback => hup ?_⟩
    refine ReflTransGen.mono (fun a b hab => ?_) _ _ hback
    exact parentOf_sameTree e₂ (parentOf_modifyStat h₃ (fun _ _ => id) hab)
  have x := x.trans x₄
  refine Enlarges.bind (x₄.intact.setParent none (x.stats old hold) (by simp))
    fun g₅ _ x₅ => ?_
  have x := x.trans x₅
  -- the labels
  obtain ⟨ot₅, hot₅⟩ := exists_stat (x.stats old hold)
  have hlabels := (x₅.intact.stat old ot₅ hot₅).incident .closure
  simp only [hot₅, Checked.ok_bind]
  refine Enlarges.bind (Enlarges.foldlM x₅.intact fun e he g₆ x₆ => ?_) fun g₆ _ x₆ =>
    x₆.intact.mapEdgesAt .closure ((x.trans x₆).stats old hold) fun _ _ hx =>
      absurd hx List.not_mem_nil
  exact x₆.intact.moveLabel ((x.trans x₆).stats p hp) ((x.trans x₆).stats new hnew)
    (x₆.edges e (hlabels e (List.mem_reverse.1 he)))

/-- A statement gives its place to one of its children. -/
theorem replaceByChild {old : StatId} {g₁ : Graph} (h₁ : g.removeChild old c = .ok g₁)
    (x₁ : Enlarges g g₁) (hchild : g.ChildOf old c) (hparent : g.ParentOf c old)
    (hplace : g.ParentOf old p) (hlisted : g.ChildOf p old) :
    Returns (g₁.replaceStat p old c) (Enlarges g₁) := by
  have hids : ∀ {a b}, g.ParentOf a b → a ∈ g₁.stats.ids ∧ b ∈ g₁.stats.ids := by
    rintro a b ⟨st, hst, hb⟩
    exact ⟨x₁.stats a (mem_stats_ids hst),
      x₁.stats b ((hI.stat a st hst).relatives b (Stat.mem_relatives_of_parent hb))⟩
  obtain ⟨g₂, h₂, h₃⟩ := Checked.bind_eq_ok.1 h₁
  refine x₁.intact.replaceStat (hids hplace).2 (hids hplace).1 (hids hparent).1 ?_ ?_
  · intro hback
    refine hI.down p
      (.head hlisted (.head' hchild (ReflTransGen.mono (fun a b hab => ?_) _ _ hback)))
    refine childOf_modifyStat h₂ (fun st d hd => List.mem_of_mem_filter hd) ?_
    exact childOf_modifyStat h₃ (fun _ _ => id) hab
  · intro hback
    refine hI.up p (.tail (.tail' (ReflTransGen.mono (fun a b hab => ?_) _ _ hback) hparent) hplace)
    exact parentOf_modifyStat h₂ (fun _ _ => id) (parentOf_modifyStat h₃ nofun hab)

theorem removeStat (hs : s ∈ g.stats.ids) : Returns (g.removeStat s) (Enlarges g) := by
  obtain ⟨st, hst⟩ := exists_stat hs
  have hsucc := (hI.stat s st hst).incident .source
  simp only [Graph.removeStat, hst, Checked.ok_bind]
  refine Enlarges.bind (Enlarges.foldlM hI fun e he g₁ x₁ =>
    x₁.intact.detachEdge (x₁.edges e (hsucc e he))) fun g₁ _ x₁ => ?_
  obtain ⟨st₁, hst₁⟩ := exists_stat (x₁.stats s hs)
  have hpred := (x₁.intact.stat s st₁ hst₁).incident .destination
  simp only [hst₁, Checked.ok_bind]
  refine Enlarges.bind (Enlarges.foldlM x₁.intact fun e he g₂ x₂ =>
    x₂.intact.detachEdge (x₂.edges e (hpred e he))) fun g₂ _ x₂ => ?_
  have hs₂ := (x₁.trans x₂).stats s hs
  obtain ⟨st₂, hst₂⟩ := exists_stat hs₂
  simp only [hst₂, Checked.ok_bind]
  split
  · exact Returns.pure_iff.2 (.refl x₂.intact)
  · next parent hparent =>
    exact x₂.intact.removeChild
      ((x₂.intact.stat s st₂ hst₂).relatives parent (Stat.mem_relatives_of_parent hparent)) hs₂

/-- A new leaf is a statement that nothing is linked to. -/
theorem block {exprs : List ExprId} (hx : ∀ x ∈ exprs, x ∈ g.exprs.ids) :
    Returns (g.block exprs) fun r => Enlarges g r.1 ∧ r.2 ∈ r.1.stats.ids ∧ r.2 ∉ g.stats.ids := by
  obtain ⟨g₁, b, h⟩ : ∃ g₁ b, g.block exprs = .ok (g₁, b) := ⟨_, _, rfl⟩
  obtain ⟨hexprs, hfresh, hread⟩ := stat_block h
  have hedges : g₁.edges = g.edges := by
    cases h
    rfl
  have hstats : ∀ s ∈ g.stats.ids, s ∈ g₁.stats.ids := by
    intro s hs
    obtain ⟨st, hst⟩ := exists_stat hs
    have hst₁ : g₁.stat s = .ok st := by
      rw [hread, if_neg, hst]
      rintro rfl
      exact hfresh st hst
    exact mem_stats_ids hst₁
  have hchild : ∀ a c, g₁.ChildOf a c → g.ChildOf a c := by
    rintro a c ⟨st, hst, hc⟩
    rw [hread] at hst
    split at hst
    · cases hst
      cases hc
    · exact ⟨st, hst, hc⟩
  have hparent : ∀ a p, g₁.ParentOf a p → g.ParentOf a p := by
    rintro a p ⟨st, hst, hp⟩
    rw [hread] at hst
    split at hst
    · cases hst
      cases hp
    · exact ⟨st, hst, hp⟩
  have hread' : g₁.stat b = .ok (Stat.ofKind (.block exprs) []) := (hread b).trans (if_pos rfl)
  refine ⟨(g₁, b), h, ⟨⟨fun s st hst => ?_, fun e edge he r t ht => ?_,
    hI.acyclic.of_exprs_eq hexprs, fun s hs => hI.down s (TransGen.mono hchild _ _ hs),
    fun s hs => hI.up s (TransGen.mono hparent _ _ hs)⟩, hstats, fun _ he => hedges ▸ he,
    .of_exprs_eq hexprs⟩, mem_stats_ids hread', fun hb => (exists_stat hb).elim hfresh⟩
  · rw [hread] at hst
    split at hst
    · cases hst
      refine ⟨nofun, fun r => by cases r <;> nofun, ?_⟩
      rw [hexprs]
      exact hx
    · exact (hI.stat s st hst).of_ids hstats (fun _ he => hedges ▸ he) fun _ hx => hexprs ▸ hx
  · rw [Graph.edge, hedges] at he
    exact hstats t (hI.edge e edge he r t ht)

/-- A statement gives its place to a new leaf. -/
theorem replaceByLeaf {old b : StatId} {g₁ : Graph} (hp : p ∈ g.stats.ids)
    (hold : old ∈ g.stats.ids) (h₁ : g.block [] = .ok (g₁, b)) (x₁ : Enlarges g g₁)
    (hb : b ∈ g₁.stats.ids) (hfresh : b ∉ g.stats.ids) :
    Returns (g₁.replaceStat p old b) (Enlarges g₁) := by
  obtain ⟨-, -, hread⟩ := stat_block h₁
  have hbt : g₁.stat b = .ok (Stat.ofKind (.block []) []) := (hread b).trans (if_pos rfl)
  have hne : p ≠ b := fun heq => hfresh (heq ▸ hp)
  refine x₁.intact.replaceStat (x₁.stats p hp) (x₁.stats old hold) hb (fun hback => ?_)
    fun hback => ?_
  · exact hne ((within_childless hbt rfl).1 hback)
  · rcases ReflTransGen.cases_tail hback with heq | ⟨a, -, st, hst, ha⟩
    · exact hne heq.symm
    · rw [hread] at hst
      split at hst
      · cases hst
        cases ha
      · exact hfresh ((hI.stat a st hst).relatives b (Stat.mem_relatives_of_parent ha))

/-! ## Expressions -/

/-- A change that leaves statements and edges alone. -/
theorem of_grows (hs : g'.stats = g.stats) (he : g'.edges = g.edges) (hg : Grows g g')
    (ha : g'.Acyclic) : Enlarges g g' := by
  obtain ⟨stats, edges, exprs⟩ := g
  obtain ⟨stats', edges', exprs'⟩ := g'
  cases hs
  cases he
  have hx : ∀ x ∈ exprs.ids, x ∈ exprs'.ids := fun x hx =>
    (exists_node (g := ⟨stats, edges, exprs⟩) hx).elim fun n hn =>
      (hg x n hn).elim fun n' hn' => Arena.mem_ids.2 ⟨n', hn'.1⟩
  exact ⟨⟨fun s st hst => (hI.stat s st hst).of_ids (fun _ hs => hs) (fun _ he => he) hx, hI.edge,
    ha, hI.down, hI.up⟩, fun _ hs => hs, fun _ he => he, hg⟩

theorem addOffsets (offsets : Offsets) (hx : x ∈ g.exprs.ids) :
    Returns (g.addOffsets x offsets) (Enlarges g) := by
  obtain ⟨n, hn⟩ := exists_node hx
  obtain ⟨g', h⟩ := addOffsets_returns offsets hn
  obtain ⟨-, -, -, hs, he, -⟩ := node_addOffsets h
  exact ⟨g', h, hI.of_grows hs he (.addOffsets h) (hI.acyclic.addOffsets h)⟩

theorem grounded (hx : x ∈ g.exprs.ids) : g.Grounded x := by
  obtain ⟨n, hn⟩ := exists_node hx
  exact hI.acyclic x n hn

theorem absorb {target source : ExprId} (ht : target ∈ g.exprs.ids) (hs : source ∈ g.exprs.ids) :
    Returns (g.absorb target source) (Enlarges g) := by
  obtain ⟨u, hu⟩ := (hI.grounded hs).subtreeOffsets
  simp only [Graph.absorb, hu, Checked.ok_bind]
  exact hI.addOffsets u ht

theorem absorb? {target : ExprId} {source : Option ExprId} (ht : target ∈ g.exprs.ids)
    (hs : ∀ x, source = some x → x ∈ g.exprs.ids) :
    Returns (g.absorb? target source) (Enlarges g) := by
  cases source with
  | none => exact Returns.pure_iff.2 (.refl hI)
  | some source => exact hI.absorb ht (hs source rfl)

theorem negate (hx : x ∈ g.exprs.ids) :
    Returns (g.negate x) fun r => Enlarges g r.1 ∧ r.2 ∈ r.1.exprs.ids := by
  obtain ⟨⟨g', y⟩, h⟩ : ∃ r, g.negate x = .ok r := by
    obtain ⟨n, hn⟩ := exists_node hx
    simp only [Graph.negate, hn, Checked.ok_bind]
    split
    · next inner offsets =>
      have hinner : g.Grounded inner :=
        (hI.grounded hx).sub ⟨_, hn, by simp [Expr.children]⟩
      obtain ⟨m, hm⟩ := hinner.exists_node
      obtain ⟨g', h⟩ := addOffsets_returns offsets hm
      exact ⟨(g', inner), by simp [h]⟩
    · exact ⟨_, rfl⟩
  obtain ⟨hs, he, hg⟩ := negate_frame h
  obtain ⟨n, hn⟩ := (grounded_negate h (hI.grounded hx)).exists_node
  exact ⟨(g', y), h, hI.of_grows hs he hg (hI.acyclic.negate h), Arena.mem_ids.2 ⟨n, hn⟩⟩

end Intact

end Decompiler.Graph

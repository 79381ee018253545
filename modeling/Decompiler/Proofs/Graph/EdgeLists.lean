import Decompiler.Loops.FallThrough
import Decompiler.Proofs.Graph.Frame

/-!
# The lists of edges

An edge is kept in up to three lists: by its source, by its destination and by its closure. They
have to agree with the ends that the edge itself names.

* `Graph.InSync`: the lists and the edges agree, and an edge is in all of its lists or in none.
* `Graph.Linked`: what holds in the middle of an operation, when some ends of some edges are loose.
  Every operation on edges is made of three steps: an end is taken out of its list
  (`Graph.Linked.leave`), a loose end is led elsewhere (`Graph.Linked.modifyEdge`), and a loose end
  is entered into its list (`Graph.Linked.enter`).
* `Graph.Synced`: all ends of the detached edges are loose, and no others.
* `Graph.Synced.replaceStat`, `Graph.Synced.removeStat`, `Graph.Synced.lowerBreaks`: operations on
  statements keep this.
-/

namespace Decompiler

/-- The three ways in which an edge can touch a statement. -/
inductive EdgeEnd where
  | source
  | destination
  | closure
  deriving DecidableEq

instance {P : EdgeEnd → Prop} [DecidablePred P] : Decidable (∀ r, P r) :=
  decidable_of_iff (P .source ∧ P .destination ∧ P .closure)
    ⟨fun ⟨h₁, h₂, h₃⟩ r => by cases r <;> assumption, fun h => ⟨h _, h _, h _⟩⟩

/-- The statement at an end of an edge. -/
def Edge.statAt (edge : Edge) : EdgeEnd → Option StatId
  | .source => some edge.source
  | .destination => some edge.destination
  | .closure => edge.closure

namespace Stat

/-- The edges that a statement lists as touching it with one of their ends. -/
def edgesAt (s : Stat) : EdgeEnd → List EdgeId
  | .source => s.successors
  | .destination => s.predecessors
  | .closure => s.labels

/-- Changes one of the three lists. -/
def mapEdgesAt (r : EdgeEnd) (f : List EdgeId → List EdgeId) (s : Stat) : Stat :=
  match r with
  | .source => { s with successors := f s.successors }
  | .destination => { s with predecessors := f s.predecessors }
  | .closure => { s with labels := f s.labels }

theorem edgesAt_mapEdgesAt (r r' : EdgeEnd) (f : List EdgeId → List EdgeId) (s : Stat) :
    (s.mapEdgesAt r f).edgesAt r' = if r = r' then f (s.edgesAt r') else s.edgesAt r' := by
  cases r <;> cases r' <;> rfl

end Stat

namespace Graph

variable {g g' g'' : Graph} {s t : StatId} {e : EdgeId} {r : EdgeEnd} {f : Stat → Stat}

/-- The edges that a statement lists as touching it with one of their ends. What is no statement
lists none. -/
def listed (g : Graph) (r : EdgeEnd) (s : StatId) : List EdgeId :=
  match g.stat s with
  | .ok st => st.edgesAt r
  | .error _ => []

/-- The edge is listed by its source. -/
def Attached (g : Graph) (e : EdgeId) : Prop :=
  Returns (g.edge e) fun edge => e ∈ g.listed .source edge.source

instance (g : Graph) (e : EdgeId) : Decidable (g.Attached e) :=
  inferInstanceAs (Decidable (Returns (g.edge e) _))

/-- The lists of edges agree with the edges. -/
structure InSync (g : Graph) : Prop where
  /-- No list holds an edge twice. -/
  nodup : ∀ s ∈ g.stats.ids, ∀ r, (g.listed r s).Nodup
  /-- What a statement lists touches it with the end in question. -/
  touches : ∀ s ∈ g.stats.ids, ∀ r, ∀ e ∈ g.listed r s,
    Returns (g.edge e) fun edge => edge.statAt r = some s
  /-- An edge is listed by its source exactly when it is listed by its destination. -/
  ends : ∀ e ∈ g.edges.ids, Returns (g.edge e) fun edge =>
    e ∈ g.listed .source edge.source ↔ e ∈ g.listed .destination edge.destination
  /-- An attached edge with a closure is listed by it. -/
  closed : ∀ e ∈ g.edges.ids, g.Attached e → Returns (g.edge e) fun edge =>
    ∀ c ∈ edge.closure.toList, e ∈ g.listed .closure c
  /-- A detached edge is in no list. -/
  detached : ∀ e ∈ g.edges.ids, ¬ g.Attached e → ∀ s ∈ g.stats.ids, ∀ r, e ∉ g.listed r s

instance (g : Graph) : Decidable g.InSync :=
  decidable_of_iff
    ((∀ s ∈ g.stats.ids, ∀ r, (g.listed r s).Nodup) ∧
      (∀ s ∈ g.stats.ids, ∀ r, ∀ e ∈ g.listed r s,
        Returns (g.edge e) fun edge => edge.statAt r = some s) ∧
      (∀ e ∈ g.edges.ids, Returns (g.edge e) fun edge =>
        e ∈ g.listed .source edge.source ↔ e ∈ g.listed .destination edge.destination) ∧
      (∀ e ∈ g.edges.ids, g.Attached e → Returns (g.edge e) fun edge =>
        ∀ c ∈ edge.closure.toList, e ∈ g.listed .closure c) ∧
      ∀ e ∈ g.edges.ids, ¬ g.Attached e → ∀ s ∈ g.stats.ids, ∀ r, e ∉ g.listed r s)
    ⟨fun ⟨h₁, h₂, h₃, h₄, h₅⟩ => ⟨h₁, h₂, h₃, h₄, h₅⟩,
      fun ⟨h₁, h₂, h₃, h₄, h₅⟩ => ⟨h₁, h₂, h₃, h₄, h₅⟩⟩

/-! ## Reading lists after a change -/

theorem listed_of_stat {st : Stat} (h : g.stat s = .ok st) (r : EdgeEnd) :
    g.listed r s = st.edgesAt r := by
  rw [listed, h]

theorem mem_stats_ids_of_listed (h : e ∈ g.listed r s) : s ∈ g.stats.ids := by
  rw [Arena.mem_ids]
  cases hs : g.stat s with
  | ok st => exact ⟨st, hs⟩
  | error _ =>
    rw [listed, hs] at h
    cases h

/-- Reading after a change of one list of one statement. -/
theorem listed_mapEdgesAt {φ : List EdgeId → List EdgeId}
    (h : g.modifyStat s (Stat.mapEdgesAt r φ) = .ok g') (r' : EdgeEnd) (t : StatId) :
    g'.listed r' t = if r = r' ∧ s = t then φ (g.listed r' t) else g.listed r' t := by
  obtain ⟨st, hst, ht, -⟩ := stat_modifyStat h
  by_cases hs : s = t
  · subst hs
    rw [listed_of_stat ((ht s).trans (if_pos rfl)), listed_of_stat hst, Stat.edgesAt_mapEdgesAt]
    simp
  · rw [if_neg fun hc => hs hc.2, listed, ht, if_neg hs]
    rfl

theorem edge_modifyEdge {f : Edge → Edge} (h : g.modifyEdge e f = .ok g') :
    ∃ edge, g.edge e = .ok edge ∧ (∀ x, g'.edge x = if e = x then .ok (f edge) else g.edge x) ∧
      ∀ r s, g'.listed r s = g.listed r s := by
  simp only [modifyEdge, Checked.bind_eq_ok, Checked.pure_eq_ok] at h
  obtain ⟨a, ha, rfl⟩ := h
  obtain ⟨edge, hedge, -, hx⟩ := Arena.get_modify ha
  exact ⟨edge, hedge, hx, fun _ _ => rfl⟩

theorem exists_edge_of_read {x : EdgeId} {edge' : Edge}
    (h : ∀ x, g'.edge x = if e = x then .ok edge' else g.edge x)
    (hx : ∃ edge, g.edge x = .ok edge) : ∃ edge, g'.edge x = .ok edge := by
  rw [h]
  split
  · exact ⟨_, rfl⟩
  · exact hx

/-- The two graphs have the same edges in the same lists. -/
structure SameEdges (g g' : Graph) : Prop where
  /-- Edges agree. -/
  edges : g'.edges = g.edges
  /-- Lists agree. -/
  lists : ∀ r s, g'.listed r s = g.listed r s

namespace SameEdges

theorem refl (g : Graph) : SameEdges g g := ⟨rfl, fun _ _ => rfl⟩

theorem trans (h : SameEdges g g') (h' : SameEdges g' g'') : SameEdges g g'' :=
  ⟨h'.edges.trans h.edges, fun r s => (h'.lists r s).trans (h.lists r s)⟩

theorem edge (h : SameEdges g g') (x : EdgeId) : g'.edge x = g.edge x := by
  simp only [Graph.edge, h.edges]

theorem of_stats_eq (hs : g'.stats = g.stats) (he : g'.edges = g.edges) : SameEdges g g' :=
  ⟨he, fun r s => by simp only [listed, stat, hs]⟩

theorem modifyStat (h : g.modifyStat s f = .ok g') (hf : ∀ st r, (f st).edgesAt r = st.edgesAt r) :
    SameEdges g g' := by
  obtain ⟨st, hst, ht, hedges, -⟩ := stat_modifyStat h
  refine ⟨hedges, fun r t => ?_⟩
  by_cases hs : s = t
  · subst hs
    rw [listed_of_stat ((ht s).trans (if_pos rfl)), listed_of_stat hst, hf]
  · rw [listed, ht, if_neg hs]
    rfl

theorem removeChild {p c : StatId} (h : g.removeChild p c = .ok g') : SameEdges g g' := by
  simp only [Graph.removeChild, Checked.bind_eq_ok] at h
  obtain ⟨g₁, h₁, h₂⟩ := h
  exact .trans (.modifyStat h₁ fun _ r => by cases r <;> rfl)
    (.modifyStat h₂ fun _ r => by cases r <;> rfl)

/-- A new statement lists no edges. -/
theorem block {b : StatId} {exprs : List ExprId} (h : g.block exprs = .ok (g', b)) :
    SameEdges g g' := by
  simp only [Graph.block, allocStat, List.foldlM_nil, Checked.bind_eq_ok, Checked.pure_eq_ok] at h
  obtain ⟨g₁, rfl, h⟩ := h
  cases h
  refine ⟨rfl, fun r s => ?_⟩
  unfold listed stat
  rw [Arena.get_alloc]
  by_cases hs : (g.stats.alloc (Stat.ofKind (.block exprs) [])).2 = s
  · have hmissing : ∀ st, g.stats.get s ≠ .ok st := fun st => hs ▸ Arena.get_alloc_fresh _ _ st
    rw [if_pos hs]
    cases hget : g.stats.get s with
    | ok st => exact absurd hget (hmissing st)
    | error _ => cases r <;> rfl
  · rw [if_neg hs]

end SameEdges

/-! ## Loose ends -/

/-- Lists and edges agree, but for the ends that are loose: these are in no list. -/
structure Linked (g : Graph) (loose : EdgeEnd → EdgeId → Prop) : Prop where
  /-- No list holds an edge twice. -/
  nodup : ∀ r s, (g.listed r s).Nodup
  /-- A list holds the edges that touch the statement with an end that is not loose. -/
  mem_iff : ∀ r s e, e ∈ g.listed r s ↔
    ¬ loose r e ∧ Returns (g.edge e) fun edge => edge.statAt r = some s

namespace Linked

variable {loose loose' : EdgeEnd → EdgeId → Prop} {edge : Edge}

theorem congr (h : Linked g loose)
    (hl : ∀ r x edge, g.edge x = .ok edge → edge.statAt r ≠ none → (loose' r x ↔ loose r x)) :
    Linked g loose' := by
  refine ⟨h.nodup, fun r s x => (h.mem_iff r s x).trans ?_⟩
  refine and_congr_left ?_
  rintro ⟨edge, hedge, hat⟩
  rw [hl r x edge hedge (by simp [hat])]

theorem of_sameEdges (h : Linked g loose) (hs : SameEdges g g') : Linked g' loose :=
  ⟨fun r s => hs.lists r s ▸ h.nodup r s, fun r s x => by
    rw [hs.lists, h.mem_iff, hs.edge]⟩

/-- Taking an end out of its list makes it loose. -/
theorem leave (h : Linked g loose) (hedge : g.edge e = .ok edge) (hat : edge.statAt r = some s)
    (hg : g.modifyStat s (Stat.mapEdgesAt r (List.filter (· ≠ e))) = .ok g') :
    Linked g' (fun r' x => loose r' x ∨ (r = r' ∧ x = e)) ∧ g'.edges = g.edges := by
  obtain ⟨-, -, -, hedges, -⟩ := stat_modifyStat hg
  refine ⟨⟨fun r' t => ?_, fun r' t x => ?_⟩, hedges⟩
  · rw [listed_mapEdgesAt hg]
    split
    · exact (h.nodup r' t).filter _
    · exact h.nodup r' t
  · rw [listed_mapEdgesAt hg, Graph.edge, hedges]
    split
    · next hrs =>
      obtain ⟨rfl, rfl⟩ := hrs
      rw [List.mem_filter, h.mem_iff]
      simp only [ne_eq, decide_eq_true_eq, true_and, not_or]
      exact and_right_comm
    · next hrs =>
      rw [h.mem_iff]
      refine and_congr_left fun hx => ?_
      obtain ⟨edge', hedge', hat'⟩ := hx
      rw [not_or]
      refine ⟨fun hl => ⟨hl, ?_⟩, fun hl => hl.1⟩
      rintro ⟨rfl, rfl⟩
      -- the same end of the same edge would touch two statements
      rw [hedge] at hedge'
      cases hedge'
      rw [hat] at hat'
      exact hrs ⟨rfl, Option.some.inj hat'⟩

/-- A loose end is entered into the list of the statement it touches. -/
theorem enter (h : Linked g loose) (hedge : g.edge e = .ok edge) (hat : edge.statAt r = some s)
    (hloose : loose r e) (hg : g.modifyStat s (Stat.mapEdgesAt r (· ++ [e])) = .ok g') :
    Linked g' (fun r' x => loose r' x ∧ ¬ (r = r' ∧ x = e)) ∧ g'.edges = g.edges := by
  obtain ⟨-, -, -, hedges, -⟩ := stat_modifyStat hg
  have hnot : e ∉ g.listed r s := fun hmem => ((h.mem_iff r s e).1 hmem).1 hloose
  refine ⟨⟨fun r' t => ?_, fun r' t x => ?_⟩, hedges⟩
  · rw [listed_mapEdgesAt hg]
    split
    · next hrs =>
      obtain ⟨rfl, rfl⟩ := hrs
      rw [List.nodup_append]
      refine ⟨h.nodup _ _, by simp, fun a ha b hb => ?_⟩
      obtain rfl := List.mem_singleton.1 hb
      rintro rfl
      exact hnot ha
    · exact h.nodup r' t
  · rw [listed_mapEdgesAt hg, Graph.edge, hedges]
    by_cases hxe : r = r' ∧ x = e
    · obtain ⟨rfl, rfl⟩ := hxe
      have hiff : Returns (g.edges.get x) (fun edge => edge.statAt r = some t) ↔ s = t := by
        change Returns (g.edge x) _ ↔ _
        rw [hedge, Returns.ok_iff, hat, Option.some.injEq]
      rw [hiff]
      by_cases hst : s = t
      · simp [hst]
      · have hnone : x ∉ g.listed r t := fun hmem => ((h.mem_iff r t x).1 hmem).1 hloose
        simp [hst, hnone]
    · have hmem : x ∈ (if r = r' ∧ s = t then g.listed r' t ++ [e] else g.listed r' t) ↔
          x ∈ g.listed r' t := by
        split
        · next hrs =>
          have : x ≠ e := fun hx => hxe ⟨hrs.1, hx⟩
          simp [this]
        · rfl
      rw [hmem, h.mem_iff]
      simp only [hxe, not_false_eq_true, and_true]
      rfl

/-- A loose end may be led elsewhere. -/
theorem modifyEdge {φ : Edge → Edge} (h : Linked g loose) (hg : g.modifyEdge e φ = .ok g')
    (hφ : ∀ r edge, ¬ loose r e → (φ edge).statAt r = edge.statAt r) : Linked g' loose := by
  obtain ⟨edge, hedge, hx, hlists⟩ := edge_modifyEdge hg
  refine ⟨fun r s => hlists r s ▸ h.nodup r s, fun r s x => ?_⟩
  rw [hlists, h.mem_iff, hx]
  refine and_congr_right fun hl => ?_
  split
  · next hex =>
    subst hex
    rw [hedge, Returns.ok_iff, Returns.ok_iff, hφ r edge hl]
  · rfl

/-- Leading a loose end elsewhere and entering it there. -/
theorem relink {φ : Edge → Edge} {g₁ g₂ : Graph} (h : Linked g loose) (hloose : loose r e)
    (h₁ : g.modifyEdge e φ = .ok g₁)
    (hφ : ∀ r' edge, r' ≠ r → (φ edge).statAt r' = edge.statAt r')
    (hat : ∀ edge, (φ edge).statAt r = some s)
    (h₂ : g₁.modifyStat s (Stat.mapEdgesAt r (· ++ [e])) = .ok g₂) :
    Linked g₂ (fun r' x => loose r' x ∧ ¬ (r = r' ∧ x = e)) ∧
      ∃ edge, g.edge e = .ok edge ∧
        ∀ x, g₂.edge x = if e = x then .ok (φ edge) else g.edge x := by
  obtain ⟨edge, hedge, hx, -⟩ := edge_modifyEdge h₁
  have l₁ : Linked g₁ loose := h.modifyEdge h₁ fun r' edge hr => hφ r' edge fun heq =>
    hr (heq ▸ hloose)
  have hedge₁ : g₁.edge e = .ok (φ edge) := (hx e).trans (if_pos rfl)
  obtain ⟨l₂, e₂⟩ := l₁.enter hedge₁ (hat edge) hloose h₂
  exact ⟨l₂, edge, hedge, fun x => by rw [Graph.edge, e₂]; exact hx x⟩

theorem unlabel (h : Linked g loose) (hg : g.unlabel e = .ok g') :
    Linked g' (fun r x => loose r x ∨ (.closure = r ∧ x = e)) ∧ g'.edges = g.edges := by
  simp only [Graph.unlabel, Checked.bind_eq_ok] at hg
  obtain ⟨edge, hedge, hg⟩ := hg
  split at hg
  · next hnone =>
    cases hg
    refine ⟨h.congr fun r x edge' hedge' hat => ?_, rfl⟩
    simp only [or_iff_left_iff_imp, and_imp]
    rintro rfl rfl
    rw [hedge] at hedge'
    cases hedge'
    exact absurd hnone hat
  · next c hc => exact h.leave hedge hc hg

end Linked

/-! ## Detached edges -/

/-- The detached edges, all ends of which are loose, are edges of the graph. -/
structure Synced (g : Graph) (detached : EdgeId → Prop) : Prop where
  /-- All else is in its lists. -/
  linked : Linked g fun _ => detached
  /-- Detached edges are still there. -/
  exists_edge : ∀ e, detached e → ∃ edge, g.edge e = .ok edge

theorem Synced.attached_iff {detached : EdgeId → Prop} (h : Synced g detached) :
    g.Attached e ↔ ¬ detached e ∧ ∃ edge, g.edge e = .ok edge := by
  constructor
  · rintro ⟨edge, hedge, hmem⟩
    exact ⟨((h.linked.mem_iff _ _ _).1 hmem).1, edge, hedge⟩
  · rintro ⟨hnot, edge, hedge⟩
    exact ⟨edge, hedge, (h.linked.mem_iff _ _ _).2 ⟨hnot, edge, hedge, rfl⟩⟩

namespace InSync

variable (h : g.InSync)

include h

/-- What a statement lists is an attached edge that touches it. -/
theorem attached_of_mem_listed {r : EdgeEnd} {s : StatId} (he : e ∈ g.listed r s) : g.Attached e := by
  have hs := mem_stats_ids_of_listed he
  obtain ⟨edge, hedge, -⟩ := h.touches s hs r e he
  by_contra hnot
  exact h.detached e (Arena.mem_ids.2 ⟨edge, hedge⟩) hnot s hs r he

/-- An attached edge is listed at each of its ends. -/
theorem mem_listed {r : EdgeEnd} {s : StatId} {edge : Edge} (hatt : g.Attached e)
    (hedge : g.edge e = .ok edge) (hat : edge.statAt r = some s) : e ∈ g.listed r s := by
  have hid : e ∈ g.edges.ids := Arena.mem_ids.2 ⟨edge, hedge⟩
  obtain ⟨edge', hedge', hmem⟩ := id hatt
  rw [hedge] at hedge'
  cases hedge'
  cases r with
  | source =>
    obtain rfl := Option.some.inj hat
    exact hmem
  | destination =>
    obtain rfl := Option.some.inj hat
    obtain ⟨edge', hedge', hiff⟩ := h.ends e hid
    rw [hedge] at hedge'
    cases hedge'
    exact hiff.1 hmem
  | closure =>
    obtain ⟨edge', hedge', hc⟩ := h.closed e hid hatt
    rw [hedge] at hedge'
    cases hedge'
    exact hc s (Option.mem_toList.2 hat)

theorem synced : Synced g fun e => ¬ g.Attached e ∧ ∃ edge, g.edge e = .ok edge := by
  refine ⟨⟨fun r s => ?_, fun r s e => ⟨fun he => ?_, ?_⟩⟩, fun e he => he.2⟩
  · by_cases hs : s ∈ g.stats.ids
    · exact h.nodup s hs r
    · have hnil : g.listed r s = [] := List.eq_nil_iff_forall_not_mem.2 fun x hx =>
        hs (mem_stats_ids_of_listed hx)
      rw [hnil]
      exact List.nodup_nil
  · exact ⟨fun hd => hd.1 (h.attached_of_mem_listed he),
      h.touches s (mem_stats_ids_of_listed he) r e he⟩
  · rintro ⟨hd, edge, hedge, hat⟩
    have hatt : g.Attached e := by
      by_contra hnot
      exact hd ⟨hnot, edge, hedge⟩
    exact h.mem_listed hatt hedge hat

end InSync

theorem Synced.inSync {detached : EdgeId → Prop} (h : Synced g detached) : g.InSync := by
  refine ⟨fun s _ r => h.linked.nodup r s, fun s _ r x hx => ((h.linked.mem_iff r s x).1 hx).2,
    fun x hx => ?_, fun x hx hatt => ?_, fun x hx hnot s _ r hmem => ?_⟩
  · obtain ⟨edge, hedge⟩ := Arena.mem_ids.1 hx
    refine ⟨edge, hedge, ?_⟩
    change _ ∈ _ ↔ _ ∈ _
    rw [h.linked.mem_iff, h.linked.mem_iff]
    exact and_congr_right fun _ => ⟨fun _ => ⟨edge, hedge, rfl⟩, fun _ => ⟨edge, hedge, rfl⟩⟩
  · obtain ⟨edge, hedge⟩ := Arena.mem_ids.1 hx
    refine ⟨edge, hedge, fun c hc => (h.linked.mem_iff _ _ _).2 ⟨(h.attached_iff.1 hatt).1, edge,
      hedge, Option.mem_toList.1 hc⟩⟩
  · have hnd := ((h.linked.mem_iff r s x).1 hmem).1
    exact hnot (h.attached_iff.2 ⟨hnd, Arena.mem_ids.1 hx⟩)

/-- Being in sync says that there is a set of detached edges, and that all else is linked. -/
theorem inSync_iff : g.InSync ↔ ∃ detached, Synced g detached :=
  ⟨fun h => ⟨_, h.synced⟩, fun ⟨_, h⟩ => h.inSync⟩

namespace Synced

variable {detached : EdgeId → Prop}

theorem of_sameEdges (h : Synced g detached) (hs : SameEdges g g') : Synced g' detached :=
  ⟨h.linked.of_sameEdges hs, fun x hx => hs.edge x ▸ h.exists_edge x hx⟩

theorem not_detached (h : Synced g detached) (he : e ∈ g.listed r s) : ¬ detached e :=
  ((h.linked.mem_iff r s e).1 he).1

/-! ## Operations on edges -/

theorem detachEdge (h : Synced g detached) (hg : g.detachEdge e = .ok g') :
    Synced g' fun x => detached x ∨ x = e := by
  simp only [Graph.detachEdge, Checked.bind_eq_ok] at hg
  obtain ⟨edge, hedge, g₁, h₁, g₂, h₂, hg⟩ := hg
  obtain ⟨l₁, e₁⟩ := h.linked.leave (r := .source) hedge rfl h₁
  have hedge₁ : g₁.edge e = .ok edge := by rw [Graph.edge, e₁]; exact hedge
  obtain ⟨l₂, e₂⟩ := l₁.leave (r := .destination) hedge₁ rfl h₂
  have hedge₂ : g₂.edge e = .ok edge := by rw [Graph.edge, e₂]; exact hedge₁
  have hg : g₂.unlabel e = .ok g' := by simpa only [Graph.unlabel, hedge₂, Checked.ok_bind] using hg
  obtain ⟨l₃, e₃⟩ := l₂.unlabel hg
  refine ⟨l₃.congr fun r x _ _ _ => ?_, fun x hx => ?_⟩
  · cases r <;> simp
  · rw [Graph.edge, e₃, e₂, e₁]
    rcases hx with hx | rfl
    · exact h.exists_edge x hx
    · exact ⟨edge, hedge⟩

theorem attachEdge (h : Synced g detached) (he : detached e) (hg : g.attachEdge e = .ok g') :
    Synced g' fun x => detached x ∧ x ≠ e := by
  simp only [Graph.attachEdge, Checked.bind_eq_ok] at hg
  obtain ⟨edge, hedge, g₁, h₁, g₂, h₂, hg⟩ := hg
  obtain ⟨l₁, e₁⟩ := h.linked.enter (r := .source) hedge rfl he h₁
  have hedge₁ : g₁.edge e = .ok edge := by rw [Graph.edge, e₁]; exact hedge
  obtain ⟨l₂, e₂⟩ := l₁.enter (r := .destination) hedge₁ rfl ⟨he, nofun⟩ h₂
  have hedge₂ : g₂.edge e = .ok edge := by rw [Graph.edge, e₂]; exact hedge₁
  have hexists : ∀ x, detached x ∧ x ≠ e → ∃ edge, g₂.edge x = .ok edge := by
    intro x hx
    rw [Graph.edge, e₂, e₁]
    exact h.exists_edge x hx.1
  cases hc : edge.closure with
  | none =>
    rw [hc] at hg
    cases hg
    refine ⟨l₂.congr fun r x edge' hedge' hat => ?_, hexists⟩
    cases r with
    | closure =>
      have hxe : x ≠ e := by
        rintro rfl
        rw [hedge₂] at hedge'
        cases hedge'
        exact hat hc
      simp [hxe]
    | _ => simp
  | some c =>
    rw [hc] at hg
    obtain ⟨l₃, e₃⟩ := l₂.enter (r := .closure) hedge₂ hc ⟨⟨he, nofun⟩, nofun⟩ hg
    refine ⟨l₃.congr fun r x _ _ _ => by cases r <;> simp, fun x hx => ?_⟩
    rw [Graph.edge, e₃]
    exact hexists x hx

/-- A new edge is attached, and the detached ones are those of before. -/
theorem addEdge {edge : Edge} (h : Synced g detached) (hg : g.addEdge edge = .ok (g', e)) :
    Synced g' detached := by
  simp only [Graph.addEdge, Checked.bind_eq_ok, Checked.pure_eq_ok] at hg
  obtain ⟨g₁, h₁, hg⟩ := hg
  cases hg
  have hread := Arena.get_alloc g.edges edge
  have hfresh : ∀ edge', g.edge (g.edges.alloc edge).2 ≠ .ok edge' :=
    Arena.get_alloc_fresh g.edges edge
  have hne : ∀ x edge', g.edge x = .ok edge' → (g.edges.alloc edge).2 ≠ x := by
    rintro x edge' hx rfl
    exact hfresh edge' hx
  have hloose : Synced { g with edges := (g.edges.alloc edge).1 }
      fun x => detached x ∨ x = (g.edges.alloc edge).2 := by
    refine ⟨⟨h.linked.nodup, fun r s x => ?_⟩, fun x hx => ?_⟩
    · change x ∈ g.listed r s ↔ _ ∧ Returns ((g.edges.alloc edge).1.get x) _
      rw [hread, h.linked.mem_iff]
      split
      · next hx =>
        have : ¬ ∃ edge', g.edge x = .ok edge' ∧ edge'.statAt r = some s := by
          rintro ⟨edge', hedge', -⟩
          exact hne x edge' hedge' hx
        simp [hx, Returns, this]
      · next hx => simp [Ne.symm hx, Graph.edge]
    · change ∃ edge', (g.edges.alloc edge).1.get x = .ok edge'
      rw [hread]
      rcases hx with hx | rfl
      · obtain ⟨edge', hedge'⟩ := h.exists_edge x hx
        exact ⟨edge', (if_neg (hne x edge' hedge')).trans hedge'⟩
      · exact ⟨edge, if_pos rfl⟩
  have hattached := hloose.attachEdge (.inr rfl) h₁
  refine ⟨hattached.linked.congr fun r x _ _ _ => ?_, fun x hx => ?_⟩
  · constructor
    · intro hx
      obtain ⟨edge', hedge'⟩ := h.exists_edge x hx
      exact ⟨.inl hx, (hne x edge' hedge').symm⟩
    · exact fun hx => hx.1.resolve_right hx.2
  · obtain ⟨edge', hedge'⟩ := h.exists_edge x hx
    exact hattached.exists_edge x ⟨.inl hx, (hne x edge' hedge').symm⟩

/-- Leading a loose end of an attached edge elsewhere and entering it there. -/
theorem relink {g₁ g₂ : Graph} {φ : Edge → Edge} (h : Synced g detached) (he : ¬ detached e)
    (l₁ : Linked g₁ fun r' x => detached x ∨ (r = r' ∧ x = e)) (e₁ : g₁.edges = g.edges)
    (h₂ : g₁.modifyEdge e φ = .ok g₂)
    (hφ : ∀ r' edge, r' ≠ r → (φ edge).statAt r' = edge.statAt r')
    (hat : ∀ edge, (φ edge).statAt r = some s)
    (hg : g₂.modifyStat s (Stat.mapEdgesAt r (· ++ [e])) = .ok g') : Synced g' detached ∧
      ∃ edge, g.edge e = .ok edge ∧ ∀ x, g'.edge x = if e = x then .ok (φ edge) else g.edge x := by
  obtain ⟨l₂, edge, hedge, hx⟩ := l₁.relink (.inr ⟨rfl, rfl⟩) h₂ hφ hat hg
  have hread : ∀ x, g₁.edge x = g.edge x := fun x => by rw [Graph.edge, e₁]; rfl
  simp only [hread] at hedge hx
  refine ⟨⟨l₂.congr fun r x _ _ _ => ?_, fun x hx' => exists_edge_of_read hx (h.exists_edge x hx')⟩,
    edge, hedge, hx⟩
  have : detached x → x ≠ e := by
    rintro hx' rfl
    exact he hx'
  tauto

theorem changeDestination {d : StatId} (h : Synced g detached) (he : ¬ detached e)
    (hg : g.changeDestination e d = .ok g') : Synced g' detached ∧
      ∃ edge, g.edge e = .ok edge ∧
        ∀ x, g'.edge x = if e = x then .ok { edge with destination := d } else g.edge x := by
  simp only [Graph.changeDestination, Checked.bind_eq_ok] at hg
  obtain ⟨edge, hedge, g₁, h₁, g₂, h₂, hg⟩ := hg
  obtain ⟨l₁, e₁⟩ := h.linked.leave (r := .destination) hedge rfl h₁
  refine h.relink he l₁ e₁ h₂ (fun r' _ hr => ?_) (fun _ => rfl) hg
  cases r' with
  | destination => exact absurd rfl hr
  | _ => rfl

theorem setClosure (h : Synced g detached) (he : ¬ detached e) (hg : g.setClosure s e = .ok g') :
    Synced g' detached ∧ ∃ edge, g.edge e = .ok edge ∧
      ∀ x, g'.edge x = if e = x then .ok { edge with closure := some s } else g.edge x := by
  simp only [Graph.setClosure, Checked.bind_eq_ok] at hg
  obtain ⟨g₁, h₁, g₂, h₂, hg⟩ := hg
  obtain ⟨l₁, e₁⟩ := h.linked.unlabel h₁
  refine h.relink he l₁ e₁ h₂ (fun r' _ hr => ?_) (fun _ => rfl) hg
  cases r' with
  | closure => exact absurd rfl hr
  | _ => rfl

theorem clearClosure (h : Synced g detached) (hg : g.clearClosure e = .ok g') :
    Synced g' detached ∧ ∃ edge, g.edge e = .ok edge ∧
      ∀ x, g'.edge x = if e = x then .ok { edge with closure := none } else g.edge x := by
  simp only [Graph.clearClosure, Checked.bind_eq_ok] at hg
  obtain ⟨g₁, h₁, hg⟩ := hg
  obtain ⟨l₁, e₁⟩ := h.linked.unlabel h₁
  have l₂ := l₁.modifyEdge hg fun r edge hr => by
    cases r with
    | closure => exact absurd (.inr ⟨rfl, rfl⟩) hr
    | _ => rfl
  obtain ⟨edge, hedge, hx, -⟩ := edge_modifyEdge hg
  have hread : ∀ x, g₁.edge x = g.edge x := fun x => by rw [Graph.edge, e₁]; rfl
  simp only [hread] at hedge hx
  refine ⟨⟨l₂.congr fun r x edge' hedge' hat => ?_, fun x hx' =>
    exists_edge_of_read hx (h.exists_edge x hx')⟩, edge, hedge, hx⟩
  -- an edge without closure is in the labels of no statement, loose or not
  refine ⟨.inl, fun hx' => hx'.resolve_right ?_⟩
  rintro ⟨rfl, rfl⟩
  rw [hx, if_pos rfl] at hedge'
  cases hedge'
  exact hat rfl

end Synced

/-! ## Replacing a statement -/

section Replacing

variable {detached : EdgeId → Prop} {parent old new : StatId}

/-- Edges that lead to the old statement are led to the new one, one after the other. -/
theorem Synced.moveDestinations {l : List EdgeId} (h : Synced g detached) (hne : old ≠ new)
    (hl : ∀ x ∈ l, ¬ detached x)
    (hrest : ∀ x edge, ¬ detached x → g.edge x = .ok edge → edge.destination = old → x ∈ l)
    (hg : l.foldlM (fun g e => g.changeDestination e new) g = .ok g') :
    Synced g' detached ∧ g'.listed .destination old = [] := by
  induction l generalizing g with
  | nil =>
    cases hg
    refine ⟨h, List.eq_nil_iff_forall_not_mem.2 fun x hx => ?_⟩
    obtain ⟨hnd, edge, hedge, hat⟩ := (h.linked.mem_iff _ _ _).1 hx
    exact absurd (hrest x edge hnd hedge (Option.some.inj hat)) List.not_mem_nil
  | cons e l ih =>
    simp only [List.foldlM_cons, Checked.bind_eq_ok] at hg
    obtain ⟨g₁, h₁, hg⟩ := hg
    obtain ⟨hs₁, edge, -, hx⟩ := h.changeDestination (hl e (by simp)) h₁
    refine ih hs₁ (fun x hx => hl x (by simp [hx])) (fun x edge' hnd hedge' hdest => ?_) hg
    rw [hx] at hedge'
    split at hedge'
    · cases hedge'
      exact absurd hdest hne.symm
    · next hex => exact List.mem_of_ne_of_mem (Ne.symm hex) (hrest x edge' hnd hedge' hdest)

/-- All edges that lead to the old statement are led to the new one. -/
theorem Synced.movePredecessors {ot : Stat} (h : Synced g detached) (hne : old ≠ new)
    (hot : g.stat old = .ok ot)
    (hg : ot.predecessors.foldlM (fun g e => g.changeDestination e new) g = .ok g') :
    Synced g' detached ∧ g'.listed .destination old = [] := by
  have hpred : g.listed .destination old = ot.predecessors := listed_of_stat hot _
  exact h.moveDestinations hne (fun x hx => h.not_detached (hpred.symm ▸ hx))
    (fun x edge hnd hedge hdest => hpred ▸ (h.linked.mem_iff _ _ _).2
      ⟨hnd, edge, hedge, congrArg some hdest⟩) hg

/-- Edges whose source is loose are given a new source, one after the other. -/
theorem Linked.moveSources {l : List EdgeId} (hnodup : l.Nodup)
    (h : Linked g fun r x => detached x ∨ (.source = r ∧ x ∈ l))
    (hg : l.foldlM (fun g e => do
      let g ← g.modifyEdge e fun edge => { edge with source := new }
      g.modifyStat new fun s => { s with successors := s.successors ++ [e] }) g = .ok g')
    (hl : ∀ x ∈ l, ¬ detached x) :
    Linked g' (fun _ => detached) ∧ (∀ s, s ≠ new → g'.listed .source s = g.listed .source s) ∧
      (∀ s, g'.listed .destination s = g.listed .destination s) ∧
      ∀ x, (∃ edge, g.edge x = .ok edge) → ∃ edge, g'.edge x = .ok edge := by
  induction l generalizing g with
  | nil =>
    cases hg
    exact ⟨h.congr fun r x _ _ _ => by simp, fun _ _ => rfl, fun _ => rfl, fun _ hx => hx⟩
  | cons e l ih =>
    simp only [List.foldlM_cons, Checked.bind_eq_ok] at hg
    obtain ⟨g₁, ⟨g₂, h₂, h₁⟩, hg⟩ := hg
    rw [List.nodup_cons] at hnodup
    obtain ⟨l₁, edge, -, hx⟩ := h.relink (r := .source) (.inr ⟨rfl, by simp⟩) h₂ (fun r' _ hr => by
      cases r' with
      | source => exact absurd rfl hr
      | _ => rfl) (fun _ => rfl) h₁
    have hlists : ∀ r s, (r ≠ .source ∨ s ≠ new) → g₁.listed r s = g.listed r s := by
      intro r s hrs
      obtain ⟨-, -, -, hsame⟩ := edge_modifyEdge h₂
      have hentered := listed_mapEdgesAt (r := .source) (φ := (· ++ [e])) h₁ r s
      rw [hentered, if_neg (by rintro ⟨rfl, rfl⟩; simp at hrs), hsame]
    have l₁' : Linked g₁ fun r x => detached x ∨ (.source = r ∧ x ∈ l) := by
      refine l₁.congr fun r x _ _ _ => ?_
      have hd : detached x → x ≠ e := by
        rintro hd rfl
        exact hl x (by simp) hd
      have hm : x ∈ l → x ≠ e := by
        rintro hm rfl
        exact hnodup.1 hm
      rw [List.mem_cons]
      tauto
    obtain ⟨hs, hsource, hdest, hexists⟩ := ih hnodup.2 l₁' hg fun x hx => hl x (by simp [hx])
    exact ⟨hs, fun s hs => (hsource s hs).trans (hlists _ s (.inr hs)),
      fun s => (hdest s).trans (hlists _ s (.inl (by simp))),
      fun x hx' => hexists x (exists_edge_of_read hx hx')⟩

theorem Synced.moveSuccessors (h : Synced g detached) (hne : old ≠ new)
    (hg : g.moveSuccessors old new = .ok g') : Synced g' detached ∧ g'.listed .source old = [] ∧
      ∀ s, g'.listed .destination s = g.listed .destination s := by
  simp only [Graph.moveSuccessors, Checked.bind_eq_ok] at hg
  obtain ⟨st, hst, g₁, h₁, hg⟩ := hg
  have hsucc : g.listed .source old = st.successors := listed_of_stat hst _
  have hclear := listed_mapEdgesAt (r := .source) (φ := fun _ => []) h₁
  obtain ⟨-, -, -, hedges, -⟩ := stat_modifyStat h₁
  have hread : ∀ x, g₁.edge x = g.edge x := fun x => by rw [Graph.edge, hedges]; rfl
  have l₁ : Linked g₁ fun r x => detached x ∨ (.source = r ∧ x ∈ st.successors) := by
    refine ⟨fun r s => ?_, fun r s x => ?_⟩
    · rw [hclear]
      split
      · exact List.nodup_nil
      · exact h.linked.nodup r s
    · rw [hclear, hread]
      split
      · next hrs =>
        obtain ⟨rfl, rfl⟩ := hrs
        rw [← hsucc, h.linked.mem_iff]
        simp only [List.not_mem_nil, true_and, false_iff]
        tauto
      · next hrs =>
        rw [h.linked.mem_iff]
        refine and_congr_left fun hx => ?_
        rw [not_or]
        refine ⟨fun hnd => ⟨hnd, ?_⟩, And.left⟩
        rintro ⟨rfl, hmem⟩
        -- an edge in the list of `old` starts there, so it cannot start at `s` too
        rw [← hsucc, h.linked.mem_iff] at hmem
        obtain ⟨-, edge, hedge, hat⟩ := hmem
        obtain ⟨edge', hedge', hat'⟩ := hx
        rw [hedge] at hedge'
        cases hedge'
        rw [hat] at hat'
        exact hrs ⟨rfl, Option.some.inj hat'⟩
  obtain ⟨hs, hsource, hdest, hexists⟩ := Linked.moveSources
    (hsucc ▸ h.linked.nodup .source old) l₁ hg fun x hx => h.not_detached (hsucc.symm ▸ hx)
  refine ⟨⟨hs, fun x hx => hexists x ?_⟩, ?_, fun s => ?_⟩
  · rw [hread]
    exact h.exists_edge x hx
  · rw [hsource old hne, hclear, if_pos ⟨rfl, rfl⟩]
  · rw [hdest, hclear, if_neg (by simp)]

theorem Synced.moveLabel (h : Synced g detached) (he : ¬ detached e)
    (hg : Graph.moveLabel parent new g e = .ok g') : Synced g' detached ∧
      ∃ edge c, (c = none ∨ c = some new ∨ c = some parent) ∧ g.edge e = .ok edge ∧
        ∀ x, g'.edge x = if e = x then .ok { edge with closure := c } else g.edge x := by
  simp only [Graph.moveLabel, Checked.bind_eq_ok] at hg
  obtain ⟨edge₀, -, hg⟩ := hg
  split at hg
  · obtain ⟨hs, edge, hedge, hx⟩ := h.setClosure he hg
    exact ⟨hs, edge, some new, .inr (.inl rfl), hedge, hx⟩
  · obtain ⟨inside, -, hg⟩ := Checked.bind_eq_ok.1 hg
    split at hg
    · obtain ⟨hs, edge, hedge, hx⟩ := h.clearClosure hg
      exact ⟨hs, edge, none, .inl rfl, hedge, hx⟩
    · obtain ⟨hs, edge, hedge, hx⟩ := h.setClosure he hg
      exact ⟨hs, edge, some parent, .inr (.inr rfl), hedge, hx⟩

/-- Labels of the old statement are moved, one after the other. -/
theorem Synced.moveLabels {l : List EdgeId} (h : Synced g detached) (hl : ∀ x ∈ l, ¬ detached x)
    (hrest : ∀ x edge, ¬ detached x → g.edge x = .ok edge → edge.closure = some old → x ∈ l)
    (hne : old ≠ new) (hparent : old ≠ parent)
    (hg : l.foldlM (Graph.moveLabel parent new) g = .ok g') :
    Synced g' detached ∧ g'.listed .closure old = [] := by
  induction l generalizing g with
  | nil =>
    cases hg
    refine ⟨h, List.eq_nil_iff_forall_not_mem.2 fun x hx => ?_⟩
    obtain ⟨hnd, edge, hedge, hat⟩ := (h.linked.mem_iff _ _ _).1 hx
    exact absurd (hrest x edge hnd hedge hat) List.not_mem_nil
  | cons e l ih =>
    simp only [List.foldlM_cons, Checked.bind_eq_ok] at hg
    obtain ⟨g₁, h₁, hg⟩ := hg
    obtain ⟨hs₁, edge, c, hc, -, hx⟩ := h.moveLabel (hl e (by simp)) h₁
    refine ih hs₁ (fun x hx => hl x (by simp [hx])) (fun x edge' hnd hedge' hclosure => ?_) hg
    rw [hx] at hedge'
    split at hedge'
    · -- the closure of `e` is no longer `old`
      cases hedge'
      rw [show c = some old from hclosure] at hc
      simp [hne, hparent] at hc
    · next hex => exact List.mem_of_ne_of_mem (Ne.symm hex) (hrest x edge' hnd hedge' hclosure)

/-- Moving labels touches no other lists. -/
theorem listed_moveLabel (hg : Graph.moveLabel parent new g e = .ok g') (hr : r ≠ .closure) :
    g'.listed r s = g.listed r s := by
  have hdrop : ∀ {g g' : Graph} {c : StatId} {φ : List EdgeId → List EdgeId},
      g.modifyStat c (Stat.mapEdgesAt .closure φ) = .ok g' → g'.listed r s = g.listed r s := by
    intro g g' c φ hg
    rw [listed_mapEdgesAt hg, if_neg fun h => hr h.1.symm]
  have hunlabel : ∀ {g g' : Graph}, g.unlabel e = .ok g' → g'.listed r s = g.listed r s := by
    intro g g' hg
    simp only [Graph.unlabel, Checked.bind_eq_ok] at hg
    obtain ⟨edge, -, hg⟩ := hg
    split at hg
    · cases hg
      rfl
    · exact hdrop hg
  have hset : ∀ {c : StatId}, g.setClosure c e = .ok g' → g'.listed r s = g.listed r s := by
    intro c hg
    simp only [Graph.setClosure, Checked.bind_eq_ok] at hg
    obtain ⟨g₁, h₁, g₂, h₂, hg⟩ := hg
    obtain ⟨-, -, -, hsame⟩ := edge_modifyEdge h₂
    have henter := hdrop (φ := (· ++ [e])) hg
    rw [henter, hsame, hunlabel h₁]
  simp only [Graph.moveLabel, Checked.bind_eq_ok] at hg
  obtain ⟨edge₀, -, hg⟩ := hg
  split at hg
  · exact hset hg
  · obtain ⟨inside, -, hg⟩ := Checked.bind_eq_ok.1 hg
    split at hg
    · simp only [Graph.clearClosure, Checked.bind_eq_ok] at hg
      obtain ⟨g₁, h₁, hg⟩ := hg
      obtain ⟨-, -, -, hsame⟩ := edge_modifyEdge hg
      rw [hsame, hunlabel h₁]
    · exact hset hg

/-- A statement that was replaced lists no edge. If it does not take its own place, the lists stay
in step. -/
theorem Synced.replaceStat (h : Synced g detached) (hne : old ≠ new)
    (hg : g.replaceStat parent old new = .ok g') :
    (∀ r, g'.listed r old = []) ∧ (old ≠ parent → Synced g' detached) := by
  simp only [Graph.replaceStat, Checked.bind_eq_ok] at hg
  obtain ⟨ot, hot, g₁, h₁, g₂, h₂, g₃, h₃, g₄, h₄, g₅, h₅, ot', hot', g₆, h₆, h₇⟩ := hg
  obtain ⟨s₁, hnil₁⟩ := h.movePredecessors hne hot h₁
  obtain ⟨s₂, hnil₂, hdest₂⟩ := s₁.moveSuccessors hne h₂
  have e₅ : SameEdges g₂ g₅ := by
    refine .trans (.modifyStat h₃ fun st r => ?_) (.trans (.modifyStat h₄ fun st r => ?_)
      (.modifyStat h₅ fun st r => ?_)) <;> cases r <;> rfl
  have s₅ := s₂.of_sameEdges e₅
  have hlabels : g₅.listed .closure old = ot'.labels := listed_of_stat hot' _
  have hclear := listed_mapEdgesAt (r := .closure) (φ := fun _ => []) h₇
  obtain ⟨-, -, -, hedges, -⟩ := stat_modifyStat h₇
  refine ⟨fun r => ?_, fun hparent => ?_⟩
  · by_cases hr : r = .closure
    · rw [hclear, if_pos ⟨hr.symm, rfl⟩]
    · have hkept : g₆.listed r old = g₅.listed r old := Checked.foldlM_keeps
        (fun g => g.listed r old = g₅.listed r old) h₆ rfl
        fun e _ _ _ hb hstep => (listed_moveLabel hstep hr).trans hb
      rw [hclear, if_neg fun hc => hr hc.1.symm, hkept, e₅.lists]
      cases r with
      | source => exact hnil₂
      | destination => rw [hdest₂, hnil₁]
      | closure => exact absurd rfl hr
  · obtain ⟨s₆, hnil₆⟩ := s₅.moveLabels
      (fun x hx => s₅.not_detached (hlabels.symm ▸ List.mem_reverse.1 hx))
      (fun x edge hnd hedge hclosure => List.mem_reverse.2 (hlabels ▸ (s₅.linked.mem_iff _ _ _).2
        ⟨hnd, edge, hedge, hclosure⟩)) hne hparent h₆
    refine s₆.of_sameEdges ⟨hedges, fun r s => ?_⟩
    rw [hclear]
    split
    · next hrs => rw [← hrs.1, ← hrs.2, hnil₆]
    · rfl

end Replacing

/-! ## Removing statements and moving labels down -/

variable {detached : EdgeId → Prop}

/-- Detaching a list of edges adds them to the detached ones. -/
theorem Synced.detachAll {l : List EdgeId} (h : Synced g detached)
    (hg : l.foldlM Graph.detachEdge g = .ok g') : Synced g' fun x => detached x ∨ x ∈ l := by
  induction l generalizing g detached with
  | nil =>
    cases hg
    simpa using h
  | cons e l ih =>
    simp only [List.foldlM_cons, Checked.bind_eq_ok] at hg
    obtain ⟨g₁, h₁, hg⟩ := hg
    simpa only [List.mem_cons, or_assoc] using ih (h.detachEdge h₁) hg

theorem Synced.removeStat (h : Synced g detached) (hg : g.removeStat s = .ok g') :
    ∃ detached', Synced g' detached' ∧ ∀ x, detached x → detached' x := by
  simp only [Graph.removeStat, Checked.bind_eq_ok] at hg
  obtain ⟨st, -, g₁, h₁, st₁, -, g₂, h₂, st₂, -, hg⟩ := hg
  have s₂ := (h.detachAll h₁).detachAll h₂
  have e₂ : SameEdges g₂ g' := by
    split at hg
    · exact Checked.pure_eq_ok.1 hg ▸ .refl g₂
    · exact .removeChild hg
  exact ⟨_, s₂.of_sameEdges e₂, fun x hx => .inl (.inl hx)⟩

theorem Synced.lowerLabels (h : Synced g detached) (hg : g.lowerLabels s = .ok g') :
    Synced g' detached := by
  simp only [Graph.lowerLabels, Checked.bind_eq_ok] at hg
  obtain ⟨st, hst, hg⟩ := hg
  refine Checked.foldlM_keeps (Synced · detached) hg h fun e he g₁ g₂ h₁ hstep => ?_
  have hlabels : g.listed .closure s = st.labels := listed_of_stat hst _
  have hnd : ¬ detached e := h.not_detached (hlabels.symm ▸ he)
  obtain ⟨edge, -, hstep⟩ := Checked.bind_eq_ok.1 hstep
  split at hstep
  · refine Checked.foldlM_keeps (Synced · detached) hstep h₁ fun child _ g₃ g₄ h₃ hchild => ?_
    simp only [lowerLabel, Checked.bind_eq_ok] at hchild
    obtain ⟨edge, -, inside, -, hchild⟩ := hchild
    split at hchild
    · obtain ⟨falls, -, hchild⟩ := Checked.bind_eq_ok.1 hchild
      split at hchild
      · exact (h₃.setClosure hnd hchild).1
      · exact Checked.pure_eq_ok.1 hchild ▸ h₃
    · exact Checked.pure_eq_ok.1 hchild ▸ h₃
  · exact Checked.pure_eq_ok.1 hstep ▸ h₁

theorem Synced.lowerBreaksIn {n : ℕ} (h : Synced g detached) (hg : lowerBreaksIn n g s = .ok g') :
    Synced g' detached := by
  induction n generalizing g g' s with
  | zero => cases hg
  | succ n ih =>
    simp only [Graph.lowerBreaksIn, Checked.bind_eq_ok] at hg
    obtain ⟨g₁, h₁, st, -, hg⟩ := hg
    exact Checked.foldlM_keeps (Synced · detached) hg (h.lowerLabels h₁) fun c _ _ _ hb hstep =>
      ih hb hstep

theorem Synced.lowerBreaks (h : Synced g detached) (hg : g.lowerBreaks s = .ok g') :
    Synced g' detached :=
  h.lowerBreaksIn hg

end Graph

end Decompiler

import Decompiler.Proofs.Graph.Intact
import Decompiler.Proofs.Graph.Sides

/-!
# Closures and labels

What depends on the closures of edges, and what does not.

* `Graph.Relabelled`: two graphs differ in closures and labels only. Neither what contains a
  statement nor where control falls depends on these (`Graph.Relabelled.containsStrict`,
  `Graph.Relabelled.fallsInto`).
* `Graph.Confined`: what a change of some closures leaves alone, all other edges and labels.
* `Graph.containsStrict_iff`, `Graph.Climbs`: climbs along parents as paths, and when they come to
  an end.
* `Graph.Synced.fallsInto_returns`, `Graph.Synced.setClosure_returns`: in the tree of a graph with
  its lists in sync these come to a result.
-/

namespace Decompiler

open Relation

/-- A statement without the labels it lists. -/
def Stat.unlabelled (s : Stat) : Stat := { s with labels := [] }

/-- An edge without its closure. -/
def Edge.unlabelled (edge : Edge) : Edge := { edge with closure := none }

namespace Graph

variable {g g' g'' : Graph} {s t c d p : StatId} {e : EdgeId} {edge : Edge}
  {detached : EdgeId → Prop} {P Q : EdgeId → Prop} {α : Type}

/-! ## Closures and labels only -/

/-- The two graphs differ in the closures of edges and in the labels of statements only. -/
structure Relabelled (g g' : Graph) : Prop where
  /-- Statements agree but for their labels. -/
  stats : ∀ s, (g'.stat s).map Stat.unlabelled = (g.stat s).map Stat.unlabelled
  /-- Edges agree but for their closures. -/
  edges : ∀ e, (g'.edge e).map Edge.unlabelled = (g.edge e).map Edge.unlabelled
  /-- There are as many statements. -/
  size : g'.stats.size = g.stats.size
  /-- Expressions agree. -/
  exprs : g'.exprs = g.exprs

namespace Relabelled

theorem refl (g : Graph) : Relabelled g g := ⟨fun _ => rfl, fun _ => rfl, rfl, rfl⟩

theorem trans (h : Relabelled g g') (h' : Relabelled g' g'') : Relabelled g g'' :=
  ⟨fun s => (h'.stats s).trans (h.stats s), fun e => (h'.edges e).trans (h.edges e),
    h'.size.trans h.size, h'.exprs.trans h.exprs⟩

theorem symm (h : Relabelled g g') : Relabelled g' g :=
  ⟨fun s => (h.stats s).symm, fun e => (h.edges e).symm, h.size.symm, h.exprs.symm⟩

theorem modifyLabels {φ : List EdgeId → List EdgeId}
    (h : g.modifyStat s (fun st => { st with labels := φ st.labels }) = .ok g') :
    Relabelled g g' := by
  simp only [modifyStat, Checked.bind_eq_ok, Checked.pure_eq_ok] at h
  obtain ⟨a, ha, rfl⟩ := h
  obtain ⟨st, hst, hsize, ht⟩ := Arena.get_modify ha
  refine ⟨fun t => ?_, fun _ => rfl, hsize, rfl⟩
  change (a.get t).map _ = (g.stats.get t).map _
  rw [ht]
  split
  · next hts =>
    subst hts
    rw [hst]
    rfl
  · rfl

theorem modifyClosure (h : g.modifyEdge e (fun edge => { edge with closure := some s }) = .ok g') :
    Relabelled g g' := by
  obtain ⟨edge, hedge, hx, -⟩ := edge_modifyEdge h
  obtain ⟨hstats, hexprs⟩ := modifyEdge_frame h
  refine ⟨fun t => by rw [Graph.stat, hstats, Graph.stat], fun x => ?_, by rw [hstats], hexprs⟩
  rw [hx]
  split
  · next hex =>
    subst hex
    rw [hedge]
    rfl
  · rfl

theorem unlabel (h : g.unlabel e = .ok g') : Relabelled g g' := by
  simp only [Graph.unlabel, Checked.bind_eq_ok] at h
  obtain ⟨edge, -, h⟩ := h
  split at h
  · exact Checked.pure_eq_ok.1 h ▸ .refl g
  · exact modifyLabels h

theorem setClosure (h : g.setClosure s e = .ok g') : Relabelled g g' := by
  simp only [Graph.setClosure, Checked.bind_eq_ok] at h
  obtain ⟨g₁, h₁, g₂, h₂, h⟩ := h
  exact .trans (.unlabel h₁) (.trans (.modifyClosure h₂) (.modifyLabels (φ := (· ++ [e])) h))

section

variable (h : Relabelled g g')

include h

theorem sameTree : SameTree g g' := by
  refine ⟨fun s => ?_, h.exprs⟩
  have key : ∀ x : Checked Stat, x.map Stat.bare = (x.map Stat.unlabelled).map Stat.bare := by
    intro x
    cases x <;> rfl
  rw [bareStat, bareStat, key, h.stats, ← key]

theorem childOf_eq : g'.ChildOf = g.ChildOf := h.sameTree.sameLinks.childOf_eq

theorem within_eq : g'.Within = g.Within := h.sameTree.sameLinks.within_eq

theorem inTree_iff : g'.InTree s ↔ g.InTree s := h.sameTree.sameLinks.inTree_iff

theorem forest (hF : Forest g g.InTree) : Forest g' g'.InTree := by
  have hTree : g'.InTree = g.InTree := funext fun _ => propext h.inTree_iff
  rw [hTree]
  exact h.sameTree.sameLinks.forest hF

theorem exists_edge (hedge : g.edge e = .ok edge) :
    ∃ edge', g'.edge e = .ok edge' ∧ edge'.unlabelled = edge.unlabelled := by
  have := h.edges e
  rw [hedge] at this
  cases hedge' : g'.edge e with
  | error f => rw [hedge'] at this; cases this
  | ok edge' =>
    rw [hedge'] at this
    exact ⟨edge', rfl, Except.ok.inj this⟩

/-- What is computed from a statement without regard to its labels is the same in both graphs. -/
theorem stat_bind {f : Stat → Checked α} (hf : ∀ st, f st.unlabelled = f st) :
    (g'.stat s >>= f) = (g.stat s >>= f) := by
  have key : ∀ x : Checked Stat, (x >>= f) = (x.map Stat.unlabelled >>= f) := by
    intro x
    cases x with
    | error _ => rfl
    | ok st => exact (hf st).symm
  rw [key, h.stats, ← key]

/-- What is computed from an edge without regard to its closure is the same in both graphs. -/
theorem edge_bind {f : Edge → Checked α} (hf : ∀ edge, f edge.unlabelled = f edge) :
    (g'.edge e >>= f) = (g.edge e >>= f) := by
  have key : ∀ x : Checked Edge, (x >>= f) = (x.map Edge.unlabelled >>= f) := by
    intro x
    cases x with
    | error _ => rfl
    | ok edge => exact (hf edge).symm
  rw [key, h.edges, ← key]

theorem listed {r : EdgeEnd} (hr : r ≠ .closure) (s : StatId) : g'.listed r s = g.listed r s := by
  have key : ∀ g : Graph, g.listed r s =
      match (g.stat s).map Stat.unlabelled with
      | .ok st => st.edgesAt r
      | .error _ => [] := by
    intro g
    unfold Graph.listed
    cases g.stat s with
    | error _ => rfl
    | ok st => cases r <;> first | rfl | exact absurd rfl hr
  rw [key, key, h.stats]

theorem attached_iff : g'.Attached e ↔ g.Attached e := by
  have key : ∀ {g g' : Graph}, Relabelled g g' → g.Attached e → g'.Attached e := by
    rintro g g' h ⟨edge, hedge, hmem⟩
    obtain ⟨edge', hedge', heq⟩ := h.exists_edge hedge
    have hsource : edge'.unlabelled.source = edge.unlabelled.source := congrArg Edge.source heq
    refine ⟨edge', hedge', ?_⟩
    change e ∈ g'.listed .source edge'.unlabelled.source
    rw [hsource, h.listed (by decide)]
    exact hmem
  exact ⟨key h.symm, key h⟩

theorem parentOf_eq : g'.ParentOf = g.ParentOf := by
  ext s p
  have key : ∀ {g g' : Graph}, Relabelled g g' → g.ParentOf s p → g'.ParentOf s p := by
    rintro g g' h ⟨st, hst, hp⟩
    obtain ⟨st', hst', -, hparent, -⟩ := h.sameTree.stat hst
    exact ⟨st', hst', hparent.trans hp⟩
  exact ⟨key h.symm, key h⟩

theorem climbsTo (a : StatId) (n : ℕ) : g'.climbsTo a n = g.climbsTo a n := by
  induction n with
  | zero => rfl
  | succ n ih =>
    funext s
    simp only [Graph.climbsTo, ih]
    exact h.stat_bind fun _ => rfl

theorem containsStrict (a s : StatId) : g'.containsStrict a s = g.containsStrict a s := by
  rw [Graph.containsStrict, Graph.containsStrict, statLevels, statLevels, h.size, h.climbsTo]

theorem ofKinds (kinds : EdgeKinds) (l : List EdgeId) : g'.ofKinds kinds l = g.ofKinds kinds l :=
  congrArg (fun p => l.filterM p) (funext fun _ => h.edge_bind fun _ => rfl)

theorem successors (kinds : EdgeKinds) (s : StatId) :
    g'.neighbours s kinds .forward = g.neighbours s kinds .forward := by
  simp only [neighbours, successorEdges, h.ofKinds]
  have hend : (fun e => do return (← g'.edge e).destination : EdgeId → Checked StatId) =
      fun e => do return (← g.edge e).destination :=
    funext fun _ => h.edge_bind fun _ => rfl
  rw [hend]
  exact congrArg (· >>= _) (h.stat_bind fun _ => rfl)

theorem enterCase (s : StatId) : g'.enterCase s = g.enterCase s := by
  unfold Graph.enterCase
  refine (h.stat_bind fun _ => rfl).trans (bind_congr fun st => ?_)
  split
  · exact h.edge_bind fun _ => rfl
  · rfl

theorem fallsIntoIn (target : StatId) (n : ℕ) :
    g'.fallsIntoIn target n = g.fallsIntoIn target n := by
  induction n with
  | zero => rfl
  | succ n ih =>
    funext s
    simp only [Graph.fallsIntoIn, ih, h.successors, h.enterCase]
    refine bind_congr fun successors => ?_
    split
    · rfl
    · refine (h.stat_bind fun _ => rfl).trans (bind_congr fun st => ?_)
      split
      · exact h.stat_bind fun _ => rfl
      · rfl

theorem fallsInto (s target : StatId) : g'.fallsInto s target = g.fallsInto s target := by
  rw [Graph.fallsInto, Graph.fallsInto, statLevels, statLevels, h.size, h.fallsIntoIn]

end

end Relabelled

/-! ## Changes of some closures -/

/-- Nothing but closures of some edges and their places among labels has changed: all other edges
are as they were, and stand in the same order among the labels of every statement. -/
structure Confined (P : EdgeId → Prop) (g g' : Graph) : Prop where
  /-- Only closures and labels change. -/
  relabelled : Relabelled g g'
  /-- The other edges keep their closures. -/
  edge : ∀ e, ¬ P e → g'.edge e = g.edge e
  /-- The other edges keep their places among labels. -/
  labels : ∀ s (keep : EdgeId → Bool), (∀ e, P e → keep e = false) →
    (g'.listed .closure s).filter keep = (g.listed .closure s).filter keep

namespace Confined

theorem refl (g : Graph) : Confined P g g := ⟨.refl g, fun _ _ => rfl, fun _ _ _ => rfl⟩

theorem trans (h : Confined P g g') (h' : Confined P g' g'') : Confined P g g'' :=
  ⟨h.relabelled.trans h'.relabelled, fun e he => (h'.edge e he).trans (h.edge e he),
    fun s keep hkeep => (h'.labels s keep hkeep).trans (h.labels s keep hkeep)⟩

theorem mono (h : Confined P g g') (hPQ : ∀ e, P e → Q e) : Confined Q g g' :=
  ⟨h.relabelled, fun e he => h.edge e fun hP => he (hPQ e hP),
    fun s keep hkeep => h.labels s keep fun e hP => hkeep e (hPQ e hP)⟩

theorem dropLabel (h : g.dropLabel s e = .ok g') : Confined (· = e) g g' := by
  have hlisted := listed_mapEdgesAt (r := .closure) (φ := List.filter (· ≠ e)) h
  obtain ⟨-, -, -, hedges, -⟩ := stat_modifyStat h
  refine ⟨.modifyLabels (φ := List.filter (· ≠ e)) h, fun x _ => by rw [Graph.edge, hedges]; rfl,
    fun t keep hkeep => ?_⟩
  rw [hlisted]
  split
  · rw [List.filter_filter]
    refine List.filter_congr fun x _ => ?_
    by_cases hx : x = e <;> simp [hx, hkeep]
  · rfl

theorem unlabel (h : g.unlabel e = .ok g') : Confined (· = e) g g' := by
  simp only [Graph.unlabel, Checked.bind_eq_ok] at h
  obtain ⟨edge, -, h⟩ := h
  split at h
  · exact Checked.pure_eq_ok.1 h ▸ .refl g
  · exact .dropLabel h

theorem setClosure (h : g.setClosure s e = .ok g') : Confined (· = e) g g' := by
  have hrel := Relabelled.setClosure h
  obtain ⟨edge, -, hx⟩ := edge_setClosure h
  simp only [Graph.setClosure, Checked.bind_eq_ok] at h
  obtain ⟨g₁, h₁, g₂, h₂, h⟩ := h
  obtain ⟨-, -, -, hsame⟩ := edge_modifyEdge h₂
  have hlisted := listed_mapEdgesAt (r := .closure) (φ := (· ++ [e])) h
  refine ⟨hrel, fun x hxe => (hx x).trans (if_neg (Ne.symm hxe)), fun t keep hkeep => ?_⟩
  rw [← (unlabel h₁).labels t keep hkeep, ← hsame, hlisted]
  split
  · simp [hkeep]
  · rfl

end Confined

/-! ## Climbs -/

theorem climbsTo_iff {a : StatId} {n : ℕ} {b : Bool} (h : g.climbsTo a n s = .ok b) :
    b = true ↔ TransGen g.ParentOf s a := by
  induction n generalizing s with
  | zero => cases h
  | succ n ih =>
    simp only [climbsTo, Checked.bind_eq_ok] at h
    obtain ⟨st, hst, h⟩ := h
    -- the first step up is to the parent, if there is one
    rw [TransGen.head'_iff]
    simp only [parentOf_iff hst]
    split at h
    · next hnone =>
      cases h
      simp [hnone]
    · next p hp =>
      simp only [hp, Option.some.injEq, exists_eq_left']
      split at h
      · next hpa =>
        cases h
        simp [hpa, ReflTransGen.refl]
      · next hpa =>
        rw [ih h, reflTransGen_iff_eq_or_transGen]
        simp [Ne.symm hpa]

theorem containsStrict_iff {a : StatId} {b : Bool} (h : g.containsStrict a s = .ok b) :
    b = true ↔ TransGen g.ParentOf s a :=
  climbsTo_iff h

theorem parentOf_unique (h : g.ParentOf s p) (h' : g.ParentOf s t) : p = t := by
  obtain ⟨st, hst, hp⟩ := h
  rw [parentOf_iff hst, hp] at h'
  exact Option.some.inj h'

/-- Of two statements on the way up from a third, one is on the way up from the other. -/
theorem climb_total (h : ReflTransGen g.ParentOf s c) (h' : ReflTransGen g.ParentOf s d) :
    ReflTransGen g.ParentOf c d ∨ ReflTransGen g.ParentOf d c :=
  ReflTransGen.total_of_right_unique (fun _ _ _ => parentOf_unique) h h'

/-- The way up from a statement of the tree goes back down to it. -/
theorem Forest.within_of_climb (hF : Forest g g.InTree) (hc : g.InTree c)
    (h : ReflTransGen g.ParentOf c s) : g.InTree s ∧ g.Within s c := by
  induction h with
  | refl => exact ⟨hc, .refl⟩
  | tail _ hp ih =>
    obtain ⟨st, hst, hp⟩ := hp
    obtain ⟨hTree, hchild⟩ := hF.inTree_parent ih.1 hst hp
    exact ⟨hTree, .head hchild ih.2⟩

/-- A statement of the tree is not above itself. -/
theorem Forest.not_climb (hF : Forest g g.InTree) (hs : g.InTree s) :
    ¬ TransGen g.ParentOf s s := by
  intro hcycle
  obtain ⟨p, ⟨st, hst, hp⟩, hps⟩ := TransGen.head'_iff.1 hcycle
  obtain ⟨hTree, hchild⟩ := hF.inTree_parent hs hst hp
  exact hF.acyclic hs (.tail' (hF.within_of_climb hTree hps).2 hchild)

/-- The way up from a statement leads through statements only and never comes back. -/
def Climbs (g : Graph) (s : StatId) : Prop :=
  ∀ p, ReflTransGen g.ParentOf s p → (∃ st, g.stat p = .ok st) ∧ ¬ TransGen g.ParentOf p p

theorem Forest.climbs (hF : Forest g g.InTree) (hs : g.InTree s) : g.Climbs s := by
  intro p hp
  have hTree := (hF.within_of_climb hs hp).1
  exact ⟨hF.exists_stat hTree, hF.not_climb hTree⟩

theorem Climbs.containsStrict (h : g.Climbs s) (a : StatId) :
    Returns (g.containsStrict a s) fun _ => True := by
  refine walk_of_acyclic (S := ReflTransGen g.ParentOf s) (R := g.ParentOf)
    (P := fun n p => Returns (g.climbsTo a n p) fun _ => True)
    (fun p hp => (h p hp).1.elim fun _ hst => Arena.get_lt hst) (fun p q hp hq => hp.tail hq)
    (fun p hp => (h p hp).2) (fun n p hp habove => ?_) .refl (Nat.le_succ _)
  obtain ⟨st, hst⟩ := (h p hp).1
  simp only [climbsTo, hst, Checked.ok_bind]
  split
  · exact Returns.pure_iff.2 trivial
  · next q hq =>
    split
    · exact Returns.pure_iff.2 trivial
    · exact habove q ⟨st, hst, hq⟩

/-! ## Coming to a result -/

namespace Synced

variable (hS : Synced g detached)

include hS

theorem mem_edges_ids {r : EdgeEnd} (he : e ∈ g.listed r s) : e ∈ g.edges.ids := by
  obtain ⟨-, edge, hedge, -⟩ := (hS.linked.mem_iff r s e).1 he
  exact Arena.mem_ids.2 ⟨edge, hedge⟩

theorem successors_returns (kinds : EdgeKinds) (hs : s ∈ g.stats.ids) :
    Returns (g.neighbours s kinds .forward) fun _ => True := by
  obtain ⟨st, hst⟩ := exists_stat hs
  have hids : ∀ e ∈ st.successors, e ∈ g.edges.ids := fun e he =>
    hS.mem_edges_ids (r := .source) (s := s) (by rwa [listed_of_stat hst])
  simp only [neighbours, successorEdges, hst, Checked.ok_bind]
  refine (ofKinds_returns kinds hids).bind fun l _ hl => ?_
  refine (Returns.mapM (R := fun _ _ => True) fun e he => ?_).mono fun _ _ => trivial
  obtain ⟨edge, hedge⟩ := Graph.exists_edge (hl e he)
  simp [hedge]

theorem enterCase_returns (hs : s ∈ g.stats.ids) : Returns (g.enterCase s) fun _ => True := by
  obtain ⟨st, hst⟩ := exists_stat hs
  simp only [enterCase, hst, Checked.ok_bind]
  split
  · next e _ _ hsucc =>
    have hmem : e ∈ g.listed .source s := by simp [listed_of_stat hst, Stat.edgesAt, hsucc]
    obtain ⟨edge, hedge⟩ := Graph.exists_edge (hS.mem_edges_ids hmem)
    simp [hedge]
  · exact Returns.pure_iff.2 trivial

theorem fallsInto_returns (hF : Forest g g.InTree)
    (hroles : ∀ t st, g.InTree t → g.stat t = .ok st → ∀ c ∈ st.kind.roles, c ∈ g.stats.ids)
    (hs : g.InTree s) (target : StatId) : Returns (g.fallsInto s target) fun _ => True := by
  refine walk_of_acyclic (S := g.InTree) (R := g.ParentOf)
    (P := fun n s => Returns (g.fallsIntoIn target n s) fun _ => True)
    (fun s hs => (hF.exists_stat hs).elim fun _ hst => Arena.get_lt hst)
    (fun s p hs hp => (hF.within_of_climb hs (.single hp)).1) (fun s hs => hF.not_climb hs)
    (fun n s hs habove => ?_) hs (Nat.le_succ _)
  obtain ⟨st, hst⟩ := hF.exists_stat hs
  refine (hS.successors_returns _ (mem_stats_ids hst)).bind fun successors _ _ => ?_
  split
  · exact Returns.pure_iff.2 trivial
  · simp only [hst, Checked.ok_bind]
    split
    swap
    · exact Returns.pure_iff.2 trivial
    next p hp =>
    have hpTree := (hF.inTree_parent hs hst hp).1
    obtain ⟨pt, hpt⟩ := hF.exists_stat hpTree
    simp only [hpt, Checked.ok_bind]
    split
    · exact Returns.pure_iff.2 trivial
    · exact Returns.pure_iff.2 trivial
    · next head cases hkind =>
      split
      · next next hnext =>
        have hmem : next ∈ g.stats.ids := hroles p pt hpTree hpt next (by
          simp [hkind, StatKind.roles, mem_of_nextCase? hnext])
        exact (hS.enterCase_returns hmem).bind fun _ _ _ => Returns.pure_iff.2 trivial
      · exact habove p ⟨st, hst, hp⟩
    · exact habove p ⟨st, hst, hp⟩

theorem setClosure_returns (he : g.Attached e) (hs : s ∈ g.stats.ids) :
    ∃ g', g.setClosure s e = .ok g' := by
  obtain ⟨hnd, edge, hedge⟩ := hS.attached_iff.1 he
  have hunlabel : ∃ g₁, g.unlabel e = .ok g₁ := by
    simp only [unlabel, hedge, Checked.ok_bind]
    split
    · exact ⟨g, rfl⟩
    · next c hc =>
      have hmem : e ∈ g.listed .closure c :=
        (hS.linked.mem_iff .closure c e).2 ⟨hnd, edge, hedge, hc⟩
      obtain ⟨ct, hct⟩ := exists_stat (mem_stats_ids_of_listed hmem)
      exact modifyStat_returns _ hct
  obtain ⟨g₁, h₁⟩ := hunlabel
  obtain ⟨a, ha⟩ := Arena.modify_returns (fun edge : Edge => { edge with closure := some s })
    (show g₁.edges.get e = .ok edge by rw [edges_unlabel h₁]; exact hedge)
  have h₂ : g₁.modifyEdge e (fun edge => { edge with closure := some s }) =
      .ok { g₁ with edges := a } := by simp [modifyEdge, ha]
  have hrel := (Relabelled.unlabel h₁).trans (.modifyClosure h₂)
  obtain ⟨st, hst⟩ := exists_stat hs
  obtain ⟨st', hst', -⟩ := hrel.sameTree.stat hst
  obtain ⟨g₃, h₃⟩ := modifyStat_returns (fun st => { st with labels := st.labels ++ [e] }) hst'
  exact ⟨g₃, by simp [Graph.setClosure, h₁, h₂, h₃]⟩

end Synced

end Graph

end Decompiler

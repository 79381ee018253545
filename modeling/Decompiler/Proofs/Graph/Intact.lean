import Decompiler.Proofs.Graph.EdgeLists
import Decompiler.Proofs.Graph.WellFormed

/-!
# Graphs on which every operation comes to a result

An operation on a graph comes to a fault when it follows an id that is not in use, or a way up or
down the statements that does not end. Here this is excluded for all statements of a graph, those
outside the tree included: an edge may lead to one of them.

* `Graph.InOrder`: every id that is named is in use, and every walk ends. This can be decided.
* `Graph.Intact`: the same as a property of the links, which changes can be shown to keep.
* `Graph.Intact.ascend`, `Graph.Intact.descend`: why walks up and down come to a result, with
  `Graph.Intact.contains`, `Graph.Intact.fallsInto` and others as cases.
-/

namespace Decompiler

open Relation

/-! ## What is named -/

/-- The statements that have a role in a statement of a kind. -/
def StatKind.roles : StatKind → List StatId
  | .branch b => b.thenStat.toList ++ b.elseStat.toList
  | .switch _ cases => cases
  | .synchronized _ body => [body]
  | _ => []

namespace Stat

variable {s : Stat} {old c : StatId} {new : Option StatId}

/-- The statements that a statement names: its parent, its children and those with a role in it. -/
def relatives (s : Stat) : List StatId :=
  s.parent.toList ++ (s.children ++ (s.first.toList ++ s.kind.roles))

theorem mem_exchange_first (h : (s.exchange old new).first = some c) :
    s.first = some c ∨ c ∈ s.children ∨ new = some c := by
  cases new with
  | some b =>
    obtain ⟨d, hd, hc⟩ := Option.map_eq_some_iff.1 (show s.first.map _ = some c from h)
    split at hc
    · exact .inr (.inr (congrArg some hc))
    · exact .inl (hc ▸ hd)
  | none =>
    simp only [exchange, dropChild] at h
    split at h
    · exact .inr (.inl (List.mem_of_mem_filter (List.mem_of_head? h)))
    · exact .inl h

theorem mem_exchange_roles (h : c ∈ (s.exchange old new).kind.roles) :
    c ∈ s.kind.roles ∨ new = some c := by
  obtain ⟨kind, parent, first, children, declarations, successors, predecessors, labels⟩ := s
  cases new <;> cases kind <;>
    simp only [exchange, replaceChild, dropChild, StatKind.roles, List.mem_append,
      Option.mem_toList, Option.map_eq_some_iff, Option.filter_eq_some_iff, List.mem_map,
      List.mem_filter, List.mem_singleton, List.not_mem_nil] at h ⊢ <;> grind

theorem mem_exchange_relatives (h : c ∈ (s.exchange old new).relatives) :
    c ∈ s.relatives ∨ new = some c := by
  simp only [relatives, exchange_parent, List.mem_append, Option.mem_toList,
    mem_exchange_children] at h ⊢
  rcases h with h | (⟨h, -⟩ | ⟨-, h⟩) | h | h
  · exact .inl (.inl h)
  · exact .inl (.inr (.inl h))
  · exact .inr h
  · rcases mem_exchange_first h with h | h | h
    · exact .inl (.inr (.inr (.inl h)))
    · exact .inl (.inr (.inl h))
    · exact .inr h
  · exact (mem_exchange_roles h).imp_left fun h => .inr (.inr (.inr h))

theorem exchange_edgesAt (r : EdgeEnd) : (s.exchange old new).edgesAt r = s.edgesAt r := by
  cases new <;> cases r <;> rfl

theorem mem_relatives_of_parent (h : s.parent = some c) : c ∈ s.relatives := by
  simp [relatives, h]

theorem mem_relatives_of_first (h : s.first = some c) : c ∈ s.relatives := by
  simp [relatives, h]

theorem mem_relatives_of_child (h : c ∈ s.children) : c ∈ s.relatives := by
  simp [relatives, h]

end Stat

namespace Graph

variable {g g' g'' : Graph} {K : StatId → Prop} {s t p c : StatId} {e : EdgeId} {x : ExprId}
  {st : Stat}

/-- All that a statement names is in use. -/
structure Resolves (g : Graph) (st : Stat) : Prop where
  /-- Its relatives are. -/
  relatives : ∀ t ∈ st.relatives, t ∈ g.stats.ids
  /-- Its edges are. -/
  incident : ∀ r, ∀ e ∈ st.edgesAt r, e ∈ g.edges.ids
  /-- Its expressions are. -/
  named : ∀ x ∈ st.kind.named, x ∈ g.exprs.ids

instance (g : Graph) (st : Stat) : Decidable (g.Resolves st) :=
  decidable_of_iff ((∀ t ∈ st.relatives, t ∈ g.stats.ids) ∧
    (∀ r, ∀ e ∈ st.edgesAt r, e ∈ g.edges.ids) ∧ ∀ x ∈ st.kind.named, x ∈ g.exprs.ids)
    ⟨fun h => ⟨h.1, h.2.1, h.2.2⟩, fun h => ⟨h.1, h.2, h.3⟩⟩

/-- Every id that is named is in use, every statement can be listed with what lies in it, a climb
from it to a statement that is not there comes to an end, and every expression can be listed. -/
def InOrder (g : Graph) : Prop :=
  (∀ s ∈ g.stats.ids, Returns (g.stat s) g.Resolves ∧ Returns (g.postorder s) (fun _ => True) ∧
    Returns (g.containsStrict ⟨g.stats.size⟩ s) fun _ => True) ∧
  (∀ e ∈ g.edges.ids, Returns (g.edge e) fun edge =>
    ∀ r, ∀ t ∈ (edge.statAt r).toList, t ∈ g.stats.ids) ∧
  ∀ x ∈ g.exprs.ids, Returns (g.nodes x) fun _ => True

instance (g : Graph) : Decidable g.InOrder := inferInstanceAs (Decidable (_ ∧ _ ∧ _))

/-! ## Links without cycles -/

/-- `p` is the parent of `s`. -/
def ParentOf (g : Graph) (s p : StatId) : Prop := Returns (g.stat s) fun st => st.parent = some p

theorem parentOf_iff (h : g.stat s = .ok st) : g.ParentOf s p ↔ st.parent = some p := by
  rw [ParentOf, h, Returns.ok_iff]

/-- A climb from a statement that is its own parent never comes to an end. -/
theorem climbsTo_of_parentOf_self (h : g.ParentOf s s) (hne : s ≠ t) (levels : ℕ) :
    g.climbsTo t levels s = .error .cyclic := by
  obtain ⟨st, hst, hparent⟩ := h
  induction levels with
  | zero => rfl
  | succ levels ih => simp only [climbsTo, hst, hparent, hne, ih, Checked.ok_bind, if_false]

/-- Every id that is named is in use, and neither expressions nor statements have cycles. -/
structure Intact (g : Graph) : Prop where
  /-- What statements name is in use. -/
  stat : ∀ s st, g.stat s = .ok st → g.Resolves st
  /-- So are the ends of edges. -/
  edge : ∀ e edge, g.edge e = .ok edge → ∀ r t, edge.statAt r = some t → t ∈ g.stats.ids
  /-- Expressions have no cycles. -/
  acyclic : g.Acyclic
  /-- No statement lies in itself. -/
  down : ∀ s, ¬ TransGen g.ChildOf s s
  /-- No statement is above itself. -/
  up : ∀ s, ¬ TransGen g.ParentOf s s

theorem mem_of_nextCase? {l : List StatId} (h : nextCase? s l = some c) : c ∈ l := by
  fun_induction nextCase? s l with
  | case1 d rest => simp_all
  | case2 b d rest _ ih => exact List.mem_cons_of_mem b (ih h)
  | case3 => cases h

/-- A relation without cycles has none when ways out of `s` are added that do not lead back. -/
theorem acyclic_of_added {α : Type} {R R' : α → α → Prop} {s : α}
    (h : ∀ a b, R' a b → R a b ∨ (a = s ∧ ¬ ReflTransGen R b s)) (hR : ∀ a, ¬ TransGen R a a)
    (a : α) : ¬ TransGen R' a a := by
  -- a way back to `s` has an end that starts behind the last new way out
  have back : ∀ b, ReflTransGen R' b s → ReflTransGen R b s := by
    intro b hb
    induction hb using ReflTransGen.head_induction_on with
    | refl => exact .refl
    | head hbc _ ih =>
      rcases h _ _ hbc with hbc | ⟨rfl, -⟩
      · exact ih.head hbc
      · exact .refl
  have key : ∀ b, TransGen R' a b → TransGen R a b ∨
      ∃ c, ¬ ReflTransGen R c s ∧ ReflTransGen R' a s ∧ ReflTransGen R' c b := by
    intro b hb
    induction hb with
    | single hab =>
      rcases h _ _ hab with hab | ⟨rfl, hback⟩
      · exact .inl (.single hab)
      · exact .inr ⟨_, hback, .refl, .refl⟩
    | tail hab hbc ih =>
      rcases ih with ih | ⟨c, hback, has, hcb⟩
      · rcases h _ _ hbc with hbc | ⟨rfl, hback⟩
        · exact .inl (ih.tail hbc)
        · exact .inr ⟨_, hback, hab.to_reflTransGen, .refl⟩
      · exact .inr ⟨c, hback, has, hcb.tail hbc⟩
  intro hcycle
  rcases key a hcycle with hcycle | ⟨c, hback, has, hca⟩
  · exact hR a hcycle
  · exact hback (back c (hca.trans has))

/-- A walk that comes to a result does not start on a cycle. -/
theorem not_transGen_of_returns {R : StatId → StatId → Prop} {α : Type}
    (walk : ℕ → StatId → Checked α) (zero : ∀ s, walk 0 s = .error .cyclic)
    (step : ∀ n s t a, walk (n + 1) s = .ok a → R s t → ∃ b, walk n t = .ok b) {n : ℕ} {a : α}
    (h : walk n s = .ok a) : ¬ TransGen R s s := by
  induction n generalizing s a with
  | zero =>
    rw [zero] at h
    cases h
  | succ n ih =>
    intro hcycle
    obtain ⟨t, hst, hts⟩ := TransGen.head'_iff.1 hcycle
    obtain ⟨b, hb⟩ := step n s t a h hst
    exact ih hb (.tail' hts hst)

theorem InOrder.intact (h : g.InOrder) : g.Intact := by
  obtain ⟨hstats, hedges, hexprs⟩ := h
  have hids : ∀ {s st}, g.stat s = .ok st → s ∈ g.stats.ids := fun hst => Arena.mem_ids.2 ⟨_, hst⟩
  refine ⟨fun s st hst => ?_, fun e edge he => ?_, fun x n hn => ?_, fun s hcycle => ?_,
    fun s hcycle => ?_⟩
  · obtain ⟨⟨st', hst', hres⟩, -⟩ := hstats s (hids hst)
    rw [hst] at hst'
    cases hst'
    exact hres
  · obtain ⟨edge', he', hends⟩ := hedges e (Arena.mem_ids.2 ⟨edge, he⟩)
    rw [he] at he'
    cases he'
    exact fun r t ht => hends r t (Option.mem_toList.2 ht)
  · obtain ⟨l, hl, -⟩ := hexprs x (Arena.mem_ids.2 ⟨n, hn⟩)
    exact grounded_of_nodes hl
  · obtain ⟨c, ⟨st, hst, -⟩, -⟩ := TransGen.head'_iff.1 hcycle
    obtain ⟨-, ⟨l, hl, -⟩, -⟩ := hstats s (hids hst)
    refine not_transGen_of_returns g.postorderIn (fun _ => rfl) (fun n s t l hl hst => ?_) hl
      hcycle
    simp only [postorderIn, Checked.bind_eq_ok, Checked.mapM_eq_ok_iff] at hl
    obtain ⟨st, hs, ls, hls, -⟩ := hl
    obtain ⟨b, -, hb⟩ := Checked.exists_of_mem hls ((childOf_iff hs).1 hst)
    exact ⟨b, hb⟩
  · obtain ⟨c, ⟨st, hst, -⟩, -⟩ := TransGen.head'_iff.1 hcycle
    obtain ⟨-, -, b, hb, -⟩ := hstats s (hids hst)
    refine not_transGen_of_returns (g.climbsTo ⟨g.stats.size⟩) (fun _ => rfl)
      (fun n s t b hb hst => ?_) hb hcycle
    simp only [climbsTo, Checked.bind_eq_ok] at hb
    obtain ⟨st, hs, hb⟩ := hb
    obtain hp := (parentOf_iff hs).1 hst
    rw [hp] at hb
    simp only at hb
    split at hb
    · next heq =>
      obtain ⟨⟨st', hs', hres⟩, -⟩ := hstats s (hids hs)
      rw [hs] at hs'
      cases hs'
      have := hres.relatives t (by simp [Stat.relatives, hp])
      obtain ⟨tt, htt⟩ := Arena.mem_ids.1 this
      have := Arena.get_lt htt
      rw [heq] at this
      exact absurd this (lt_irrefl _)
    · exact ⟨b, hb⟩

theorem mem_stats_ids (h : g.stat s = .ok st) : s ∈ g.stats.ids := Arena.mem_ids.2 ⟨st, h⟩

theorem exists_stat (hs : s ∈ g.stats.ids) : ∃ st, g.stat s = .ok st := Arena.mem_ids.1 hs

theorem exists_edge (he : e ∈ g.edges.ids) : ∃ edge, g.edge e = .ok edge := Arena.mem_ids.1 he

theorem exists_node (hx : x ∈ g.exprs.ids) : ∃ n, g.node x = .ok n := Arena.mem_ids.1 hx

theorem ofKinds_returns (kinds : EdgeKinds) {l : List EdgeId} (hl : ∀ e ∈ l, e ∈ g.edges.ids) :
    Returns (g.ofKinds kinds l) fun r => ∀ e ∈ r, e ∈ g.edges.ids := by
  refine (Returns.filterM fun e he => ?_).mono fun r hr e he => hl e (hr e he)
  obtain ⟨edge, hedge⟩ := exists_edge (hl e he)
  simp [hedge]

namespace Intact

variable (hI : g.Intact)

include hI

/-! ## Walks -/

/-- Induction up the statements, with a count of levels that their number bounds. -/
theorem ascend {P : ℕ → StatId → Prop}
    (step : ∀ n s st, g.stat s = .ok st → (∀ p, st.parent = some p → P n p) → P (n + 1) s)
    (hs : s ∈ g.stats.ids) {n : ℕ} (hn : g.stats.size ≤ n) : P n s := by
  refine walk_of_acyclic (S := fun s => s ∈ g.stats.ids) (R := g.ParentOf)
    (fun s hs => (exists_stat hs).elim fun _ hst => Arena.get_lt hst) (fun s p _ hp => ?_)
    (fun s _ => hI.up s) (fun n s hs habove => ?_) hs hn
  · obtain ⟨st, hst, hp⟩ := hp
    exact (hI.stat s st hst).relatives p (Stat.mem_relatives_of_parent hp)
  · obtain ⟨st, hst⟩ := exists_stat hs
    exact step n s st hst fun p hp => habove p ⟨st, hst, hp⟩

/-- Induction down the statements. -/
theorem descend {P : ℕ → StatId → Prop}
    (step : ∀ n s st, g.stat s = .ok st → (∀ c ∈ st.children, P n c) → P (n + 1) s)
    (hs : s ∈ g.stats.ids) {n : ℕ} (hn : g.stats.size ≤ n) : P n s := by
  refine walk_of_acyclic (S := fun s => s ∈ g.stats.ids) (R := g.ChildOf)
    (fun s hs => (exists_stat hs).elim fun _ hst => Arena.get_lt hst) (fun s c _ hc => ?_)
    (fun s _ => hI.down s) (fun n s hs hbelow => ?_) hs hn
  · obtain ⟨st, hst, hc⟩ := hc
    exact (hI.stat s st hst).relatives c (Stat.mem_relatives_of_child hc)
  · obtain ⟨st, hst⟩ := exists_stat hs
    exact step n s st hst fun c hc => hbelow c ⟨st, hst, hc⟩

theorem containsStrict (a : StatId) (hs : s ∈ g.stats.ids) :
    Returns (g.containsStrict a s) fun _ => True := by
  refine hI.ascend (P := fun n s => Returns (g.climbsTo a n s) fun _ => True)
    (fun n s st hst habove => ?_) hs (Nat.le_succ _)
  simp only [climbsTo, hst, Checked.ok_bind]
  split
  · exact Returns.pure_iff.2 trivial
  · next p hp =>
    split
    · exact Returns.pure_iff.2 trivial
    · exact habove p hp

theorem contains (a : StatId) (hs : s ∈ g.stats.ids) :
    Returns (g.contains a s) fun _ => True := by
  unfold Graph.contains
  split
  · exact Returns.pure_iff.2 trivial
  · exact hI.containsStrict a hs

/-! ## Queries -/

theorem successorEdges (kinds : EdgeKinds) (hs : s ∈ g.stats.ids) :
    Returns (g.successorEdges s kinds) fun r => ∀ e ∈ r, e ∈ g.edges.ids := by
  obtain ⟨st, hst⟩ := exists_stat hs
  simp only [Graph.successorEdges, hst, Checked.ok_bind]
  exact ofKinds_returns kinds ((hI.stat s st hst).incident .source)

theorem predecessorEdges (kinds : EdgeKinds) (hs : s ∈ g.stats.ids) :
    Returns (g.predecessorEdges s kinds) fun r => ∀ e ∈ r, e ∈ g.edges.ids := by
  obtain ⟨st, hst⟩ := exists_stat hs
  simp only [Graph.predecessorEdges, hst, Checked.ok_bind]
  exact ofKinds_returns kinds ((hI.stat s st hst).incident .destination)

/-- The statements at one end of edges. -/
theorem mapM_statAt (r : EdgeEnd) {end' : Edge → StatId}
    (hend : ∀ edge, edge.statAt r = some (end' edge)) {l : List EdgeId}
    (hl : ∀ e ∈ l, e ∈ g.edges.ids) :
    Returns (l.mapM fun e => do return end' (← g.edge e)) fun r => ∀ t ∈ r, t ∈ g.stats.ids := by
  have hmap : Returns (l.mapM fun e => do return end' (← g.edge e))
      (List.Forall₂ (fun _ t => t ∈ g.stats.ids) l) := by
    refine Returns.mapM fun e he => ?_
    obtain ⟨edge, hedge⟩ := exists_edge (hl e he)
    simpa [hedge] using hI.edge e edge hedge r _ (hend edge)
  refine hmap.mono fun r hr t ht => ?_
  obtain ⟨e, -, h⟩ := Checked.exists_of_mem hr.flip ht
  exact h

theorem neighbours (kinds : EdgeKinds) (direction : Direction) (hs : s ∈ g.stats.ids) :
    Returns (g.neighbours s kinds direction) fun r => ∀ t ∈ r, t ∈ g.stats.ids := by
  cases direction with
  | forward =>
    exact (hI.successorEdges kinds hs).bind fun l _ hl =>
      hI.mapM_statAt .destination (fun _ => rfl) hl
  | backward =>
    exact (hI.predecessorEdges kinds hs).bind fun l _ hl =>
      hI.mapM_statAt .source (fun _ => rfl) hl

theorem enterCase (hs : s ∈ g.stats.ids) : Returns (g.enterCase s) fun _ => True := by
  obtain ⟨st, hst⟩ := exists_stat hs
  simp only [Graph.enterCase, hst, Checked.ok_bind]
  split
  · next e _ _ hsucc =>
    obtain ⟨edge, hedge⟩ := exists_edge ((hI.stat s st hst).incident .source e (by
      simp [Stat.edgesAt, hsucc]))
    simp [hedge]
  · exact Returns.pure_iff.2 trivial

theorem fallsInto (target : StatId) (hs : s ∈ g.stats.ids) :
    Returns (g.fallsInto s target) fun _ => True := by
  refine hI.ascend (P := fun n s => Returns (g.fallsIntoIn target n s) fun _ => True)
    (fun n s st hst habove => ?_) hs (Nat.le_succ _)
  refine (hI.neighbours _ .forward (mem_stats_ids hst)).bind fun successors _ _ => ?_
  split
  · exact Returns.pure_iff.2 trivial
  · simp only [hst, Checked.ok_bind]
    split
    swap
    · exact Returns.pure_iff.2 trivial
    next parent hparent =>
    have hp : parent ∈ g.stats.ids :=
      (hI.stat s st hst).relatives parent (Stat.mem_relatives_of_parent hparent)
    obtain ⟨pt, hpt⟩ := exists_stat hp
    simp only [hpt, Checked.ok_bind]
    split
    · exact Returns.pure_iff.2 trivial
    · exact Returns.pure_iff.2 trivial
    · next head cases hkind =>
      split
      · next next hnext =>
        have hnext : next ∈ g.stats.ids := (hI.stat parent pt hpt).relatives next (by
          simp [Stat.relatives, hkind, StatKind.roles, mem_of_nextCase? hnext])
        exact (hI.enterCase hnext).bind fun _ _ _ => Returns.pure_iff.2 trivial
      · exact habove parent hparent
    · exact habove parent hparent

end Intact

end Graph

end Decompiler

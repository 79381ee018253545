import Decompiler.Graph.Conditions
import Decompiler.Proofs.Checked
import Decompiler.Proofs.Offsets

/-!
# What changes of a graph leave alone

Reading after writing, and the two frames of the operations on edges and on expressions.

* `Graph.stat_modifyStat`, `Graph.node_modifyExpr`, `Graph.node_addOffsets`: a write is seen at the
  place it was made and nowhere else.
* `Graph.SameTree`: two graphs differ in their edges and in what statements list of them only. This
  holds of every operation on edges.
* `Graph.Grows`: expressions keep what they are, and their own offsets only increase.
-/

namespace Decompiler

namespace Arena

variable {s : NodeSort} {α : Type}

/-- Reading after a change of one node. -/
theorem get_modify {a b : Arena s α} {i : Id s} {f : α → α} (h : a.modify i f = .ok b) :
    ∃ x, a.get i = .ok x ∧ b.size = a.size ∧
      ∀ j, b.get j = if i = j then .ok (f x) else a.get j := by
  simp only [modify, Checked.bind_eq_ok] at h
  obtain ⟨x, hx, hb⟩ := h
  exact ⟨x, hx, size_set hb, fun j => get_set hb⟩

/-- A node that is there can be changed. -/
theorem modify_returns {a : Arena s α} {i : Id s} {x : α} (f : α → α) (h : a.get i = .ok x) :
    ∃ b, a.modify i f = .ok b := by
  have hi : i.index < a.size := exists_get_iff.1 ⟨x, h⟩
  exact ⟨⟨a.nodes.setIfInBounds i.index (f x)⟩, by simp [modify, h, set, hi]⟩

theorem get_lt {a : Arena s α} {i : Id s} {x : α} (h : a.get i = .ok x) : i.index < a.size :=
  exists_get_iff.1 ⟨x, h⟩

theorem mem_ids {a : Arena s α} {i : Id s} : i ∈ a.ids ↔ ∃ x, a.get i = .ok x := by
  rw [exists_get_iff, ids, List.mem_map]
  constructor
  · rintro ⟨k, hk, rfl⟩
    exact List.mem_range.1 hk
  · exact fun h => ⟨i.index, List.mem_range.2 h, rfl⟩

/-- Reading after an allocation: the new node at the new id, and all else as before. -/
theorem get_alloc (a : Arena s α) (x : α) (i : Id s) :
    (a.alloc x).1.get i = if (a.alloc x).2 = i then .ok x else a.get i := by
  split
  · next h => rw [← h, get_alloc_new]
  · next h =>
    have h' : i.index ≠ a.nodes.size := fun e => h (by cases i; simp_all [alloc, allocWith, size])
    simp [get, alloc, allocWith, Array.getElem?_push, h']

/-- The id an allocation hands out was not in use. -/
theorem get_alloc_fresh (a : Arena s α) (x y : α) : a.get (a.alloc x).2 ≠ .ok y := by
  intro h
  have := get_lt h
  simp [alloc, allocWith] at this

end Arena

namespace Stat

variable {s t : Stat}

/-- A statement without the edges it lists. -/
def bare (s : Stat) : Stat := { s with successors := [], predecessors := [], labels := [] }

theorem bare_eq_iff : s.bare = t.bare ↔
    s.kind = t.kind ∧ s.parent = t.parent ∧ s.first = t.first ∧ s.children = t.children ∧
      s.declarations = t.declarations := by
  simp [bare]

theorem branch?_eq_some {b : Branch} : s.branch? = some b ↔ s.kind = .branch b := by
  unfold branch?
  split <;> simp_all

theorem loop?_eq_some {l : Loop} : s.loop? = some l ↔ s.kind = .loop l := by
  unfold loop?
  split <;> simp_all

theorem exprs?_eq_some {l : List ExprId} : s.exprs? = some l ↔ s.kind = .block l := by
  unfold exprs?
  split <;> simp_all

theorem isEmptyLeaf_iff : s.isEmptyLeaf = true ↔ s.kind = .block [] := by
  rw [isEmptyLeaf, decide_eq_true_iff, exprs?_eq_some]

end Stat

namespace Graph

variable {g g' g'' : Graph} {s t : StatId} {e : ExprId}

/-! ## Reading after writing -/

theorem stat_modifyStat {f : Stat → Stat} (h : g.modifyStat s f = .ok g') :
    ∃ st, g.stat s = .ok st ∧ (∀ t, g'.stat t = if s = t then .ok (f st) else g.stat t) ∧
      g'.edges = g.edges ∧ g'.exprs = g.exprs := by
  simp only [modifyStat, Checked.bind_eq_ok, Checked.pure_eq_ok] at h
  obtain ⟨a, ha, rfl⟩ := h
  obtain ⟨st, hst, -, ht⟩ := Arena.get_modify ha
  exact ⟨st, hst, ht, rfl, rfl⟩

theorem modifyStat_returns {st : Stat} (f : Stat → Stat) (h : g.stat s = .ok st) :
    ∃ g', g.modifyStat s f = .ok g' := by
  obtain ⟨a, ha⟩ := Arena.modify_returns f h
  exact ⟨{ g with stats := a }, by simp [modifyStat, ha]⟩

theorem modifyEdge_frame {e : EdgeId} {f : Edge → Edge} (h : g.modifyEdge e f = .ok g') :
    g'.stats = g.stats ∧ g'.exprs = g.exprs := by
  simp only [modifyEdge, Checked.bind_eq_ok, Checked.pure_eq_ok] at h
  obtain ⟨a, -, rfl⟩ := h
  exact ⟨rfl, rfl⟩

theorem node_modifyExpr {f : Expr → Expr} (h : g.modifyExpr e f = .ok g') :
    ∃ n, g.node e = .ok n ∧
      (∀ x, g'.node x = if e = x then .ok ⟨f n.expr, n.offsets⟩ else g.node x) ∧
      g'.stats = g.stats ∧ g'.edges = g.edges ∧ g'.exprs.size = g.exprs.size := by
  simp only [modifyExpr, Checked.bind_eq_ok, Checked.pure_eq_ok] at h
  obtain ⟨a, ha, rfl⟩ := h
  obtain ⟨n, hn, hsize, hx⟩ := Arena.get_modify ha
  exact ⟨n, hn, hx, rfl, rfl, hsize⟩

theorem modifyExpr_returns {n : ExprNode} (f : Expr → Expr) (h : g.node e = .ok n) :
    ∃ g', g.modifyExpr e f = .ok g' := by
  obtain ⟨a, ha⟩ := Arena.modify_returns (fun n : ExprNode => { n with expr := f n.expr }) h
  exact ⟨{ g with exprs := a }, by simp [modifyExpr, ha]⟩

theorem node_addOffsets {o : Offsets} (h : g.addOffsets e o = .ok g') :
    ∃ n, g.node e = .ok n ∧
      (∀ x, g'.node x = if e = x then .ok ⟨n.expr, n.offsets.union o⟩ else g.node x) ∧
      g'.stats = g.stats ∧ g'.edges = g.edges ∧ g'.exprs.size = g.exprs.size := by
  simp only [addOffsets, Checked.bind_eq_ok, Checked.pure_eq_ok] at h
  obtain ⟨a, ha, rfl⟩ := h
  obtain ⟨n, hn, hsize, hx⟩ := Arena.get_modify ha
  exact ⟨n, hn, hx, rfl, rfl, hsize⟩

theorem addOffsets_returns {n : ExprNode} (o : Offsets) (h : g.node e = .ok n) :
    ∃ g', g.addOffsets e o = .ok g' := by
  obtain ⟨a, ha⟩ :=
    Arena.modify_returns (fun n : ExprNode => { n with offsets := n.offsets.union o }) h
  exact ⟨{ g with exprs := a }, by simp [addOffsets, ha]⟩

theorem expr_eq_ok {x : Expr} : g.expr e = .ok x ↔ ∃ n, g.node e = .ok n ∧ n.expr = x := by
  simp [expr]

theorem expr_modifyExpr {f : Expr → Expr} (h : g.modifyExpr e f = .ok g') {x : ExprId} {z : Expr}
    (hz : g.expr x = .ok z) : g'.expr x = .ok (if e = x then f z else z) := by
  obtain ⟨n, hn, hx, -⟩ := node_modifyExpr h
  obtain ⟨k, hk, rfl⟩ := expr_eq_ok.1 hz
  rw [expr_eq_ok, hx]
  split
  · next he =>
    rw [← he, hn] at hk
    cases hk
    exact ⟨_, rfl, rfl⟩
  · exact ⟨k, hk, rfl⟩

theorem loop?_eq_ok {l : Option Loop} :
    g.loop? s = .ok l ↔ ∃ st, g.stat s = .ok st ∧ st.loop? = l := by
  simp [Graph.loop?]

/-! ## Edges only -/

/-- What a statement is, its edges aside. -/
def bareStat (g : Graph) (s : StatId) : Checked Stat := (g.stat s).map Stat.bare

theorem bareStat_eq_ok {st : Stat} :
    g.bareStat s = .ok st ↔ ∃ st', g.stat s = .ok st' ∧ st'.bare = st := by
  cases h : g.stat s <;> simp [bareStat, h, Except.map]

theorem bareStat_of_stat {st : Stat} (h : g.stat s = .ok st) : g.bareStat s = .ok st.bare :=
  bareStat_eq_ok.2 ⟨st, h, rfl⟩

/-- Reading after a change that does not look at edges. -/
theorem bareStat_modifyStat {f : Stat → Stat} (h : g.modifyStat s f = .ok g')
    (hf : ∀ st, (f st).bare = f st.bare) (t : StatId) :
    g'.bareStat t = if s = t then (g.bareStat t).map f else g.bareStat t := by
  obtain ⟨st, hst, ht, -⟩ := stat_modifyStat h
  unfold bareStat
  rw [ht]
  split
  · next hts => rw [← hts, hst, Except.map, Except.map, Except.map, hf]
  · rfl

theorem stat_of_bareStat_map {f : Stat → Stat} (h : g'.bareStat s = (g.bareStat s).map f)
    (hf : ∀ st, (f st).bare = f st.bare) {st : Stat} (hst : g.stat s = .ok st) :
    ∃ st', g'.stat s = .ok st' ∧ st'.bare = (f st).bare := by
  rw [bareStat_of_stat hst] at h
  obtain ⟨st', hst', heq⟩ := bareStat_eq_ok.1 h
  exact ⟨st', hst', heq.trans (hf st).symm⟩

/-- The two graphs agree in their expressions, and their statements agree in all but the edges they
list. -/
structure SameTree (g g' : Graph) : Prop where
  /-- Statements agree but for their edges. -/
  stats : ∀ s, g'.bareStat s = g.bareStat s
  /-- Expressions agree. -/
  exprs : g'.exprs = g.exprs

namespace SameTree

theorem refl (g : Graph) : SameTree g g := ⟨fun _ => rfl, rfl⟩

theorem trans (h : SameTree g g') (h' : SameTree g' g'') : SameTree g g'' :=
  ⟨fun s => (h'.stats s).trans (h.stats s), h'.exprs.trans h.exprs⟩

theorem stat (h : SameTree g g') {st : Stat} (hs : g.stat s = .ok st) :
    ∃ st', g'.stat s = .ok st' ∧ st'.kind = st.kind ∧ st'.parent = st.parent ∧
      st'.first = st.first ∧ st'.children = st.children ∧
        st'.declarations = st.declarations := by
  obtain ⟨st', hst', heq⟩ := bareStat_eq_ok.1 ((h.stats s).trans (bareStat_of_stat hs))
  exact ⟨st', hst', Stat.bare_eq_iff.1 heq⟩

theorem of_stats_eq (hs : g'.stats = g.stats) (he : g'.exprs = g.exprs) : SameTree g g' :=
  ⟨fun s => by rw [bareStat, bareStat, Graph.stat, Graph.stat, hs], he⟩

theorem modifyStat {f : Stat → Stat} (h : g.modifyStat s f = .ok g')
    (hf : ∀ st, (f st).bare = st.bare) : SameTree g g' := by
  obtain ⟨st, hst, ht, -, he⟩ := stat_modifyStat h
  refine ⟨fun t => ?_, he⟩
  unfold bareStat
  rw [ht]
  split
  · next hts => rw [← hts, hst, Except.map, Except.map, hf]
  · rfl

theorem modifyEdge {e : EdgeId} {f : Edge → Edge} (h : g.modifyEdge e f = .ok g') :
    SameTree g g' :=
  of_stats_eq (modifyEdge_frame h).1 (modifyEdge_frame h).2

theorem foldlM {α : Type} {f : Graph → α → Checked Graph} {l : List α}
    (h : l.foldlM f g = .ok g') (hf : ∀ a ∈ l, ∀ g g', f g a = .ok g' → SameTree g g') :
    SameTree g g' :=
  Checked.foldlM_keeps (SameTree g) h (refl g) fun a ha _ _ hb hstep =>
    hb.trans (hf a ha _ _ hstep)

end SameTree

section Edges

variable {e : EdgeId} {old new parent loop : StatId}

theorem sameTree_dropLabel (h : g.dropLabel s e = .ok g') : SameTree g g' :=
  .modifyStat h fun _ => rfl

theorem sameTree_attachEdge (h : g.attachEdge e = .ok g') : SameTree g g' := by
  simp only [attachEdge, Checked.bind_eq_ok] at h
  obtain ⟨edge, -, g₁, h₁, g₂, h₂, h⟩ := h
  have h₁₂ : SameTree g g₂ := .trans (.modifyStat h₁ fun _ => rfl) (.modifyStat h₂ fun _ => rfl)
  split at h
  · exact Checked.pure_eq_ok.1 h ▸ h₁₂
  · exact h₁₂.trans (.modifyStat h fun _ => rfl)

theorem sameTree_detachEdge (h : g.detachEdge e = .ok g') : SameTree g g' := by
  simp only [detachEdge, Checked.bind_eq_ok] at h
  obtain ⟨edge, -, g₁, h₁, g₂, h₂, h⟩ := h
  have h₁₂ : SameTree g g₂ := .trans (.modifyStat h₁ fun _ => rfl) (.modifyStat h₂ fun _ => rfl)
  split at h
  · exact Checked.pure_eq_ok.1 h ▸ h₁₂
  · exact h₁₂.trans (sameTree_dropLabel h)

theorem sameTree_addEdge {edge : Edge} (h : g.addEdge edge = .ok (g', e)) : SameTree g g' := by
  simp only [addEdge, Checked.bind_eq_ok, Checked.pure_eq_ok] at h
  obtain ⟨g₁, h₁, h⟩ := h
  cases h
  have hattach := sameTree_attachEdge h₁
  exact ⟨hattach.stats, hattach.exprs⟩

theorem sameTree_changeDestination (h : g.changeDestination e s = .ok g') : SameTree g g' := by
  simp only [changeDestination, Checked.bind_eq_ok] at h
  obtain ⟨edge, -, g₁, h₁, g₂, h₂, h⟩ := h
  exact .trans (.modifyStat h₁ fun _ => rfl) (.trans (.modifyEdge h₂) (.modifyStat h fun _ => rfl))

theorem sameTree_unlabel (h : g.unlabel e = .ok g') : SameTree g g' := by
  simp only [unlabel, Checked.bind_eq_ok] at h
  obtain ⟨edge, -, h⟩ := h
  split at h
  · exact Checked.pure_eq_ok.1 h ▸ .refl g
  · exact sameTree_dropLabel h

theorem sameTree_setClosure (h : g.setClosure s e = .ok g') : SameTree g g' := by
  simp only [setClosure, Checked.bind_eq_ok] at h
  obtain ⟨g₁, h₁, g₂, h₂, h⟩ := h
  exact .trans (sameTree_unlabel h₁) (.trans (.modifyEdge h₂) (.modifyStat h fun _ => rfl))

theorem sameTree_clearClosure (h : g.clearClosure e = .ok g') : SameTree g g' := by
  simp only [clearClosure, Checked.bind_eq_ok] at h
  obtain ⟨g₁, h₁, h⟩ := h
  exact .trans (sameTree_unlabel h₁) (.modifyEdge h)

theorem sameTree_moveSuccessors (h : g.moveSuccessors old new = .ok g') : SameTree g g' := by
  simp only [moveSuccessors, Checked.bind_eq_ok] at h
  obtain ⟨st, -, g₁, h₁, h⟩ := h
  refine .trans (.modifyStat h₁ fun _ => rfl) (.foldlM h fun e _ g₂ g₃ h₂ => ?_)
  simp only [Checked.bind_eq_ok] at h₂
  obtain ⟨g₄, h₄, h₂⟩ := h₂
  exact .trans (.modifyEdge h₄) (.modifyStat h₂ fun _ => rfl)

theorem sameTree_moveLabel (h : moveLabel parent new g e = .ok g') : SameTree g g' := by
  simp only [moveLabel, Checked.bind_eq_ok] at h
  obtain ⟨edge, -, h⟩ := h
  split at h
  · exact sameTree_setClosure h
  · obtain ⟨inside, -, h⟩ := Checked.bind_eq_ok.1 h
    split at h
    · exact sameTree_clearClosure h
    · exact sameTree_setClosure h

end Edges

/-! ## Expressions that only gain offsets -/

/-- Every expression is kept as it is, and its own offsets are among those it has in `g'`. -/
def Grows (g g' : Graph) : Prop :=
  ∀ e n, g.node e = .ok n →
    ∃ n', g'.node e = .ok n' ∧ n'.expr = n.expr ∧ ∀ o ∈ n.offsets.toList, o ∈ n'.offsets.toList

namespace Grows

theorem refl (g : Graph) : Grows g g := fun _ n hn => ⟨n, hn, rfl, fun _ ho => ho⟩

theorem trans (h : Grows g g') (h' : Grows g' g'') : Grows g g'' := by
  intro e n hn
  obtain ⟨n₁, hn₁, he₁, ho₁⟩ := h e n hn
  obtain ⟨n₂, hn₂, he₂, ho₂⟩ := h' e n₁ hn₁
  exact ⟨n₂, hn₂, he₂.trans he₁, fun o ho => ho₂ o (ho₁ o ho)⟩

theorem of_exprs_eq (h : g'.exprs = g.exprs) : Grows g g' := by
  intro e n hn
  exact ⟨n, by rw [node, h]; exact hn, rfl, fun _ ho => ho⟩

theorem addOffsets {o : Offsets} (h : g.addOffsets e o = .ok g') : Grows g g' := by
  obtain ⟨n, hn, hx, -⟩ := node_addOffsets h
  intro x m hm
  rw [hx]
  split
  · next hex =>
    rw [← hex, hn] at hm
    cases hm
    exact ⟨_, rfl, rfl, fun p hp => Offsets.mem_union.2 (.inl hp)⟩
  · exact ⟨m, hm, rfl, fun _ hp => hp⟩

theorem allocExpr (g : Graph) (x : Expr) (o : Offsets) : Grows g (g.allocExpr x o).1 := by
  intro e n hn
  have hne : (g.exprs.alloc ⟨x, o⟩).2 ≠ e := by
    rintro rfl
    exact Arena.get_alloc_fresh g.exprs ⟨x, o⟩ n hn
  refine ⟨n, ?_, rfl, fun _ ho => ho⟩
  change (g.exprs.alloc ⟨x, o⟩).1.get e = .ok n
  rw [Arena.get_alloc, if_neg hne]
  exact hn

theorem absorb {target source : ExprId} (h : g.absorb target source = .ok g') : Grows g g' := by
  simp only [Graph.absorb, Checked.bind_eq_ok] at h
  obtain ⟨o, -, h⟩ := h
  exact .addOffsets h

theorem expr (h : Grows g g') {x : Expr} (he : g.expr e = .ok x) : g'.expr e = .ok x := by
  obtain ⟨n, hn, rfl⟩ := expr_eq_ok.1 he
  obtain ⟨n', hn', he', -⟩ := h e n hn
  exact expr_eq_ok.2 ⟨n', hn', he'⟩

end Grows

theorem allocExpr_frame {x : Expr} {o : Offsets} (h : g.allocExpr x o = (g', e)) :
    g'.stats = g.stats ∧ g'.edges = g.edges ∧ Grows g g' ∧ (∀ n, g.node e ≠ .ok n) ∧
      g'.node e = .ok ⟨x, o⟩ := by
  cases h
  exact ⟨rfl, rfl, .allocExpr g x o, fun n => Arena.get_alloc_fresh g.exprs ⟨x, o⟩ n,
    Arena.get_alloc_new g.exprs ⟨x, o⟩⟩

end Graph

end Decompiler

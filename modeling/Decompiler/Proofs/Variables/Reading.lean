import Decompiler.Proofs.Variables.Orderly
import Decompiler.Variables.Declare
import Decompiler.Variables.Scopes

/-!
# Reading an orderly graph

In an orderly graph every question about variables has an answer: the walks over the tree do not run
out of levels, and all that they meet is there.

* `Graph.Grounded.refsIn`, `Graph.Orderly.indicesIn`: occurrences of variables.
* `Graph.Legible.exprsIn`, `Graph.Orderly.offsetRange?`: what a statement and those below it hold.
* `Graph.Orderly.reads`, `Graph.Orderly.firstBlock?`: walks that end early.
* `Graph.declared?_eq_some`: through which occurrence an expression declares a variable.
-/

namespace Decompiler

namespace Graph

open Relation

variable {g : Graph} {s t : StatId} {e : ExprId}

/-! ## Expressions -/

namespace Grounded

theorem expr (h : g.Grounded e) : ∃ x, g.expr e = .ok x := by
  obtain ⟨n, hn⟩ := h.exists_node
  exact ⟨n.expr, expr_eq_ok.2 ⟨n, hn, rfl⟩⟩

theorem var? (h : g.Grounded e) : ∃ v, g.var? e = .ok v := by
  obtain ⟨x, hx⟩ := h.expr
  exact ⟨x.var?, by simp [Graph.var?, hx]⟩

theorem local? (h : g.Grounded e) : ∃ v, g.local? e = .ok v := by
  obtain ⟨x, hx⟩ := h.expr
  exact ⟨x.local?, by simp [Graph.local?, hx]⟩

theorem assign? (h : g.Grounded e) : ∃ p, g.assign? e = .ok p := by
  obtain ⟨x, hx⟩ := h.expr
  exact ⟨x.assign?, by simp [Graph.assign?, hx]⟩

theorem refsIn (h : g.Grounded e) : ∃ l, g.refsIn e = .ok l := by
  obtain ⟨l, hl⟩ := h.nodes
  exact ⟨_, by simp only [Graph.refsIn, hl, Checked.ok_bind]; rfl⟩

/-- Both sides of an assignment are there. -/
theorem sides (h : g.Grounded e) {left right : ExprId} (he : g.expr e = .ok (.assign left right)) :
    g.SubOf e left ∧ g.Grounded left ∧ g.Grounded right := by
  obtain ⟨n, hn, hexpr⟩ := expr_eq_ok.1 he
  have hleft : g.SubOf e left := ⟨n, hn, by simp [hexpr, Expr.children]⟩
  have hright : g.SubOf e right := ⟨n, hn, by simp [hexpr, Expr.children]⟩
  exact ⟨hleft, h.sub hleft, h.sub hright⟩

theorem isUsedIn {target : ExprId} (h : g.Grounded e) (ht : g.Grounded target)
    (exempt : List ExprId) : ∃ b, g.isUsedIn target e exempt = .ok b := by
  obtain ⟨v, hv⟩ := ht.local?
  obtain ⟨l, hl⟩ := h.refsIn
  cases v with
  | none => exact ⟨_, by simp only [Graph.isUsedIn, hv, Checked.ok_bind]; rfl⟩
  | some v => exact ⟨_, by simp only [Graph.isUsedIn, hv, hl, Checked.ok_bind]; rfl⟩

theorem readsIn (h : g.Grounded e) (var : Local) (exempt : List ExprId) :
    ∃ b, g.readsIn var e exempt = .ok b := by
  obtain ⟨p, hp⟩ := h.assign?
  obtain ⟨l, hl⟩ := h.refsIn
  exact ⟨_, by simp only [Graph.readsIn, hp, hl, Checked.ok_bind]; rfl⟩

end Grounded

theorem assign?_eq_ok {left right : ExprId} :
    g.assign? e = .ok (some (left, right)) ↔ g.expr e = .ok (.assign left right) := by
  simp only [assign?, Checked.bind_eq_ok, Checked.pure_eq_ok]
  constructor
  · rintro ⟨x, hx, h⟩
    cases x <;> cases h
    exact hx
  · exact fun h => ⟨_, h, rfl⟩

theorem var?_eq_ok {v : VarRef} : g.var? e = .ok (some v) ↔ g.expr e = .ok (.var v) := by
  simp only [var?, Checked.bind_eq_ok, Checked.pure_eq_ok]
  constructor
  · rintro ⟨x, hx, h⟩
    cases x <;> cases h
    exact hx
  · exact fun h => ⟨_, h, rfl⟩

theorem local?_eq_ok {v : Local} :
    g.local? e = .ok (some v) ↔ ∃ w, g.expr e = .ok (.var w) ∧ w.var = v := by
  simp only [local?, Checked.bind_eq_ok, Checked.pure_eq_ok]
  constructor
  · rintro ⟨x, hx, h⟩
    obtain ⟨w, hw, rfl⟩ := Option.map_eq_some_iff.1 h
    cases x <;> cases hw
    exact ⟨w, hx, rfl⟩
  · rintro ⟨w, hw, rfl⟩
    exact ⟨_, hw, rfl⟩

/-- The occurrences in an expression are nodes below it. -/
theorem mem_refsIn {l : List (ExprId × VarRef)} (h : g.refsIn e = .ok l) {v : ExprId × VarRef} :
    v ∈ l ↔ g.Reaches e v.1 ∧ g.expr v.1 = .ok (.var v.2) := by
  obtain ⟨nodes, hnodes, h⟩ := Checked.bind_eq_ok.1 h
  rw [← Checked.pure_eq_ok.1 h, List.mem_filterMap]
  constructor
  · rintro ⟨n, hn, hv⟩
    obtain ⟨w, hw, rfl⟩ := Option.map_eq_some_iff.1 hv
    obtain ⟨hreach, hnode⟩ := (mem_nodesIn hnodes n).1 hn
    exact ⟨hreach, var?_eq_ok.1 (by simp [var?, expr, hnode, hw])⟩
  · rintro ⟨hreach, hv⟩
    obtain ⟨n, hnode, hexpr⟩ := expr_eq_ok.1 hv
    exact ⟨(v.1, n), (mem_nodesIn hnodes _).2 ⟨hreach, hnode⟩, by simp [hexpr, Expr.var?]⟩

theorem mem_refsInAll {l : List ExprId} {r : List (ExprId × VarRef)} (h : g.refsInAll l = .ok r)
    {v : ExprId × VarRef} :
    v ∈ r ↔ ∃ e ∈ l, g.Reaches e v.1 ∧ g.expr v.1 = .ok (.var v.2) := by
  obtain ⟨ls, hls, h⟩ := Checked.bind_eq_ok.1 h
  rw [← Checked.pure_eq_ok.1 h]
  exact mem_flatten_of_forall₂ (Checked.mapM_eq_ok_iff.1 hls) (fun _ _ he _ => mem_refsIn he) v

theorem refsInAll_returns {l : List ExprId} (h : ∀ e ∈ l, g.Grounded e) :
    ∃ r, g.refsInAll l = .ok r := by
  have hr : Returns (l.mapM g.refsIn) (List.Forall₂ (fun _ _ => True) l) :=
    Returns.mapM fun e he => (h e he).refsIn.elim fun r hr => ⟨r, hr, trivial⟩
  obtain ⟨r, hr, -⟩ := hr
  exact ⟨_, by simp only [refsInAll, hr, Checked.ok_bind]; rfl⟩

theorem indicesIn_returns {l : List ExprId} (h : ∀ e ∈ l, g.Grounded e) :
    ∃ r, g.indicesIn l = .ok r := by
  obtain ⟨r, hr⟩ := refsInAll_returns h
  exact ⟨_, by simp only [indicesIn, hr, Checked.ok_bind]; rfl⟩

/-! ## Statements -/

/-- The statement does the expression itself. -/
def Evaluates (g : Graph) (s : StatId) (e : ExprId) : Prop :=
  Returns (g.stat s) fun st => .expr e ∈ st.items

theorem Evaluates.holds (h : g.Evaluates s e) : g.Holds s e := by
  obtain ⟨st, hst, he⟩ := h
  exact ⟨st, hst, List.mem_append_left _ (Stat.mem_exprs_of_items he)⟩

theorem childOf_of_items {st : Stat} (hst : g.stat s = .ok st) (h : .stat t ∈ st.items) :
    g.ChildOf s t := by
  refine ⟨st, hst, ?_⟩
  have key : ∀ l : List StatId, Item.stat t ∈ l.map Item.stat → t ∈ l := fun l hl => by
    simpa using hl
  have hexpr : ∀ l : List ExprId, Item.stat t ∉ l.map Item.expr := by simp
  unfold Stat.items at h
  split at h
  · exact absurd h (hexpr _)
  all_goals
    simp only [List.mem_append, hexpr, or_false, false_or] at h
  · exact h.elim (fun h => key _ (List.mem_of_mem_take h)) fun h => key _ (List.mem_of_mem_drop h)
  · exact h.elim (fun h => key _ (List.mem_of_mem_take h)) fun h => key _ (List.mem_of_mem_drop h)
  · exact h.elim (fun h => key _ (List.mem_of_mem_take h)) fun h => key _ (List.mem_of_mem_drop h)
  · exact key _ h
  · exact key _ h

namespace Legible

variable (o : g.Legible)

include o

theorem statements : ∃ l, g.statements = .ok l ∧ ∀ s, s ∈ l ↔ g.InTree s := by
  obtain ⟨l, hl, -, hmem⟩ := o.forest.statements
  exact ⟨l, hl, hmem⟩

theorem exprsIn (hs : g.InTree s) : ∃ l, g.exprsIn s = .ok l ∧ ∀ e ∈ l, g.Grounded e := by
  obtain ⟨l, hl⟩ := o.forest.exprsIn hs
  refine ⟨l, hl, fun e he => ?_⟩
  obtain ⟨x, hx, he⟩ := (o.forest.mem_exprsIn hs hl).1 he
  exact o.grounded x e (hs.within hx) he

/-- A search through the items of a statement ends. -/
theorem someItem {test : ExprId → Checked Bool} (htest : ∀ e, g.Grounded e → ∃ b, test e = .ok b)
    (hs : g.InTree s) (start : ℕ) : ∃ b, g.someItem test s start = .ok b := by
  have hitems : Returns (g.someItem test s start) fun _ => True := by
    refine o.forest.walk
      (P := fun n s => ∀ start, Returns (g.someItemIn test n s start) fun _ => True)
      (fun n s st hs hst hbelow start => ?_) hs (by rw [statLevels]; omega) start
    rw [someItemIn, hst]
    refine Returns.anyM fun item hitem => ?_
    have hitem : item ∈ st.items := List.mem_of_mem_drop hitem
    cases item with
    | stat child => exact hbelow child ((childOf_iff hst).1 (childOf_of_items hst hitem)) 0
    | expr e =>
      have he : g.Evaluates s e := ⟨st, hst, hitem⟩
      obtain ⟨b, hb⟩ := htest e (o.grounded s e hs he.holds)
      exact ⟨b, hb, trivial⟩
  exact hitems.elim fun b hb => ⟨b, hb.1⟩

end Legible

namespace Orderly

variable (o : g.Orderly)

include o

theorem findOccurrence? {α : Type} (hs : g.InTree s) (f : VarRef → Option α) :
    ∃ r, g.findOccurrence? s f = .ok r := by
  obtain ⟨l, hl, hgrounded⟩ := o.exprsIn hs
  have hfind : Returns (g.findOccurrence? s f) fun r => ∀ b, r = some b → True := by
    rw [Graph.findOccurrence?, hl]
    refine Returns.findSomeM? fun e he => ?_
    obtain ⟨r, hr⟩ := (hgrounded e he).refsIn
    simp [hr]
  exact hfind.elim fun r hr => ⟨r, hr.1⟩

theorem offsetRange? (hs : g.InTree s) : ∃ r, g.offsetRange? s = .ok r := by
  obtain ⟨l, hl, hgrounded⟩ := o.exprsIn hs
  have hmap : Returns (l.mapM g.subtreeOffsets) (List.Forall₂ (fun _ _ => True) l) :=
    Returns.mapM fun e he => (hgrounded e he).subtreeOffsets.elim fun u hu => ⟨u, hu, trivial⟩
  obtain ⟨us, hus, -⟩ := hmap
  exact ⟨_, by simp only [Graph.offsetRange?, statOffsets, hl, hus, Checked.ok_bind]; rfl⟩

theorem reads (hs : g.InTree s) (var : Local) (start : ℕ) (exempt : List ExprId) :
    ∃ b, g.reads var s start exempt = .ok b :=
  o.someItem (fun _ he => he.readsIn var exempt) hs start

end Orderly

theorem mem_of_pickMentioning {mentioned : StatId → Bool} {l : List StatId} {isLast : Bool}
    (h : pickMentioning mentioned l = some (s, isLast)) : s ∈ l := by
  induction l with
  | nil => cases h
  | cons t rest ih =>
    cases rest with
    | nil =>
      cases h
      exact List.mem_singleton_self s
    | cons u rest =>
      simp only [pickMentioning] at h
      split at h
      · cases h
        exact List.mem_cons_self
      · exact List.mem_cons_of_mem t (ih h)

/-- The statement at whose start a variable is declared is in the tree. -/
theorem Orderly.firstBlock? (o : g.Orderly) (hs : g.InTree s) (plan : Plan) (index : ℕ) :
    Returns (g.firstBlock? plan s index) fun r => ∀ t, r = some t → g.InTree t := by
  refine o.forest.walk (P := fun n s => ∀ l isLast, (∀ x ∈ l, g.InTree x) →
      pickMentioning (fun s => plan.mentioned s index) l = some (s, isLast) →
      Returns (g.firstBlockIn (fun s => plan.mentioned s index) (n + 1) l)
        fun r => ∀ t, r = some t → g.InTree t)
    (fun n s st hs hst hbelow l isLast hl hpick => ?_) hs (Nat.le_succ _) [s] true (by simpa using hs)
    rfl
  -- what is entered is a list of children, from which one is picked in turn
  have henter : ∀ l, (∀ c ∈ l, c ∈ st.children) →
      Returns (g.firstBlockIn (fun s => plan.mentioned s index) (n + 1) l)
        fun r => ∀ t, r = some t → g.InTree t := by
    intro l hl
    have hTree : ∀ c ∈ l, g.InTree c := fun c hc => hs.child ⟨st, hst, hl c hc⟩
    cases hpick : pickMentioning (fun s => plan.mentioned s index) l with
    | none =>
      simp only [firstBlockIn, hpick]
      exact Returns.pure_iff.2 nofun
    | some p => exact hbelow p.1 (hl p.1 (mem_of_pickMentioning hpick)) l p.2 hTree hpick
  obtain ⟨labeled, hlabeled⟩ := o.labels s hs
  have hself : Returns (pure (some s) : Checked (Option StatId))
      fun r => ∀ t, r = some t → g.InTree t := by
    refine Returns.pure_iff.2 fun t ht => ?_
    cases ht
    exact hs
  rw [firstBlockIn, hpick]
  simp only [hlabeled, Checked.ok_bind]
  split
  · exact hself
  · rw [hst, Checked.ok_bind]
    have hfirst : ∀ c ∈ st.first.toList, c ∈ st.children := fun c hc => by
      rw [o.entries s st hs hst] at hc
      exact List.mem_of_head? (Option.mem_toList.1 hc)
    split
    · exact henter _ fun c hc => hc
    · exact henter _ hfirst
    · exact henter _ hfirst
    · exact henter _ hfirst
    · exact henter _ hfirst
    · exact hself

/-! ## Declarations -/

theorem declared?_returns (h : g.Grounded e) : ∃ v, Method.declared? g e = .ok v := by
  obtain ⟨x, hx⟩ := h.expr
  cases x with
  | assign left right =>
    obtain ⟨-, hleft, -⟩ := h.sides hx
    obtain ⟨v, hv⟩ := hleft.var?
    exact ⟨_, by simp only [Method.declared?, hx, hv, Checked.ok_bind]; rfl⟩
  | _ => exact ⟨_, by simp only [Method.declared?, hx, Checked.ok_bind]; rfl⟩

/-- An expression declares a variable through an occurrence that it is, or assigns to. -/
theorem declared?_eq_some {v : Local} : Method.declared? g e = .ok (some v) ↔
    ∃ y w, (y = e ∨ ∃ right, g.expr e = .ok (.assign y right)) ∧ g.expr y = .ok (.var w) ∧
      w.isDefinition = true ∧ w.var = v := by
  have key : ∀ w? : Option VarRef, (w?.filter VarRef.isDefinition).map VarRef.var = some v ↔
      ∃ w, w? = some w ∧ w.isDefinition = true ∧ w.var = v := by
    intro w?
    simp only [Option.map_eq_some_iff, Option.filter_eq_some_iff, and_assoc]
  constructor
  · intro h
    obtain ⟨x, hx, h⟩ := Checked.bind_eq_ok.1 h
    cases x with
    | assign left right =>
      obtain ⟨w?, hw, h⟩ := Checked.bind_eq_ok.1 h
      obtain ⟨w, rfl, hdef, hvar⟩ := (key w?).1 (Checked.pure_eq_ok.1 h)
      exact ⟨left, w, .inr ⟨right, hx⟩, var?_eq_ok.1 hw, hdef, hvar⟩
    | var w' =>
      obtain ⟨w, hw, hdef, hvar⟩ := (key (some w')).1 (Checked.pure_eq_ok.1 h)
      cases hw
      exact ⟨e, w', .inl rfl, hx, hdef, hvar⟩
    | _ => cases h
  · rintro ⟨y, w, rfl | ⟨right, he⟩, hy, hdef, hvar⟩
    · simp only [Method.declared?, hy, Checked.ok_bind]
      exact Checked.pure_eq_ok.2 ((key (some w)).2 ⟨w, rfl, hdef, hvar⟩)
    · simp only [Method.declared?, he, Checked.ok_bind, var?_eq_ok.2 hy, Checked.pure_eq_ok]
      exact (key (some w)).2 ⟨w, rfl, hdef, hvar⟩

/-- The occurrence through which an expression declares a variable is a node of it. -/
theorem Grounded.reaches_target (h : g.Grounded e) {y : ExprId}
    (hy : y = e ∨ ∃ right, g.expr e = .ok (.assign y right)) : g.Reaches e y := by
  rcases hy with rfl | ⟨right, he⟩
  · exact .refl
  · exact .single (h.sides he).1

end Graph

end Decompiler

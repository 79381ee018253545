import Decompiler.Proofs.Loops.Matching
import Decompiler.Proofs.Graph.WellFormed

/-!
# Filling the slots of a loop

Every rewrite of a loop first gives the loop a new kind and new slots and takes the expressions that
go there out of the leaves that list them. This part leaves the tree alone.

* `Graph.Refits`: one loop is changed, some expressions are cut from their leaves, and expressions
  only gain offsets. These changes compose (`Graph.Refits.trans`).
* `Graph.Takes`: the offsets of an expression that is dropped are covered by another one.
* `Graph.refits_condition`, `Graph.refits_moveToSlot`, `Graph.refits_toForEach`: the parts that the
  rewrites are made of.
-/

namespace Decompiler

/-! ## One statement -/

namespace Stat

/-- Changes a loop by `f`, and leaves a leaf with the expressions that are to be kept. -/
def refit (f : Loop → Loop) (keep : ExprId → Bool) (s : Stat) : Stat :=
  match s.kind with
  | .block exprs => { s with kind := .block (exprs.filter keep) }
  | .loop l => { s with kind := .loop (f l) }
  | _ => s

variable {s : Stat} {f f' : Loop → Loop} {keep keep' : ExprId → Bool}

@[simp] theorem refit_parent : (s.refit f keep).parent = s.parent := by
  unfold refit
  split <;> rfl

@[simp] theorem refit_first : (s.refit f keep).first = s.first := by
  unfold refit
  split <;> rfl

@[simp] theorem refit_children : (s.refit f keep).children = s.children := by
  unfold refit
  split <;> rfl

@[simp] theorem refit_declarations : (s.refit f keep).declarations = s.declarations := by
  unfold refit
  split <;> rfl

theorem refit_bare : (s.refit f keep).bare = s.bare.refit f keep := by
  obtain ⟨kind, parent, first, children, declarations, successors, predecessors, labels⟩ := s
  cases kind <;> rfl

theorem refit_id : refit id (fun _ => true) = id := by
  funext s
  obtain ⟨kind, parent, first, children, declarations, successors, predecessors, labels⟩ := s
  cases kind <;> simp [refit]

theorem refit_refit : (s.refit f keep).refit f' keep' =
    s.refit (f' ∘ f) fun e => keep e && keep' e := by
  obtain ⟨kind, parent, first, children, declarations, successors, predecessors, labels⟩ := s
  cases kind <;> simp [refit, List.filter_filter, Bool.and_comm]

theorem mapLoop_eq_refit : mapLoop f = refit f fun _ => true := by
  funext s
  obtain ⟨kind, parent, first, children, declarations, successors, predecessors, labels⟩ := s
  cases kind <;> simp [mapLoop, refit]

theorem withExprs_eq_refit (e : ExprId) :
    (fun s : Stat => s.withExprs ((s.exprs?.getD []).filter (· ≠ e))) = refit id (· ≠ e) := by
  funext s
  obtain ⟨kind, parent, first, children, declarations, successors, predecessors, labels⟩ := s
  cases kind <;> simp [withExprs, exprs?, refit]

theorem refit_loop? {l : Loop} (h : s.loop? = some l) : (s.refit f keep).loop? = some (f l) := by
  rw [loop?_eq_some] at h
  simp [refit, h, loop?]

theorem refit_kind_eq_block {l : List ExprId} :
    (s.refit f keep).kind = .block l ↔ ∃ l₀, s.kind = .block l₀ ∧ l = l₀.filter keep := by
  obtain ⟨kind, parent, first, children, declarations, successors, predecessors, labels⟩ := s
  cases kind <;> simp [refit, eq_comm]

theorem mem_refit_id {e : ExprId} :
    e ∈ (s.refit id keep).kind.exprs ↔
      e ∈ s.kind.exprs ∧ ((∃ l, s.kind = .block l) → keep e = true) := by
  obtain ⟨kind, parent, first, children, declarations, successors, predecessors, labels⟩ := s
  cases kind <;> simp [refit, StatKind.exprs]

theorem refit_exprs_sublist : (s.refit id keep).kind.exprs.Sublist s.kind.exprs := by
  obtain ⟨kind, parent, first, children, declarations, successors, predecessors, labels⟩ := s
  cases kind with
  | block exprs => exact List.filter_sublist
  | _ => exact .refl _

theorem mem_refit_named {e : ExprId} (h : e ∈ (s.refit f keep).kind.named) :
    e ∈ s.kind.named ∨ ∃ l, s.loop? = some l ∧ e ∈ (StatKind.loop (f l)).named := by
  obtain ⟨kind, parent, first, children, declarations, successors, predecessors, labels⟩ := s
  cases kind with
  | block exprs => exact .inl (List.mem_of_mem_filter h)
  | loop l => exact .inr ⟨l, rfl, h⟩
  | _ => exact .inl h

theorem Fits.refit (h : s.Fits) : (s.refit f keep).Fits := by
  obtain ⟨kind, parent, first, children, declarations, successors, predecessors, labels⟩ := s
  cases kind <;> exact ⟨h.first, h.children⟩

end Stat

namespace Graph

variable {g g' g'' : Graph} {loop leaf s : StatId} {f f' : Loop → Loop}
  {cuts cuts' : List (StatId × ExprId)} {e target source x y : ExprId}

/-! ## Changes of slots -/

/-- The loop at `loop` is changed by `f`, the pairs of `cuts` are leaves that lose an expression,
and expressions only gain offsets. Statements keep all else but their edges. -/
structure Refits (g g' : Graph) (loop : StatId) (f : Loop → Loop)
    (cuts : List (StatId × ExprId)) : Prop where
  /-- What each statement becomes. -/
  stats : ∀ s, g'.bareStat s =
    (g.bareStat s).map (Stat.refit (if s = loop then f else id) fun e => (s, e) ∉ cuts)
  /-- Expressions only gain offsets. -/
  grows : Grows g g'
  /-- No cycle of expressions comes up. -/
  acyclic : g.Acyclic → g'.Acyclic

theorem map_id_checked {α : Type} (x : Checked α) : x.map id = x := by
  cases x <;> rfl

/-- A change of one statement by a refit. -/
theorem bareStat_modifyStat_refit {keep : ExprId → Bool}
    (h : g.modifyStat leaf (Stat.refit f keep) = .ok g') (s : StatId) :
    g'.bareStat s = (g.bareStat s).map
      (Stat.refit (if s = leaf then f else id) fun e => decide (s = leaf) → keep e) := by
  rw [bareStat_modifyStat h fun st => Stat.refit_bare]
  by_cases hs : s = leaf
  · simp [hs]
  · simp [hs, Ne.symm hs, Stat.refit_id, map_id_checked]

namespace Refits

theorem trans (h : Refits g g' loop f cuts) (h' : Refits g' g'' loop f' cuts') :
    Refits g g'' loop (f' ∘ f) (cuts ++ cuts') := by
  refine ⟨fun s => ?_, h.grows.trans h'.grows, fun ha => h'.acyclic (h.acyclic ha)⟩
  rw [h'.stats, h.stats]
  cases g.bareStat s with
  | error => rfl
  | ok st =>
    simp only [Except.map, Stat.refit_refit, List.mem_append, not_or, Bool.decide_and]
    split <;> rfl

theorem of_grows (loop : StatId) (hs : ∀ s, g'.bareStat s = g.bareStat s) (h : Grows g g')
    (ha : g.Acyclic → g'.Acyclic) : Refits g g' loop id [] := by
  refine ⟨fun s => ?_, h, ha⟩
  simp [hs, Stat.refit_id, map_id_checked]

theorem of_sameTree (loop : StatId) (h : SameTree g g') : Refits g g' loop id [] :=
  .of_grows loop h.stats (.of_exprs_eq h.exprs) fun ha => ha.of_exprs_eq h.exprs

theorem modifyLoop (h : g.modifyLoop loop f = .ok g') : Refits g g' loop f [] := by
  obtain ⟨-, -, -, -, he⟩ := stat_modifyStat h
  refine ⟨fun s => ?_, .of_exprs_eq he, fun ha => ha.of_exprs_eq he⟩
  rw [Graph.modifyLoop, Stat.mapLoop_eq_refit] at h
  simp [bareStat_modifyStat_refit h]

theorem removeExpr (loop : StatId) (h : g.removeExpr leaf e = .ok g') :
    Refits g g' loop id [(leaf, e)] := by
  obtain ⟨-, -, -, -, he⟩ := stat_modifyStat h
  refine ⟨fun s => ?_, .of_exprs_eq he, fun ha => ha.of_exprs_eq he⟩
  rw [Graph.removeExpr, Stat.withExprs_eq_refit] at h
  simp [bareStat_modifyStat_refit h]

theorem stat (h : Refits g g' loop f cuts) {st : Stat} (hst : g.stat s = .ok st) :
    ∃ st', g'.stat s = .ok st' ∧
      st'.bare = (st.refit (if s = loop then f else id) fun e => (s, e) ∉ cuts).bare :=
  stat_of_bareStat_map (h.stats s) (fun _ => Stat.refit_bare) hst

theorem stat_before (h : Refits g g' loop f cuts) {st' : Stat} (hst' : g'.stat s = .ok st') :
    ∃ st, g.stat s = .ok st ∧
      st'.bare = (st.refit (if s = loop then f else id) fun e => (s, e) ∉ cuts).bare := by
  have hb := h.stats s
  rw [bareStat_of_stat hst'] at hb
  cases hst : g.stat s with
  | error =>
    rw [bareStat, hst] at hb
    cases hb
  | ok st =>
    rw [bareStat_of_stat hst] at hb
    exact ⟨st, rfl, (Except.ok.inj hb).trans Stat.refit_bare.symm⟩

theorem loop?_eq (h : Refits g g' loop f cuts) {st : Stat} {l : Loop}
    (hst : g.stat loop = .ok st) (hl : st.loop? = some l) :
    Returns (g'.stat loop) fun st' => st'.loop? = some (f l) := by
  obtain ⟨st', hst', heq⟩ := h.stat hst
  refine ⟨st', hst', ?_⟩
  rw [if_pos rfl] at heq
  change st'.loop? = some (f l)
  rw [Stat.loop?_eq_some, (Stat.bare_eq_iff.1 heq).1, ← Stat.loop?_eq_some]
  exact Stat.refit_loop? hl

/-- What a statement holds afterwards, unless it is the loop and changed. -/
theorem holds_iff (h : Refits g g' loop f cuts) (hs : s = loop → f = id) {st : Stat}
    (hst : g.stat s = .ok st) : g'.Holds s e ↔
      g.Holds s e ∧ (e ∉ st.declarations → (∃ l, st.kind = .block l) → (s, e) ∉ cuts) := by
  obtain ⟨st', hst', heq⟩ := h.stat hst
  obtain ⟨hkind, -, -, -, hdecl⟩ := Stat.bare_eq_iff.1 heq
  rw [ite_eq_right_iff.2 hs] at hkind
  rw [Graph.holds_iff hst, Graph.holds_iff hst', hkind, hdecl, Stat.refit_declarations,
    List.mem_append, List.mem_append, Stat.mem_refit_id, decide_eq_true_iff]
  tauto

theorem declarations (h : Refits g g' loop f cuts) {st st' : Stat} (hst : g.stat s = .ok st)
    (hst' : g'.stat s = .ok st') : st'.declarations = st.declarations := by
  obtain ⟨st'', hst'', heq⟩ := h.stat hst
  rw [hst'] at hst''
  cases hst''
  rw [(Stat.bare_eq_iff.1 heq).2.2.2.2, Stat.refit_declarations]

/-- A statement other than the loop holds at most what it held. -/
theorem heldBy_sublist (h : Refits g g' loop f cuts) (hs : s ≠ loop) {held held' : List ExprId}
    (hheld : g.heldBy s = .ok held) (hheld' : g'.heldBy s = .ok held') : held'.Sublist held := by
  obtain ⟨st, hst, rfl⟩ := heldBy_eq_ok.1 hheld
  obtain ⟨st', hst', rfl⟩ := heldBy_eq_ok.1 hheld'
  obtain ⟨st'', hst'', heq⟩ := h.stat hst
  rw [hst'] at hst''
  cases hst''
  rw [if_neg hs] at heq
  rw [h.declarations hst hst', (Stat.bare_eq_iff.1 heq).1]
  exact Stat.refit_exprs_sublist.append_right _

theorem sameLinks (h : Refits g g' loop f cuts) : SameLinks g g' := by
  intro s
  rw [links_eq, links_eq, h.stats]
  cases g.bareStat s <;> simp [Except.map]

end Refits

/-! ## Offsets that are taken over -/

/-- All that `source` covers in `g` is covered by `target` in `g'`. -/
def Takes (g g' : Graph) (target source : ExprId) : Prop :=
  ∀ o, g.Covers source o → g'.Covers target o

namespace Takes

theorem of_grows (h : Grows g g') (e : ExprId) : Takes g g' e e := fun _ ho => h.covers ho

theorem absorb (h : g.absorb target source = .ok g') : Takes g g' target source := fun _ ho =>
  covers_absorb h ho

theorem before (h : Takes g' g'' target source) (hg : Grows g g') : Takes g g'' target source :=
  fun o ho => h o (hg.covers ho)

theorem after (h : Takes g g' target source) (hg : Grows g' g'') : Takes g g'' target source :=
  fun o ho => hg.covers (h o ho)

theorem trans (h : Takes g g' x source) (h' : Takes g' g'' target x) : Takes g g'' target source :=
  fun o ho => h' o (h o ho)

end Takes

/-! ## The forms of expressions -/

theorem expr_addOffsets {offsets : Offsets} (h : g.addOffsets e offsets = .ok g') :
    g'.expr = g.expr := by
  obtain ⟨n, hn, hx, -⟩ := node_addOffsets h
  funext x
  rw [expr, expr, hx]
  split
  · next he =>
    rw [← he, hn]
    rfl
  · rfl

theorem expr_absorb (h : g.absorb target source = .ok g') : g'.expr = g.expr := by
  simp only [absorb, Checked.bind_eq_ok] at h
  obtain ⟨u, -, h⟩ := h
  exact expr_addOffsets h

theorem expr_absorb? {source : Option ExprId} (h : g.absorb? target source = .ok g') :
    g'.expr = g.expr := by
  cases source with
  | none =>
    cases h
    rfl
  | some source => exact expr_absorb h

theorem expr_of_exprs_eq (h : g'.exprs = g.exprs) : g'.expr = g.expr := by
  funext e
  rw [expr, expr, node, node, h]

theorem expr_modifyStat {f : Stat → Stat} (h : g.modifyStat s f = .ok g') : g'.expr = g.expr := by
  obtain ⟨-, -, -, -, he⟩ := stat_modifyStat h
  exact expr_of_exprs_eq he

/-- Every expression is one that was there, with the form it had, or the negation of `condition`. -/
def OnlyNegates (g g' : Graph) (condition : ExprId) : Prop :=
  ∀ e x, g'.expr e = .ok x → g.expr e = .ok x ∨ x = .apply .boolNot [condition]

namespace OnlyNegates

variable {condition new : ExprId}

theorem of_expr_eq (condition : ExprId) (h : g'.expr = g.expr) : OnlyNegates g g' condition :=
  fun e _ hx => .inl (congrFun h e ▸ hx)

theorem trans (h : OnlyNegates g g' condition) (h' : OnlyNegates g' g'' condition) :
    OnlyNegates g g'' condition := fun e x hx => by
  rcases h' e x hx with hx | hx
  · exact h e x hx
  · exact .inr hx

theorem negate (h : g.negate condition = .ok (g', new)) : OnlyNegates g g' condition := by
  simp only [Graph.negate, Checked.bind_eq_ok] at h
  obtain ⟨n, hn, h⟩ := h
  split at h
  · simp only [Checked.bind_eq_ok, Checked.pure_eq_ok, Prod.mk.injEq] at h
    obtain ⟨g₁, h₁, rfl, rfl⟩ := h
    exact of_expr_eq condition (expr_addOffsets h₁)
  · obtain ⟨rfl, rfl⟩ := Prod.mk.inj (Checked.pure_eq_ok.1 h)
    intro e x hx
    obtain ⟨m, hm, rfl⟩ := expr_eq_ok.1 hx
    change (g.exprs.alloc _).1.get e = .ok m at hm
    rw [Arena.get_alloc] at hm
    split at hm
    · cases hm
      exact .inr rfl
    · exact .inl (expr_eq_ok.2 ⟨m, hm, rfl⟩)

theorem of_sameTree {g₁ : Graph} (h : OnlyNegates g g₁ condition) (e : SameTree g₁ g') :
    OnlyNegates g g' condition := h.trans (.of_expr_eq condition (expr_of_exprs_eq e.exprs))

end OnlyNegates

/-! ## Conditions -/

theorem refits_absorb? (loop : StatId) {source : Option ExprId}
    (h : g.absorb? target source = .ok g') : Refits g g' loop id [] := by
  obtain ⟨hs, -, hg⟩ := absorb?_frame h
  exact .of_grows loop (fun s => by rw [bareStat, bareStat, stat, stat, hs]) hg
    fun ha => ha.absorb? h

theorem refits_negate (loop : StatId) {condition new : ExprId}
    (h : g.negate condition = .ok (g', new)) : Refits g g' loop id [] := by
  obtain ⟨hs, -, hg⟩ := negate_frame h
  exact .of_grows loop (fun s => by rw [bareStat, bareStat, stat, stat, hs]) hg
    fun ha => ha.negate h

theorem refits_setKind {kind : LoopKind} (h : g.setKind loop kind = .ok g') :
    Refits g g' loop (fun l => { l with kind := kind }) [] := .modifyLoop h

/-- The new condition of a loop takes the own offsets of the head over. -/
theorem refits_setCondition {new head : ExprId} (h : g.setCondition loop new head = .ok g') :
    Refits g g' loop (fun l => { l with condition := some new }) [] ∧
      ∀ n, g.node head = .ok n → ∀ o ∈ n.offsets.toList, g'.Covers new o := by
  simp only [setCondition, Checked.bind_eq_ok] at h
  obtain ⟨slots, -, g₁, h₁, offsets, hoffsets, g₂, h₂, h₃⟩ := h
  have r₁ := refits_absorb? loop h₁
  obtain ⟨n, -, hx, hs, -⟩ := node_addOffsets h₂
  have r₂ : Refits g₁ g₂ loop id [] :=
    .of_grows loop (fun s => by rw [bareStat, bareStat, stat, stat, hs]) (.addOffsets h₂)
      fun ha => ha.addOffsets h₂
  have r₃ := Refits.modifyLoop h₃
  refine ⟨(r₁.trans r₂).trans r₃, fun m hm o ho => r₃.grows.covers ?_⟩
  obtain ⟨m₁, hm₁, -, hsub⟩ := r₁.grows head m hm
  simp only [Graph.offsets, hm₁, Checked.ok_bind, Checked.pure_eq_ok] at hoffsets
  refine covers_of_own ((hx new).trans (if_pos rfl)) (Offsets.mem_union.2 (.inr ?_))
  exact hoffsets ▸ hsub o ho

theorem expr_setCondition {new head : ExprId} (h : g.setCondition loop new head = .ok g') :
    g'.expr = g.expr := by
  simp only [setCondition, Checked.bind_eq_ok] at h
  obtain ⟨slots, -, g₁, h₁, offsets, -, g₂, h₂, h₃⟩ := h
  rw [expr_modifyStat h₃, expr_addOffsets h₂, expr_absorb? h₁]

/-- The condition a loop is given is the one of a test or its negation. -/
def IsCondition (g : Graph) (old new : ExprId) : Prop := new = old ∨ Negates g old new

theorem IsCondition.after {old new : ExprId} (h : IsCondition g old new) (hg : Grows g g') :
    IsCondition g' old new :=
  h.imp_right fun h => h.imp hg.expr hg.expr

/-- A condition or its negation is put at hand. -/
structure Turns (g g' : Graph) (loop : StatId) (old new : ExprId) : Prop where
  /-- Statements are left alone. -/
  refits : Refits g g' loop id []
  /-- What the condition covers is covered. -/
  takes : Takes g g' new old
  /-- What is at hand. -/
  isCondition : IsCondition g' old new
  /-- Nothing else comes up. -/
  onlyNegates : OnlyNegates g g' old

theorem turns_refl (g : Graph) (loop : StatId) (e : ExprId) : Turns g g loop e e :=
  ⟨.of_sameTree loop (.refl g), fun _ ho => ho, .inl rfl, .of_expr_eq e rfl⟩

theorem turns_negate (loop : StatId) {condition new : ExprId}
    (h : g.negate condition = .ok (g', new)) : Turns g g' loop condition new :=
  ⟨refits_negate loop h, fun _ ho => covers_negate h ho, .inr (negate_negates h), .negate h⟩

/-- A loop is given a kind and the condition of a test with the head `head`, negated or not. The new
condition covers what the head did. -/
theorem refits_condition {g₁ g₂ : Graph} {kind : LoopKind} {condition new head : ExprId}
    (h₁ : g.setKind loop kind = .ok g₁) (h₂ : Turns g₁ g₂ loop condition new)
    (h₃ : g₂.setCondition loop new head = .ok g') (hhead : g.expr head = .ok (.test condition)) :
    Refits g g' loop (fun l => { l with kind := kind, condition := some new }) [] ∧
      Takes g g' new head ∧ IsCondition g' condition new ∧ OnlyNegates g g' condition := by
  have r₁ := refits_setKind h₁
  obtain ⟨r₃, hown⟩ := refits_setCondition h₃
  refine ⟨(r₁.trans h₂.refits).trans r₃, fun o ho => ?_, h₂.isCondition.after r₃.grows,
    ((OnlyNegates.of_expr_eq condition (expr_modifyStat h₁)).trans h₂.onlyNegates).trans
      (.of_expr_eq condition (expr_setCondition h₃))⟩
  obtain ⟨n, hn, hexpr⟩ := expr_eq_ok.1 hhead
  rcases (covers_iff hn).1 ho with ho | ⟨c, hc, ho⟩
  · obtain ⟨n₂, hn₂, -, hsub⟩ := (r₁.grows.trans h₂.refits.grows) head n hn
    exact hown n₂ hn₂ o (hsub o ho)
  · rw [hexpr] at hc
    obtain rfl := List.mem_singleton.1 hc
    exact r₃.grows.covers (h₂.takes o (r₁.grows.covers ho))

/-! ## Expressions from leaves -/

theorem refits_moveToSlot {old : Option ExprId} (h : g.moveToSlot loop leaf e old f = .ok g') :
    Refits g g' loop f [(leaf, e)] := by
  simp only [moveToSlot, Checked.bind_eq_ok] at h
  obtain ⟨g₁, h₁, g₂, h₂, h₃⟩ := h
  exact ((Refits.removeExpr loop h₁).trans (refits_absorb? loop h₂)).trans (.modifyLoop h₃)

theorem expr_moveToSlot {old : Option ExprId} (h : g.moveToSlot loop leaf e old f = .ok g') :
    g'.expr = g.expr := by
  simp only [moveToSlot, Checked.bind_eq_ok] at h
  obtain ⟨g₁, h₁, g₂, h₂, h₃⟩ := h
  rw [expr_modifyStat h₃, expr_absorb? h₂, expr_modifyStat h₁]

/-- The pair of a leaf and an expression that goes to the first slot of a counted loop. -/
def initSlot (init : Option (StatId × ExprId)) (l : Loop) : Loop :=
  match init with
  | none => l
  | some (_, init) => { l with init := some init }

/-- A counted loop: the step comes from the end of the body, and the initialisation from before the
loop. What is left of the body may be an empty leaf, which goes last. -/
theorem refits_toCounted {step : ExprId} {init : Option (StatId × ExprId)}
    (h : g.toCounted loop leaf step init = .ok g') :
    ∃ g₁, Refits g g₁ loop
        (fun l => { initSlot init l with kind := .counted, step := some step })
        (init.toList ++ [(leaf, step)]) ∧
      g₁.expr = g.expr ∧ g₁.dropEmptyLeaf loop leaf = .ok g' := by
  simp only [toCounted, Checked.bind_eq_ok] at h
  obtain ⟨g₁, h₁, slots, -, h⟩ := h
  have r₁ := refits_setKind h₁
  cases init with
  | none =>
    simp only [Checked.bind_eq_ok, Checked.pure_eq_ok] at h
    obtain ⟨_, rfl, g₂, h₂, h⟩ := h
    exact ⟨g₂, r₁.trans (refits_moveToSlot h₂), by rw [expr_moveToSlot h₂, expr_modifyStat h₁], h⟩
  | some p =>
    simp only [Checked.bind_eq_ok] at h
    obtain ⟨g₂, h₂, g₃, h₃, h⟩ := h
    exact ⟨g₃, (r₁.trans (refits_moveToSlot h₂)).trans (refits_moveToSlot h₃),
      by rw [expr_moveToSlot h₃, expr_moveToSlot h₂, expr_modifyStat h₁], h⟩

/-! ## Elements -/

/-- The slots of a loop over elements. -/
def elementSlots (element source : ExprId) (_ : Loop) : Loop :=
  ⟨.forEach, some element, none, some source⟩

/-- The element of a loop takes over what its condition covered. -/
theorem refits_toForEach {element : ExprId} (h : g.toForEach loop element source = .ok g') :
    Refits g g' loop (elementSlots element source) [] ∧
      ∀ st l c, g.stat loop = .ok st → st.loop? = some l → l.condition = some c →
        Takes g g' element c := by
  simp only [toForEach, Checked.bind_eq_ok] at h
  obtain ⟨slots, hslots, g₁, h₁, g₂, h₂, g₃, h₃, h₄⟩ := h
  have r₂ := (refits_absorb? loop h₁).trans (refits_absorb? loop h₂)
  have r₃ := refits_absorb? loop h₃
  have r₄ := Refits.modifyLoop h₄
  refine ⟨(r₂.trans r₃).trans r₄, fun st l c hst hl hc => ?_⟩
  obtain ⟨st', hst', rfl⟩ := loop?_eq_ok.1 hslots
  rw [hst] at hst'
  cases hst'
  simp only [hl, Option.bind_some, hc] at h₃
  exact ((Takes.absorb h₃).before r₂.grows).after r₄.grows

theorem refits_absorb (loop : StatId) (h : g.absorb target source = .ok g') :
    Refits g g' loop id [] := by
  have h' : g.absorb? target (some source) = .ok g' := h
  exact refits_absorb? loop h'

/-- A loop becomes one over elements, and all that is dropped for it is covered by its slots. -/
structure TakesElements (g g' : Graph) (loop : StatId) (element source : ExprId)
    (cuts : List (StatId × ExprId)) : Prop where
  /-- The loop and the leaves. -/
  refits : Refits g g' loop (elementSlots element source) cuts
  /-- Each expression that was cut is covered by a slot. -/
  cut : ∀ s e, (s, e) ∈ cuts → Takes g g' element e ∨ Takes g g' source e
  /-- So is the condition. -/
  condition : ∀ st l c, g.stat loop = .ok st → st.loop? = some l → l.condition = some c →
    Takes g g' element c
  /-- The slots are there. -/
  slots : (∃ n, g'.node element = .ok n) ∧ ∃ n, g'.node source = .ok n
  /-- Expressions keep their form. -/
  expr : g'.expr = g.expr

theorem Grows.exists_node (h : Grows g g') (he : ∃ n, g.node e = .ok n) :
    ∃ n, g'.node e = .ok n := by
  obtain ⟨n, hn⟩ := he
  obtain ⟨n', hn', -⟩ := h e n hn
  exact ⟨n', hn'⟩

theorem exists_node_of_absorb (h : g.absorb target source = .ok g') :
    ∃ n, g'.node target = .ok n := by
  simp only [absorb, Checked.bind_eq_ok] at h
  obtain ⟨u, -, h⟩ := h
  obtain ⟨n, -, hx, -⟩ := node_addOffsets h
  exact ⟨_, (hx target).trans (if_pos rfl)⟩

theorem expr_toForEach {element : ExprId} (h : g.toForEach loop element source = .ok g') :
    g'.expr = g.expr := by
  simp only [toForEach, Checked.bind_eq_ok] at h
  obtain ⟨slots, -, g₁, h₁, g₂, h₂, g₃, h₃, h₄⟩ := h
  rw [expr_modifyStat h₄, expr_absorb? h₃, expr_absorb? h₂, expr_absorb? h₁]

/-- Both rewrites absorb first, then fill the slots, and cut last. -/
theorem takesElements_of_toForEach {g₁ g₂ : Graph} {element : ExprId}
    (r₁ : Refits g g₁ loop id []) (h : g₁.toForEach loop element source = .ok g₂)
    (r₂ : Refits g₂ g' loop id cuts)
    (cut : ∀ s e, (s, e) ∈ cuts → Takes g g₁ element e ∨ Takes g g₁ source e)
    (slots : (∃ n, g₁.node element = .ok n) ∧ ∃ n, g₁.node source = .ok n)
    (expr₁ : g₁.expr = g.expr) (expr₂ : g'.expr = g₂.expr) :
    TakesElements g g' loop element source cuts := by
  obtain ⟨r, hcondition⟩ := refits_toForEach h
  have grows : Grows g₁ g' := r.grows.trans r₂.grows
  refine ⟨(r₁.trans r).trans r₂, fun s e he => ?_, fun st l c hst hl hc => ?_,
    ⟨grows.exists_node slots.1, grows.exists_node slots.2⟩,
    expr₂.trans ((expr_toForEach h).trans expr₁)⟩
  · exact (cut s e he).imp (·.after grows) (·.after grows)
  · obtain ⟨st₁, hst₁, hl₁⟩ := r₁.loop?_eq hst hl
    exact ((hcondition st₁ l c hst₁ hl₁ hc).before r₁.grows).after r₂.grows

/-- A loop over a collection runs over what its iterator is asked of, and loses the assignment to
the iterator and the fetch. -/
theorem takesElements_collection {m : ElementLoop} {init : ExprId}
    (h : g.overCollection? m init = .ok (some g')) :
    ∃ p, g.CollectionForm m init p ∧ TakesElements g g' m.loop p.element p.source
      [(m.before, init), (m.first, m.fetch)] := by
  obtain ⟨p, hform, h⟩ := overCollection?_eq_some h
  simp only [Checked.bind_eq_ok] at h
  obtain ⟨g₁, h₁, g₂, h₂, g₃, h₃, g₄, h₄, h₅⟩ := h
  have r₁ := refits_absorb m.loop h₁
  have r₂ := refits_absorb m.loop h₂
  refine ⟨p, hform, takesElements_of_toForEach (r₁.trans r₂) h₃
    ((Refits.removeExpr m.loop h₄).trans (.removeExpr m.loop h₅)) (fun s e he => ?_)
    ⟨exists_node_of_absorb h₂, r₂.grows.exists_node (exists_node_of_absorb h₁)⟩
    (by rw [expr_absorb h₂, expr_absorb h₁]) (by rw [expr_modifyStat h₅, expr_modifyStat h₄])⟩
  simp only [List.mem_cons, List.not_mem_nil, or_false, Prod.mk.injEq] at he
  rcases he with ⟨-, rfl⟩ | ⟨-, rfl⟩
  · exact .inr ((Takes.absorb h₁).after r₂.grows)
  · exact .inl ((Takes.absorb h₂).before r₁.grows)

theorem takesElements_overCollection {m : ElementLoop} {init : ExprId}
    (h : g.overCollection? m init = .ok (some g')) :
    ∃ element source cuts, TakesElements g g' m.loop element source cuts := by
  obtain ⟨p, -, t⟩ := takesElements_collection h
  exact ⟨p.element, p.source, _, t⟩

/-- What a loop over an array runs over: what the array was copied from right before the loop, or
the array whose length is stored. -/
def RunsOver (g : Graph) (m : ElementLoop) (a : ArrayLoop) (source : ExprId) : Prop :=
  (∃ copyInit, g.Copies m a.array copyInit source) ∨
    source = a.lengthOf ∧ ∀ copyInit source, ¬ g.Copies m a.array copyInit source

theorem RunsOver.congr {m : ElementLoop} {a : ArrayLoop} (he : g'.expr = g.expr)
    (h : g'.RunsOver m a source) : g.RunsOver m a source := by
  simpa only [RunsOver, Copies, assign?, sameLocal, local?, he] using h

/-- The expressions that a loop over an array loses: the assignments to its counter and of the
length, the fetch, the step, and the copy of the array. -/
def ArrayLoop.consumes (a : ArrayLoop) (m : ElementLoop) : List ExprId :=
  a.counterInit :: a.lengthInit :: m.fetch :: a.step :: m.init3.toList

/-- Where the array is a copy, what it was copied from takes over what the copy stood for. -/
theorem takesElements_foldArrayCopy {g₁ : Graph} {m : ElementLoop} {a : ArrayLoop}
    (t : TakesElements g g₁ m.loop a.element a.lengthOf cuts)
    (hcuts : ∀ c ∈ cuts, c.2 ∈ a.consumes m) (h : g₁.foldArrayCopy m a = .ok g') :
    ∃ source cuts', g₁.RunsOver m a source ∧ TakesElements g g' m.loop a.element source cuts' ∧
      (∀ c ∈ cuts', c.2 ∈ a.consumes m) ∧ ∀ c ∈ cuts, c ∈ cuts' := by
  obtain ⟨rfl, hnot⟩ | ⟨copyInit, source, hcopies, h⟩ := foldArrayCopy_eq_ok h
  · exact ⟨_, _, .inr ⟨rfl, hnot⟩, t, hcuts, fun _ hc => hc⟩
  simp only [Checked.bind_eq_ok] at h
  obtain ⟨g₂, h₂, g₃, h₃, g₄, h₄, h₅⟩ := h
  have r₂ := Refits.removeExpr m.loop h₂
  have r₃ := refits_absorb m.loop h₃
  have r₄ := refits_absorb m.loop h₄
  have r₅ := Refits.modifyLoop h₅
  have grows₃ : Grows g₃ g' := r₄.grows.trans r₅.grows
  have grows : Grows g₁ g' := r₂.grows.trans (r₃.grows.trans grows₃)
  have hlength : Takes g₁ g' source a.lengthOf :=
    ((Takes.absorb h₄).before (r₂.grows.trans r₃.grows)).after r₅.grows
  refine ⟨source, _, .inl ⟨copyInit, hcopies⟩, ⟨(((t.refits.trans r₂).trans r₃).trans r₄).trans r₅,
    fun s e he => ?_, fun st l c hst hl hc => (t.condition st l c hst hl hc).after grows,
    ⟨grows.exists_node t.slots.1, grows₃.exists_node (exists_node_of_absorb h₃)⟩, ?_⟩,
    fun c hc => ?_, fun c hc => by simp [hc]⟩
  · simp only [List.append_nil, List.mem_append, List.mem_singleton, Prod.mk.injEq] at he
    rcases he with he | ⟨-, rfl⟩
    · exact (t.cut s e he).imp (·.after grows) (·.trans hlength)
    · exact .inr (((Takes.absorb h₃).before (t.refits.grows.trans r₂.grows)).after grows₃)
  · rw [expr_modifyStat h₅, expr_absorb h₄, expr_absorb h₃, expr_modifyStat h₂, t.expr]
  · simp only [List.append_nil, List.mem_append, List.mem_singleton] at hc
    rcases hc with hc | rfl
    · exact hcuts c hc
    · simp [ArrayLoop.consumes, hcopies.1]

/-- A loop over an array, with what it runs over and what it loses. -/
theorem takesElements_array {m : ElementLoop} (h : g.overArray? m = .ok (some g')) :
    ∃ a source cuts, g.arrayLoop? m = .ok (some a) ∧ g.RunsOver m a source ∧
      TakesElements g g' m.loop a.element source cuts ∧ (∀ c ∈ cuts, c.2 ∈ a.consumes m) ∧
      (a.lastLeaf, a.step) ∈ cuts := by
  simp only [overArray?, Checked.bind_eq_ok] at h
  obtain ⟨_ | a, ha, h⟩ := h
  · cases h
  simp only [Checked.bind_eq_ok, Checked.pure_eq_ok, Option.some.injEq, exists_eq_right] at h
  obtain ⟨g₁, h₁, g₂, h₂, g₃, h₃, g₄, h₄, g₅, h₅, g₆, h₆, g₇, h₇, g₈, h₈, g₉, h₉, h⟩ := h
  have r₁ := refits_absorb m.loop h₁
  have r₂ := refits_absorb m.loop h₂
  have r₃ := refits_absorb m.loop h₃
  have r₄ := refits_absorb m.loop h₄
  have r₉ := (((Refits.removeExpr m.loop h₆).trans (.removeExpr m.loop h₇)).trans
    (.removeExpr m.loop h₈)).trans (.removeExpr m.loop h₉)
  have t := takesElements_of_toForEach (((r₁.trans r₂).trans r₃).trans r₄) h₅ r₉
    (fun s e he => ?_)
    ⟨exists_node_of_absorb h₄, r₄.grows.exists_node (exists_node_of_absorb h₃)⟩
    (by rw [expr_absorb h₄, expr_absorb h₃, expr_absorb h₂, expr_absorb h₁])
    (by rw [expr_modifyStat h₉, expr_modifyStat h₈, expr_modifyStat h₇, expr_modifyStat h₆])
  · obtain ⟨source, cuts, hruns, t', hcuts, hkept⟩ :=
      takesElements_foldArrayCopy t (by simp [ArrayLoop.consumes]) h
    exact ⟨a, source, cuts, ha, hruns.congr t.expr, t', hcuts, hkept _ (by simp)⟩
  · simp only [List.mem_append, List.mem_singleton, Prod.mk.injEq] at he
    rcases he with ((⟨-, rfl⟩ | ⟨-, rfl⟩) | ⟨-, rfl⟩) | ⟨-, rfl⟩
    · exact .inr ((Takes.absorb h₁).after (r₂.grows.trans (r₃.grows.trans r₄.grows)))
    · exact .inr (((Takes.absorb h₂).before r₁.grows).after (r₃.grows.trans r₄.grows))
    · exact .inl ((Takes.absorb h₄).before (r₁.grows.trans (r₂.grows.trans r₃.grows)))
    · exact .inr (((Takes.absorb h₃).before (r₁.grows.trans r₂.grows)).after r₄.grows)

theorem takesElements_overArray {m : ElementLoop} (h : g.overArray? m = .ok (some g')) :
    ∃ a source cuts, g.arrayLoop? m = .ok (some a) ∧ g.RunsOver m a source ∧
      TakesElements g g' m.loop a.element source cuts := by
  obtain ⟨a, source, cuts, ha, hruns, t, -⟩ := takesElements_array h
  exact ⟨a, source, cuts, ha, hruns, t⟩

/-- A loop over elements that was recognised in a `while`. -/
theorem takesElements_forEachForm (h : g.forEachForm? loop = .ok (some g')) :
    ∃ element source cuts, TakesElements g g' loop element source cuts := by
  obtain ⟨m, hm, hform⟩ := forEachForm?_eq_some h
  obtain ⟨rfl, -⟩ := elementLoop?_eq_some hm
  rcases hform with ⟨init, -, hform⟩ | hform
  · exact takesElements_overCollection hform
  · obtain ⟨a, source, cuts, -, -, t⟩ := takesElements_overArray hform
    exact ⟨a.element, source, cuts, t⟩

end Graph

end Decompiler

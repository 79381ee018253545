import Decompiler.Proofs.Loops.Phases

/-!
# The sense of extracted conditions

A test at one end of the body of an endless loop takes one edge when its condition is true and the
other one when it is false. One of them leaves the loop. The loop gets the condition of the test,
or the negation of it, such that it goes on exactly where the test would not have left it.

* `Graph.Decides`: what conditions mean, given what they are made of.
* `Graph.decides_negate`: taking the negation turns the truth value over, also where that takes a
  negation off.
* `Graph.StaysUnless`: the loop goes on exactly where the test does not leave it.
* `Graph.conditionForms_staysUnless`: so it is for a test in front of the body and for one at its
  end, whichever edge it is that leaves the loop.
-/

namespace Decompiler.Graph

variable {g g' g'' : Graph} {loop s : StatId} {e condition new : ExprId} {value : ExprId → Bool}
  {b b' leaves : Bool} {t : LoopTest}

/-! ## What conditions mean -/

/-- The condition has a truth value, if those that are no negations have the ones that `value`
gives. -/
inductive Decides (g : Graph) (value : ExprId → Bool) : ExprId → Bool → Prop
  | not {e x : ExprId} {b : Bool} (expr : g.expr e = .ok (.apply .boolNot [x]))
      (operand : Decides g value x b) : Decides g value e (!b)
  | other {e : ExprId} {z : Expr} (expr : g.expr e = .ok z)
      (plain : ∀ x, z ≠ .apply .boolNot [x]) : Decides g value e (value e)

namespace Decides

/-- A condition has one truth value. -/
theorem functional (h : g.Decides value e b) (h' : g.Decides value e b') : b = b' := by
  induction h generalizing b' with
  | not expr _ ih =>
    cases h' with
    | not expr' operand' =>
      rw [expr] at expr'
      cases expr'
      rw [ih operand']
    | other expr' plain => exact absurd (Except.ok.inj (expr'.symm.trans expr)) (plain _)
  | other expr plain =>
    cases h' with
    | not expr' _ => exact absurd (Except.ok.inj (expr.symm.trans expr')) (plain _)
    | other => rfl

theorem of_expr_eq (he : g'.expr = g.expr) (h : g.Decides value e b) : g'.Decides value e b := by
  induction h with
  | not expr _ ih => exact .not (he ▸ expr) ih
  | other expr plain => exact .other (he ▸ expr) plain

theorem not_iff {x : ExprId} (hexpr : g.expr e = .ok (.apply .boolNot [x])) :
    g.Decides value e b ↔ g.Decides value x (!b) := by
  constructor
  · intro h
    cases h with
    | not expr operand =>
      rw [hexpr] at expr
      cases expr
      rwa [Bool.not_not]
    | other expr plain => exact absurd (Except.ok.inj (expr.symm.trans hexpr)) (plain _)
  · intro h
    exact Bool.not_not b ▸ .not hexpr h

theorem other_iff {z : Expr} (hexpr : g.expr e = .ok z) (hplain : ∀ x, z ≠ .apply .boolNot [x]) :
    g.Decides value e b ↔ b = value e := by
  have hdecides : g.Decides value e (value e) := .other hexpr hplain
  exact ⟨fun h => h.functional hdecides, fun h => h ▸ hdecides⟩

end Decides

theorem decides_congr (he : g'.expr = g.expr) : g'.Decides value e b ↔ g.Decides value e b :=
  ⟨.of_expr_eq he.symm, .of_expr_eq he⟩

/-- A condition that leads to no missing node and to no cycle has a truth value. -/
theorem Grounded.exists_decides (h : g.Grounded e) (value : ExprId → Bool) :
    ∃ b, g.Decides value e b := by
  induction h with
  | @node e n hn _ ih =>
    have hexpr : g.expr e = .ok n.expr := expr_eq_ok.2 ⟨n, hn, rfl⟩
    by_cases hnot : ∃ x, n.expr = .apply .boolNot [x]
    · obtain ⟨x, hx⟩ := hnot
      obtain ⟨b, hb⟩ := ih x (by simp [hx, Expr.children])
      exact ⟨!b, .not (hx ▸ hexpr) hb⟩
    · exact ⟨value e, .other hexpr (not_exists.1 hnot)⟩

/-- The negation of a condition has the opposite truth value. -/
theorem decides_negate (h : g.negate condition = .ok (g', new)) :
    g'.Decides value new b ↔ g.Decides value condition (!b) := by
  have hgrows := (negate_frame h).2.2
  have hnegates := negate_negates h
  simp only [negate, Checked.bind_eq_ok] at h
  obtain ⟨n, hn, h⟩ := h
  have hexpr : g.expr condition = .ok n.expr := expr_eq_ok.2 ⟨n, hn, rfl⟩
  split at h
  · -- a negation is taken off
    simp only [Checked.bind_eq_ok, Checked.pure_eq_ok, Prod.mk.injEq] at h
    obtain ⟨g₁, h₁, rfl, rfl⟩ := h
    rw [decides_congr (expr_addOffsets h₁), Decides.not_iff hexpr, Bool.not_not]
  · next hplain =>
    -- a negation is put on a condition that is none
    have hplain : ∀ x, n.expr ≠ .apply .boolNot [x] := fun x hx => hplain x n.offsets (by rw [← hx])
    have hexpr' : g'.expr condition = .ok n.expr := hgrows.expr hexpr
    have hnew : g'.expr new = .ok (.apply .boolNot [condition]) :=
      hnegates.resolve_left fun hneg => hplain new (Except.ok.inj (hexpr'.symm.trans hneg))
    rw [Decides.not_iff hnew, Decides.other_iff hexpr' hplain, Decides.other_iff hexpr hplain]

/-! ## What is left alone -/

theorem exprs_removeChild {p c : StatId} (h : g.removeChild p c = .ok g') : g'.exprs = g.exprs := by
  simp only [removeChild, Checked.bind_eq_ok] at h
  obtain ⟨g₁, h₁, h₂⟩ := h
  obtain ⟨-, -, -, -, he₁⟩ := stat_modifyStat h₁
  obtain ⟨-, -, -, -, he₂⟩ := stat_modifyStat h₂
  exact he₂.trans he₁

theorem exprs_replaceStat {p old c : StatId} (h : g.replaceStat p old c = .ok g') :
    g'.exprs = g.exprs := by
  simp only [replaceStat, Checked.bind_eq_ok] at h
  obtain ⟨ot, -, g₁, h₁, g₂, h₂, g₃, h₃, g₄, h₄, g₅, h₅, ot', -, g₆, h₆, h₇⟩ := h
  have e₂ : SameTree g g₂ := .trans (.foldlM h₁ fun e _ _ _ he => sameTree_changeDestination he)
    (sameTree_moveSuccessors h₂)
  have e₆ : SameTree g₅ g₆ := .foldlM h₆ fun e _ _ _ he => sameTree_moveLabel he
  obtain ⟨-, -, -, -, he₃⟩ := stat_modifyStat h₃
  obtain ⟨-, -, -, -, he₄⟩ := stat_modifyStat h₄
  obtain ⟨-, -, -, -, he₅⟩ := stat_modifyStat h₅
  obtain ⟨-, -, -, -, he₇⟩ := stat_modifyStat h₇
  rw [he₇, e₆.exprs, he₅, he₄, he₃, e₂.exprs]

theorem exprs_removeStat (h : g.removeStat s = .ok g') : g'.exprs = g.exprs := by
  simp only [removeStat, Checked.bind_eq_ok] at h
  obtain ⟨st₀, -, g₁, h₁, st₁, -, g₂, h₂, st₂, -, h⟩ := h
  have e₂ : SameTree g g₂ := .trans (.foldlM h₁ fun e _ _ _ he => sameTree_detachEdge he)
    (.foldlM h₂ fun e _ _ _ he => sameTree_detachEdge he)
  split at h
  · exact Checked.pure_eq_ok.1 h ▸ e₂.exprs
  · exact (exprs_removeChild h).trans e₂.exprs

/-- Expressions are what they were, and so are the slots of loops. -/
structure KeepsConditions (g g' : Graph) : Prop where
  /-- The expressions. -/
  expr : g'.expr = g.expr
  /-- The loops. -/
  loops : SameLoops g g'

namespace KeepsConditions

theorem trans (h : KeepsConditions g g') (h' : KeepsConditions g' g'') : KeepsConditions g g'' :=
  ⟨h'.expr.trans h.expr, h.loops.trans h'.loops⟩

theorem of_sameTree (h : SameTree g g') : KeepsConditions g g' :=
  ⟨expr_of_exprs_eq h.exprs, .of_sameTree h⟩

theorem of_pruneStep {old : StatId} {kept : Option StatId} (h : PruneStep loop old kept g g') :
    KeepsConditions g g' := by
  refine ⟨expr_of_exprs_eq ?_, h.sameLoops⟩
  cases h with
  | remove _ h => exact exprs_removeStat h
  | empty _ alloc replace => exact (exprs_replaceStat replace).trans (stat_block alloc).1
  | child _ _ detach replace => exact (exprs_replaceStat replace).trans (exprs_removeChild detach)
  | orphan => rfl

end KeepsConditions

/-! ## The condition of the loop -/

/-- The edge that a test takes when its condition has the given truth value. -/
def LoopTest.edge (t : LoopTest) (holds : Bool) : EdgeId := if holds then t.thenEdge else t.elseEdge

/-- The loop has become one of the given kind. Its condition is true exactly when the test of `g`
does not take the edge for `leaves`, and a condition that has no cycle is either true or false. -/
def StaysUnless (g g' : Graph) (loop : StatId) (kind : LoopKind) (t : LoopTest) (leaves : Bool) :
    Prop :=
  ∃ new, g'.loopAt loop =
      (g.loopAt loop).map (fun l => { l with kind := kind, condition := some new }) ∧
    (∀ value b, g'.Decides value new b ↔ g.Decides value t.condition (b != leaves)) ∧
    (g.Grounded t.condition → ∀ value, ∃! b, g'.Decides value new b)

theorem staysUnless_of_setCondition {g₁ g₂ g₃ : Graph} {kind : LoopKind} {head : ExprId}
    (h₁ : g.setKind loop kind = .ok g₁) (r₂ : Refits g₁ g₂ loop id [])
    (hturn : ∀ value b, g₂.Decides value new b ↔ g₁.Decides value t.condition (b != leaves))
    (h₃ : g₂.setCondition loop new head = .ok g₃) (hkeeps : KeepsConditions g₃ g') :
    StaysUnless g g' loop kind t leaves := by
  have hdecides : ∀ value b,
      g'.Decides value new b ↔ g.Decides value t.condition (b != leaves) := fun value b => by
    rw [decides_congr (hkeeps.expr.trans (expr_setCondition h₃)), hturn,
      decides_congr (expr_modifyStat h₁)]
  refine ⟨new, ?_, hdecides, fun hground value => ?_⟩
  · have r := ((refits_setKind h₁).trans r₂).trans (refits_setCondition h₃).1
    exact (hkeeps.loops loop).trans ((r.loopAt loop).trans (by rw [if_pos rfl]; rfl))
  · obtain ⟨b, hb⟩ := hground.exists_decides value
    refine ⟨b != leaves, (hdecides value _).2 ?_, fun b' hb' => ?_⟩
    · rwa [Bool.bne_assoc, bne_self_eq_false, Bool.bne_false]
    · rw [← ((hdecides value b').1 hb').functional hb, Bool.bne_assoc, bne_self_eq_false,
        Bool.bne_false]

theorem staysUnless_whileNot (h : g.whileNot loop t = .ok g') :
    StaysUnless g g' loop .whileDo t true := by
  simp only [whileNot, Checked.bind_eq_ok] at h
  obtain ⟨g₁, h₁, ⟨g₂, new⟩, h₂, g₃, h₃, g₄, h₄, g₅, h₅, g₆, h₆, lt, hlt, h⟩ := h
  have e₆ : SameTree g₃ g₆ := .trans (sameTree_detachEdge h₄)
    (.trans (sameTree_detachEdge h₅) (sameTree_liftExit h₆))
  have hstep : PruneStep loop t.stat none g₆ g' := by
    split at h
    · next hfirst =>
      obtain ⟨⟨g₇, b⟩, h₇, h⟩ := Checked.bind_eq_ok.1 h
      exact .empty ⟨lt, hlt, hfirst⟩ h₇ h
    · next hfirst => exact .remove ⟨lt, hlt, hfirst⟩ h
  exact staysUnless_of_setCondition h₁ (refits_negate loop h₂)
    (fun value b => by rw [decides_negate h₂, Bool.bne_true]) h₃
    ((KeepsConditions.of_sameTree e₆).trans (.of_pruneStep hstep))

theorem staysUnless_whileGuard {body : StatId} (h : g.whileGuard loop t body = .ok g') :
    StaysUnless g g' loop .whileDo t false := by
  simp only [whileGuard, Checked.bind_eq_ok] at h
  obtain ⟨out, -, g₁, h₁, g₃, h₃, g₄, h₄, g₅, h₅, g₆, h₆, st, hst, h⟩ := h
  have e₆ : SameTree g₃ g₆ := .trans (sameTree_detachEdge h₄)
    (.trans (sameTree_detachEdge h₅) (sameTree_liftExit h₆))
  have hkeeps : KeepsConditions g₆ g' := by
    cases hparent : st.parent with
    | none =>
      rw [hparent] at h
      exact Checked.pure_eq_ok.1 h ▸ .of_sameTree (.refl g₆)
    | some parent =>
      rw [hparent] at h
      simp only [Checked.bind_eq_ok] at h
      obtain ⟨g₇, h₇, g₈, h₈, breaks, -, g₉, h₉, h⟩ := h
      have hstep : PruneStep loop t.stat (some body) g₆ g₈ := .child hst hparent h₇ h₈
      have e₉ : SameTree g₈ g' := .trans (.foldlM h₉ fun e _ _ _ he => sameTree_raiseClosure he)
        (sameTree_lowerBreaksIn h)
      exact (KeepsConditions.of_pruneStep hstep).trans (.of_sameTree e₉)
  exact staysUnless_of_setCondition h₁ (.of_sameTree loop (.refl g₁))
    (fun value b => by rw [Bool.bne_false]) h₃ ((KeepsConditions.of_sameTree e₆).trans hkeeps)

theorem staysUnless_doWhileTest (h : g.doWhileTest loop t leaves = .ok g') :
    StaysUnless g g' loop .doWhile t leaves := by
  obtain ⟨g₁, h₁, h⟩ := Checked.bind_eq_ok.1 h
  rw [Checked.ite_bind] at h
  simp only [Checked.bind_eq_ok] at h
  obtain ⟨⟨g₂, new⟩, h₂, g₃, h₃, g₄, h₄, g₅, h₅, bt, hbt, h⟩ := h
  have e₅ : SameTree g₃ g₅ := .trans (sameTree_detachEdge h₄) (sameTree_detachEdge h₅)
  have hkeeps : KeepsConditions g₅ g' := by
    split at h
    · obtain ⟨g₆, h₆, h⟩ := Checked.bind_eq_ok.1 h
      obtain ⟨g₇, e₇, hstep⟩ := pruneStep_dropEmptyTail h₆
      exact (KeepsConditions.of_sameTree e₇).trans
        ((KeepsConditions.of_pruneStep hstep).trans (.of_sameTree (sameTree_liftExit h)))
    · obtain ⟨st, hst, h⟩ := Checked.bind_eq_ok.1 h
      cases hparent : st.parent with
      | none =>
        rw [hparent] at h
        exact .of_sameTree (sameTree_liftExit h)
      | some parent =>
        rw [hparent] at h
        simp only [Checked.bind_eq_ok, Checked.pure_eq_ok] at h
        obtain ⟨g₆, h₆, g₇, h₇, ⟨g₈, e⟩, h₈, _, rfl, h⟩ := h
        have hstep : PruneStep loop t.stat (some t.headBlock) g₅ g₇ := .child hst hparent h₆ h₇
        exact (KeepsConditions.of_pruneStep hstep).trans
          (.of_sameTree (.trans (sameTree_addEdge h₈) (sameTree_liftExit h)))
  have hkeeps := (KeepsConditions.of_sameTree e₅).trans hkeeps
  split at h₂
  · next hleaves =>
    refine staysUnless_of_setCondition h₁ (refits_negate loop h₂) (fun value b => ?_) h₃ hkeeps
    rw [decides_negate h₂, hleaves, Bool.bne_true]
  · next hleaves =>
    cases h₂
    refine staysUnless_of_setCondition h₁ (.of_sameTree loop (.refl g₁)) (fun value b => ?_) h₃
      hkeeps
    rw [Bool.eq_false_of_not_eq_true hleaves, Bool.bne_false]

/-! ## Which edge leaves the loop -/

/-- The edge leads to where control goes when the loop ends. -/
def LeadsOut (g : Graph) (loop : StatId) (e : EdgeId) : Prop :=
  Returns (g.edge e) fun edge => g.fallsInto loop edge.destination = .ok true

/-- A test in front of the body leaves the loop when its condition holds, unless there is something
to do then. -/
theorem whileForm?_staysUnless (h : g.whileForm? loop = .ok (some g')) :
    ∃ t, g.leading? loop = .ok (some t.stat) ∧
      g.loopTest? t.stat acceptsLeading = .ok (some t) ∧ g.LeadsOut loop (t.edge t.body.isNone) ∧
      StaysUnless g g' loop .whileDo t t.body.isNone := by
  simp only [whileForm?, Checked.bind_eq_ok] at h
  obtain ⟨_ | s, hs, h⟩ := h
  · cases h
  obtain ⟨_ | t, ht, h⟩ := Checked.bind_eq_ok.1 h
  · cases h
  have hstat : s = t.stat := (loopTest?_eq_some ht).1.symm
  refine ⟨t, hstat ▸ hs, hstat ▸ ht, ?_⟩
  cases hbody : t.body with
  | none =>
    simp only [hbody, Checked.bind_eq_ok] at h
    obtain ⟨edge, hedge, falls, hfalls, h⟩ := h
    split at h
    · next hout =>
      obtain ⟨g₁, h₁, hg₁⟩ := Checked.map_eq_ok.1 h
      cases hg₁
      exact ⟨⟨edge, hedge, hout ▸ hfalls⟩, staysUnless_whileNot h₁⟩
    · cases h
  | some body =>
    simp only [hbody, Checked.bind_eq_ok] at h
    obtain ⟨edge, hedge, falls, hfalls, h⟩ := h
    split at h
    · next hout =>
      obtain ⟨g₁, h₁, hg₁⟩ := Checked.map_eq_ok.1 h
      cases hg₁
      exact ⟨⟨edge, hedge, hout ▸ hfalls⟩, staysUnless_whileGuard h₁⟩
    · cases h

theorem leadsOut_of_leavesOrContinues {leave again : EdgeId}
    (h : g.leavesOrContinues loop leave again = .ok true) : g.LeadsOut loop leave := by
  simp only [leavesOrContinues, Checked.bind_eq_ok] at h
  obtain ⟨out, hout, back, -, h⟩ := h
  split at h
  · exact ⟨out, hout, h⟩
  · cases h

/-- A test at the end of the body leaves the loop by one of its edges and continues it by the other
one. -/
theorem doWhileForm?_staysUnless (h : g.doWhileForm? loop = .ok (some g')) :
    ∃ t leaves, g.trailing? loop = .ok (some t.stat) ∧
      g.loopTest? t.stat acceptsTrailing = .ok (some t) ∧
      g.leavesOrContinues loop (t.edge leaves) (t.edge !leaves) = .ok true ∧
      StaysUnless g g' loop .doWhile t leaves := by
  simp only [doWhileForm?, Checked.bind_eq_ok] at h
  obtain ⟨_ | s, hs, h⟩ := h
  · cases h
  obtain ⟨_ | t, ht, h⟩ := Checked.bind_eq_ok.1 h
  · cases h
  have hstat : s = t.stat := (loopTest?_eq_some ht).1.symm
  simp only [Checked.bind_eq_ok] at h
  obtain ⟨onTrue, htrue, onFalse, hfalse, h⟩ := h
  split at h
  · cases h
  · next hneither =>
    obtain ⟨continues, -, h⟩ := Checked.bind_eq_ok.1 h
    split at h
    · cases h
    · obtain ⟨g₁, h₁, hg₁⟩ := Checked.map_eq_ok.1 h
      cases hg₁
      refine ⟨t, onTrue, hstat ▸ hs, hstat ▸ ht, ?_, staysUnless_doWhileTest h₁⟩
      cases onTrue with
      | true => exact htrue
      | false => exact hfalse.trans (congrArg _ (by simpa using hneither))

/-- The condition that a loop is given is true exactly when the test that it is taken from would
have stayed in the loop. That is so for a test in front of the body, which leaves the loop when its
condition holds or, where there is something to do then, when it does not, and for a test at the end
of the body, one edge of which leaves the loop while the other one continues it. -/
theorem conditionForms_staysUnless (g g' : Graph) (loop : StatId) :
    (g.whileForm? loop = .ok (some g') → ∃ t, g.leading? loop = .ok (some t.stat) ∧
      g.loopTest? t.stat acceptsLeading = .ok (some t) ∧ g.LeadsOut loop (t.edge t.body.isNone) ∧
      StaysUnless g g' loop .whileDo t t.body.isNone) ∧
    (g.doWhileForm? loop = .ok (some g') → ∃ t leaves, g.trailing? loop = .ok (some t.stat) ∧
      g.loopTest? t.stat acceptsTrailing = .ok (some t) ∧ g.LeadsOut loop (t.edge leaves) ∧
      g.leavesOrContinues loop (t.edge leaves) (t.edge !leaves) = .ok true ∧
      StaysUnless g g' loop .doWhile t leaves) := by
  refine ⟨whileForm?_staysUnless, fun h => ?_⟩
  obtain ⟨t, leaves, hs, ht, hleaves, hstays⟩ := doWhileForm?_staysUnless h
  exact ⟨t, leaves, hs, ht, leadsOut_of_leavesOrContinues hleaves, hleaves, hstays⟩

/-- The body of a method that ends with a test: `do { v0++; if (!!(v0 < 3)) break; }`. -/
def repeatingMethod : Graph where
  stats := ⟨#[
    ⟨.exit, none, none, [], [], [], [⟨1⟩], []⟩,
    ⟨.root, none, some ⟨2⟩, [⟨2⟩], [], [], [], []⟩,
    ⟨.loop ⟨.endless, none, none, none⟩, some ⟨1⟩, some ⟨3⟩, [⟨3⟩], [], [], [⟨2⟩], [⟨1⟩, ⟨2⟩]⟩,
    ⟨.sequence, some ⟨2⟩, some ⟨4⟩, [⟨4⟩, ⟨5⟩], [], [], [], []⟩,
    ⟨.block [⟨1⟩], some ⟨3⟩, none, [], [], [⟨0⟩], [], []⟩,
    ⟨.branch ⟨⟨7⟩, none, none, .plain⟩, some ⟨3⟩, some ⟨6⟩, [⟨6⟩], [], [⟨2⟩], [⟨0⟩], []⟩,
    ⟨.block [], some ⟨5⟩, none, [], [], [⟨1⟩], [], []⟩]⟩
  edges := ⟨#[
    ⟨.regular, ⟨4⟩, ⟨5⟩, none, true, true⟩,
    ⟨.breakTo, ⟨6⟩, ⟨0⟩, some ⟨2⟩, true, true⟩,
    ⟨.continueTo, ⟨5⟩, ⟨2⟩, some ⟨2⟩, true, true⟩]⟩
  exprs :=
    let occurrence : ExprNode := ⟨.var ⟨⟨0, 0⟩, ⟨.int, 0⟩, false, false, none⟩, .empty⟩
    ⟨#[
      occurrence,
      ⟨.apply .postInc [⟨0⟩], .single 1⟩,
      occurrence,
      ⟨.const ⟨.int, 0⟩ (.int 3), .empty⟩,
      ⟨.apply .lt [⟨2⟩, ⟨3⟩], .single 2⟩,
      ⟨.apply .boolNot [⟨4⟩], .empty⟩,
      ⟨.apply .boolNot [⟨5⟩], .empty⟩,
      ⟨.test ⟨6⟩, .single 3⟩]⟩

/-- The test of `while` is in front of the counting loop and that of `do-while` at the end of the
repeating one. The latter goes on while `v0 < 3` is false. -/
theorem conditionForms_staysUnless_repeatingMethod :
    (∃ g' t, countingMethod.whileForm? ⟨4⟩ = .ok (some g') ∧
      countingMethod.LeadsOut ⟨4⟩ (t.edge true) ∧
      StaysUnless countingMethod g' ⟨4⟩ .whileDo t true) ∧
    ∃ g' new, repeatingMethod.doWhileForm? ⟨2⟩ = .ok (some g') ∧
      g'.loopAt ⟨2⟩ = some ⟨.doWhile, none, some new, none⟩ ∧
      ∀ value, g'.Decides value new (!value ⟨4⟩) := by
  have hwhile : Returns (countingMethod.whileForm? ⟨4⟩) fun r => r.isSome := by decide +kernel
  have hrepeat : Returns (repeatingMethod.doWhileForm? ⟨2⟩) fun r => r.isSome := by decide +kernel
  obtain ⟨r, hr, hsome⟩ := hwhile
  obtain ⟨g', rfl⟩ := Option.isSome_iff_exists.1 hsome
  obtain ⟨r', hr', hsome'⟩ := hrepeat
  obtain ⟨g'', rfl⟩ := Option.isSome_iff_exists.1 hsome'
  constructor
  · obtain ⟨⟨s, _⟩, hs, ht, hout, hstays⟩ := (conditionForms_staysUnless _ g' ⟨4⟩).1 hr
    cases hs
    cases ht
    exact ⟨g', _, hr, hout, hstays⟩
  · obtain ⟨⟨s, _⟩, leaves, hs, ht, -, hleaves, new, hloop, hnew, -⟩ :=
      (conditionForms_staysUnless _ g'' ⟨2⟩).2 hr'
    cases hs
    cases ht
    cases leaves with
    | false => cases hleaves
    | true =>
      refine ⟨g'', new, hr', hloop, fun value => (hnew value _).2 ?_⟩
      have hplain : repeatingMethod.Decides value ⟨4⟩ (value ⟨4⟩) := .other rfl nofun
      have hdecides : repeatingMethod.Decides value ⟨6⟩ (value ⟨4⟩) :=
        (Decides.not_iff rfl).2 ((Decides.not_iff rfl).2 (by rwa [Bool.not_not]))
      rwa [Bool.bne_true, Bool.not_not]

end Decompiler.Graph

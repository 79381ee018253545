import Decompiler.Proofs.Loops.Phases

/-!
# Loops over collections

`it = c.iterator(); while (test) { x = it.next(); … }` is taken for a loop over the elements of `c`
when `it.hasNext()` is found under the negations and the comparison that `test` is made of. Whether
`test` holds when there are more elements, or when there are none, is not looked at.

* `Graph.Yields`: what conditions mean.
* `Graph.sense`: whether a condition has the same truth value as what it tests, or the opposite one.
* `Graph.Yields.of_senseIn`, `Graph.keepsSense_iff`: this is what the condition means.
* `Graph.overCollection?_keepsSense`: a loop is taken for one over a collection whatever the sense
  of its condition. `Graph.not_keepsSense_of_negated_test` has a loop that is entered when there are
  no more elements.
-/

namespace Decompiler

/-- The expressions that are read as what they mean: negations, comparisons for equality and
integers. -/
def Expr.isReadable : Expr → Bool
  | .apply .boolNot [_] | .apply .eq [_, _] | .apply .ne [_, _] | .const _ (.int _) => true
  | _ => false

namespace Graph

variable {g g' : Graph} {m : ElementLoop} {loop : StatId} {e x init : ExprId}
  {value : ExprId → ℤ} {n k : ℤ}

/-! ## What conditions mean -/

/-- A truth value as a number. -/
def ofBool (b : Bool) : ℤ := if b then 1 else 0

/-- An expression has a number as its value, if those that are not read have the values that
`value` gives. One is true, and zero is false. -/
inductive Yields (g : Graph) (value : ExprId → ℤ) : ExprId → ℤ → Prop
  | not {e x : ExprId} {n : ℤ} (expr : g.expr e = .ok (.apply .boolNot [x]))
      (operand : Yields g value x n) : Yields g value e (ofBool (n = 0))
  | eq {e x y : ExprId} {n k : ℤ} (expr : g.expr e = .ok (.apply .eq [x, y]))
      (left : Yields g value x n) (right : Yields g value y k) : Yields g value e (ofBool (n = k))
  | ne {e x y : ExprId} {n k : ℤ} (expr : g.expr e = .ok (.apply .ne [x, y]))
      (left : Yields g value x n) (right : Yields g value y k) : Yields g value e (ofBool (n ≠ k))
  | int {e : ExprId} {ty : Ty} {n : ℤ} (expr : g.expr e = .ok (.const ty (.int n))) :
      Yields g value e n
  | other {e : ExprId} {z : Expr} (expr : g.expr e = .ok z) (unread : z.isReadable = false) :
      Yields g value e (value e)

/-- An expression has one value. -/
theorem Yields.functional (h : g.Yields value e n) (h' : g.Yields value e k) : n = k := by
  induction h generalizing k with
  | not expr _ ih => cases h' <;> grind [Expr.isReadable]
  | eq expr _ _ ihx ihy => cases h' <;> grind [Expr.isReadable]
  | ne expr _ _ ihx ihy => cases h' <;> grind [Expr.isReadable]
  | int expr => cases h' <;> grind [Expr.isReadable]
  | other expr unread => cases h' <;> grind [Expr.isReadable]

/-- The condition is true exactly when the expression found in it is. -/
def KeepsSense (g : Graph) (condition x : ExprId) : Prop :=
  ∀ (value : ExprId → ℤ) (t : Bool), value x = ofBool t → g.Yields value condition (ofBool t)

/-! ## The sense of a condition -/

/-- The truth value that a constant stands for. -/
def truth? (g : Graph) (e : ExprId) : Checked (Option Bool) := do
  match ← g.expr e with
  | .const _ (.int 0) => return some false
  | .const _ (.int 1) => return some true
  | _ => return none

/-- Whether a condition, seen through at most `levels` negations, has the truth value of what it
tests or the opposite one. Neither is the case where that is compared with something else than a
truth value. -/
def senseIn (g : Graph) : (levels : ℕ) → ExprId → Checked (Option Bool)
  | 0, _ => .error .cyclic
  | levels + 1, e => do
    match ← g.expr e with
    | .apply .boolNot [inner] => return (← g.senseIn levels inner).map not
    | .apply .eq [_, right] => g.truth? right
    | .apply .ne [_, right] => return (← g.truth? right).map not
    | _ => return some true

/-- Whether a condition has the truth value of what it tests, or the opposite one. -/
def sense (g : Graph) (e : ExprId) : Checked (Option Bool) := g.senseIn g.exprLevels e

theorem Yields.of_truth {b : Bool} (h : g.truth? e = .ok (some b)) :
    g.Yields value e (ofBool b) := by
  obtain ⟨z, hz, h⟩ := Checked.bind_eq_ok.1 h
  split at h
  · cases h
    exact .int hz
  · cases h
    exact .int hz
  · cases h

theorem Yields.of_senseIn {levels : ℕ} {b t : Bool} {z : Expr}
    (hsense : g.senseIn levels e = .ok (some b)) (htested : g.testedIn levels e = .ok x)
    (hx : g.expr x = .ok z) (unread : z.isReadable = false) (ht : value x = ofBool t) :
    g.Yields value e (ofBool (t = b)) := by
  have hyields : g.Yields value x (ofBool t) := ht ▸ .other hx unread
  induction levels generalizing e b with
  | zero => cases hsense
  | succ levels ih =>
    obtain ⟨y, hy, hsense⟩ := Checked.bind_eq_ok.1 hsense
    simp only [testedIn, hy, Checked.ok_bind] at htested
    split at hsense
    · -- a negation turns the sense over
      obtain ⟨c, hc, hsense⟩ := Checked.bind_eq_ok.1 hsense
      obtain ⟨b', rfl, rfl⟩ := Option.map_eq_some_iff.1 (Checked.pure_eq_ok.1 hsense)
      have h := Yields.not hy (ih hc htested)
      cases t <;> cases b' <;> exact h
    · cases htested
      have h := Yields.eq hy hyields (.of_truth hsense)
      cases t <;> cases b <;> exact h
    · cases htested
      obtain ⟨c, hc, hsense⟩ := Checked.bind_eq_ok.1 hsense
      obtain ⟨b', rfl, rfl⟩ := Option.map_eq_some_iff.1 (Checked.pure_eq_ok.1 hsense)
      have h := Yields.ne hy hyields (.of_truth hc)
      cases t <;> cases b' <;> exact h
    · next hnot heq hne =>
      split at htested
      · exact absurd rfl (hnot _)
      · exact absurd rfl (heq _ _)
      · exact absurd rfl (hne _ _)
      · cases hsense
        cases htested
        cases t <;> exact hyields

/-- A call is not read as anything else. -/
theorem unread_of_asksForMore (h : g.asksForMore x = .ok true) :
    ∃ z, g.expr x = .ok z ∧ z.isReadable = false := by
  simp only [asksForMore, isCall, call?, withoutCasts, exprLevels, withoutCastsIn,
    Checked.bind_eq_ok, Checked.pure_eq_ok] at h
  obtain ⟨c, ⟨y, ⟨z, hz, hy⟩, z', hz', hc⟩, hany⟩ := h
  refine ⟨z, hz, ?_⟩
  split at hy
  · rfl
  · cases hy
    rw [hz] at hz'
    cases hz'
    split at hc
    · rfl
    · cases hc
      cases hany

/-- The sense of a condition says how its truth value follows from that of what it tests. -/
theorem keepsSense_iff {b : Bool} (hsense : g.sense e = .ok (some b))
    (htested : g.tested e = .ok x) (hasks : g.asksForMore x = .ok true) :
    g.KeepsSense e x ↔ b = true := by
  obtain ⟨z, hz, unread⟩ := unread_of_asksForMore hasks
  have hyields : ∀ (value : ExprId → ℤ) (t : Bool), value x = ofBool t →
      g.Yields value e (ofBool (t = b)) := fun value t ht =>
    .of_senseIn hsense htested hz unread ht
  constructor
  · intro hkeeps
    have h := (hyields (fun _ => 1) true rfl).functional (hkeeps (fun _ => 1) true rfl)
    cases b
    · cases h
    · rfl
  · rintro rfl value t ht
    have h := hyields value t ht
    cases t <;> exact h

/-- A `while` that is taken for a loop over a collection has the form of one. Its condition is true
exactly when there are more elements if its sense is positive, and otherwise it is not. -/
theorem overCollection?_keepsSense (hm : g.elementLoop? loop = .ok (some m))
    (h : g.overCollection? m init = .ok (some g')) :
    (∃ p, g.CollectionForm m init p) ∧ ∀ p, g.CollectionForm m init p →
      g'.IsLoop loop .forEach ∧ ∀ b, g.sense p.condition = .ok (some b) →
        (g.KeepsSense p.condition p.hasNext ↔ b = true) := by
  obtain ⟨rfl, st, hst, l, hl, hkind⟩ := elementLoop?_eq_some hm
  obtain ⟨p₀, hform₀, -⟩ := overCollection?_eq_some h
  obtain ⟨element, source, cuts, t⟩ := takesElements_overCollection h
  refine ⟨⟨p₀, hform₀⟩, fun p hform => ⟨?_, fun b hb => ?_⟩⟩
  · exact t.refits.isLoop (fun _ => rfl) (isLoop_iff.2 ⟨st, l, hst, hl, hkind⟩)
  · exact keepsSense_iff hb hform.tested hform.asksForMore

/-- The body of a method that visits a collection: `v1 = v2.iterator();
while (condition) { v3 = v1.next(); Out.print(v3); }`. -/
def visitingMethod (condition : ExprId) : Graph where
  stats := ⟨#[
    ⟨.exit, none, none, [], [], [], [], []⟩,
    ⟨.root, none, some ⟨5⟩, [⟨5⟩], [], [], [], []⟩,
    ⟨.block [⟨3⟩], some ⟨5⟩, none, [], [], [⟨0⟩], [], []⟩,
    ⟨.block [⟨9⟩, ⟨11⟩], some ⟨4⟩, none, [], [], [⟨1⟩], [], []⟩,
    ⟨.loop ⟨.whileDo, none, some condition, none⟩, some ⟨5⟩, some ⟨3⟩, [⟨3⟩], [], [], [⟨0⟩, ⟨1⟩],
      [⟨1⟩]⟩,
    ⟨.sequence, some ⟨1⟩, some ⟨2⟩, [⟨2⟩, ⟨4⟩], [], [], [], []⟩]⟩
  edges := ⟨#[
    ⟨.regular, ⟨2⟩, ⟨4⟩, none, true, true⟩,
    ⟨.continueTo, ⟨3⟩, ⟨4⟩, some ⟨4⟩, true, true⟩]⟩
  exprs :=
    let occurrence (index : ℕ) : ExprNode :=
      ⟨.var ⟨⟨index, 0⟩, ⟨.object none, 0⟩, false, false, none⟩, .empty⟩
    let ask (className name descriptor : String) (on : ExprId) : ExprNode :=
      ⟨.call ⟨className, name, descriptor, some on, []⟩, .empty⟩
    ⟨#[
      occurrence 1,
      occurrence 2,
      ask "java/util/List" "iterator" "()Ljava/util/Iterator;" ⟨1⟩,
      ⟨.assign ⟨0⟩ ⟨2⟩, .empty⟩,
      occurrence 1,
      ask "java/util/Iterator" "hasNext" "()Z" ⟨4⟩,
      occurrence 3,
      occurrence 1,
      ask "java/util/Iterator" "next" "()Ljava/lang/Object;" ⟨7⟩,
      ⟨.assign ⟨6⟩ ⟨8⟩, .empty⟩,
      occurrence 3,
      ⟨.call ⟨"Out", "print", "(Ljava/lang/Object;)V", none, [⟨10⟩]⟩, .empty⟩,
      ⟨.apply .boolNot [⟨5⟩], .empty⟩,
      ⟨.const ⟨.int, 0⟩ (.int 0), .empty⟩,
      ⟨.apply .eq [⟨5⟩, ⟨13⟩], .empty⟩,
      ⟨.apply .boolNot [⟨14⟩], .empty⟩]⟩

/-- What may belong to a loop over elements there. -/
def visitingLoop : ElementLoop :=
  ⟨⟨4⟩, ⟨2⟩, some ⟨3⟩, none, none, ⟨3⟩, ⟨9⟩, some (⟨3⟩, ⟨11⟩)⟩

/-- The expressions of the loop. -/
def visitingParts (condition : ExprId) : CollectionParts :=
  ⟨condition, ⟨5⟩, ⟨4⟩, ⟨6⟩, ⟨8⟩, ⟨7⟩, ⟨0⟩, ⟨2⟩, ⟨1⟩⟩

theorem collectionForm_visitingMethod (condition : ExprId)
    (tested : (visitingMethod condition).tested condition = .ok ⟨5⟩)
    (unused : (visitingMethod condition).isUsed ⟨0⟩ ⟨4⟩ [⟨7⟩, ⟨4⟩] = .ok false) :
    (visitingMethod condition).CollectionForm visitingLoop ⟨3⟩ (visitingParts condition) where
  condition := ⟨_, rfl, rfl⟩
  tested := tested
  asksForMore := rfl
  fetch := rfl
  takesNext := rfl
  element := ⟨_, rfl, rfl⟩
  stored := rfl
  nextOn := ⟨_, rfl, rfl⟩
  hasNextOn := ⟨_, rfl, rfl⟩
  source := ⟨_, rfl, rfl⟩
  sameNext := rfl
  sameHasNext := rfl
  unused := unused

/-- The loop of the method is taken for one over a collection. -/
def TakenForVisit (g : Graph) (condition : ExprId) : Prop :=
  g.elementLoop? ⟨4⟩ = .ok (some visitingLoop) ∧
    g.CollectionForm visitingLoop ⟨3⟩ (visitingParts condition) ∧
    g.forEachForm? ⟨4⟩ = g.overCollection? visitingLoop ⟨3⟩ ∧
    Returns (g.forEachForm? ⟨4⟩) fun r => r.isSome

/-- `while (!(v1.hasNext() == 0))` has the sense of `v1.hasNext()`. -/
theorem overCollection?_keepsSense_comparedTest :
    (visitingMethod ⟨15⟩).TakenForVisit ⟨15⟩ ∧
      (visitingMethod ⟨15⟩).sense ⟨15⟩ = .ok (some true) ∧
      (visitingMethod ⟨15⟩).KeepsSense ⟨15⟩ ⟨5⟩ := by
  have hm : (visitingMethod ⟨15⟩).elementLoop? ⟨4⟩ = .ok (some visitingLoop) := rfl
  have hform := collectionForm_visitingMethod ⟨15⟩ rfl (by decide +kernel)
  have hr : Returns ((visitingMethod ⟨15⟩).forEachForm? ⟨4⟩) fun r => r.isSome := by decide +kernel
  have hsense : (visitingMethod ⟨15⟩).sense ⟨15⟩ = .ok (some true) := rfl
  refine ⟨⟨hm, hform, rfl, hr⟩, hsense, ?_⟩
  obtain ⟨r, hr, hsome⟩ := hr
  obtain ⟨g', rfl⟩ := Option.isSome_iff_exists.1 hsome
  have hover : (visitingMethod ⟨15⟩).overCollection? visitingLoop ⟨3⟩ = .ok (some g') := hr
  obtain ⟨-, h⟩ := (overCollection?_keepsSense hm hover).2 _ hform
  exact (h true hsense).2 rfl

/-- `while (!v1.hasNext())` is taken for a loop over the collection as well. -/
theorem not_keepsSense_of_negated_test :
    (visitingMethod ⟨12⟩).WellFormed ∧ (visitingMethod ⟨12⟩).TakenForVisit ⟨12⟩ ∧
      ¬ (visitingMethod ⟨12⟩).KeepsSense ⟨12⟩ ⟨5⟩ := by
  have hform := collectionForm_visitingMethod ⟨12⟩ rfl (by decide +kernel)
  refine ⟨by decide +kernel, ⟨rfl, hform, rfl, by decide +kernel⟩, fun hkeeps => ?_⟩
  have hfalse : (visitingMethod ⟨12⟩).sense ⟨12⟩ = .ok (some false) := rfl
  cases (keepsSense_iff hfalse hform.tested hform.asksForMore).1 hkeeps

end Graph

end Decompiler

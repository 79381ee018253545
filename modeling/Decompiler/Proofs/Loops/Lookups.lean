import Decompiler.Proofs.Graph.Totality
import Decompiler.Proofs.Variables.Reading

/-!
# What the matchers of loop forms look up

On an intact graph every search that a matcher makes comes to a result, and what it finds is in use.

* `Graph.Intact.lastLeaf?`, `Graph.Intact.leafBefore?`: leaves inside a statement and before it.
* `Graph.Intact.call?`, `Graph.Intact.isUsed`: what an expression is, and where its local is used.
* `Graph.Intact.loopTest?`: the test at the end of a body, with all its parts.
-/

namespace Decompiler

namespace Graph

variable {g : Graph} {loop leaf s : StatId} {x : ExprId}

namespace Intact

variable (hI : g.Intact)

include hI

/-! ## Looking for statements -/

/-- What one end of the body of a loop comes down to. -/
theorem throughSequences {child : Stat → Option StatId} (henters : g.EntersChildren loop)
    (hchild : ∀ t c, g.Within loop t → Returns (g.stat t) (fun st => child st = some c) →
      g.ChildOf t c) (hloop : loop ∈ g.stats.ids) :
    Returns (do
      let some body := (← g.stat loop).first | return none
      g.throughSequencesIn child g.statLevels body) fun _ => True := by
  obtain ⟨st, hst⟩ := exists_stat hloop
  simp only [hst, Checked.ok_bind]
  split
  swap
  · exact Returns.pure_iff.2 trivial
  next body hbody =>
  have hwithin : g.Within loop body := .single (henters loop body .refl ⟨st, hst, hbody⟩)
  have hbody := (hI.stat loop st hst).relatives body (Stat.mem_relatives_of_first hbody)
  refine hI.descend (P := fun n s => g.Within loop s →
      Returns (g.throughSequencesIn child n s) fun _ => True)
    (fun n s st hst hbelow hs => ?_) hbody (Nat.le_succ _) hwithin
  simp only [throughSequencesIn, hst, Checked.ok_bind]
  split
  · split
    · next inner hinner =>
      have hc := hchild s inner hs ⟨st, hst, hinner⟩
      exact hbelow inner ((childOf_iff hst).1 hc) (hs.tail hc)
    · exact Returns.pure_iff.2 trivial
  · exact Returns.pure_iff.2 trivial

theorem leading? (henters : g.EntersChildren loop) (hloop : loop ∈ g.stats.ids) :
    Returns (g.leading? loop) fun _ => True :=
  hI.throughSequences henters henters hloop

theorem trailing? (henters : g.EntersChildren loop) (hloop : loop ∈ g.stats.ids) :
    Returns (g.trailing? loop) fun _ => True :=
  hI.throughSequences henters (fun _ _ _ => childOf_getLast?) hloop

theorem lastLeaf? (hs : s ∈ g.stats.ids) :
    Returns (g.lastLeaf? s) fun r => ∀ t, r = some t → t ∈ g.stats.ids := by
  refine hI.descend
    (P := fun n s => Returns (g.lastLeafIn n s) fun r => ∀ t, r = some t → t ∈ g.stats.ids)
    (fun n s st hst hbelow => ?_) hs (Nat.le_succ _)
  simp only [lastLeafIn, hst, Checked.ok_bind]
  split
  · refine Returns.pure_iff.2 fun t ht => ?_
    cases ht
    exact mem_stats_ids hst
  · have among : ∀ l : List StatId, (∀ c ∈ l, c ∈ st.children) →
        Returns (g.lastLeafAmong (g.lastLeafIn n) l) fun r =>
          ∀ t, r = some t → t ∈ g.stats.ids := by
      intro l hl
      induction l with
      | nil => exact Returns.pure_none
      | cons c l ih =>
        refine (hbelow c (hl c (by simp))).bind fun r _ hr => ?_
        cases r with
        | none => exact Returns.pure_none
        | some leaf =>
          obtain ⟨lt, hlt⟩ := exists_stat (hr leaf rfl)
          simp only [hlt, Checked.ok_bind]
          split
          · exact ih fun d hd => hl d (by simp [hd])
          · exact Returns.pure_iff.2 hr
    exact among _ fun c hc => List.mem_reverse.1 hc

theorem firstLeaf? (hs : s ∈ g.stats.ids) :
    Returns (g.firstLeaf? s) fun r => ∀ t, r = some t → t ∈ g.stats.ids := by
  refine hI.descend
    (P := fun n s => Returns (g.firstLeafIn n s) fun r => ∀ t, r = some t → t ∈ g.stats.ids)
    (fun n s st hst hbelow => ?_) hs (Nat.le_succ _)
  simp only [firstLeafIn, hst, Checked.ok_bind]
  split
  · refine Returns.pure_iff.2 fun t ht => ?_
    cases ht
    exact mem_stats_ids hst
  · exact Returns.findSomeM? hbelow

theorem enteredFrom (hs : s ∈ g.stats.ids) :
    Returns (g.enteredFromIn g.statLevels s) fun r => ∀ t, r = some t → t ∈ g.stats.ids := by
  refine hI.ascend
    (P := fun n s => Returns (g.enteredFromIn n s) fun r => ∀ t, r = some t → t ∈ g.stats.ids)
    (fun n s st hst habove => ?_) hs (Nat.le_succ _)
  simp only [enteredFromIn, hst, Checked.ok_bind]
  split
  swap
  · exact Returns.pure_none
  next parent hparent =>
  have hp := (hI.stat s st hst).relatives parent (Stat.mem_relatives_of_parent hparent)
  obtain ⟨pt, hpt⟩ := exists_stat hp
  simp only [hpt, Checked.ok_bind]
  split
  · split
    · exact habove parent hparent
    · refine (hI.neighbours _ .backward (mem_stats_ids hst)).bind fun l _ hl => ?_
      exact Returns.pure_iff.2 fun t ht => hl t (List.mem_of_getElem? ht)
  · exact Returns.pure_none

theorem leafBefore? (leafOnly : Bool) (hs : s ∈ g.stats.ids) :
    Returns (g.leafBefore? s leafOnly) fun r => ∀ t, r = some t → t ∈ g.stats.ids := by
  refine (hI.enteredFrom hs).bind fun r _ hr => ?_
  cases r with
  | none => exact Returns.pure_none
  | some previous =>
    have hprevious := hr previous rfl
    obtain ⟨pt, hpt⟩ := exists_stat hprevious
    simp only [hpt, Checked.ok_bind]
    cases leafOnly with
    | false => exact hI.lastLeaf? hprevious
    | true =>
      simp only [Bool.true_and]
      split
      · exact Returns.pure_none
      · exact hI.lastLeaf? hprevious

/-! ## Looking at expressions -/

theorem expr (hx : x ∈ g.exprs.ids) :
    Returns (g.expr x) fun y => ∀ c ∈ y.children, c ∈ g.exprs.ids := by
  obtain ⟨n, hn⟩ := exists_node hx
  refine ⟨n.expr, expr_eq_ok.2 ⟨n, hn, rfl⟩, fun c hc => ?_⟩
  obtain ⟨m, hm⟩ := ((hI.grounded hx).sub ⟨n, hn, hc⟩).exists_node
  exact Arena.mem_ids.2 ⟨m, hm⟩

theorem assign? (hx : x ∈ g.exprs.ids) : Returns (g.assign? x) fun r =>
    ∀ left right, r = some (left, right) → left ∈ g.exprs.ids ∧ right ∈ g.exprs.ids := by
  refine (hI.expr hx).bind fun y _ hy => Returns.pure_iff.2 fun left right h => ?_
  cases y <;> cases h
  exact ⟨hy left (by simp [Expr.children]), hy right (by simp [Expr.children])⟩

theorem assignment? {o : Option ExprId} (ho : ∀ x, o = some x → x ∈ g.exprs.ids) :
    Returns (g.assignment? o) fun r => ∀ x, r = some x → x ∈ g.exprs.ids := by
  cases o with
  | none => exact Returns.pure_none
  | some y =>
    refine (hI.assign? (ho y rfl)).bind fun assigned _ _ => Returns.pure_iff.2 fun x hx => ?_
    split at hx
    · exact ho x hx
    · cases hx

theorem var? (hx : x ∈ g.exprs.ids) : Returns (g.var? x) fun _ => True :=
  (hI.expr hx).bind fun _ _ _ => Returns.pure_iff.2 trivial

theorem local? (hx : x ∈ g.exprs.ids) : Returns (g.local? x) fun _ => True :=
  (hI.expr hx).bind fun _ _ _ => Returns.pure_iff.2 trivial

theorem sameLocal {y : ExprId} (hx : x ∈ g.exprs.ids) (hy : y ∈ g.exprs.ids) :
    Returns (g.sameLocal x y) fun _ => True := by
  refine (hI.local? hx).bind fun v _ _ => (hI.local? hy).bind fun w _ _ => ?_
  split <;> exact Returns.pure_iff.2 trivial

theorem withoutCasts (hx : x ∈ g.exprs.ids) :
    Returns (g.withoutCasts x) fun y => y ∈ g.exprs.ids := by
  refine (hI.grounded hx).walk (P := fun n x => Returns (g.withoutCastsIn n x) fun y =>
    y ∈ g.exprs.ids) (fun n x m _ hm hbelow => ?_) (Nat.le_succ _)
  simp only [withoutCastsIn, expr_eq_ok.2 ⟨m, hm, rfl⟩, Checked.ok_bind]
  split
  · next inner rest hcast => exact hbelow inner (by simp [hcast, Expr.children])
  · exact Returns.pure_iff.2 (Arena.mem_ids.2 ⟨m, hm⟩)

theorem tested (hx : x ∈ g.exprs.ids) : Returns (g.tested x) fun y => y ∈ g.exprs.ids := by
  refine (hI.grounded hx).walk (P := fun n x => Returns (g.testedIn n x) fun y => y ∈ g.exprs.ids)
    (fun n x m _ hm hbelow => ?_) (Nat.le_succ _)
  have hx : x ∈ g.exprs.ids := Arena.mem_ids.2 ⟨m, hm⟩
  obtain ⟨y, hy, hchildren⟩ := hI.expr hx
  obtain rfl : m.expr = y := Except.ok.inj ((expr_eq_ok.2 ⟨m, hm, rfl⟩).symm.trans hy)
  simp only [testedIn, hy, Checked.ok_bind]
  split
  · next inner hnot => exact hbelow inner (by simp [hnot, Expr.children])
  · next left _ heq => exact Returns.pure_iff.2 (hchildren left (by simp [heq, Expr.children]))
  · next left _ hne => exact Returns.pure_iff.2 (hchildren left (by simp [hne, Expr.children]))
  · exact Returns.pure_iff.2 hx

theorem call? (hx : x ∈ g.exprs.ids) : Returns (g.call? x) fun r =>
    ∀ y, r.bind Call.receiver = some y → y ∈ g.exprs.ids := by
  refine (hI.withoutCasts hx).bind fun y _ hy => (hI.expr hy).bind fun z _ hz => ?_
  split
  · next call _ =>
    refine Returns.pure_iff.2 fun y hy => hz y ?_
    have hy : call.receiver = some y := hy
    simp [Expr.children, hy]
  · exact Returns.pure_iff.2 (by simp)

theorem isCall (classes : List String) (name descriptor : String) (hx : x ∈ g.exprs.ids) :
    Returns (g.isCall x classes name descriptor) fun _ => True :=
  (hI.call? hx).bind fun _ _ _ => Returns.pure_iff.2 trivial

theorem asksForIterator (hx : x ∈ g.exprs.ids) : Returns (g.asksForIterator x) fun _ => True := by
  refine (hI.isCall _ _ _ hx).bind fun found _ _ => ?_
  split
  · exact Returns.pure_iff.2 trivial
  · exact hI.isCall _ _ _ hx

theorem isUsedIn {target : ExprId} (exempt : List ExprId) (ht : target ∈ g.exprs.ids)
    (hx : x ∈ g.exprs.ids) : Returns (g.isUsedIn target x exempt) fun _ => True := by
  obtain ⟨b, hb⟩ := (hI.grounded hx).isUsedIn (hI.grounded ht) exempt
  exact ⟨b, hb, trivial⟩

theorem isUsed {target : ExprId} (exempt : List ExprId) (ht : target ∈ g.exprs.ids)
    (hs : s ∈ g.stats.ids) : Returns (g.isUsed target s exempt) fun _ => True := by
  refine hI.descend (P := fun n s => ∀ start, Returns (g.someItemIn (fun e =>
    g.isUsedIn target e exempt) n s start) fun _ => True) (fun n s st hst hbelow start => ?_) hs
    (Nat.le_add_right _ 2) 0
  simp only [someItemIn, hst, Checked.ok_bind]
  refine Returns.anyM fun item hitem => ?_
  have hitem := List.mem_of_mem_drop hitem
  cases item with
  | stat c => exact hbelow c ((childOf_iff hst).1 (childOf_of_items hst hitem)) 0
  | expr x =>
    have hx := StatKind.mem_named (Stat.mem_exprs_of_items hitem)
    exact hI.isUsedIn exempt ht ((hI.stat s st hst).named x hx)

/-! ## The ends of bodies -/

theorem lastExpr? (hleaf : leaf ∈ g.stats.ids) :
    Returns (g.lastExpr? leaf) fun r => ∀ x, r = some x → x ∈ g.exprs.ids := by
  obtain ⟨lt, hlt⟩ := exists_stat hleaf
  simp only [Graph.lastExpr?, hlt, Checked.ok_bind]
  refine Returns.pure_iff.2 fun x hx => ?_
  obtain ⟨exprs, hexprs, hx⟩ := Option.bind_eq_some_iff.1 hx
  refine (hI.stat leaf lt hlt).named x ?_
  rw [Stat.exprs?_eq_some.1 hexprs]
  exact List.mem_of_getLast? hx

theorem initBefore? (hloop : loop ∈ g.stats.ids) : Returns (g.initBefore? loop) fun r =>
    ∀ p, r = some p → p.1 ∈ g.stats.ids ∧ p.2 ∈ g.exprs.ids := by
  refine (hI.leafBefore? true hloop).bind fun r _ hr => ?_
  obtain _ | leaf := r
  · exact Returns.pure_none
  have hleaf := hr leaf rfl
  refine (hI.lastExpr? hleaf).bind fun r _ hr => ?_
  obtain _ | init := r
  · exact Returns.pure_none
  have hinit := hr init rfl
  refine (hI.assign? hinit).bind fun assigned _ _ => Returns.pure_iff.2 fun p hp => ?_
  split at hp
  · cases hp
    exact ⟨hleaf, hinit⟩
  · cases hp

theorem lastOf? (hs : s ∈ g.stats.ids) : Returns (g.lastOf? s) fun r =>
    ∀ p, r = some p → p.1 ∈ g.stats.ids ∧ p.2 ∈ g.exprs.ids := by
  refine (hI.lastLeaf? hs).bind fun r _ hr => ?_
  obtain _ | leaf := r
  · exact Returns.pure_none
  refine (hI.lastExpr? (hr leaf rfl)).bind fun r _ hr' => Returns.pure_iff.2 fun p hp => ?_
  obtain ⟨x, hx, rfl⟩ := Option.map_eq_some_iff.1 hp
  exact ⟨hr leaf rfl, hr' x hx⟩

/-! ## Tests -/

theorem headCondition? (hs : s ∈ g.stats.ids) : Returns (g.headCondition? s) fun r =>
    ∀ head condition, r = some (head, condition) →
      head ∈ g.exprs.ids ∧ condition ∈ g.exprs.ids := by
  obtain ⟨st, hst⟩ := exists_stat hs
  simp only [Graph.headCondition?, hst, Checked.ok_bind]
  cases hb : st.branch? with
  | none => exact Returns.pure_iff.2 (by simp)
  | some b =>
    have hhead : b.head ∈ g.exprs.ids := (hI.stat s st hst).named b.head (by
      rw [Stat.branch?_eq_some.1 hb]
      exact List.mem_singleton_self b.head)
    refine (hI.expr hhead).bind fun y _ hy => ?_
    split
    · next condition _ =>
      refine Returns.pure_iff.2 fun head c h => ?_
      cases h
      exact ⟨hhead, hy condition (by simp [Expr.children])⟩
    · exact Returns.pure_iff.2 (by simp)

theorem thenEdge? (hs : s ∈ g.stats.ids) :
    Returns (g.thenEdge? s) fun r => ∀ e, r = some e → e ∈ g.edges.ids := by
  have hedges : Returns (g.headEdges s) fun l => ∀ e ∈ l, e ∈ g.edges.ids := by
    obtain ⟨st, hst⟩ := exists_stat hs
    simp only [headEdges, hst, Checked.ok_bind]
    split
    · exact Returns.pure_iff.2 (List.forall_mem_nil _)
    · next headBlock hfirst =>
      exact hI.successorEdges .direct ((hI.stat s st hst).relatives headBlock
        (Stat.mem_relatives_of_first hfirst))
  exact hedges.bind fun l _ hl => Returns.pure_iff.2 fun e he => hl e (List.mem_of_getElem? he)

theorem exitEdge? (hs : s ∈ g.stats.ids) :
    Returns (g.exitEdge? s) fun r => ∀ e, r = some e → e ∈ g.edges.ids :=
  (hI.successorEdges .direct hs).bind fun _ _ hl => Returns.pure_iff.2 fun e he =>
    hl e (List.mem_of_getElem? he)

end Intact

/-- The parts of a test are in use. -/
structure KnownTest (g : Graph) (t : LoopTest) : Prop where
  stat : t.stat ∈ g.stats.ids
  headBlock : t.headBlock ∈ g.stats.ids
  head : t.head ∈ g.exprs.ids
  condition : t.condition ∈ g.exprs.ids
  thenEdge : t.thenEdge ∈ g.edges.ids
  elseEdge : t.elseEdge ∈ g.edges.ids

theorem KnownTest.enlarges {g' : Graph} {t : LoopTest} (h : g.KnownTest t) (x : Enlarges g g') :
    g'.KnownTest t :=
  ⟨x.stats _ h.stat, x.stats _ h.headBlock, x.exprs h.head, x.exprs h.condition,
    x.edges _ h.thenEdge, x.edges _ h.elseEdge⟩

namespace Intact

variable (hI : g.Intact)

include hI

theorem loopTest? (accepts : Branch → Stat → Bool) (hs : s ∈ g.stats.ids) :
    Returns (g.loopTest? s accepts) fun r => ∀ t, r = some t → g.KnownTest t := by
  obtain ⟨st, hst⟩ := exists_stat hs
  simp only [Graph.loopTest?, hst, Checked.ok_bind]
  cases st.branch? with
  | none => exact Returns.pure_none
  | some b =>
    cases hfirst : st.first with
    | none => exact Returns.pure_none
    | some headBlock =>
      have hblock := (hI.stat s st hst).relatives headBlock
        (Stat.mem_relatives_of_first hfirst)
      obtain ⟨bt, hbt⟩ := exists_stat hblock
      simp only [hbt, Checked.ok_bind]
      split
      · exact Returns.pure_none
      refine (hI.headCondition? hs).bind fun r _ hr => ?_
      obtain _ | ⟨head, condition⟩ := r
      · exact Returns.pure_none
      obtain ⟨hhead, hcondition⟩ := hr head condition rfl
      refine (hI.thenEdge? hs).bind fun r _ hr => ?_
      obtain _ | thenEdge := r
      · exact Returns.pure_none
      have hthen := hr thenEdge rfl
      refine (hI.exitEdge? hs).bind fun r _ hr => ?_
      obtain _ | elseEdge := r
      · exact Returns.pure_none
      refine Returns.pure_iff.2 fun t ht => ?_
      cases ht
      exact ⟨hs, hblock, hhead, hcondition, hthen, hr elseEdge rfl⟩

theorem leavesOrContinues {leave again : EdgeId} (hloop : loop ∈ g.stats.ids)
    (hleave : leave ∈ g.edges.ids) (hagain : again ∈ g.edges.ids) :
    Returns (g.leavesOrContinues loop leave again) fun _ => True := by
  obtain ⟨out, hout⟩ := exists_edge hleave
  obtain ⟨back, hback⟩ := exists_edge hagain
  simp only [Graph.leavesOrContinues, hout, hback, Checked.ok_bind]
  split
  · exact hI.fallsInto out.destination hloop
  · exact Returns.pure_iff.2 trivial

end Intact

end Graph

end Decompiler

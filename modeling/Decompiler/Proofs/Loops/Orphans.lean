import Decompiler.Proofs.Loops.References
import Decompiler.Proofs.Loops.Visits
import Decompiler.Proofs.Variables.Renaming

/-!
# Variables without an assignment

A loop over elements does without the iterator, or without the counter and the length of the array,
and the match takes their assignments away. It looks for other uses of these variables in the loop
only. So a variable may be left that is still referred to and that nothing assigns any more.

* `Graph.Assigns`: the tree assigns to a variable. For a loop over elements its element variable is
  assigned. `Graph.assigned` lists these variables (`Graph.mem_assigned`).
* `Graph.assigns_testMoves`, `Graph.assigns_forForm`: the other rewrites keep all assignments.
* `Graph.Orphans`: a visit takes the last assignment to a variable away.
* `Graph.recogniseLoops_keepsAssigned`: a variable that the tree assigns to and that is referred to
  at the end is still assigned, unless a visit has made an orphan of it.
  `Graph.not_assigns_of_read_after_loop` has one.
-/

namespace Decompiler.Graph

open Relation

variable {g g' : Graph} {K : StatId → Prop} {loop s old : StatId} {e c condition new : ExprId}
  {v : Local} {kept fresh : Option StatId} {f : Loop → Loop} {cuts : List (StatId × ExprId)}
  {options : Options} {kind : LoopKind} {t : LoopTest} {l : Loop}

/-! ## Assignments of the tree -/

/-- The expression has an assignment to the variable in it. -/
def AssignsIn (g : Graph) (e : ExprId) (v : Local) : Prop :=
  ∃ x right, g.Reaches e x ∧ g.assigned? x = .ok (some (v, right))

/-- The statement is a loop over elements with the element variable at `e`. -/
def ElementAt (g : Graph) (s : StatId) (e : ExprId) : Prop :=
  ∃ l, g.loopAt s = some l ∧ l.kind = .forEach ∧ l.init = some e

/-- An expression that the tree evaluates has an assignment to the variable in it, or a loop of the
tree takes elements into it. -/
def Assigns (g : Graph) (v : Local) : Prop :=
  (∃ s e, g.Owns s e ∧ g.AssignsIn e v) ∨
    ∃ s e, g.InTree s ∧ g.ElementAt s e ∧ g.local? e = .ok (some v)

/-- The variables that an expression has assignments to. -/
def assignedIn (g : Graph) (e : ExprId) : Checked (List Local) := do
  return (← (← g.nodes e).mapM fun n => g.assigned? n.1).flatMap fun a => (a.map Prod.fst).toList

/-- The variable that a loop over elements takes them into. -/
def elementVar? (g : Graph) (stat : Stat) : Checked (Option Local) :=
  match stat.loop? with
  | some ⟨.forEach, some e, _, _⟩ => g.local? e
  | _ => return none

/-- The variables that a statement assigns to itself. -/
def assignedAt (g : Graph) (s : StatId) : Checked (List Local) := do
  let stat ← g.stat s
  return (← stat.ownExprs.mapM g.assignedIn).flatten ++ (← g.elementVar? stat).toList

/-- The variables that the tree assigns to. -/
def assigned (g : Graph) : Checked (List Local) := do
  return (← (← g.statements).mapM g.assignedAt).flatten

theorem mem_assignedIn {vars : List Local} (h : g.assignedIn e = .ok vars) :
    v ∈ vars ↔ g.AssignsIn e v := by
  simp only [assignedIn, Checked.bind_eq_ok, Checked.pure_eq_ok, Checked.mapM_eq_ok_iff] at h
  obtain ⟨nodes, hnodes, as, has, rfl⟩ := h
  have hmem := mem_nodesIn hnodes
  rw [List.mem_flatMap]
  constructor
  · rintro ⟨a, ha, hv⟩
    obtain ⟨n, hn, hassigned⟩ := Checked.exists_of_mem has.flip ha
    obtain ⟨⟨v', right⟩, rfl, rfl⟩ := Option.map_eq_some_iff.1 (Option.mem_toList.1 hv)
    exact ⟨n.1, right, ((hmem n).1 hn).1, hassigned⟩
  · rintro ⟨x, right, hx, hassigned⟩
    obtain ⟨left, hexpr, -⟩ := assigned?_eq_some.1 hassigned
    obtain ⟨n, hn, -⟩ := expr_eq_ok.1 hexpr
    obtain ⟨a, ha, hassigned'⟩ := Checked.exists_of_mem has ((hmem (x, n)).2 ⟨hx, hn⟩)
    rw [hassigned] at hassigned'
    cases hassigned'
    exact ⟨_, ha, by simp⟩

theorem elementVar?_eq_some {stat : Stat} : g.elementVar? stat = .ok (some v) ↔
    ∃ l e, stat.loop? = some l ∧ l.kind = .forEach ∧ l.init = some e ∧
      g.local? e = .ok (some v) := by
  unfold elementVar?
  split
  · next e _ _ hl =>
    simp only [hl, Option.some.injEq]
    constructor
    · exact fun h => ⟨_, e, rfl, rfl, rfl, h⟩
    · rintro ⟨_, _, rfl, -, he, h⟩
      cases he
      exact h
  · next hnone =>
    refine ⟨nofun, ?_⟩
    rintro ⟨⟨_, _, condition, step⟩, e, hl, rfl, rfl, -⟩
    exact absurd hl (hnone e condition step)

theorem mem_assignedAt {vars : List Local} (h : g.assignedAt s = .ok vars) (v : Local) :
    v ∈ vars ↔ (∃ e, (Returns (g.stat s) fun st => e ∈ st.kind.exprs) ∧ g.AssignsIn e v) ∨
      ∃ e, g.ElementAt s e ∧ g.local? e = .ok (some v) := by
  simp only [assignedAt, Checked.bind_eq_ok, Checked.pure_eq_ok, Checked.mapM_eq_ok_iff,
    Stat.ownExprs_eq] at h
  obtain ⟨st, hst, ls, hls, var, hvar, rfl⟩ := h
  rw [List.mem_append, mem_flatten_of_forall₂ hls fun _ _ he _ => mem_assignedIn he]
  refine or_congr (by simp only [hst, Returns.ok_iff]) ?_
  have hsome : var = some v ↔ g.elementVar? st = .ok (some v) := by rw [hvar, Except.ok.injEq]
  rw [Option.mem_toList, hsome, elementVar?_eq_some]
  simp only [ElementAt, loopAt_of_stat hst]
  constructor
  · rintro ⟨l, e, hl, hkind, hinit, he⟩
    exact ⟨e, ⟨l, hl, hkind, hinit⟩, he⟩
  · rintro ⟨e, ⟨l, hl, hkind, hinit⟩, he⟩
    exact ⟨l, e, hl, hkind, hinit, he⟩

theorem mem_assigned {vars : List Local} (h : g.assigned = .ok vars) : v ∈ vars ↔ g.Assigns v := by
  simp only [assigned, Checked.bind_eq_ok, Checked.pure_eq_ok, Checked.mapM_eq_ok_iff] at h
  obtain ⟨order, horder, ls, hls, rfl⟩ := h
  rw [mem_flatten_of_forall₂ hls fun _ _ => mem_assignedAt]
  constructor
  · rintro ⟨s, hs, ⟨e, he, hv⟩ | ⟨e, he, hv⟩⟩
    · exact .inl ⟨s, e, ⟨(mem_preorderIn horder s).1 hs, he⟩, hv⟩
    · exact .inr ⟨s, e, (mem_preorderIn horder s).1 hs, he, hv⟩
  · rintro (⟨s, e, ⟨hs, he⟩, hv⟩ | ⟨s, e, hs, he, hv⟩)
    · exact ⟨s, (mem_preorderIn horder s).2 hs, .inl ⟨e, he, hv⟩⟩
    · exact ⟨s, (mem_preorderIn horder s).2 hs, .inr ⟨e, he, hv⟩⟩

/-! ## What rewrites keep -/

theorem Grows.local? {v : Option Local} (h : Grows g g') (hv : g.local? e = .ok v) :
    g'.local? e = .ok v := by
  obtain ⟨x, hx, hv⟩ := Checked.bind_eq_ok.1 hv
  rw [Graph.local?, h.expr hx]
  exact hv

theorem Grows.assignsIn (h : Grows g g') (hv : g.AssignsIn e v) : g'.AssignsIn e v := by
  obtain ⟨x, right, hx, hassigned⟩ := hv
  obtain ⟨left, hexpr, hleft⟩ := assigned?_eq_some.1 hassigned
  exact ⟨x, right, h.reaches hx, assigned?_eq_some.2 ⟨left, h.expr hexpr, h.local? hleft⟩⟩

theorem IsCondition.assignsIn (h : IsCondition g condition new) (hv : g.AssignsIn condition v) :
    g.AssignsIn new v := by
  obtain ⟨x, right, hx, hassigned⟩ := hv
  refine ⟨x, right, h.reaches (fun c hc => ?_) hx, hassigned⟩
  obtain ⟨left, hexpr, -⟩ := assigned?_eq_some.1 hassigned
  rw [hexpr] at hc
  cases hc

theorem assignsIn_test (h : g.expr e = .ok (.test condition)) (hv : g.AssignsIn e v) :
    g.AssignsIn condition v := by
  obtain ⟨x, right, hx, hassigned⟩ := hv
  obtain ⟨n, hn, hexpr⟩ := expr_eq_ok.1 h
  rcases ReflTransGen.cases_head hx with rfl | ⟨c, hc, hcx⟩
  · obtain ⟨left, hassign, -⟩ := assigned?_eq_some.1 hassigned
    rw [h] at hassign
    cases hassign
  · rw [subOf_iff hn, hexpr] at hc
    obtain rfl := List.mem_singleton.1 hc
    exact ⟨x, right, hcx, hassigned⟩

theorem owns_of_stat {st : Stat} (hs : g.InTree s) (hst : g.stat s = .ok st)
    (he : e ∈ st.kind.exprs) : g.Owns s e := ⟨hs, st, hst, he⟩

theorem owns_loop_iff (hl : g.loopAt s = some l) :
    g.Owns s e ↔ g.InTree s ∧ e ∈ (StatKind.loop l).exprs := by
  obtain ⟨st, hst, hl⟩ := loopAt_eq_some.1 hl
  rw [Owns, hst, Returns.ok_iff, Stat.loop?_eq_some.1 hl]

/-- What a statement evaluates it still does, unless it is the loop and changed. -/
theorem Refits.owns (r : Refits g g' loop f cuts) (hs : s = loop → f = id) (h : g.Owns s e)
    (hcut : (s, e) ∉ cuts) : g'.Owns s e := by
  obtain ⟨hsTree, st, hst, he⟩ := h
  obtain ⟨st', hst', heq⟩ := r.stat hst
  refine owns_of_stat (r.sameLinks.inTree_iff.2 hsTree) hst' ?_
  rw [(Stat.bare_eq_iff.1 heq).1, ite_eq_right_iff.2 hs, Stat.mem_refit_id]
  exact ⟨he, fun _ => decide_eq_true hcut⟩

theorem Refits.elementAt (r : Refits g g' loop f cuts) (hs : s = loop → f = id)
    (h : g.ElementAt s e) : g'.ElementAt s e := by
  obtain ⟨l, hl, h⟩ := h
  refine ⟨l, ?_, h⟩
  rw [r.loopAt, ite_eq_right_iff.2 hs, hl]
  rfl

/-- Filling the slots of a loop that is not one over elements keeps all assignments but those that
are cut or that the loop evaluates. -/
theorem Refits.assigns (r : Refits g g' loop f cuts) (hl : g.loopAt loop = some l)
    (hkind : l.kind ≠ .forEach)
    (hlost : ∀ s e, g.Owns s e → s = loop ∨ (s, e) ∈ cuts → g.AssignsIn e v → g'.Assigns v)
    (h : g.Assigns v) : g'.Assigns v := by
  rcases h with ⟨s, e, he, hv⟩ | ⟨s, e, hs, he, hv⟩
  · by_cases hcut : s = loop ∨ (s, e) ∈ cuts
    · exact hlost s e he hcut hv
    · rw [not_or] at hcut
      exact .inl ⟨s, e, r.owns (absurd · hcut.1) he hcut.2, r.grows.assignsIn hv⟩
  · have hne : s ≠ loop := by
      rintro rfl
      obtain ⟨l', hl', hkind', -⟩ := he
      rw [hl] at hl'
      cases hl'
      exact hkind hkind'
    exact .inr ⟨s, e, r.sameLinks.inTree_iff.2 hs, r.elementAt (absurd · hne) he,
      r.grows.local? hv⟩

theorem SameTree.assigns (h : SameTree g g') (hv : g.Assigns v) : g'.Assigns v := by
  have r := fun s => Refits.of_sameTree s h
  rcases hv with ⟨s, e, he, hv⟩ | ⟨s, e, hs, he, hv⟩
  · exact .inl ⟨s, e, (r s).owns (fun _ => rfl) he List.not_mem_nil, (r s).grows.assignsIn hv⟩
  · exact .inr ⟨s, e, h.sameLinks.inTree_iff.2 hs, (r s).elementAt (fun _ => rfl) he,
      (r s).grows.local? hv⟩

/-- Taking a statement out of the tree keeps all assignments but those in what is lost. -/
theorem PruneStep.assigns (hstep : PruneStep loop old kept g g')
    (hP : Pruned g g' K old kept fresh)
    (hlost : ∀ s st, g.InTree s → g.stat s = .ok st → s = old ∨ (g.ChildOf old s ∧ kept ≠ some s) →
      (∀ e ∈ st.kind.exprs, g.AssignsIn e v → g'.Assigns v) ∧ st.loop? = none)
    (h : g.Assigns v) : g'.Assigns v := by
  have hgrows : Grows g g' := .of_exprs_eq hP.exprs
  have hstays : ∀ s, g.InTree s → ¬ (s = old ∨ (g.ChildOf old s ∧ kept ≠ some s)) →
      g'.InTree s ∧ s ≠ old := by
    intro s hs hnot
    rw [not_or, not_and, not_not] at hnot
    exact ⟨(hP.inTree s).2 (.inl ⟨hs, hnot.1, hnot.2⟩), hnot.1⟩
  rcases h with ⟨s, e, ⟨hs, st, hst, he⟩, hv⟩ | ⟨s, e, hs, he, hv⟩
  · by_cases hout : s = old ∨ (g.ChildOf old s ∧ kept ≠ some s)
    · exact (hlost s st hs hst hout).1 e he hv
    · obtain ⟨hs', hne⟩ := hstays s hs hout
      obtain ⟨st', hst', hexprs, -⟩ := hP.stat s st hne hst
      exact .inl ⟨s, e, owns_of_stat hs' hst' (hexprs.symm ▸ he), hgrows.assignsIn hv⟩
  · by_cases hout : s = old ∨ (g.ChildOf old s ∧ kept ≠ some s)
    · obtain ⟨l, hl, -⟩ := he
      obtain ⟨st, hst, hl⟩ := loopAt_eq_some.1 hl
      rw [(hlost s st hs hst hout).2] at hl
      cases hl
    · obtain ⟨l, hl, he⟩ := he
      exact .inr ⟨s, e, (hstays s hs hout).1, ⟨l, (hstep.sameLoops s).trans hl, he⟩,
        hgrows.local? hv⟩

/-! ## Rewrites that keep all assignments -/

theorem mem_exprs_while (h : l.kind = .whileDo) :
    e ∈ (StatKind.loop l).exprs ↔ l.condition = some e := by
  simp [StatKind.exprs, Stat.loopBefore, Stat.loopAfter, h]

theorem mem_exprs_doWhile (h : l.kind = .doWhile) :
    e ∈ (StatKind.loop l).exprs ↔ l.condition = some e := by
  simp [StatKind.exprs, Stat.loopBefore, Stat.loopAfter, h]

theorem mem_exprs_counted (h : l.kind = .counted) : e ∈ (StatKind.loop l).exprs ↔
    l.init = some e ∨ l.condition = some e ∨ l.step = some e := by
  simp [StatKind.exprs, Stat.loopBefore, Stat.loopAfter, h]

/-- The condition of the test goes to the loop, and all else that is lost evaluates nothing. -/
theorem assigns_testMoves (hS : Shaped g K) (hloop : g.InTree loop) (hl : g.loopAt loop = some l)
    (hendless : l.kind = .endless) (hkind : kind = .whileDo ∨ kind = .doWhile)
    (hat : TestAt g loop t kept) (h : TestMoves g g' loop kind t kept) (hv : g.Assigns v) :
    g'.Assigns v := by
  obtain ⟨-, hloop'⟩ := shaped_testMoves hS hloop hat h
  obtain ⟨new, g₁, g₂, r, -, hnew, -, hstep, e⟩ := h
  have hlinks := r.sameLinks
  obtain ⟨fresh, hP⟩ := hat.pruned hS.forest hloop hS.fits hlinks hstep
  have hv₁ : g₁.Assigns v := by
    refine r.assigns hl (by simp [hendless]) (fun s e he hcut _ => ?_) hv
    obtain rfl := hcut.resolve_right List.not_mem_nil
    have he := ((owns_loop_iff hl).1 he).2
    simp [StatKind.exprs, Stat.loopBefore, Stat.loopAfter, hendless] at he
  refine e.assigns (hstep.assigns hP (fun s st hs hst hout => ?_) hv₁)
  obtain ⟨st₀, hst₀, heq⟩ := r.stat_before hst
  have hrefit := (Stat.bare_eq_iff.1 heq).1
  rcases hout with rfl | ⟨hc, hne⟩
  · obtain ⟨tt, htt, ⟨b, hb, hhead⟩, -⟩ := hat.stat
    rw [hst₀] at htt
    cases htt
    have hbranch : st.kind = .branch b := by rw [hrefit, Stat.refit, hb]; exact hb
    refine ⟨fun x hx hv => ?_, by simp [Stat.loop?, hbranch]⟩
    obtain rfl : x = t.head := by simpa [hbranch, StatKind.exprs, hhead] using hx
    have hcondition := hnew.assignsIn (assignsIn_test (r.grows.expr hat.test) hv)
    have hl₁ : g₁.loopAt loop = some { l with kind := kind, condition := some new } := by
      rw [r.loopAt, hl, if_pos rfl, Option.map_some]
    refine .inl ⟨loop, new, (owns_loop_iff ((hstep.sameLoops loop).trans hl₁)).2 
      ⟨e.sameLinks.inTree_iff.1 hloop', ?_⟩, (Grows.of_exprs_eq hP.exprs).assignsIn hcondition⟩
    rcases hkind with rfl | rfl
    · exact (mem_exprs_while rfl).2 rfl
    · exact (mem_exprs_doWhile rfl).2 rfl
  · rw [hlinks.childOf_eq] at hc
    obtain ⟨ct, hct, hblock, -⟩ := hat.empty hS.forest hloop hS.fits hc hne
    rw [hst₀] at hct
    cases hct
    have hempty : st.kind = .block [] := by simp [hrefit, Stat.refit, hblock]
    refine ⟨fun x hx => ?_, by simp [Stat.loop?, hempty]⟩
    rw [hempty] at hx
    cases hx

theorem assigns_forForm (hS : Shaped g K) (hloop : g.InTree loop) (hl : g.loopAt loop = some l)
    (hwhile : l.kind = .whileDo) (h : g.forForm? loop options = .ok (some g'))
    (hv : g.Assigns v) : g'.Assigns v := by
  obtain ⟨leaf, step, init, g₁, -, r, hexpr, h⟩ := phases_forForm hS hloop h
  have hl₁ := r.loopAt loop
  rw [hl, if_pos rfl, Option.map_some] at hl₁
  have hv₁ : g₁.Assigns v := by
    refine r.assigns hl (by simp [hwhile]) (fun s e he hcut hv => ?_) hv
    refine .inl ⟨loop, e, (owns_loop_iff hl₁).2 ⟨r.sameLinks.inTree_iff.2 hloop, ?_⟩,
      r.grows.assignsIn hv⟩
    rw [mem_exprs_counted rfl]
    simp only [List.mem_append, Option.mem_toList, List.mem_singleton, Prod.mk.injEq] at hcut
    rcases hcut with rfl | rfl | ⟨-, rfl⟩
    · have hcondition : (initSlot init l).condition = l.condition := by cases init <;> rfl
      rw [hcondition]
      exact .inr (.inl ((mem_exprs_while hwhile).1 ((owns_loop_iff hl).1 he).2))
    · exact .inl rfl
    · exact .inr (.inr rfl)
  rcases h with rfl | ⟨g₂, fresh, ⟨ft, hft, hempty⟩, hchildless, e, hstep, hP⟩
  · exact hv₁
  · refine hstep.assigns hP (fun s st _ hst hout => ?_) (e.assigns hv₁)
    obtain rfl := hout.resolve_right fun hc => hchildless s hc.1
    rw [hft] at hst
    cases hst
    refine ⟨fun x hx => ?_, by simp [Stat.loop?, hempty]⟩
    rw [hempty] at hx
    cases hx


/-! ## Loops over elements -/

/-- The expression is not evaluated any more once the match has made a loop over elements. -/
def Drops (g : Graph) (m : ElementLoop) (e : ExprId) : Prop :=
  e ∈ m.takes ∨ ∃ l, g.loopAt m.loop = some l ∧ l.condition = some e

theorem assigns_forEachForm (hl : g.loopAt loop = some l) (hwhile : l.kind = .whileDo)
    (h : g.forEachForm? loop = .ok (some g')) (hv : g.Assigns v) :
    g'.Assigns v ∨
      ∃ m, g.elementLoop? loop = .ok (some m) ∧ ∃ e, g.Drops m e ∧ g.AssignsIn e v := by
  obtain ⟨m, element, source, cuts, hm, t, hcuts, -⟩ := slots_forEachForm h
  obtain ⟨rfl, -⟩ := elementLoop?_eq_some hm
  by_cases hdropped : ∃ e, g.Drops m e ∧ g.AssignsIn e v
  · exact .inr ⟨m, hm, hdropped⟩
  · refine .inl (t.refits.assigns hl (by simp [hwhile]) (fun s e he hcut hv => ?_) hv)
    refine absurd ⟨e, ?_, hv⟩ hdropped
    rcases hcut with rfl | hcut
    · exact .inr ⟨l, hl, (mem_exprs_while hwhile).1 ((owns_loop_iff hl).1 he).2⟩
    · exact .inl (hcuts (s, e) hcut)

/-- The match of a loop over elements drops the last assignment to a variable that the graph still
refers to. -/
structure DropsLast (before after : Graph) (m : ElementLoop) (v : Local) : Prop where
  /-- What is matched. -/
  matched : before.elementLoop? m.loop = .ok (some m)
  /-- What is made of it. -/
  made : before.forEachForm? m.loop = .ok (some after)
  /-- There was an assignment in what is dropped. -/
  dropped : ∃ e, before.Drops m e ∧ before.AssignsIn e v
  /-- There is none any more. -/
  unassigned : ¬ after.Assigns v
  /-- But there is a use for one. -/
  referred : after.RefersTo v

/-- A visit of the loop makes an orphan of the variable: it makes a loop over elements, either at
once or after the loop has become a `while`, and this drops the last assignment to the variable. -/
def Orphans (g : Graph) (options : Options) (loop : StatId) (v : Local) : Prop :=
  ∃ before after m, m.loop = loop ∧ (before = g ∨ g.whileForm? loop = .ok (some before)) ∧
    g.betterForm? loop options = .ok (some after) ∧ DropsLast before after m v

/-! ## Runs -/

/-- There is nothing wrong with the variable: it is assigned, or there is no use for it. -/
def Served (g : Graph) (v : Local) : Prop := g.RefersTo v → g.Assigns v

theorem served_formOfWhile (hS : Shaped g K) (hloop : g.InTree loop)
    (hl : g.loopAt loop = some l) (hwhile : l.kind = .whileDo)
    (h : g.formOfWhile? loop options = .ok (some g')) (hv : g.Served v) :
    g'.Served v ∨ ∃ m, m.loop = loop ∧ DropsLast g g' m v := by
  rcases formOfWhile?_eq_some h with h | h
  · by_cases hserved : g'.Served v
    · exact .inl hserved
    · obtain ⟨hrefers, hnot⟩ := Classical.not_imp.1 hserved
      obtain ⟨m, hm, hdropped⟩ := (assigns_forEachForm hl hwhile h
        (hv (refersTo_forEachForm h hrefers))).resolve_left hnot
      obtain ⟨rfl, -⟩ := elementLoop?_eq_some hm
      exact .inr ⟨m, rfl, hm, h, hdropped, hnot, hrefers⟩
  · exact .inl fun hrefers =>
      assigns_forForm hS hloop hl hwhile h (hv (refersTo_forForm hS hloop h hrefers))

theorem served_testMoves (hS : Shaped g K) (hloop : g.InTree loop) (hl : g.loopAt loop = some l)
    (hendless : l.kind = .endless) (hkind : kind = .whileDo ∨ kind = .doWhile)
    (hat : TestAt g loop t kept) (h : TestMoves g g' loop kind t kept) (hv : g.Served v) :
    g'.Served v := fun hrefers =>
  have hbefore := refersTo_testMoves hS hloop hat h hrefers
  assigns_testMoves hS hloop hl hendless hkind hat h (hv hbefore)

theorem isLoop_iff_loopAt : g.IsLoop s kind ↔ ∃ l, g.loopAt s = some l ∧ l.kind = kind := by
  simp only [isLoop_iff, loopAt_eq_some, Returns]
  constructor
  · rintro ⟨st, l, hst, hl, hkind⟩
    exact ⟨l, ⟨st, hst, hl⟩, hkind⟩
  · rintro ⟨l, ⟨st, hst, hl⟩, hkind⟩
    exact ⟨st, l, hst, hl, hkind⟩

/-- A visit that makes no orphan of the variable leaves nothing wrong with it. -/
theorem served_betterForm (hS : Shaped g K) (hloop : g.InTree loop)
    (h : g.betterForm? loop options = .ok (some g')) (hv : g.Served v) :
    g'.Served v ∨ g.Orphans options loop v := by
  obtain ⟨st, hst, l, hl, hforms⟩ := betterForm?_cases h
  have hl : g.loopAt loop = some l := loopAt_eq_some.2 ⟨st, hst, hl⟩
  rcases hforms with ⟨hkind, ⟨g₁, hwhile, hnext⟩ | hdo⟩ | ⟨hkind, hform⟩
  · obtain ⟨t, kept, -, hat, hmoves⟩ := testMoves_whileForm hwhile
    replace hat := hat (hS.entersChildren hloop)
    have hv₁ := served_testMoves hS hloop hl hkind (.inl rfl) hat hmoves hv
    rcases hnext with rfl | hform
    · exact .inl hv₁
    · obtain ⟨⟨K₁, hS₁, -⟩, hloop₁⟩ := shaped_testMoves hS hloop hat hmoves
      obtain ⟨l₁, hl₁, hkind₁⟩ := isLoop_iff_loopAt.1
        (hmoves.isLoop (isLoop_iff_loopAt.2 ⟨l, hl, hkind⟩))
      refine (served_formOfWhile hS₁ hloop₁ hl₁ hkind₁ hform hv₁).imp_right ?_
      rintro ⟨m, hm, hdrops⟩
      exact ⟨g₁, g', m, hm, .inr hwhile, h, hdrops⟩
  · obtain ⟨t, kept, -, hat, hmoves⟩ := testMoves_doWhileForm hdo
    exact .inl (served_testMoves hS hloop hl hkind (.inr rfl) (hat (hS.entersChildren hloop))
      hmoves hv)
  · refine (served_formOfWhile hS hloop hl hkind hform hv).imp_right ?_
    rintro ⟨m, hm, hdrops⟩
    exact ⟨g, g', m, hm, .inl rfl, h, hdrops⟩

/-- What a run keeps: the tree is in shape, and nothing is wrong with the variable unless one of the
visits made an orphan of it. -/
structure Attended (options : Options) (run : List (Graph × StatId)) (v : Local) (g : Graph)
    (K : StatId → Prop) : Prop where
  /-- The tree is in shape. -/
  shaped : Shaped g K
  /-- The variable is served, or a visit is to blame. -/
  served : g.Served v ∨ ∃ w ∈ run, w.1.Orphans options w.2 v

theorem Attended.visit {run : List (Graph × StatId)} (h : Attended options run v g K)
    (hvisit : (g, loop) ∈ run) (hloop : g.InTree loop)
    (hform : g.betterForm? loop options = .ok (some g')) :
    ∃ K', Attended options run v g' K' ∧ ∀ s, K s → K' s := by
  obtain ⟨K', hS', hK'⟩ := shaped_betterForm h.shaped hloop hform
  refine ⟨K', ⟨hS', ?_⟩, hK'⟩
  rcases h.served with hserved | horphan
  · exact (served_betterForm h.shaped hloop hform hserved).imp_right fun h => ⟨_, hvisit, h⟩
  · exact .inr horphan

/-- **A variable loses its last assignment only to a loop over elements.** If the tree assigns to a
variable, and the graph that recognition leaves behind refers to it, then the tree still assigns to
it, or there was a visit that took the last assignment away for a loop over elements and left the
variable in use. -/
theorem recogniseLoops_keepsAssigned {n : ℕ} (hwf : g.WellFormed)
    (h : g.recogniseLoops options = .ok (g', n)) :
    Returns (g.visits options) fun run => ∀ v, g.Assigns v → g'.RefersTo v →
      g'.Assigns v ∨ ∃ w ∈ run, w.1.Orphans options w.2 v := by
  obtain ⟨run, hrun⟩ := visitsIn_returns h
  refine ⟨run, hrun, fun v hv hrefers => ?_⟩
  have hI : Attended options run v g g.InTree :=
    ⟨⟨hwf.forest, fun _ _ hs hst => hwf.fits hs hst⟩, .inl fun _ => hv⟩
  obtain ⟨K', hI'⟩ := recogniseIn_keeps_of_visits (I := Attended options run v)
    (fun _ _ hI => hI.shaped.forest)
    (fun _ _ _ _ hvisit hI _ hloop hform => hI.visit hvisit hloop hform) hrun hI h
  exact hI'.served.imp_left (· hrefers)

/-- The body of a method that prints the iterator of a collection after it has visited its elements:
`v1 = v2.iterator(); while (v1.hasNext()) { v3 = v1.next(); Out.print(v3); } Out.print(v1);`. -/
def lingeringMethod : Graph where
  stats := ⟨#[
    ⟨.exit, none, none, [], [], [], [], []⟩,
    ⟨.root, none, some ⟨6⟩, [⟨6⟩], [], [], [], []⟩,
    ⟨.block [⟨3⟩], some ⟨6⟩, none, [], [], [⟨0⟩], [], []⟩,
    ⟨.block [⟨9⟩, ⟨11⟩], some ⟨4⟩, none, [], [], [⟨1⟩], [], []⟩,
    ⟨.loop ⟨.whileDo, none, some ⟨5⟩, none⟩, some ⟨6⟩, some ⟨3⟩, [⟨3⟩], [], [⟨2⟩], [⟨0⟩, ⟨1⟩],
      [⟨1⟩]⟩,
    ⟨.block [⟨13⟩], some ⟨6⟩, none, [], [], [], [⟨2⟩], []⟩,
    ⟨.sequence, some ⟨1⟩, some ⟨2⟩, [⟨2⟩, ⟨4⟩, ⟨5⟩], [], [], [], []⟩]⟩
  edges := ⟨#[
    ⟨.regular, ⟨2⟩, ⟨4⟩, none, true, true⟩,
    ⟨.continueTo, ⟨3⟩, ⟨4⟩, some ⟨4⟩, true, true⟩,
    ⟨.regular, ⟨4⟩, ⟨5⟩, none, true, true⟩]⟩
  exprs :=
    let occurrence (index : ℕ) : ExprNode :=
      ⟨.var ⟨⟨index, 0⟩, ⟨.object none, 0⟩, false, false, none⟩, .empty⟩
    let ask (className name descriptor : String) (on : ExprId) : ExprNode :=
      ⟨.call ⟨className, name, descriptor, some on, []⟩, .empty⟩
    let print (shown : ExprId) : ExprNode :=
      ⟨.call ⟨"Out", "print", "(Ljava/lang/Object;)V", none, [shown]⟩, .empty⟩
    ⟨#[
      occurrence 1,
      occurrence 2,
      ask "java/util/List" "iterator" "()Ljava/util/Iterator;" ⟨1⟩,
      ⟨.assign ⟨0⟩ ⟨2⟩, .empty⟩,
      occurrence 1,
      ask "java/util/Iterator" "hasNext" "()Z" ⟨4⟩,
      occurrence 3,
      occurrence 1,
      ask "java/util/Iterator" "next" "()Ljava/lang/Object;" ⟨7⟩,
      ⟨.assign ⟨6⟩ ⟨8⟩, .empty⟩,
      occurrence 3,
      print ⟨10⟩,
      occurrence 1,
      print ⟨12⟩]⟩

theorem assigns_lingeringMethod : lingeringMethod.Assigns ⟨1, 0⟩ := by
  have hassigned : Returns lingeringMethod.assigned fun vars => ⟨1, 0⟩ ∈ vars := by decide +kernel
  obtain ⟨vars, hvars, hmem⟩ := hassigned
  exact (mem_assigned hvars).1 hmem

theorem recogniseLoops_lingeringMethod :
    Returns (lingeringMethod.recogniseLoops .default) fun r => r.2 = 1 ∧
      r.1.reads ⟨1, 0⟩ root 0 [] = .ok true ∧ ¬ r.1.Assigns ⟨1, 0⟩ := by
  have hrun : Returns (lingeringMethod.recogniseLoops .default) fun r => r.2 = 1 ∧
      Returns (r.1.reads ⟨1, 0⟩ root 0 []) (fun read => read = true) ∧
        Returns r.1.assigned fun vars => ⟨1, 0⟩ ∉ vars := by
    decide +kernel
  obtain ⟨r, hr, hcount, ⟨read, hread, rfl⟩, vars, hvars, hmem⟩ := hrun
  exact ⟨r, hr, hcount, hread, fun hv => hmem ((mem_assigned hvars).2 hv)⟩

/-- The visit of the loop makes an orphan of the iterator `v1`. -/
theorem recogniseLoops_keepsAssigned_lingeringMethod :
    lingeringMethod.WellFormed ∧ Returns (lingeringMethod.recogniseLoops .default) fun r =>
      lingeringMethod.Assigns ⟨1, 0⟩ ∧ r.1.RefersTo ⟨1, 0⟩ ∧
        Returns (lingeringMethod.visits .default) fun run =>
          ∃ w ∈ run, w.1.Orphans .default w.2 ⟨1, 0⟩ := by
  have hwf : lingeringMethod.WellFormed := by decide +kernel
  obtain ⟨r, hr, -, hread, hnot⟩ := recogniseLoops_lingeringMethod
  obtain ⟨run, hrun, hkeeps⟩ := recogniseLoops_keepsAssigned hwf hr
  have hrefers := refersTo_of_reads hread
  refine ⟨hwf, r, hr, assigns_lingeringMethod, hrefers, run, hrun, ?_⟩
  exact (hkeeps ⟨1, 0⟩ assigns_lingeringMethod hrefers).resolve_left hnot

/-- The iterator `v1` is assigned before the loop and printed after it. Once the loop has become one
over elements, it is still read there, and nothing assigns it. -/
theorem not_assigns_of_read_after_loop :
    lingeringMethod.WellFormed ∧ lingeringMethod.Assigns ⟨1, 0⟩ ∧
      Returns (lingeringMethod.recogniseLoops .default) fun r =>
        r.1.reads ⟨1, 0⟩ root 0 [] = .ok true ∧ ¬ r.1.Assigns ⟨1, 0⟩ := by
  obtain ⟨r, hr, -, hread, hnot⟩ := recogniseLoops_lingeringMethod
  exact ⟨by decide +kernel, assigns_lingeringMethod, r, hr, hread, hnot⟩

end Decompiler.Graph

import Decompiler.Proofs.Loops.ArrayLoops
import Decompiler.Proofs.Loops.EdgeLists
import Decompiler.Proofs.Variables.DataFlow

/-!
# Variables that a graph refers to

No rewrite of a loop brings up a variable that the graph did not refer to before. What goes to a
slot lies below an expression that a statement of the tree names or that a leaf lists, and the only
new expressions are negations of such ones. Leaves count whether they are in the tree or not, since
the leaf before a loop is found along edges.

* `Graph.RefersTo`: a variable occurs in an expression that is at hand.
* `Graph.Refits.refersTo`, `Graph.PruneStep.refersTo`: what the two phases of a rewrite need for
  this.
* `Graph.slots_forEachForm`: what the slots of a loop over elements are made of, and what is taken
  away for them.
* `Graph.refersTo_testMoves`, `Graph.refersTo_forForm`, `Graph.refersTo_forEachForm`: the rewrites.
-/

namespace Decompiler

theorem Stat.mem_exprs? {s : Stat} {e : ExprId} :
    e ∈ s.exprs?.getD [] ↔ ∃ l, s.kind = .block l ∧ e ∈ l := by
  simp only [← Stat.exprs?_eq_some]
  cases s.exprs? <;> simp

/-- The expressions of a leaf that has any. -/
def Stat.listed? (s : Stat) : Option (List ExprId) :=
  if s.exprs? = some [] then none else s.exprs?

theorem Stat.isTrait_listed? : IsTrait listed? where
  congr {s t} h := by
    have hexprs : t.exprs? = s.exprs? := by
      unfold exprs?
      rw [h]
    simp only [listed?, hexprs]
  exchange {s old new} := by
    have hexprs : (s.exchange old new).exprs? = s.exprs? := by
      obtain ⟨kind, parent, first, children, declarations, successors, predecessors, labels⟩ := s
      cases new <;> cases kind <;> rfl
    simp only [listed?, hexprs]
  leaf h := if_pos (exprs?_eq_some.2 h)

namespace Graph

open Relation

variable {g g' : Graph} {K : StatId → Prop} {loop s old : StatId} {e c condition new : ExprId}
  {v : Local} {kept fresh : Option StatId} {f : Loop → Loop} {cuts : List (StatId × ExprId)}
  {options : Options} {kind : LoopKind} {t : LoopTest}

/-! ## Occurrences -/

theorem reaches_child {x : Expr} (h : g.expr e = .ok x) (hc : c ∈ x.children) : g.Reaches e c := by
  obtain ⟨n, hn, rfl⟩ := expr_eq_ok.1 h
  exact .single ⟨n, hn, hc⟩

theorem reaches_withoutCastsIn {n : ℕ} (h : g.withoutCastsIn n e = .ok c) : g.Reaches e c := by
  induction n generalizing e with
  | zero => cases h
  | succ n ih =>
    simp only [withoutCastsIn, Checked.bind_eq_ok] at h
    obtain ⟨x, hx, h⟩ := h
    split at h
    · exact (reaches_child hx List.mem_cons_self).trans (ih h)
    · cases h
      exact .refl

/-- The receiver of a call lies below it, casts aside. -/
theorem reaches_receiver (h : Returns (g.call? e) fun call => call.bind Call.receiver = some c) :
    g.Reaches e c := by
  obtain ⟨call, hcall, hreceiver⟩ := h
  simp only [call?, Checked.bind_eq_ok] at hcall
  obtain ⟨y, hy, x, hx, hcall⟩ := hcall
  split at hcall
  · cases hcall
    refine (reaches_withoutCastsIn hy).trans (reaches_child hx ?_)
    simp only [Option.bind_some] at hreceiver
    simp [Expr.children, hreceiver]
  · cases hcall
    cases hreceiver

/-- The negation of a condition reaches what the condition does, but for negations. -/
theorem IsCondition.reaches {x : ExprId} (h : IsCondition g condition new)
    (hx : ∀ c, g.expr x ≠ .ok (.apply .boolNot [c])) (hr : g.Reaches condition x) :
    g.Reaches new x := by
  rcases h with rfl | hneg | hneg
  · exact hr
  · obtain ⟨n, hn, hexpr⟩ := expr_eq_ok.1 hneg
    rcases ReflTransGen.cases_head hr with rfl | ⟨c, hc, hcx⟩
    · exact absurd hneg (hx new)
    · rw [subOf_iff hn, hexpr] at hc
      obtain rfl := List.mem_singleton.1 hc
      exact hcx
  · exact (reaches_child hneg (List.mem_singleton_self condition)).trans hr

theorem IsCondition.symm (h : IsCondition g condition new) : IsCondition g new condition :=
  h.imp Eq.symm Or.symm

theorem IsCondition.involves (h : IsCondition g condition new) (hv : g.Involves new v) :
    g.Involves condition v := by
  obtain ⟨x, w, hx, hw, rfl⟩ := hv
  refine ⟨x, w, h.symm.reaches (fun c hc => ?_) hx, hw, rfl⟩
  rw [hw] at hc
  cases hc

theorem OnlyNegates.subOf (h : OnlyNegates g g' condition) (hc : g'.SubOf e c) :
    g.SubOf e c ∨ c = condition := by
  obtain ⟨n, hn, hc⟩ := hc
  rcases h e n.expr (expr_eq_ok.2 ⟨n, hn, rfl⟩) with hexpr | hexpr
  · obtain ⟨m, hm, hexpr⟩ := expr_eq_ok.1 hexpr
    exact .inl ⟨m, hm, hexpr ▸ hc⟩
  · rw [hexpr] at hc
    exact .inr (List.mem_singleton.1 hc)

/-- What occurs in an expression did so before, unless it is reached by way of a new negation. -/
theorem OnlyNegates.involves (h : OnlyNegates g g' condition) (hv : g'.Involves e v) :
    g.Involves e v ∨ g.Involves condition v := by
  obtain ⟨x, w, hx, hw, rfl⟩ := hv
  have hw : g.expr x = .ok (.var w) := (h x _ hw).resolve_right nofun
  induction hx using ReflTransGen.head_induction_on with
  | refl => exact .inl ⟨x, w, .refl, hw, rfl⟩
  | head hc _ ih =>
    rcases h.subOf hc with hc | rfl
    · exact ih.imp_left (·.up (.single hc))
    · exact .inr (ih.elim id id)

theorem involves_of_expr_eq (h : g'.expr = g.expr) (hv : g'.Involves e v) : g.Involves e v :=
  ((OnlyNegates.of_expr_eq e h).involves hv).elim id id

theorem mem_named_loop {l : Loop} : e ∈ (StatKind.loop l).named ↔
    l.init = some e ∨ l.condition = some e ∨ l.step = some e := by
  simp [StatKind.named]

/-! ## References -/

/-- The statement is one of the tree and names the expression, or it is a leaf that lists it. -/
def AtHand (g : Graph) (s : StatId) (e : ExprId) : Prop :=
  (g.InTree s ∧ Returns (g.stat s) fun st => e ∈ st.kind.named) ∨ g.Lists s e

/-- The variable occurs in an expression that is at hand. Whether it is read there or assigned does
not matter. -/
def RefersTo (g : Graph) (v : Local) : Prop := ∃ s e, g.AtHand s e ∧ g.Involves e v

theorem atHand_of_named {st : Stat} (hs : g.InTree s) (hst : g.stat s = .ok st)
    (he : e ∈ st.kind.named) : g.AtHand s e := .inl ⟨hs, st, hst, he⟩

/-- The slots that a loop of the tree has are at hand. -/
theorem atHand_slot {l : Loop} (hloop : g.InTree loop) (hl : g.loopAt loop = some l)
    (he : l.init = some e ∨ l.condition = some e ∨ l.step = some e) : g.AtHand loop e := by
  obtain ⟨st, hst, hl⟩ := loopAt_eq_some.1 hl
  refine atHand_of_named hloop hst ?_
  rw [Stat.loop?_eq_some.1 hl, mem_named_loop]
  exact he

/-- What is at hand was so before, or it is in a slot of the loop that was changed. -/
theorem Refits.atHand (r : Refits g g' loop f cuts) (h : g'.AtHand s e) :
    g.AtHand s e ∨
      g.InTree loop ∧ ∃ l, g.loopAt loop = some l ∧ e ∈ (StatKind.loop (f l)).named := by
  rcases h with ⟨hs, st', hst', he⟩ | ⟨st', hst', he⟩
  · obtain ⟨st, hst, heq⟩ := r.stat_before hst'
    have hsTree := r.sameLinks.inTree_iff.1 hs
    rw [(Stat.bare_eq_iff.1 heq).1] at he
    rcases Stat.mem_refit_named he with he | ⟨l, hl, he⟩
    · exact .inl (.inl ⟨hsTree, st, hst, he⟩)
    · have hl : g.loopAt s = some l := loopAt_eq_some.2 ⟨st, hst, hl⟩
      by_cases hsl : s = loop
      · rw [if_pos hsl] at he
        exact .inr ⟨hsl ▸ hsTree, l, hsl ▸ hl, he⟩
      · rw [if_neg hsl] at he
        exact .inl (atHand_slot hsTree hl (mem_named_loop.1 he))
  · obtain ⟨st, hst, heq⟩ := r.stat_before hst'
    obtain ⟨l, hl, he⟩ := Stat.mem_exprs?.1 he
    rw [(Stat.bare_eq_iff.1 heq).1, Stat.refit_kind_eq_block] at hl
    obtain ⟨l₀, hl₀, rfl⟩ := hl
    exact .inl (.inr ⟨st, hst, Stat.mem_exprs?.2 ⟨l₀, hl₀, List.mem_of_mem_filter he⟩⟩)

/-- Filling slots adds no references, if what goes there lies below something at hand or has none of
its own. -/
theorem Refits.refersTo (r : Refits g g' loop f cuts)
    (hinvolves : ∀ e, g'.Involves e v → g.Involves e v ∨ g.RefersTo v)
    (hslots : ∀ l, g.InTree loop → g.loopAt loop = some l → ∀ e ∈ (StatKind.loop (f l)).named,
      (∃ s x, g.AtHand s x ∧ g.Reaches x e) ∨ (g'.Involves e v → g.RefersTo v))
    (hv : g'.RefersTo v) : g.RefersTo v := by
  obtain ⟨s, e, he, hv⟩ := hv
  have hbelow : (∃ s x, g.AtHand s x ∧ g.Reaches x e) → g.RefersTo v := fun ⟨s, x, hat, hx⟩ =>
    (hinvolves e hv).elim (fun hv => ⟨s, x, hat, hv.up hx⟩) id
  rcases r.atHand he with hat | ⟨hloop, l, hl, he⟩
  · exact hbelow ⟨s, e, hat, .refl⟩
  · exact (hslots l hloop hl e he).elim hbelow (· hv)

/-- The same where no expression comes up. -/
theorem Refits.refersTo_of_expr_eq (r : Refits g g' loop f cuts) (hexpr : g'.expr = g.expr)
    (hslots : ∀ l, g.InTree loop → g.loopAt loop = some l → ∀ e ∈ (StatKind.loop (f l)).named,
      ∃ s x, g.AtHand s x ∧ g.Reaches x e) : g'.RefersTo v → g.RefersTo v :=
  r.refersTo (fun _ hv => .inl (involves_of_expr_eq hexpr hv)) fun l hloop hl e he =>
    .inl (hslots l hloop hl e he)

theorem SameTree.refersTo (h : SameTree g g') : g'.RefersTo v → g.RefersTo v :=
  (Refits.of_sameTree root h).refersTo_of_expr_eq (expr_of_exprs_eq h.exprs)
    fun _ hroot hl e he => ⟨root, e, atHand_slot hroot hl (mem_named_loop.1 he), .refl⟩

theorem lists_iff_listed? : g.Lists s e ↔ ∃ l, g.traitAt Stat.listed? s = some l ∧ e ∈ l := by
  cases hst : g.stat s with
  | error => simp [Lists, traitAt, hst, Except.toOption, Returns]
  | ok st =>
    rw [lists_iff hst, traitAt_of_stat hst, Stat.listed?]
    cases st.exprs? with
    | none => simp
    | some l => cases l <;> simp

/-- Taking a statement out of the tree adds no references. -/
theorem PruneStep.refersTo (h : PruneStep loop old kept g g') (hP : Pruned g g' K old kept fresh)
    (hF : Forest g K) (hv : g'.RefersTo v) : g.RefersTo v := by
  obtain ⟨s, e, he, hv⟩ := hv
  refine ⟨s, e, ?_, involves_of_expr_eq (expr_of_exprs_eq hP.exprs) hv⟩
  rcases he with ⟨hs, st', hst', he⟩ | he
  · rcases (hP.inTree s).1 hs with ⟨hs, hso, -⟩ | hfresh
    · obtain ⟨st, hst⟩ := hF.exists_stat hs
      obtain ⟨st'', hst'', -, hnamed, -⟩ := hP.stat s st hso hst
      rw [hst'] at hst''
      cases hst''
      exact atHand_of_named hs hst (hnamed ▸ he)
    · obtain ⟨-, st'', hst'', hkind, -⟩ := hP.leaf s hfresh
      rw [hst'] at hst''
      cases hst''
      rw [hkind] at he
      cases he
  · rw [lists_iff_listed?, h.sameTrait Stat.isTrait_listed? s] at he
    exact .inr (lists_iff_listed?.2 he)

/-- What a search through the items of a statement finds is an expression of a statement in it. -/
theorem exists_of_someItemIn {test : ExprId → Checked Bool} {n start : ℕ}
    (h : g.someItemIn test n s start = .ok true) :
    ∃ x e, g.Within s x ∧ g.Evaluates x e ∧ test e = .ok true := by
  induction n generalizing s start with
  | zero => cases h
  | succ n ih =>
    simp only [someItemIn, Checked.bind_eq_ok] at h
    obtain ⟨st, hst, h⟩ := h
    obtain ⟨item, hitem, h⟩ := Checked.exists_of_anyM h
    have hitem : item ∈ st.items := List.mem_of_mem_drop hitem
    cases item with
    | stat child =>
      obtain ⟨x, e, hx, he, htest⟩ := ih h
      exact ⟨x, e, ReflTransGen.head (childOf_of_items hst hitem) hx, he, htest⟩
    | expr e => exact ⟨s, e, .refl, ⟨st, hst, hitem⟩, h⟩

/-- A search that finds nothing fails the test on all that is evaluated there. -/
theorem not_of_someItemIn {test : ExprId → Checked Bool} {n : ℕ} {x : StatId}
    (hleaves : ∀ s st exprs, g.InTree s → g.stat s = .ok st → st.kind = .block exprs →
      st.children = []) (hs : g.InTree s) (h : g.someItemIn test n s 0 = .ok false)
    (hx : g.Within s x) (he : g.Evaluates x e) : test e = .ok false := by
  induction n generalizing s with
  | zero => cases h
  | succ n ih =>
    simp only [someItemIn, Checked.bind_eq_ok, List.drop_zero] at h
    obtain ⟨st, hst, h⟩ := h
    have hitems := Checked.forall_of_anyM h
    rcases ReflTransGen.cases_head hx with rfl | ⟨c, hc, hx⟩
    · obtain ⟨st', hst', he⟩ := he
      rw [hst] at hst'
      cases hst'
      exact hitems _ he
    · have hitem := Stat.mem_items_of_children ((childOf_iff hst).1 hc) fun exprs =>
        hleaves s st exprs hs hst
      exact ih (hs.child hc) (hitems _ hitem) hx

/-- To read a variable is to refer to it. -/
theorem refersTo_of_reads {exempt : List ExprId} {start : ℕ}
    (h : g.reads v root start exempt = .ok true) : g.RefersTo v := by
  obtain ⟨s, e, hs, ⟨st, hst, he⟩, h⟩ := exists_of_someItemIn h
  refine ⟨s, e, atHand_of_named hs hst (StatKind.mem_named (Stat.mem_exprs_of_items he)), ?_⟩
  simp only [readsIn, Checked.bind_eq_ok, Checked.pure_eq_ok] at h
  obtain ⟨assigned, -, refs, hrefs, h⟩ := h
  obtain ⟨r, hr, h⟩ := List.any_eq_true.1 h
  simp only [Bool.and_eq_true, decide_eq_true_eq] at h
  exact (mem_refsIn_iff_involves hrefs).1 ⟨r, hr, h.2⟩

/-! ## Rewrites -/

theorem refersTo_testMoves (hS : Shaped g K) (hloop : g.InTree loop) (hat : TestAt g loop t kept)
    (h : TestMoves g g' loop kind t kept) (hv : g'.RefersTo v) : g.RefersTo v := by
  obtain ⟨condition, g₁, g₂, r, -, hnew, hnegates, hstep, e⟩ := h
  obtain ⟨fresh, hP⟩ := hat.pruned hS.forest hloop hS.fits r.sameLinks hstep
  -- the condition lies below the head, which the `if` names
  have hcondition : g.Involves t.condition v → g.RefersTo v := by
    obtain ⟨htTree, -, -⟩ := hS.forest.ne_of_below hloop hat.below
    obtain ⟨tt, htt, ⟨b, hb, hhead⟩, -⟩ := hat.stat
    refine fun hv => ⟨t.stat, t.head, atHand_of_named htTree htt ?_,
      hv.up (reaches_child hat.test (List.mem_singleton_self _))⟩
    rw [hb, ← hhead]
    exact List.mem_singleton_self _
  have hinvolves : ∀ e, g₁.Involves e v → g.Involves e v ∨ g.RefersTo v := fun e hv =>
    (hnegates.involves hv).imp_right hcondition
  refine r.refersTo hinvolves (fun l hloop hl e he => ?_)
    (hstep.refersTo hP (r.sameLinks.forest hS.forest) (e.refersTo hv))
  have hslot := fun he => atHand_slot (e := e) hloop hl he
  rcases mem_named_loop.1 he with he | he | he
  · exact .inl ⟨loop, e, hslot (.inl he), .refl⟩
  · cases he
    exact .inr fun hv => (hinvolves _ (hnew.involves hv)).elim hcondition id
  · exact .inl ⟨loop, e, hslot (.inr (.inr he)), .refl⟩

theorem lists_of_lastExpr? (h : g.lastExpr? s = .ok (some e)) : g.Lists s e := by
  obtain ⟨st, hst, h⟩ := Checked.bind_eq_ok.1 h
  obtain ⟨l, hl, he⟩ := Option.bind_eq_some_iff.1 (Checked.pure_eq_ok.1 h)
  refine (lists_iff hst).2 ?_
  rw [hl]
  exact List.mem_of_getLast? he

/-- What goes to the slots of a counted loop is listed by leaves, and what is taken out afterwards
is an empty leaf. -/
theorem phases_forForm (hS : Shaped g K) (hloop : g.InTree loop)
    (h : g.forForm? loop options = .ok (some g')) :
    ∃ leaf step init g₁, (∀ p ∈ init.toList ++ [(leaf, step)], g.Lists p.1 p.2) ∧
      Refits g g₁ loop (fun l => { initSlot init l with kind := .counted, step := some step })
        (init.toList ++ [(leaf, step)]) ∧
      g₁.expr = g.expr ∧
      (g' = g₁ ∨ ∃ g₂ fresh, Returns (g₂.stat leaf) (fun st => st.kind = .block []) ∧
        (∀ c, ¬ g₂.ChildOf leaf c) ∧ SameTree g₁ g₂ ∧ PruneStep loop leaf none g₂ g' ∧
        Pruned g₂ g' K leaf none fresh) := by
  obtain ⟨leaf, ft, exprs, step, init, g₁, hbelow, hft, hexprs, hstep, hinit, r, hexpr, h⟩ :=
    stepMoves_forForm h
  have henters := entersChildren_of_fits hS.fits hloop
  refine ⟨leaf, step, init, g₁, fun p hp => ?_, r, hexpr, h.imp_right ?_⟩
  · rcases List.mem_append.1 hp with hp | hp
    · obtain rfl := Option.mem_toList.1 hp
      exact lists_of_lastExpr? (initBefore?_eq_some hinit).2.1
    · obtain rfl := List.mem_singleton.1 hp
      exact (lists_iff hft).2 (Stat.mem_exprs?.2 ⟨exprs, hexprs, List.mem_of_getLast? hstep⟩)
  · rintro ⟨g₂, ⟨ft₁, hft₁, hempty⟩, e, hprune⟩
    obtain ⟨hleaf, -, hroot⟩ := hS.forest.ne_of_below hloop (hbelow henters)
    have hlinks : SameLinks g g₂ := r.sameLinks.trans e.sameLinks
    have hS₂ := (hS.of_refits r).of_sameTree e
    have hleaf₂ := hlinks.inTree_iff.2 hleaf
    obtain ⟨ft₂, hft₂, hkind, -⟩ := e.stat hft₁
    have hblock : ft₂.kind = .block [] := hkind.trans (Stat.isEmptyLeaf_iff.1 hempty)
    have hchildless : ∀ c, ¬ g₂.ChildOf leaf c := fun c hc => by
      have hshape := (hS₂.fits leaf ft₂ hleaf₂ hft₂).children
      rw [hblock] at hshape
      rw [childOf_iff hft₂, hshape] at hc
      cases hc
    obtain ⟨fresh, hP⟩ := hprune.pruned hS₂.forest (hlinks.inTree_iff.2 hloop)
      (henters.congr hlinks) hleaf₂ hroot nofun fun c ct hc => absurd hc (hchildless c)
    exact ⟨g₂, fresh, ⟨ft₂, hft₂, hblock⟩, hchildless, e, hprune, hP⟩

theorem refersTo_forForm (hS : Shaped g K) (hloop : g.InTree loop)
    (h : g.forForm? loop options = .ok (some g')) (hv : g'.RefersTo v) : g.RefersTo v := by
  obtain ⟨leaf, step, init, g₁, hlists, r, hexpr, h⟩ := phases_forForm hS hloop h
  have hv₁ : g₁.RefersTo v := by
    rcases h with rfl | ⟨g₂, fresh, -, -, e, hstep, hP⟩
    · exact hv
    · exact e.refersTo (hstep.refersTo hP ((r.sameLinks.trans e.sameLinks).forest hS.forest) hv)
  refine r.refersTo_of_expr_eq hexpr (fun l hloop hl e he => ?_) hv₁
  have hslot := fun he => atHand_slot (e := e) hloop hl he
  rcases mem_named_loop.1 he with he | he | he
  · cases init with
    | none => exact ⟨loop, e, hslot (.inl he), .refl⟩
    | some p =>
      cases he
      exact ⟨p.1, p.2, .inr (hlists p (by simp)), .refl⟩
  · have hcondition : (initSlot init l).condition = l.condition := by cases init <;> rfl
    exact ⟨loop, e, hslot (.inr (.inl (hcondition ▸ he))), .refl⟩
  · cases he
    exact ⟨leaf, step, .inr (hlists (leaf, step) (by simp)), .refl⟩

/-- The expressions that a match of a loop over elements may take away. -/
def ElementLoop.takes (m : ElementLoop) : List ExprId :=
  m.inits ++ m.fetch :: (m.last.map Prod.snd).toList

/-- The element of a loop comes from the fetch, and what the loop runs over from an assignment
before it. Nothing else than the expressions of the match is taken away. -/
theorem slots_forEachForm (h : g.forEachForm? loop = .ok (some g')) :
    ∃ m element source cuts, g.elementLoop? loop = .ok (some m) ∧
      TakesElements g g' loop element source cuts ∧ (∀ c ∈ cuts, c.2 ∈ m.takes) ∧
      g.Reaches m.fetch element ∧ ∃ e ∈ m.inits, g.Reaches e source := by
  obtain ⟨m, hm, hform⟩ := forEachForm?_eq_some h
  obtain ⟨rfl, -⟩ := elementLoop?_eq_some hm
  rcases hform with ⟨init, hinit, hform⟩ | hform
  · obtain ⟨p, hp, t⟩ := takesElements_collection hform
    have hmem : init ∈ m.inits := by simp [ElementLoop.inits, hinit]
    refine ⟨m, p.element, p.source, _, hm, t, ?_, reaches_child hp.fetch (by simp [Expr.children]),
      init, hmem, ?_⟩
    · simp [ElementLoop.takes, hmem]
    · exact (reaches_child hp.stored (by simp [Expr.children])).trans (reaches_receiver hp.source)
  · obtain ⟨a, source, cuts, ha, hruns, t, hcuts, -⟩ := takesElements_array hform
    obtain ⟨p, rfl, hp⟩ := arrayLoop?_eq_some.1 ha
    refine ⟨m, p.element, source, cuts, hm, t, fun c hc => ?_,
      reaches_child hp.fetch (by simp [Expr.children]), ?_⟩
    · have hc := hcuts c hc
      simp only [ArrayLoop.consumes, List.mem_cons] at hc
      simp only [ElementLoop.takes, ElementLoop.inits, hp.counterInit, hp.lengthInit, hp.last,
        Option.map_some, Option.toList_some, List.mem_append, List.mem_cons, List.not_mem_nil]
      tauto
    · rcases hruns with ⟨copyInit, hinit, copy, hcopy, -⟩ | ⟨rfl, -⟩
      · exact ⟨copyInit, by simp [ElementLoop.inits, hinit],
          reaches_child (assign?_eq_some.1 hcopy) (by simp [Expr.children])⟩
      · refine ⟨p.lengthInit, by simp [ElementLoop.inits, hp.lengthInit], ?_⟩
        exact (reaches_child hp.stored (by simp [Expr.children])).trans
          (reaches_child hp.length (by simp [Expr.children]))

theorem refersTo_forEachForm (h : g.forEachForm? loop = .ok (some g')) (hv : g'.RefersTo v) :
    g.RefersTo v := by
  obtain ⟨m, element, source, cuts, hm, t, -, hfetch, init, hinit, hsource⟩ := slots_forEachForm h
  obtain ⟨-, -, hinits, hfirst, -⟩ := elementLoop?_parts hm
  refine t.refits.refersTo_of_expr_eq t.expr (fun l hloop hl e he => ?_) hv
  rcases mem_named_loop.1 he with he | he | he
  · cases he
    exact ⟨m.first, m.fetch, .inr hfirst, hfetch⟩
  · cases he
  · cases he
    exact ⟨m.before, init, .inr (hinits init hinit), hsource⟩

end Graph

end Decompiler

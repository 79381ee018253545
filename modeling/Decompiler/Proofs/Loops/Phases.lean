import Decompiler.Proofs.Loops.Pruning
import Decompiler.Proofs.Loops.Slots

/-!
# The two phases of a rewrite

Each rewrite of a loop fills its slots first and then takes out of the tree what is no longer
needed.

* `Graph.TestMoves`: the condition of a test in the body goes to the loop, and the `if` is taken
  out. Both `while` and `do-while` are made this way (`Graph.testMoves_whileForm`,
  `Graph.testMoves_doWhileForm`).
* `Graph.TestAt`: where that test stands.
* `Graph.stepMoves_forForm`: the step at the end of the body goes to the loop, and its leaf is taken
  out if nothing else was in it.
* `Graph.TestMoves.isLoop`: the kind the loop has afterwards.
-/

namespace Decompiler.Graph

open Relation

variable {g g' : Graph} {loop s : StatId} {options : Options}

/-! ## Where a test stands -/

theorem within_throughSequencesIn {child : Stat → Option StatId}
    (hchild : ∀ t c, g.Within s t → Returns (g.stat t) (fun st => child st = some c) →
      g.ChildOf t c) {n : ℕ} {x : StatId}
    (h : g.throughSequencesIn child n s = .ok (some x)) : g.Within s x := by
  induction n generalizing s with
  | zero => cases h
  | succ n ih =>
    simp only [throughSequencesIn, Checked.bind_eq_ok] at h
    obtain ⟨st, hst, h⟩ := h
    split at h
    · split at h
      · next inner hinner =>
        have hsinner := hchild s inner .refl ⟨st, hst, hinner⟩
        exact .head hsinner (ih (fun t c ht => hchild t c (.head hsinner ht)) h)
      · cases h
    · cases h
      exact .refl

/-- What is found at one end of the body of a loop lies below the loop. -/
theorem below_of_throughSequences {child : Stat → Option StatId} (henters : g.EntersChildren loop)
    (hchild : ∀ t c, g.Within loop t → Returns (g.stat t) (fun st => child st = some c) →
      g.ChildOf t c) {x : StatId}
    (h : (do
      let some body := (← g.stat loop).first | return none
      g.throughSequencesIn child g.statLevels body) = .ok (some x)) :
    TransGen g.ChildOf loop x := by
  obtain ⟨st, hst, h⟩ := Checked.bind_eq_ok.1 h
  split at h
  · next body hbody =>
    have hchildOf := henters loop body .refl ⟨st, hst, hbody⟩
    exact .head' hchildOf
      (within_throughSequencesIn (fun t c ht => hchild t c (.head hchildOf ht)) h)
  · cases h

theorem below_of_leading (henters : g.EntersChildren loop) {x : StatId}
    (h : g.leading? loop = .ok (some x)) : TransGen g.ChildOf loop x :=
  below_of_throughSequences henters henters h

theorem below_of_trailing (henters : g.EntersChildren loop) {x : StatId}
    (h : g.trailing? loop = .ok (some x)) : TransGen g.ChildOf loop x :=
  below_of_throughSequences henters (fun _ _ _ => childOf_getLast?) h

/-- The test stands below the loop. Its `if` evaluates the head. What is kept of it is a branch or
the block in front of the test, and its other children are empty leaves. -/
structure TestAt (g : Graph) (loop : StatId) (t : LoopTest) (kept : Option StatId) : Prop where
  /-- It lies below the loop. -/
  below : TransGen g.ChildOf loop t.stat
  /-- The head tests the condition. -/
  test : g.expr t.head = .ok (.test t.condition)
  /-- What the `if` is. -/
  stat : Returns (g.stat t.stat) fun st => (∃ b, st.kind = .branch b ∧ b.head = t.head) ∧
    (∀ c, kept = some c → c ∈ st.kind.branches ∨ st.first = some c) ∧
    (st.Fits → ∀ c ∈ st.children, kept ≠ some c →
      Returns (g.stat c) fun ct => ct.kind = .block [])

/-- The children of an `if` without `else` are the block in front of its test and its branch. -/
theorem mem_children_of_fits {st : Stat} {b : Branch} {headBlock c : StatId} (hfits : st.Fits)
    (hkind : st.kind = .branch b) (hplain : b.form = .plain) (hfirst : st.first = some headBlock) :
    c ∈ st.children ↔ c = headBlock ∨ b.thenStat = some c := by
  have hshape := hfits.children
  rw [hkind] at hshape
  obtain ⟨⟨front, hlen, hchildren⟩, helse⟩ := hshape
  rw [helse hplain, Option.toList_none, List.append_nil] at hchildren
  rw [hfits.first, hchildren] at hfirst
  rw [hchildren, List.mem_append, Option.mem_toList]
  match front, hlen with
  | [], _ =>
    cases hthen : b.thenStat with
    | none => rw [hthen] at hfirst; cases hfirst
    | some body =>
      rw [hthen] at hfirst
      cases hfirst
      simp [eq_comm]
  | [d], _ =>
    cases hfirst
    simp

/-- What is kept of the `if` is one of its children. -/
theorem TestAt.childOf_kept {t : LoopTest} {kept : Option StatId} (hat : TestAt g loop t kept)
    (hroles : ∀ st, g.stat t.stat = .ok st → st.HoldsRoles) {c : StatId}
    (hc : kept = some c) : g.ChildOf t.stat c := by
  obtain ⟨tt, htt, -, hkept, -⟩ := hat.stat
  refine ⟨tt, htt, ?_⟩
  rcases hkept c hc with h | h
  · exact (hroles tt htt).branches c h
  · exact (hroles tt htt).first_mem h

/-- The children of the `if` that are not kept are empty leaves without children, so that nothing
else is lost when it is taken out. -/
theorem TestAt.empty {t : LoopTest} {kept : Option StatId} {K : StatId → Prop}
    (hat : TestAt g loop t kept) (hF : Forest g K) (hloop : g.InTree loop)
    (hfits : ∀ s st, g.InTree s → g.stat s = .ok st → st.Fits) {c : StatId}
    (hc : g.ChildOf t.stat c) (hne : kept ≠ some c) :
    Returns (g.stat c) fun ct => ct.kind = .block [] ∧ ct.children = [] := by
  obtain ⟨htTree, -, -⟩ := hF.ne_of_below hloop hat.below
  obtain ⟨tt, htt, -, -, hchildren⟩ := hat.stat
  obtain ⟨ct, hct, hblock⟩ := hchildren (hfits _ tt htTree htt) c ((childOf_iff htt).1 hc) hne
  have hfit := (hfits c ct (htTree.child hc) hct).children
  rw [hblock] at hfit
  exact ⟨ct, hct, hblock, hfit⟩

/-- Taking the `if` out of a graph with the same tree. -/
theorem TestAt.pruned {g₁ g₂ : Graph} {t : LoopTest} {kept : Option StatId} {K : StatId → Prop}
    (hat : TestAt g loop t kept) (hF : Forest g K) (hloop : g.InTree loop)
    (hfits : ∀ s st, g.InTree s → g.stat s = .ok st → st.Fits) (hlinks : SameLinks g g₁)
    (hstep : PruneStep loop t.stat kept g₁ g₂) : ∃ fresh, Pruned g₁ g₂ K t.stat kept fresh := by
  obtain ⟨htTree, -, htroot⟩ := hF.ne_of_below hloop hat.below
  have henters := (entersChildren_of_fits hfits hloop).congr hlinks
  refine hstep.pruned (hlinks.forest hF) (hlinks.inTree_iff.2 hloop) henters
    (hlinks.inTree_iff.2 htTree) htroot (fun c hc => ?_) fun c ct hc hne hct => ?_
  · rw [hlinks.childOf_eq]
    exact hat.childOf_kept (fun tt htt => (hfits _ tt htTree htt).holdsRoles) hc
  · rw [hlinks.childOf_eq] at hc
    obtain ⟨ct₀, hct₀, -, hnil⟩ := hat.empty hF hloop hfits hc hne
    obtain ⟨ct', hct', -, -, hchildren'⟩ := links_eq_ok ((hlinks c).trans (links_of_stat hct₀))
    rw [hct] at hct'
    cases hct'
    exact hchildren'.trans hnil

/-! ## Conditions -/

/-- The condition of a test, negated or not, goes to the loop, which takes a new kind. Then the `if`
is taken out. -/
def TestMoves (g g' : Graph) (loop : StatId) (kind : LoopKind) (t : LoopTest)
    (kept : Option StatId) : Prop :=
  ∃ new g₁ g₂, Refits g g₁ loop (fun l => { l with kind := kind, condition := some new }) [] ∧
    Takes g g₁ new t.head ∧ IsCondition g₁ t.condition new ∧ OnlyNegates g g₁ t.condition ∧
    PruneStep loop t.stat kept g₁ g₂ ∧ SameTree g₂ g'

theorem testMoves_whileNot {t : LoopTest} (h : g.whileNot loop t = .ok g')
    (ht : g.expr t.head = .ok (.test t.condition)) : TestMoves g g' loop .whileDo t none := by
  simp only [whileNot, Checked.bind_eq_ok] at h
  obtain ⟨g₁, h₁, ⟨g₂, new⟩, h₂, g₃, h₃, g₄, h₄, g₅, h₅, g₆, h₆, lt, hlt, h⟩ := h
  obtain ⟨r, htakes, hcond, hnegates⟩ := refits_condition h₁ (turns_negate loop h₂) h₃ ht
  have e₆ : SameTree g₃ g₆ := .trans (sameTree_detachEdge h₄)
    (.trans (sameTree_detachEdge h₅) (sameTree_liftExit h₆))
  have r₆ := Refits.of_sameTree loop e₆
  refine ⟨new, g₆, g', r.trans r₆, htakes.after r₆.grows, hcond.after r₆.grows,
    hnegates.of_sameTree e₆, ?_, .refl g'⟩
  split at h
  · next hfirst =>
    obtain ⟨⟨g₇, b⟩, h₇, h⟩ := Checked.bind_eq_ok.1 h
    exact .empty ⟨lt, hlt, hfirst⟩ h₇ h
  · next hfirst => exact .remove ⟨lt, hlt, hfirst⟩ h

theorem testMoves_whileGuard {t : LoopTest} {body : StatId} (h : g.whileGuard loop t body = .ok g')
    (ht : g.expr t.head = .ok (.test t.condition)) :
    TestMoves g g' loop .whileDo t (some body) := by
  simp only [whileGuard, Checked.bind_eq_ok] at h
  obtain ⟨out, -, g₁, h₁, g₃, h₃, g₄, h₄, g₅, h₅, g₆, h₆, st, hst, h⟩ := h
  obtain ⟨r, htakes, hcond, hnegates⟩ :=
    refits_condition h₁ (turns_refl g₁ loop t.condition) h₃ ht
  have e₆ : SameTree g₃ g₆ := .trans (sameTree_detachEdge h₄)
    (.trans (sameTree_detachEdge h₅) (sameTree_liftExit h₆))
  have r₆ := Refits.of_sameTree loop e₆
  refine ⟨t.condition, g₆, ?_⟩
  cases hparent : st.parent with
  | none =>
    rw [hparent] at h
    cases h
    exact ⟨g', r.trans r₆, htakes.after r₆.grows, hcond.after r₆.grows, hnegates.of_sameTree e₆,
      .orphan hst hparent, .refl g'⟩
  | some parent =>
    rw [hparent] at h
    simp only [Checked.bind_eq_ok] at h
    obtain ⟨g₇, h₇, g₈, h₈, breaks, -, g₉, h₉, h⟩ := h
    refine ⟨g₈, r.trans r₆, htakes.after r₆.grows, hcond.after r₆.grows, hnegates.of_sameTree e₆,
      .child hst hparent h₇ h₈, ?_⟩
    exact .trans (.foldlM h₉ fun e _ _ _ he => sameTree_raiseClosure he)
      (sameTree_lowerBreaksIn h)

/-- A test in front of the body goes to the loop, which becomes a `while`. Its branch is kept. -/
theorem testMoves_leading {t : LoopTest} (hs : g.leading? loop = .ok (some t.stat))
    (ht : g.loopTest? t.stat acceptsLeading = .ok (some t))
    (h : (t.body = none ∧ g.whileNot loop t = .ok g') ∨
      ∃ body, t.body = some body ∧ g.whileGuard loop t body = .ok g') :
    (g.EntersChildren loop → TestAt g loop t t.body) ∧
      TestMoves g g' loop .whileDo t t.body := by
  obtain ⟨-, st, b, bt, hst, hkind, hfirst, hbt, haccepts, hbody, hhead, htest, -⟩ :=
    loopTest?_eq_some ht
  simp only [acceptsLeading, Bool.and_eq_true, decide_eq_true_eq] at haccepts
  obtain ⟨hempty, hplain⟩ := haccepts
  constructor
  · refine fun henters => ⟨below_of_leading henters hs, htest, st, hst, ⟨b, hkind, hhead.symm⟩,
      fun c hc => .inl ?_, fun hfits c hc hne => ?_⟩
    · rw [hkind, StatKind.branches, ← hbody, hc]
      simp
    · rcases (mem_children_of_fits hfits hkind hplain hfirst).1 hc with rfl | hc
      · exact ⟨bt, hbt, Stat.isEmptyLeaf_iff.1 hempty⟩
      · exact absurd (hbody.trans hc) hne
  · rcases h with ⟨hnone, h⟩ | ⟨body, hsome, h⟩
    · exact hnone ▸ testMoves_whileNot h htest
    · exact hsome ▸ testMoves_whileGuard h htest

theorem testMoves_whileForm (h : g.whileForm? loop = .ok (some g')) :
    ∃ t kept, g.leading? loop = .ok (some t.stat) ∧
      (g.EntersChildren loop → TestAt g loop t kept) ∧ TestMoves g g' loop .whileDo t kept := by
  obtain ⟨s, t, hs, ht, h⟩ := whileForm?_eq_some h
  obtain ⟨rfl, -⟩ := loopTest?_eq_some ht
  exact ⟨t, t.body, hs, testMoves_leading hs ht h⟩

/-- What a test at the end of the body leaves behind: the block in front of it, unless that is
empty. -/
def LoopTest.keptBlock (t : LoopTest) (headBlock : Stat) : Option StatId :=
  if headBlock.isEmptyLeaf then none else some t.headBlock

/-- The edge by which a loop with a trailing test is left. -/
def LoopTest.trailingExit (t : LoopTest) (leavesOnTrue : Bool) : EdgeId :=
  if leavesOnTrue then t.thenEdge else t.elseEdge

/-- A leaf from which nothing is cut is empty if it was. -/
theorem Refits.isEmptyLeaf_eq {f : Loop → Loop} (h : Refits g g' loop f []) {st st' : Stat}
    (hst : g.stat s = .ok st) (hst' : g'.stat s = .ok st') : st'.isEmptyLeaf = st.isEmptyLeaf := by
  obtain ⟨st'', hst'', heq⟩ := h.stat hst
  rw [hst'] at hst''
  cases hst''
  rw [Bool.eq_iff_iff, Stat.isEmptyLeaf_iff, Stat.isEmptyLeaf_iff, (Stat.bare_eq_iff.1 heq).1,
    Stat.refit_kind_eq_block]
  simp

theorem testMoves_doWhileTest {t : LoopTest} {leavesOnTrue : Bool} {ht : Stat}
    (h : g.doWhileTest loop t leavesOnTrue = .ok g')
    (htest : g.expr t.head = .ok (.test t.condition)) (hht : g.stat t.headBlock = .ok ht) :
    TestMoves g g' loop .doWhile t (t.keptBlock ht) := by
  obtain ⟨g₁, h₁, h⟩ := Checked.bind_eq_ok.1 h
  rw [Checked.ite_bind] at h
  simp only [Checked.bind_eq_ok] at h
  obtain ⟨⟨g₂, new⟩, h₂, g₃, h₃, g₄, h₄, g₅, h₅, bt, hbt, h⟩ := h
  have hturns : Turns g₁ g₂ loop t.condition new := by
    split at h₂
    · exact turns_negate loop h₂
    · cases h₂
      exact turns_refl g₁ loop t.condition
  obtain ⟨r, htakes, hcond, hnegates⟩ := refits_condition h₁ hturns h₃ htest
  have e₅ : SameTree g₃ g₅ := .trans (sameTree_detachEdge h₄) (sameTree_detachEdge h₅)
  have r₅ := r.trans (Refits.of_sameTree loop e₅)
  have g₅₃ : Grows g₃ g₅ := .of_exprs_eq e₅.exprs
  rw [LoopTest.keptBlock, ← r₅.isEmptyLeaf_eq hht hbt]
  split at h
  · next hleaf =>
    rw [if_pos hleaf]
    obtain ⟨g₆, h₆, h⟩ := Checked.bind_eq_ok.1 h
    obtain ⟨g₇, e₇, hstep⟩ := pruneStep_dropEmptyTail h₆
    have r₇ := r₅.trans (Refits.of_sameTree loop e₇)
    have g₇₃ : Grows g₃ g₇ := g₅₃.trans (.of_exprs_eq e₇.exprs)
    exact ⟨new, g₇, g₆, r₇, htakes.after g₇₃, hcond.after g₇₃,
      hnegates.of_sameTree (e₅.trans e₇), hstep, sameTree_liftExit h⟩
  · next hleaf =>
    rw [if_neg hleaf]
    obtain ⟨st, hst, h⟩ := Checked.bind_eq_ok.1 h
    refine ⟨new, g₅, ?_⟩
    cases hparent : st.parent with
    | none =>
      rw [hparent] at h
      exact ⟨g₅, r₅, htakes.after g₅₃, hcond.after g₅₃, hnegates.of_sameTree e₅,
        .orphan hst hparent, sameTree_liftExit h⟩
    | some parent =>
      rw [hparent] at h
      simp only [Checked.bind_eq_ok, Checked.pure_eq_ok] at h
      obtain ⟨g₆, h₆, g₇, h₇, ⟨g₈, e⟩, h₈, _, rfl, h⟩ := h
      exact ⟨g₇, r₅, htakes.after g₅₃, hcond.after g₅₃, hnegates.of_sameTree e₅,
        .child hst hparent h₆ h₇, .trans (sameTree_addEdge h₈) (sameTree_liftExit h)⟩

/-- A test at the end of the body goes to the loop, which becomes a `do-while`. -/
theorem testMoves_trailing {t : LoopTest} {leavesOnTrue : Bool}
    (hs : g.trailing? loop = .ok (some t.stat))
    (ht : g.loopTest? t.stat acceptsTrailing = .ok (some t))
    (h : g.doWhileTest loop t leavesOnTrue = .ok g') :
    ∃ ht, g.stat t.headBlock = .ok ht ∧
      (g.EntersChildren loop → TestAt g loop t (t.keptBlock ht)) ∧
      TestMoves g g' loop .doWhile t (t.keptBlock ht) := by
  obtain ⟨-, st, b, bt, hst, hkind, hfirst, hbt, haccepts, hbody, hhead, htest, -⟩ :=
    loopTest?_eq_some ht
  simp only [acceptsTrailing, Bool.and_eq_true, decide_eq_true_eq, Option.isNone_iff_eq_none]
    at haccepts
  obtain ⟨hplain, hthen⟩ := haccepts
  refine ⟨bt, hbt, fun henters => ⟨below_of_trailing henters hs, htest, st, hst,
    ⟨b, hkind, hhead.symm⟩, fun c hc => .inr ?_, fun hfits c hc hne => ?_⟩,
    testMoves_doWhileTest h htest hbt⟩
  · unfold LoopTest.keptBlock at hc
    split at hc
    · cases hc
    · exact hc ▸ hfirst
  · obtain rfl : c = t.headBlock := by
      simpa [mem_children_of_fits hfits hkind hplain hfirst, hthen] using hc
    unfold LoopTest.keptBlock at hne
    split at hne
    · next hempty => exact ⟨bt, hbt, Stat.isEmptyLeaf_iff.1 hempty⟩
    · exact absurd rfl hne

theorem testMoves_doWhileForm (h : g.doWhileForm? loop = .ok (some g')) :
    ∃ t kept, g.trailing? loop = .ok (some t.stat) ∧
      (g.EntersChildren loop → TestAt g loop t kept) ∧ TestMoves g g' loop .doWhile t kept := by
  obtain ⟨s, t, leavesOnTrue, hs, ht, -, h⟩ := doWhileForm?_eq_some h
  obtain ⟨rfl, -⟩ := loopTest?_eq_some ht
  obtain ⟨ht, -, hat, hmoves⟩ := testMoves_trailing hs ht h
  exact ⟨t, t.keptBlock ht, hs, hat, hmoves⟩

/-! ## Steps -/

theorem within_lastLeafIn {n : ℕ} {leaf : StatId} (h : g.lastLeafIn n s = .ok (some leaf)) :
    g.Within s leaf := by
  induction n generalizing s leaf with
  | zero => cases h
  | succ n ih =>
    simp only [lastLeafIn, Checked.bind_eq_ok] at h
    obtain ⟨st, hst, h⟩ := h
    split at h
    · cases h
      exact .refl
    · -- the leaf was found in one of the children
      have key : ∀ l : List StatId, (∀ c ∈ l, c ∈ st.children) →
          g.lastLeafAmong (g.lastLeafIn n) l = .ok (some leaf) → g.Within s leaf := by
        intro l hl h
        induction l with
        | nil => cases h
        | cons c l ihl =>
          obtain ⟨_ | found, hfound, h⟩ := Checked.bind_eq_ok.1 h
          · cases h
          obtain ⟨ft, -, h⟩ := Checked.bind_eq_ok.1 h
          split at h
          · exact ihl (fun d hd => hl d (by simp [hd])) h
          · cases h
            exact ReflTransGen.head ⟨st, hst, hl c (by simp)⟩ (ih hfound)
      exact key _ (fun c hc => List.mem_reverse.1 hc) h

/-- The step at the end of the body goes to the loop, which becomes a `for`, and with it the
assignment that ends the leaf before the loop. Then the leaf of the step is taken out if it is
empty. -/
theorem stepMoves_forForm (h : g.forForm? loop options = .ok (some g')) :
    ∃ leaf lt exprs step init g₁, (g.EntersChildren loop → TransGen g.ChildOf loop leaf) ∧
      g.stat leaf = .ok lt ∧ lt.kind = .block exprs ∧ exprs.getLast? = some step ∧
      g.initBefore? loop = .ok init ∧
      Refits g g₁ loop (fun l => { initSlot init l with kind := .counted, step := some step })
        (init.toList ++ [(leaf, step)]) ∧ g₁.expr = g.expr ∧
      (g' = g₁ ∨ ∃ g₂, Returns (g₁.stat leaf) (fun st => st.isEmptyLeaf = true) ∧
        SameTree g₁ g₂ ∧ PruneStep loop leaf none g₂ g') := by
  obtain ⟨st, body, leaf, lt, step, init, hst, hfirst, hleaf, hlt, hstep, hinit, h, -⟩ :=
    forForm?_eq_some h
  obtain ⟨g₁, r, hexpr, h⟩ := refits_toCounted h
  have hbelow (henters : g.EntersChildren loop) : TransGen g.ChildOf loop leaf :=
    .head' (henters loop body .refl ⟨st, hst, hfirst⟩) (within_lastLeafIn hleaf)
  cases hexprs : lt.exprs? with
  | none => rw [hexprs] at hstep; cases hstep
  | some exprs =>
    rw [hexprs] at hstep
    exact ⟨leaf, lt, exprs, step, init, g₁, hbelow, hlt,
      Stat.exprs?_eq_some.1 hexprs, hstep, hinit, r, hexpr, pruneStep_dropEmptyLeaf h⟩

/-! ## The kind of a loop -/

/-- The statement is a loop of the given kind. -/
def IsLoop (g : Graph) (s : StatId) (kind : LoopKind) : Prop :=
  Returns (g.loop? s) fun l => l.map Loop.kind = some kind

instance (g : Graph) (s : StatId) (kind : LoopKind) : Decidable (g.IsLoop s kind) :=
  inferInstanceAs (Decidable (Returns (g.loop? s) _))

theorem isLoop_iff {kind : LoopKind} :
    g.IsLoop s kind ↔ ∃ st l, g.stat s = .ok st ∧ st.loop? = some l ∧ l.kind = kind := by
  simp only [IsLoop, Returns, loop?_eq_ok, Option.map_eq_some_iff]
  constructor
  · rintro ⟨l?, ⟨st, hst, rfl⟩, l, hl, hkind⟩
    exact ⟨st, l, hst, hl, hkind⟩
  · rintro ⟨st, l, hst, hl, hkind⟩
    exact ⟨some l, ⟨st, hst, hl⟩, l, rfl, hkind⟩

theorem KeepsLoops.isLoop (h : KeepsLoops g g') {kind : LoopKind} (hs : g.IsLoop s kind) :
    g'.IsLoop s kind := by
  obtain ⟨st, l, hst, hl, hkind⟩ := isLoop_iff.1 hs
  obtain ⟨st', hst', hl'⟩ := h s st l hst hl
  exact isLoop_iff.2 ⟨st', l, hst', hl', hkind⟩

theorem Refits.isLoop {f : Loop → Loop} {cuts : List (StatId × ExprId)}
    (h : Refits g g' loop f cuts) {kind old : LoopKind} (hf : ∀ l, (f l).kind = kind)
    (hloop : g.IsLoop loop old) : g'.IsLoop loop kind := by
  obtain ⟨st, l, hst, hl, -⟩ := isLoop_iff.1 hloop
  obtain ⟨st', hst', hl'⟩ := h.loop?_eq hst hl
  exact isLoop_iff.2 ⟨st', f l, hst', hl', hf l⟩

/-- The loops after a change of slots. -/
theorem Refits.loopAt {f : Loop → Loop} {cuts : List (StatId × ExprId)}
    (h : Refits g g' loop f cuts) (s : StatId) :
    g'.loopAt s = (g.loopAt s).map (if s = loop then f else id) := by
  rw [loopAt_eq_bareStat, loopAt_eq_bareStat, h.stats]
  cases g.bareStat s with
  | error => rfl
  | ok st =>
    obtain ⟨kind, parent, first, children, declarations, successors, predecessors, labels⟩ := st
    cases kind <;> rfl

theorem TestMoves.isLoop {kind old : LoopKind} {t : LoopTest} {kept : Option StatId}
    (h : TestMoves g g' loop kind t kept) (hloop : g.IsLoop loop old) : g'.IsLoop loop kind := by
  obtain ⟨new, g₁, g₂, r, -, -, -, hstep, e⟩ := h
  have h₁ : g₁.IsLoop loop kind := r.isLoop (fun _ => rfl) hloop
  exact (KeepsLoops.of_sameTree e).isLoop (hstep.keepsLoops.isLoop h₁)

end Decompiler.Graph

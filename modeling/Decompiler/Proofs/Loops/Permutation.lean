import Decompiler.Proofs.Loops.Phases

/-!
# No expression is lost or duplicated

The rewrites to `while`, `do-while` and `for` move expressions between leaves and slots. In a graph
where each node occurs once, the expressions of the tree are the same ones afterwards, but that the
head of the test gives way to the condition of the loop.

* `Graph.Tidy`: the graphs this is about. What keeps the initialisation of a `for` apart from its
  step is that no regular edge leads from inside a statement to that statement.
* `Graph.KeepsHeld`: taking statements out of the tree, seen from what the tree holds.
* `Graph.conditionReplaces_of_testMoves`: moving a condition from a test to the loop.
* `Graph.exprsIn_forForm`: moving a step and an initialisation to the loop.
* `Graph.exprsIn_rewritten`: the three rewrites together.
-/

namespace Decompiler

/-- The loop has no expressions in slots that its form does not evaluate: none at all in an endless
loop, and a condition only in one that tests a condition. -/
def Loop.Sparse (l : Loop) : Prop :=
  (l.kind = .endless → l.condition = none) ∧
    (l.kind ∈ [.endless, .whileDo, .doWhile] → l.init = none ∧ l.step = none)

instance (l : Loop) : Decidable l.Sparse := inferInstanceAs (Decidable (_ ∧ _))

namespace Graph

open Relation

variable {g g' : Graph} {K : StatId → Prop} {loop s : StatId} {e : ExprId} {options : Options}

/-! ## Graphs before a rewrite -/

/-- A well-formed tree without declarations, in which each expression node occurs once and loops
have sparse slots. The regular edges that lead to its statements come from statements of the tree or
from the exit, and none of them comes from inside the statement it leads to. -/
structure Tidy (g : Graph) : Prop where
  /-- The tree. -/
  wellFormed : g.WellFormed
  /-- Nothing is declared. -/
  undeclared : g.EachStat fun st => st.declarations = []
  /-- Each node occurs once. -/
  once : g.NodesOnce
  /-- Loops have no expressions in unused slots. -/
  slots : g.EachStat fun st => ∀ l ∈ st.loop?.toList, l.Sparse
  /-- The exit is the exit. -/
  exit : Returns (g.stat Graph.exit) fun st => st.kind = .exit
  /-- The regular edges. -/
  edges : Returns g.statements fun l => ∀ s ∈ l, Returns (g.neighbours s [.regular] .backward)
    fun sources => ∀ u ∈ sources, (u ∈ l ∨ u = Graph.exit) ∧
      g.containsStrict s u = .ok false

instance (g : Graph) : Decidable g.Tidy :=
  decidable_of_iff (g.WellFormed ∧ (g.EachStat fun st => st.declarations = []) ∧ g.NodesOnce ∧
      (g.EachStat fun st => ∀ l ∈ st.loop?.toList, l.Sparse) ∧
      (Returns (g.stat Graph.exit) fun st => st.kind = .exit) ∧
      Returns g.statements fun l => ∀ s ∈ l, Returns (g.neighbours s [.regular] .backward)
        fun sources => ∀ u ∈ sources, (u ∈ l ∨ u = Graph.exit) ∧
          g.containsStrict s u = .ok false)
    ⟨fun ⟨a, b, c, d, e, f⟩ => ⟨a, b, c, d, e, f⟩, fun ⟨a, b, c, d, e, f⟩ => ⟨a, b, c, d, e, f⟩⟩

namespace Tidy

theorem holds_iff (h : g.Tidy) (hs : g.InTree s) {st : Stat} (hst : g.stat s = .ok st) :
    g.Holds s e ↔ e ∈ st.kind.exprs := by
  rw [Graph.holds_iff hst, h.undeclared.stat hs hst, List.append_nil]

theorem fits (h : g.Tidy) (s : StatId) (st : Stat) (hs : g.InTree s) (hst : g.stat s = .ok st) :
    st.Fits := h.wellFormed.fits hs hst

theorem sparse (h : g.Tidy) (hloop : g.InTree loop) {st : Stat} {l : Loop}
    (hst : g.stat loop = .ok st) (hl : st.loop? = some l) : l.Sparse :=
  h.slots.stat hloop hst l (by simp [hl])

/-- The expressions of the tree are listed without repetition, each held by one statement. -/
theorem listing (h : g.Tidy) : ∃ l, g.exprsIn Graph.root = .ok l ∧ l.Nodup ∧
    (∀ e, e ∈ l ↔ ∃ s, g.InTree s ∧ g.Holds s e) ∧
    (∀ s held, g.InTree s → g.heldBy s = .ok held → held.Nodup) ∧
    ∀ s t e, g.InTree s → g.InTree t → g.Holds s e → g.Holds t e → s = t := by
  have hF := h.wellFormed.forest
  obtain ⟨l, hl⟩ := hF.exprsIn .refl
  have hnodup := h.once.nodup hl
  obtain ⟨each, apart⟩ := hF.held_once hl hnodup
  exact ⟨l, hl, hnodup, fun e => hF.mem_exprsIn .refl hl, each, apart⟩

end Tidy

/-- What does not climb to a statement does not lie below it. -/
theorem Forest.not_below_of_climbsTo (hF : Forest g K) {a : StatId} (ha : K a) {n : ℕ} (hs : K s)
    (h : g.climbsTo a n s = .ok false) : ¬ TransGen g.ChildOf a s := by
  induction n generalizing s with
  | zero => cases h
  | succ n ih =>
    intro hbelow
    obtain ⟨p, hp, hps⟩ := TransGen.tail'_iff.1 hbelow
    have hKp := hF.mem_within ha hp
    simp only [climbsTo, Checked.bind_eq_ok] at h
    obtain ⟨st, hst, h⟩ := h
    rw [hF.parent_eq hKp hps hst] at h
    simp only at h
    split at h
    · cases h
    · next hne =>
      rcases reflTransGen_iff_eq_or_transGen.1 hp with heq | hp
      · exact hne heq
      · exact ih hKp h hp

/-! ## What the tree holds afterwards -/

/-- The statements of the second tree hold what they held in the first one, or nothing. What left
the tree held nothing, but for the statements that are `lost`. -/
structure KeepsHeld (g g' : Graph) (lost : StatId → Prop) : Prop where
  /-- What is in the tree now. -/
  came : ∀ s, g'.InTree s → g'.heldBy s = .ok [] ∨
    g.InTree s ∧ ¬ lost s ∧ g'.heldBy s = g.heldBy s
  /-- What was in the tree. -/
  went : ∀ s, g.InTree s → lost s ∨ g.heldBy s = .ok [] ∨ g'.InTree s ∧ g'.heldBy s = g.heldBy s

theorem KeepsHeld.refl (g : Graph) : KeepsHeld g g fun _ => False :=
  ⟨fun _ hs => .inr ⟨hs, id, rfl⟩, fun _ hs => .inr (.inr ⟨hs, rfl⟩)⟩

theorem KeepsHeld.before {lost : StatId → Prop} {g₁ : Graph} (e : SameTree g g₁)
    (h : KeepsHeld g₁ g' lost) : KeepsHeld g g' lost where
  came s hs := by
    rw [← heldBy_congr (e.stats s), ← e.sameLinks.inTree_iff]
    exact h.came s hs
  went s hs := by
    rw [← heldBy_congr (e.stats s)]
    exact h.went s (e.sameLinks.inTree_iff.2 hs)

theorem KeepsHeld.after {lost : StatId → Prop} {g₁ : Graph} (h : KeepsHeld g g₁ lost)
    (e : SameTree g₁ g') : KeepsHeld g g' lost where
  came s hs := by
    rw [heldBy_congr (e.stats s)]
    exact h.came s (e.sameLinks.inTree_iff.1 hs)
  went s hs := by
    rw [heldBy_congr (e.stats s), e.sameLinks.inTree_iff]
    exact h.went s hs

/-- A statement that holds nothing can be lost. -/
theorem KeepsHeld.of_empty {old : StatId} (h : KeepsHeld g g' (· = old))
    (hold : g.heldBy old = .ok []) : KeepsHeld g g' fun _ => False where
  came s hs := (h.came s hs).imp_right fun ⟨hs, _, heq⟩ => ⟨hs, id, heq⟩
  went s hs := by
    rcases h.went s hs with rfl | h
    · exact .inr (.inl hold)
    · exact .inr h

theorem Pruned.keepsHeld {old : StatId} {kept fresh : Option StatId}
    (h : Pruned g g' K old kept fresh) (hF : Forest g K)
    (hempty : ∀ c, g.ChildOf old c → kept ≠ some c → g.heldBy c = .ok []) :
    KeepsHeld g g' (· = old) := by
  have hheld : ∀ s, s ≠ old → g.InTree s → g'.heldBy s = g.heldBy s := by
    intro s hso hs
    obtain ⟨st, hst⟩ := hF.exists_stat hs
    obtain ⟨st', hst', hexprs, -, hdecl, -⟩ := h.stat s st hso hst
    rw [heldBy_eq_ok.2 ⟨st, hst, rfl⟩, heldBy_eq_ok.2 ⟨st', hst', rfl⟩, hexprs, hdecl]
  refine ⟨fun s hs => ?_, fun s hs => ?_⟩
  · rcases (h.inTree s).1 hs with ⟨hs, hso, -⟩ | hfresh
    · exact .inr ⟨hs, hso, hheld s hso hs⟩
    · obtain ⟨-, st, hst, hblock, hdecl, -⟩ := h.leaf s hfresh
      exact .inl (heldBy_eq_ok.2 ⟨st, hst, by rw [hblock, hdecl]; rfl⟩)
  · by_cases hso : s = old
    · exact .inl hso
    by_cases hgone : g.ChildOf old s ∧ kept ≠ some s
    · exact .inr (.inl (hempty s hgone.1 hgone.2))
    · refine .inr (.inr ⟨(h.inTree s).2 (.inl ⟨hs, hso, fun hc => ?_⟩), hheld s hso hs⟩)
      by_contra hne
      exact hgone ⟨hc, hne⟩

/-- Where the slots of a loop were filled, and the tree kept what it held, no expression is listed
twice afterwards. -/
theorem KeepsHeld.listing {g₁ : Graph} {lost : StatId → Prop} {f : Loop → Loop}
    {cuts : List (StatId × ExprId)} {slots : List ExprId} (h : KeepsHeld g₁ g' lost)
    (hF' : Forest g' K) (hT : g.Tidy) (r : Refits g g₁ loop f cuts)
    (hslots : g₁.heldBy loop = .ok slots) (hnodup : slots.Nodup)
    (hapart : ∀ s e, g.InTree s → s ≠ loop → g₁.Holds s e → e ∉ slots) :
    ∃ l, g'.exprsIn root = .ok l ∧ l.Nodup ∧
      ∀ e, e ∈ l ↔ ∃ s, g.InTree s ∧ ¬ lost s ∧ g₁.Holds s e := by
  obtain ⟨before, -, -, -, each, apart⟩ := hT.listing
  obtain ⟨l, hl⟩ := hF'.exprsIn .refl
  have hloop : ∀ e, g₁.Holds loop e → e ∈ slots := fun e => (mem_of_heldBy loop slots hslots e).2
  -- a statement other than the loop held in the beginning what it holds in the end
  have hbefore : ∀ s e, g.InTree s → s ≠ loop → g₁.Holds s e → g.Holds s e := by
    intro s e hs hsl he
    obtain ⟨st, hst⟩ := hT.wellFormed.forest.exists_stat hs
    exact ((r.holds_iff (fun hs => absurd hs hsl) hst).1 he).1
  have hcame : ∀ s e, g'.InTree s → g'.Holds s e → g.InTree s ∧ ¬ lost s ∧ g₁.Holds s e := by
    intro s e hs he
    rcases h.came s hs with hnil | ⟨hs, hlost, heq⟩
    · exact absurd he (not_holds_of_heldBy hnil)
    · exact ⟨r.sameLinks.inTree_iff.1 hs, hlost, he.of_heldBy_eq heq⟩
  refine ⟨l, hl, hF'.nodup_exprsIn hl (fun s held' hs hheld' => ?_) ?_, fun e => ?_⟩
  · rcases h.came s hs with hnil | ⟨hs, -, heq⟩
    · rw [hnil] at hheld'
      cases hheld'
      exact .nil
    · rw [heq] at hheld'
      by_cases hsl : s = loop
      · rw [hsl, hslots] at hheld'
        cases hheld'
        exact hnodup
      · have hs := r.sameLinks.inTree_iff.1 hs
        obtain ⟨st, hst⟩ := hT.wellFormed.forest.exists_stat hs
        have hheld := heldBy_eq_ok.2 ⟨st, hst, rfl⟩
        exact (each s _ hs hheld).sublist (r.heldBy_sublist hsl hheld hheld')
  · intro s t e hs ht hse hte
    obtain ⟨hs, -, hse⟩ := hcame s e hs hse
    obtain ⟨ht, -, hte⟩ := hcame t e ht hte
    by_cases hsl : s = loop <;> by_cases htl : t = loop
    · exact hsl.trans htl.symm
    · exact absurd (hloop e (hsl ▸ hse)) (hapart t e ht htl hte)
    · exact absurd (hloop e (htl ▸ hte)) (hapart s e hs hsl hse)
    · exact apart s t e hs ht (hbefore s e hs hsl hse) (hbefore t e ht htl hte)
  · rw [hF'.mem_exprsIn .refl hl]
    constructor
    · rintro ⟨s, hs, he⟩
      exact ⟨s, hcame s e hs he⟩
    · rintro ⟨s, hs, hlost, he⟩
      rcases h.went s (r.sameLinks.inTree_iff.2 hs) with hs | hnil | ⟨hs, heq⟩
      · exact absurd hs hlost
      · exact absurd he (not_holds_of_heldBy hnil)
      · exact ⟨s, hs, he.of_heldBy_eq heq.symm⟩

/-! ## Moving a condition -/

/-- Where each node occurs once, the condition of a loop was no expression of the tree while it was
that of a test. -/
theorem NodesOnce.not_mem_of_isCondition {head condition new : ExprId} {l : List ExprId}
    (h : g.NodesOnce) (hl : g.exprsIn root = .ok l) (hhead : head ∈ l)
    (htest : g.expr head = .ok (.test condition)) (hgrows : Grows g g')
    (hnew : IsCondition g' condition new) : new ∉ l := by
  obtain ⟨n, hn, hexpr⟩ := expr_eq_ok.1 htest
  have hsub : g.SubOf head condition := ⟨n, hn, by simp [hexpr, Expr.children]⟩
  -- what a grounded node was is what it is afterwards
  have hbefore : ∀ e x, g.Grounded e → g'.expr e = .ok x → g.expr e = .ok x := by
    intro e x he hx
    obtain ⟨m, hm⟩ := he.exists_node
    have hm' := hgrows.expr (expr_eq_ok.2 ⟨m, hm, rfl⟩)
    rw [hx] at hm'
    cases hm'
    exact expr_eq_ok.2 ⟨m, hm, rfl⟩
  have hgrounded := h.grounded hl hhead
  rcases hnew with rfl | hinner | houter
  · exact h.not_mem_of_below hl hhead (.single hsub)
  · obtain ⟨m, hm, hm'⟩ := expr_eq_ok.1 (hbefore condition _ (hgrounded.sub hsub) hinner)
    have hsub' : g.SubOf condition new := ⟨m, hm, by simp [hm', Expr.children]⟩
    exact h.not_mem_of_below hl hhead (.tail (.single hsub) hsub')
  · intro hmem
    obtain ⟨m, hm, hm'⟩ := expr_eq_ok.1 (hbefore new _ (h.grounded hl hmem) houter)
    have hsub' : g.SubOf new condition := ⟨m, hm, by simp [hm', Expr.children]⟩
    obtain rfl := h.eq_of_reaches hl hmem hhead (.single hsub') (.single hsub)
    rw [hn] at hm
    cases hm
    rw [hexpr] at hm'
    cases hm'

/-- The condition of a loop is that of a test or its negation, and takes the place that the head of
the test had among the expressions of the tree. -/
def ConditionReplaces (g g' : Graph) (loop : StatId) (head condition : ExprId) : Prop :=
  ∃ new before after rest, Returns (g'.loop? loop) (fun l => l.bind Loop.condition = some new) ∧
    IsCondition g' condition new ∧ g.exprsIn root = .ok before ∧ g'.exprsIn root = .ok after ∧
    before.Perm (head :: rest) ∧ after.Perm (new :: rest)

theorem conditionReplaces_of_testMoves {kind : LoopKind} {t : LoopTest} {kept : Option StatId}
    (hT : g.Tidy) (hloop : g.InTree loop) (hendless : g.IsLoop loop .endless)
    (hkind : kind = .whileDo ∨ kind = .doWhile) (hat : TestAt g loop t kept)
    (h : TestMoves g g' loop kind t kept) :
    ConditionReplaces g g' loop t.head t.condition := by
  have hF := hT.wellFormed.forest
  obtain ⟨new, g₁, g₂, r, -, hcond, -, hstep, e⟩ := h
  obtain ⟨fresh, hP⟩ := hat.pruned hF hloop hT.fits r.sameLinks hstep
  obtain ⟨htTree, htloop, -⟩ := hF.ne_of_below hloop hat.below
  have grows : Grows g₁ g' := .trans (.of_exprs_eq hP.exprs) (.of_exprs_eq e.exprs)
  have hsame : ∀ s, s ≠ loop → g₁.heldBy s = g.heldBy s := fun s hs =>
    heldBy_congr (by simp [r.stats, hs, Stat.refit_id, map_id_checked])
  have hkeeps : KeepsHeld g₁ g' (· = t.stat) := by
    refine (hP.keepsHeld (r.sameLinks.forest hF) fun c hc hne => ?_).after e
    rw [r.sameLinks.childOf_eq] at hc
    obtain ⟨ct, hct, hblock, -⟩ := hat.empty hF hloop hT.fits hc hne
    have hcTree := htTree.child hc
    have hcl : c ≠ loop := fun hcl => hF.acyclic hloop (hcl ▸ hat.below.tail hc)
    rw [hsame c hcl]
    exact heldBy_eq_ok.2 ⟨ct, hct, by rw [hblock, hT.undeclared.stat hcTree hct]; rfl⟩
  -- the slots of the loop
  obtain ⟨lt, l, hlt, hl, hl'⟩ := isLoop_iff.1 hendless
  obtain ⟨hinit, hstepSlot⟩ := (hT.sparse hloop hlt hl).2 (by simp [hl'])
  obtain ⟨lt₁, hlt₁, hl₁⟩ := r.loop?_eq hlt hl
  obtain ⟨lt₂, hlt₂, hl₂⟩ := hstep.keepsLoops loop lt₁ _ hlt₁ hl₁
  obtain ⟨lt', hlt', hloop'⟩ := KeepsLoops.of_sameTree e loop lt₂ _ hlt₂ hl₂
  have hslots : g₁.heldBy loop = .ok [new] := by
    refine heldBy_eq_ok.2 ⟨lt₁, hlt₁, ?_⟩
    rw [r.declarations hlt hlt₁, hT.undeclared.stat hloop hlt, Stat.loop?_eq_some.1 hl₁]
    rcases hkind with rfl | rfl <;> simp [StatKind.exprs, Stat.loopBefore, Stat.loopAfter]
  -- what was listed before
  obtain ⟨before, hbefore, hnodup, hmem, -, apart⟩ := hT.listing
  have hloopHeld : ∀ e, ¬ g.Holds loop e := by
    intro e he
    rw [hT.holds_iff hloop hlt, Stat.loop?_eq_some.1 hl] at he
    simp [StatKind.exprs, Stat.loopBefore, Stat.loopAfter, hl'] at he
  have htest : ∀ e, g.Holds t.stat e ↔ e = t.head := by
    intro e
    obtain ⟨tt, htt, ⟨b, hb, hhead⟩, -⟩ := hat.stat
    rw [hT.holds_iff htTree htt, hb, ← hhead]
    exact List.mem_singleton
  have hhead : t.head ∈ before := (hmem t.head).2 ⟨t.stat, htTree, (htest t.head).2 rfl⟩
  have hnew : new ∉ before :=
    hT.once.not_mem_of_isCondition hbefore hhead hat.test r.grows hcond
  obtain ⟨after, hafter, hnodup', hmem'⟩ := hkeeps.listing (e.sameLinks.forest hP.forest) hT r hslots
    (List.nodup_singleton new) fun s e hs hsl he hen => by
      refine hnew (List.mem_singleton.1 hen ▸ (hmem e).2 ⟨s, hs, ?_⟩)
      exact he.of_heldBy_eq (hsame s hsl)
  refine ⟨new, before, after, before.erase t.head, ⟨_, loop?_eq_ok.2 ⟨lt', hlt', hloop'⟩, rfl⟩,
    hcond.after grows, hbefore, hafter, List.perm_cons_erase hhead, ?_⟩
  refine (List.perm_ext_iff_of_nodup hnodup' (List.nodup_cons.2
    ⟨fun hmem => hnew (List.mem_of_mem_erase hmem), hnodup.erase _⟩)).2 fun e => ?_
  rw [hmem', List.mem_cons, hnodup.mem_erase_iff]
  constructor
  · rintro ⟨s, hs, hst, he⟩
    by_cases hsl : s = loop
    · rw [hsl, ← mem_of_heldBy loop _ hslots e, List.mem_singleton] at he
      exact .inl he
    · have he := he.of_heldBy_eq (hsame s hsl)
      refine .inr ⟨fun heh => hst ?_, (hmem e).2 ⟨s, hs, he⟩⟩
      exact apart s t.stat e hs htTree he ((htest e).2 heh)
  · rintro (rfl | ⟨hne, he⟩)
    · exact ⟨loop, hloop, htloop.symm, (mem_of_heldBy loop _ hslots e).1 (by simp)⟩
    · obtain ⟨s, hs, he⟩ := (hmem e).1 he
      have hsl : s ≠ loop := fun hsl => hloopHeld e (hsl ▸ he)
      refine ⟨s, hs, ?_, he.of_heldBy_eq (hsame s hsl).symm⟩
      rintro rfl
      exact hne ((htest e).1 he)

/-! ## Moving a step and an initialisation -/

/-- Control comes to a statement over a regular edge, which leads to it or to a sequence around it.
-/
theorem exists_neighbours_of_enteredFromIn (hF : Forest g K) {n : ℕ} {u : StatId}
    (hs : g.InTree s) (h : g.enteredFromIn n s = .ok (some u)) : ∃ q sources, g.Within q s ∧
      g.InTree q ∧ g.neighbours q [.regular] .backward = .ok sources ∧ u ∈ sources := by
  induction n generalizing s with
  | zero => cases h
  | succ n ih =>
    simp only [enteredFromIn, Checked.bind_eq_ok] at h
    obtain ⟨st, hst, h⟩ := h
    cases hp : st.parent with
    | none => rw [hp] at h; cases h
    | some p =>
      rw [hp] at h
      obtain ⟨pt, hpt, h⟩ := Checked.bind_eq_ok.1 h
      split at h
      · split at h
        · have hsroot : s ≠ root := by
            rintro rfl
            obtain ⟨rt, hrt, hnone⟩ := hF.root_parent
            rw [hst] at hrt
            cases hrt
            rw [hp] at hnone
            cases hnone
          obtain ⟨p', hp', hpTree, hps⟩ := hF.exists_parent hs hsroot hst
          rw [hp] at hp'
          cases hp'
          obtain ⟨q, sources, hq, rest⟩ := ih hpTree h
          exact ⟨q, sources, hq.tail hps, rest⟩
        · obtain ⟨sources, hsources, h⟩ := Checked.bind_eq_ok.1 h
          exact ⟨s, sources, .refl, hs, hsources, List.mem_of_getElem? (Checked.pure_eq_ok.1 h)⟩
      · cases h

/-- The leaf before a loop is in the tree, but not in the loop. -/
theorem Tidy.initBefore (hT : g.Tidy) (hloop : g.InTree loop) {u : StatId} {init : ExprId}
    (h : g.initBefore? loop = .ok (some (u, init))) : g.InTree u ∧ ¬ TransGen g.ChildOf loop u ∧
      Returns (g.stat u) fun ut => ∃ exprs, ut.kind = .block exprs ∧ init ∈ exprs := by
  have hF := hT.wellFormed.forest
  obtain ⟨hbefore, hlast, -⟩ := initBefore?_eq_some h
  simp only [leafBefore?, Checked.bind_eq_ok] at hbefore
  obtain ⟨_ | previous, hprevious, hbefore⟩ := hbefore
  · cases hbefore
  simp only [Bool.true_and, Checked.bind_eq_ok] at hbefore
  obtain ⟨pt, hpt, hbefore⟩ := hbefore
  split at hbefore
  · cases hbefore
  next hleaf =>
  -- the statement before is a leaf, so it is its own last leaf
  simp only [Bool.not_eq_true', Bool.not_eq_false] at hleaf
  simp only [lastLeaf?, statLevels, lastLeafIn, hpt, Checked.ok_bind, hleaf, if_true] at hbefore
  cases hbefore
  obtain ⟨exprs, hexprs⟩ := Option.isSome_iff_exists.1 hleaf
  have hkind := Stat.exprs?_eq_some.1 hexprs
  obtain ⟨q, sources, hq, hqTree, hsources, hmem⟩ :=
    exists_neighbours_of_enteredFromIn hF hloop hprevious
  obtain ⟨l, hl, hedges⟩ := hT.edges
  obtain ⟨sources', hsources', hedge⟩ := hedges q ((mem_preorderIn hl q).2 hqTree)
  rw [hsources] at hsources'
  cases hsources'
  obtain ⟨hu, hapart⟩ := hedge u hmem
  have huTree : g.InTree u := by
    rcases hu with hu | rfl
    · exact (mem_preorderIn hl u).1 hu
    · obtain ⟨xt, hxt, hexit⟩ := hT.exit
      rw [hpt] at hxt
      cases hxt
      rw [hkind] at hexit
      cases hexit
  refine ⟨huTree, fun hbelow => ?_, pt, hpt, exprs, hkind, ?_⟩
  · exact hF.not_below_of_climbsTo hqTree huTree hapart (.trans_right hq hbelow)
  · simp only [lastExpr?, hpt, Checked.ok_bind, hexprs, Checked.pure_eq_ok] at hlast
    exact List.mem_of_getLast? hlast

/-- An empty leaf below the loop that is taken out loses nothing. -/
theorem PruneStep.keepsHeld {leaf : StatId} (h : PruneStep loop leaf none g g') (hF : Forest g K)
    (hloop : g.InTree loop) (henters : g.EntersChildren loop)
    (hbelow : TransGen g.ChildOf loop leaf)
    (hleaf : Returns (g.stat leaf) fun st => st.kind = .block [] ∧ st.children = [] ∧
      st.declarations = []) :
    ∃ K', Forest g' K' ∧ KeepsHeld g g' fun _ => False := by
  obtain ⟨lt, hlt, hblock, hchildren, hdecl⟩ := hleaf
  obtain ⟨hleafTree, -, hroot⟩ := hF.ne_of_below hloop hbelow
  have hnone : ∀ c, ¬ g.ChildOf leaf c := fun c hc => by
    rw [childOf_iff hlt, hchildren] at hc
    cases hc
  obtain ⟨fresh, hP⟩ := h.pruned hF hloop henters hleafTree hroot nofun
    fun c ct hc => absurd hc (hnone c)
  refine ⟨_, hP.forest, (hP.keepsHeld hF fun c hc => absurd hc (hnone c)).of_empty ?_⟩
  exact heldBy_eq_ok.2 ⟨lt, hlt, by rw [hblock, hdecl]; rfl⟩

/-- A leaf of the tree other than the loop lists the expression. -/
def ListsExpr (g : Graph) (loop s : StatId) (e : ExprId) : Prop :=
  g.InTree s ∧ s ≠ loop ∧ g.Holds s e ∧ Returns (g.stat s) fun st => ∃ exprs, st.kind = .block exprs

/-- Where the loop takes all that is cut from leaves and keeps what it had, all is still there. -/
theorem KeepsHeld.perm {g₁ : Graph} {f : Loop → Loop} {cuts : List (StatId × ExprId)}
    {slots : List ExprId} (h : KeepsHeld g₁ g' fun _ => False) (hF' : Forest g' K) (hT : g.Tidy)
    (hloop : g.InTree loop) (r : Refits g g₁ loop f cuts)
    (hcut : ∀ s e, (s, e) ∈ cuts → g.ListsExpr loop s e) (hslots : g₁.heldBy loop = .ok slots)
    (hnodup : slots.Nodup) (hslot : ∀ e, e ∈ slots ↔ g.Holds loop e ∨ ∃ s, (s, e) ∈ cuts) :
    ∃ before after, g.exprsIn root = .ok before ∧ g'.exprsIn root = .ok after ∧
      after.Perm before := by
  obtain ⟨before, hbefore, hbeforeNodup, hmem, -, apart⟩ := hT.listing
  -- what the other statements hold is what was not cut
  have hholds : ∀ s e, g.InTree s → s ≠ loop →
      (g₁.Holds s e ↔ g.Holds s e ∧ (s, e) ∉ cuts) := by
    intro s e hs hsl
    obtain ⟨st, hst⟩ := hT.wellFormed.forest.exists_stat hs
    rw [r.holds_iff (fun hs => absurd hs hsl) hst, hT.undeclared.stat hs hst]
    refine and_congr_right fun _ => ⟨fun hkeep hse => ?_, fun hse _ _ => hse⟩
    obtain ⟨-, -, -, st', hst', hkind⟩ := hcut s e hse
    rw [hst] at hst'
    cases hst'
    exact hkeep List.not_mem_nil hkind hse
  have hloop' : ∀ e, g₁.Holds loop e ↔ e ∈ slots := fun e =>
    (mem_of_heldBy loop slots hslots e).symm
  obtain ⟨after, hafter, hafterNodup, hmem'⟩ := h.listing hF' hT r hslots hnodup
    fun s e hs hsl he => by
    rw [hholds s e hs hsl] at he
    rw [hslot]
    rintro (heLoop | ⟨t, ht⟩)
    · exact hsl (apart s loop e hs hloop he.1 heLoop)
    · obtain ⟨htTree, -, hte, -⟩ := hcut t e ht
      exact he.2 (apart s t e hs htTree he.1 hte ▸ ht)
  refine ⟨before, after, hbefore, hafter,
    (List.perm_ext_iff_of_nodup hafterNodup hbeforeNodup).2 fun e => ?_⟩
  rw [hmem', hmem]
  constructor
  · rintro ⟨s, hs, -, he⟩
    by_cases hsl : s = loop
    · rw [hsl, hloop', hslot] at he
      rcases he with he | ⟨t, ht⟩
      · exact ⟨loop, hloop, he⟩
      · exact ⟨t, (hcut t e ht).1, (hcut t e ht).2.2.1⟩
    · exact ⟨s, hs, ((hholds s e hs hsl).1 he).1⟩
  · rintro ⟨s, hs, he⟩
    by_cases hin : e ∈ slots
    · exact ⟨loop, hloop, id, (hloop' e).2 hin⟩
    · have hsl : s ≠ loop := fun hsl => hin ((hslot e).2 (.inl (hsl ▸ he)))
      have hse : (s, e) ∉ cuts := fun hse => hin ((hslot e).2 (.inr ⟨s, hse⟩))
      exact ⟨s, hs, id, (hholds s e hs hsl).2 ⟨he, hse⟩⟩

/-- The step and the initialisation of a `for` are listed by two leaves. -/
theorem Tidy.listsExpr_init (hT : g.Tidy) (hloop : g.InTree loop) (hwhile : g.IsLoop loop .whileDo)
    {leaf u : StatId} {init : ExprId} (hbelow : TransGen g.ChildOf loop leaf)
    (h : g.initBefore? loop = .ok (some (u, init))) : g.ListsExpr loop u init ∧ u ≠ leaf := by
  obtain ⟨huTree, hapart, ut, hut, exprs, hkind, hmem⟩ := hT.initBefore hloop h
  refine ⟨⟨huTree, ?_, ?_, ut, hut, exprs, hkind⟩, ?_⟩
  · rintro rfl
    obtain ⟨lt, l, hlt, hl, -⟩ := isLoop_iff.1 hwhile
    rw [hut] at hlt
    cases hlt
    rw [Stat.loop?_eq_some, hkind] at hl
    cases hl
  · rw [hT.holds_iff huTree hut, hkind]
    exact hmem
  · rintro rfl
    exact hapart hbelow

/-- The leaf of the step is taken out only where nothing else was in it. -/
theorem Tidy.keepsHeld_emptied (hT : g.Tidy) (hloop : g.InTree loop) {g₁ : Graph} {f : Loop → Loop}
    {cuts : List (StatId × ExprId)} {leaf : StatId} {ft : Stat} {exprs : List ExprId}
    (hbelow : TransGen g.ChildOf loop leaf) (hft : g.stat leaf = .ok ft)
    (hblock : ft.kind = .block exprs) (r : Refits g g₁ loop f cuts)
    (h : g' = g₁ ∨ ∃ g₂, Returns (g₁.stat leaf) (fun st => st.isEmptyLeaf = true) ∧
      SameTree g₁ g₂ ∧ PruneStep loop leaf none g₂ g') :
    ∃ K, Forest g' K ∧ KeepsHeld g₁ g' fun _ => False := by
  have hF₁ := r.sameLinks.forest hT.wellFormed.forest
  rcases h with rfl | ⟨g₂, hempty, e, hprune⟩
  · exact ⟨_, hF₁, .refl g'⟩
  obtain ⟨hleafTree, -⟩ := hT.wellFormed.forest.ne_of_below hloop hbelow
  have hlinks := r.sameLinks.trans e.sameLinks
  have hleaf : Returns (g₂.stat leaf) fun st => st.kind = .block [] ∧ st.children = [] ∧
      st.declarations = [] := by
    obtain ⟨ft₁, hft₁, hnil⟩ := hempty
    obtain ⟨ft₂, hft₂, hkind, -, -, hchildren, hdecl⟩ := e.stat hft₁
    obtain ⟨ft', hft', -, -, hchildren'⟩ := links_eq_ok ((hlinks leaf).trans (links_of_stat hft))
    rw [hft₂] at hft'
    cases hft'
    have hshape := (hT.fits leaf ft hleafTree hft).children
    rw [hblock] at hshape
    refine ⟨ft₂, hft₂, hkind.trans (Stat.isEmptyLeaf_iff.1 hnil), hchildren'.trans hshape, ?_⟩
    rw [hdecl, r.declarations hft hft₁, hT.undeclared.stat hleafTree hft]
  have henters : g₂.EntersChildren loop := (hT.wellFormed.entersChildren hloop).congr hlinks
  obtain ⟨K, hF', hkeeps⟩ := hprune.keepsHeld (e.sameLinks.forest hF₁)
    (hlinks.inTree_iff.2 hloop) henters (hlinks.childOf_eq ▸ hbelow) hleaf
  exact ⟨K, hF', hkeeps.before e⟩

/-- A `for` has the expressions that were there with the `while`. -/
theorem exprsIn_forForm (hT : g.Tidy) (hloop : g.InTree loop) (hwhile : g.IsLoop loop .whileDo)
    (h : g.forForm? loop options = .ok (some g')) :
    ∃ before after, g.exprsIn root = .ok before ∧ g'.exprsIn root = .ok after ∧
      after.Perm before := by
  have hF := hT.wellFormed.forest
  obtain ⟨leaf, ft, exprs, step, init, g₁, hbelow, hft, hblock, hlast, hinit, r, -, h⟩ :=
    stepMoves_forForm h
  replace hbelow := hbelow (hT.wellFormed.entersChildren hloop)
  obtain ⟨hleafTree, hleafLoop, -⟩ := hF.ne_of_below hloop hbelow
  have hstep : g.ListsExpr loop leaf step := by
    refine ⟨hleafTree, hleafLoop, ?_, ft, hft, exprs, hblock⟩
    rw [hT.holds_iff hleafTree hft, hblock]
    exact List.mem_of_getLast? hlast
  have hinit : ∀ u i, init = some (u, i) → g.ListsExpr loop u i ∧ u ≠ leaf := by
    rintro u i rfl
    exact hT.listsExpr_init hloop hwhile hbelow hinit
  -- the slots of the loop
  obtain ⟨lt, l, hlt, hl, hl'⟩ := isLoop_iff.1 hwhile
  obtain ⟨hinitSlot, hstepSlot⟩ := (hT.sparse hloop hlt hl).2 (by simp [hl'])
  obtain ⟨lt₁, hlt₁, hl₁⟩ := r.loop?_eq hlt hl
  have hcondition : ∀ e, g.Holds loop e ↔ l.condition = some e := by
    intro e
    rw [hT.holds_iff hloop hlt, Stat.loop?_eq_some.1 hl]
    simp [StatKind.exprs, Stat.loopBefore, Stat.loopAfter, hl']
  have hslots : g₁.heldBy loop =
      .ok ((init.map Prod.snd).toList ++ l.condition.toList ++ [step]) := by
    refine heldBy_eq_ok.2 ⟨lt₁, hlt₁, ?_⟩
    rw [r.declarations hlt hlt₁, hT.undeclared.stat hloop hlt, Stat.loop?_eq_some.1 hl₁]
    rcases init with _ | ⟨u, i⟩ <;>
      simp [StatKind.exprs, Stat.loopBefore, Stat.loopAfter, initSlot, hinitSlot]
  obtain ⟨K, hF', hkeeps⟩ := hT.keepsHeld_emptied hloop hbelow hft hblock r h
  obtain ⟨-, -, -, -, -, apart⟩ := hT.listing
  refine hkeeps.perm hF' hT hloop r (fun s e hse => ?_) hslots ?_ fun e => ?_
  · rcases List.mem_append.1 hse with hse | hse
    · exact (hinit s e (Option.mem_toList.1 hse)).1
    · cases List.mem_singleton.1 hse
      exact hstep
  · -- the three slots come from three statements
    have hne : ∀ s t a b, g.InTree s → g.InTree t → s ≠ t → g.Holds s a → g.Holds t b → a ≠ b := by
      rintro s t a b hs ht hst ha hb rfl
      exact hst (apart s t a hs ht ha hb)
    have hstepCond : ∀ c, l.condition = some c → c ≠ step := fun c hc =>
      hne loop leaf c step hloop hleafTree hleafLoop.symm ((hcondition c).2 hc) hstep.2.2.1
    rcases init with _ | ⟨u, i⟩
    · cases hc : l.condition with
      | none => simp
      | some c => simpa using hstepCond c hc
    · obtain ⟨⟨hu, hul, hui, -⟩, huleaf⟩ := hinit u i rfl
      have hinitStep := hne u leaf i step hu hleafTree huleaf hui hstep.2.2.1
      cases hc : l.condition with
      | none => simpa using hinitStep
      | some c =>
        have hinitCond := hne u loop i c hu hloop hul hui ((hcondition c).2 hc)
        simpa using ⟨⟨hinitCond, hinitStep⟩, hstepCond c hc⟩
  · rw [hcondition]
    cases init with
    | none => simp [eq_comm]
    | some p =>
      simp [eq_comm]
      grind

/-! ## The three rewrites -/

theorem TestAt.headCondition {t : LoopTest} {kept : Option StatId} (h : TestAt g loop t kept) :
    g.headCondition? t.stat = .ok (some (t.head, t.condition)) := by
  obtain ⟨st, hst, ⟨b, hb, hhead⟩, -⟩ := h.stat
  simp [headCondition?, hst, Stat.branch?_eq_some.2 hb, hhead, h.test]

/-- No expression is lost or listed twice by a rewrite. The expressions of the tree are the same
ones before and after an endless loop becomes a `while` or a `do-while`, but that the head of the
`if` gives way to the condition of the loop, and before and after a `while` becomes a `for`. -/
theorem exprsIn_rewritten (h : g.Tidy) (hloop : Returns g.statements fun l => loop ∈ l) :
    (g.IsLoop loop .endless → g.whileForm? loop = .ok (some g') → ∃ test head condition,
      g.leading? loop = .ok (some test) ∧ g.headCondition? test = .ok (some (head, condition)) ∧
        ConditionReplaces g g' loop head condition) ∧
    (g.IsLoop loop .endless → g.doWhileForm? loop = .ok (some g') → ∃ test head condition,
      g.trailing? loop = .ok (some test) ∧ g.headCondition? test = .ok (some (head, condition)) ∧
        ConditionReplaces g g' loop head condition) ∧
    (g.IsLoop loop .whileDo → ∀ options, g.forForm? loop options = .ok (some g') → ∃ before after,
      g.exprsIn root = .ok before ∧ g'.exprsIn root = .ok after ∧ after.Perm before) := by
  obtain ⟨l, hl, hmem⟩ := hloop
  have hloop : g.InTree loop := (mem_preorderIn hl loop).1 hmem
  have henters := h.wellFormed.entersChildren hloop
  refine ⟨fun hendless hform => ?_, fun hendless hform => ?_,
    fun hwhile options hform => ?_⟩
  · obtain ⟨t, kept, hleading, hat, hmoves⟩ := testMoves_whileForm hform
    exact ⟨t.stat, t.head, t.condition, hleading, (hat henters).headCondition,
      conditionReplaces_of_testMoves h hloop hendless (.inl rfl) (hat henters) hmoves⟩
  · obtain ⟨t, kept, htrailing, hat, hmoves⟩ := testMoves_doWhileForm hform
    exact ⟨t.stat, t.head, t.condition, htrailing, (hat henters).headCondition,
      conditionReplaces_of_testMoves h hloop hendless (.inr rfl) (hat henters) hmoves⟩
  · exact exprsIn_forForm h hloop hwhile hform

/-- In the method that counts, the endless loop becomes a `while` and then a `for`. -/
theorem exprsIn_rewritten_countingMethod :
    Returns (countingMethod.whileForm? ⟨4⟩) fun r => ∃ g₁ ∈ r.toList,
      ConditionReplaces countingMethod g₁ ⟨4⟩ ⟨7⟩ ⟨6⟩ ∧
      Returns (g₁.forForm? ⟨4⟩ .default) fun r' => ∃ g₂ ∈ r'.toList, ∃ before after,
        g₁.exprsIn root = .ok before ∧ g₂.exprsIn root = .ok after ∧ after.Perm before := by
  have hrun : Returns (countingMethod.whileForm? ⟨4⟩) fun r => ∃ g₁ ∈ r.toList,
      (g₁.Tidy ∧ Returns g₁.statements (fun l => ⟨4⟩ ∈ l) ∧ g₁.IsLoop ⟨4⟩ .whileDo) ∧
        Returns (g₁.forForm? ⟨4⟩ .default) fun r' => r'.isSome := by
    decide +kernel
  have hhead : Returns (countingMethod.leading? ⟨4⟩) fun r => r = some ⟨6⟩ ∧
      countingMethod.headCondition? ⟨6⟩ = .ok (some (⟨7⟩, ⟨6⟩)) := by
    decide +kernel
  obtain ⟨r, hr, g₁, hg₁, ⟨hT, hloop, hwhile⟩, r', hr', hsome⟩ := hrun
  obtain ⟨g₂, rfl⟩ := Option.isSome_iff_exists.1 hsome
  obtain rfl := Option.mem_toList.1 hg₁
  obtain ⟨test, head, condition, hleading, hcondition, hreplaces⟩ :=
    (exprsIn_rewritten (by decide +kernel) (by decide +kernel)).1 (by decide +kernel) hr
  obtain ⟨_, hleading', rfl, hcondition'⟩ := hhead
  rw [hleading] at hleading'
  cases hleading'
  rw [hcondition] at hcondition'
  cases hcondition'
  exact ⟨_, hr, g₁, hg₁, hreplaces, _, hr', g₂, by simp,
    (exprsIn_rewritten hT hloop).2.2 hwhile _ hr'⟩

end Graph

end Decompiler

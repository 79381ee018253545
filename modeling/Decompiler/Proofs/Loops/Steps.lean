import Decompiler.Proofs.Loops.References

/-!
# Where steps are taken from

A `while` that becomes a `for`, or a loop over an array, gives up the last expression of the last
leaf of its body. That leaf is found by going from a statement to its last child that is no empty
leaf, whatever kind of statement it is, also into inner loops and statements that guard what is in
them.

* `Graph.Ends`: one step of that way. There is at most one from each statement, and what lies
  between the loop and the leaf lies on the way (`Graph.Forest.ends_of_between`).
* `Graph.PullsStep`: a step is taken out of a leaf.
* `Graph.pullsStep_crosses_iff`: the step is taken out of such a statement if and only if the body
  ends in one. `Graph.not_outside_regions` has loops with a step in each of them.
-/

namespace Decompiler

open Relation

/-- Statements of the kind repeat what is in them, or guard it by handlers or a monitor. -/
def StatKind.isRegion : StatKind → Bool
  | .loop _ | .tryCatch _ | .catchAll _ _ _ | .synchronized _ _ => true
  | _ => false

theorem Stat.isLeaf_of_isEmptyLeaf {s : Stat} (h : s.isEmptyLeaf = true) : s.isLeaf = true := by
  rw [isEmptyLeaf, decide_eq_true_iff] at h
  simp [isLeaf, h]

namespace Graph

variable {g g' : Graph} {s a b c d r loop leaf : StatId} {step : ExprId} {options : Options}

/-! ## The way to the last leaf -/

/-- The statement is a leaf without expressions. -/
def EmptyLeaf (g : Graph) (s : StatId) : Prop := Returns (g.stat s) fun st => st.isEmptyLeaf = true

/-- `c` is the last child of `s` that is no empty leaf. -/
def Ends (g : Graph) (s c : StatId) : Prop :=
  Returns (g.stat s) fun st => ∃ front rest, st.children = front ++ c :: rest ∧
    ¬ g.EmptyLeaf c ∧ ∀ d ∈ rest, g.EmptyLeaf d

theorem Ends.childOf (h : g.Ends s c) : g.ChildOf s c := by
  obtain ⟨st, hst, front, rest, hchildren, -⟩ := h
  exact ⟨st, hst, by simp [hchildren]⟩

/-- Of two lists around an element each, one element comes later or they are the same. -/
theorem eq_or_mem_of_append_eq {α : Type} {x y : α} {front front' rest rest' : List α}
    (h : front ++ x :: rest = front' ++ y :: rest') : x = y ∨ x ∈ rest' ∨ y ∈ rest := by
  rcases List.append_eq_append_iff.1 h with ⟨l, -, hl⟩ | ⟨l, -, hl⟩ <;> cases l <;> simp_all

theorem Ends.unique (h : g.Ends s c) (h' : g.Ends s d) : c = d := by
  obtain ⟨st, hst, front, rest, hchildren, hc, hrest⟩ := h
  obtain ⟨st', hst', front', rest', hchildren', hd, hrest'⟩ := h'
  rw [hst] at hst'
  cases hst'
  rcases eq_or_mem_of_append_eq (hchildren.symm.trans hchildren') with heq | hmem | hmem
  · exact heq
  · exact absurd (hrest' c hmem) hc
  · exact absurd (hrest d hmem) hd

/-- The search passes over leading statements in which it finds an empty leaf. -/
theorem lastLeafAmong_eq_some {search : StatId → Checked (Option StatId)} {l : List StatId}
    (h : g.lastLeafAmong search l = .ok (some leaf)) : ∃ passed c others,
      l = passed ++ c :: others ∧ search c = .ok (some leaf) ∧ ¬ g.EmptyLeaf leaf ∧
      ∀ d ∈ passed, ∃ x, search d = .ok (some x) ∧ g.EmptyLeaf x := by
  induction l with
  | nil => cases h
  | cons c l ih =>
    obtain ⟨_ | found, hfound, h⟩ := Checked.bind_eq_ok.1 h
    · cases h
    obtain ⟨ft, hft, h⟩ := Checked.bind_eq_ok.1 h
    split at h
    · next hempty =>
      obtain ⟨passed, d, others, rfl, hd, hleaf, hpassed⟩ := ih h
      refine ⟨c :: passed, d, others, rfl, hd, hleaf, List.forall_mem_cons.2 ⟨?_, hpassed⟩⟩
      exact ⟨found, hfound, ft, hft, hempty⟩
    · next hempty =>
      cases h
      refine ⟨[], c, l, rfl, hfound, ?_, nofun⟩
      rintro ⟨ft', hft', hempty'⟩
      rw [hft] at hft'
      cases hft'
      exact hempty hempty'

/-- An empty leaf is only found at that leaf. -/
theorem eq_of_lastLeafIn {n : ℕ} (h : g.lastLeafIn n s = .ok (some leaf))
    (hempty : g.EmptyLeaf leaf) : s = leaf := by
  cases n with
  | zero => cases h
  | succ n =>
    obtain ⟨st, hst, h⟩ := Checked.bind_eq_ok.1 h
    split at h
    · exact Option.some.inj (Checked.pure_eq_ok.1 h)
    · obtain ⟨-, -, -, -, -, hnot, -⟩ := lastLeafAmong_eq_some h
      exact absurd hempty hnot

theorem ends_lastLeafIn {n : ℕ} (h : g.lastLeafIn n s = .ok (some leaf)) :
    ReflTransGen g.Ends s leaf := by
  induction n generalizing s with
  | zero => cases h
  | succ n ih =>
    obtain ⟨st, hst, h⟩ := Checked.bind_eq_ok.1 h
    split at h
    · cases h
      exact .refl
    obtain ⟨passed, c, others, hl, hc, hleaf, hpassed⟩ := lastLeafAmong_eq_some h
    -- the children come in reverse order
    have hchildren : st.children = others.reverse ++ c :: passed.reverse := by
      simpa using congrArg List.reverse hl
    have hempty : ∀ d ∈ passed.reverse, g.EmptyLeaf d := by
      intro d hd
      obtain ⟨x, hx, hxempty⟩ := hpassed d (List.mem_reverse.1 hd)
      exact eq_of_lastLeafIn hx hxempty ▸ hxempty
    have hcEnds : ¬ g.EmptyLeaf c := by
      rintro ⟨ct, hct, hcempty⟩
      cases n with
      | zero => cases hc
      | succ n =>
        simp only [lastLeafIn, hct, Checked.ok_bind, Stat.isLeaf_of_isEmptyLeaf hcempty,
          if_true] at hc
        cases hc
        exact hleaf ⟨ct, hct, hcempty⟩
    exact .head ⟨st, hst, others.reverse, passed.reverse, hchildren, hcEnds, hempty⟩ (ih hc)

/-- In a tree, what lies between a statement and the end of a way lies on the way. -/
theorem Forest.ends_of_within (hF : Forest g g.InTree) (ha : g.InTree a)
    (h : ReflTransGen g.Ends a leaf) (har : g.Within a r) (hr : g.Within r leaf) :
    ReflTransGen g.Ends a r := by
  induction h using ReflTransGen.head_induction_on with
  | refl =>
    rcases reflTransGen_iff_eq_or_transGen.1 har with rfl | hbelow
    · exact .refl
    · exact absurd (hbelow.trans_left hr) (hF.acyclic ha)
  | @head a c hac hc ih =>
    rcases ReflTransGen.cases_head har with rfl | ⟨d, had, hdr⟩
    · exact .refl
    · have hcleaf : g.Within c leaf := ReflTransGen.mono (fun _ _ => Ends.childOf) _ _ hc
      obtain rfl := hF.eq_of_within ha hac.childOf had hcleaf (hdr.trans hr)
      exact .head hac (ih (ha.child had) hdr)

/-! ## Steps of loops -/

/-- `r` is the body of a loop, or lies on the way from there to its last leaf. -/
def EndsBody (g : Graph) (loop r : StatId) : Prop :=
  ∃ body, Returns (g.stat loop) (fun st => st.first = some body) ∧ ReflTransGen g.Ends body r

/-- `r` lies strictly between a statement and one that lies in it. -/
def Between (g : Graph) (loop r leaf : StatId) : Prop :=
  TransGen g.ChildOf loop r ∧ TransGen g.ChildOf r leaf

/-- The statement repeats what is in it, or guards it by handlers or a monitor. -/
def IsRegion (g : Graph) (s : StatId) : Prop :=
  Returns (g.stat s) fun st => st.kind.isRegion = true

/-- The body of the loop ends in a statement that repeats or guards what is in it. -/
def EndsInRegion (g : Graph) (loop : StatId) : Prop := ∃ r, g.EndsBody loop r ∧ g.IsRegion r

/-- A step is taken out of a leaf, which is the last one of the body of a loop. -/
structure PullsStep (g g' : Graph) (loop leaf : StatId) (step : ExprId) : Prop where
  /-- The leaf ends the body. -/
  ends : g.EndsBody loop leaf
  /-- The step ends the leaf. -/
  last : Returns (g.stat leaf) fun st => ∃ exprs, st.kind = .block exprs ∧
    exprs.getLast? = some step
  /-- Afterwards the leaf does not list it any more. -/
  gone : ¬ g'.Lists leaf step

theorem EndsBody.below (henters : g.EntersChildren loop) (h : g.EndsBody loop r) :
    TransGen g.ChildOf loop r := by
  obtain ⟨body, hbody, h⟩ := h
  exact .head' (henters loop body .refl hbody) (ReflTransGen.mono (fun _ _ => Ends.childOf) _ _ h)

/-- What lies between a loop and the last leaf of its body lies on the way to the leaf. -/
theorem Forest.endsBody_of_between (hF : Forest g g.InTree) (hloop : g.InTree loop)
    (henters : g.EntersChildren loop) (h : g.EndsBody loop leaf) (hr : g.Between loop r leaf) :
    g.EndsBody loop r := by
  obtain ⟨body, hbody, h⟩ := h
  obtain ⟨c, hc, hcr⟩ := TransGen.head'_iff.1 hr.1
  have hchild : g.ChildOf loop body := henters loop body .refl hbody
  have hleaf : g.Within body leaf := ReflTransGen.mono (fun _ _ => Ends.childOf) _ _ h
  have hrleaf := hr.2.to_reflTransGen
  -- the leaf lies in one child only
  obtain rfl := hF.eq_of_within hloop hchild hc hleaf (hcr.trans hrleaf)
  exact ⟨body, hbody, hF.ends_of_within (hloop.child hchild) h hcr hrleaf⟩

/-- A statement on the way to the last leaf is that leaf or lies above it. -/
theorem EndsBody.within (h : g.EndsBody loop r) (hleaf : g.EndsBody loop leaf)
    (hchildless : ∀ c, ¬ g.ChildOf leaf c) : g.Within r leaf := by
  obtain ⟨body, ⟨st, hst, hbody⟩, h⟩ := h
  obtain ⟨body', ⟨st', hst', hbody'⟩, hleaf⟩ := hleaf
  rw [hst] at hst'
  cases hst'
  rw [hbody] at hbody'
  cases hbody'
  rcases ReflTransGen.total_of_right_unique (r := g.Ends) (fun _ _ _ => Ends.unique) h hleaf
    with h | h
  · exact ReflTransGen.mono (fun _ _ => Ends.childOf) _ _ h
  · rcases ReflTransGen.cases_head h with rfl | ⟨c, hc, -⟩
    · exact .refl
    · exact absurd hc.childOf (hchildless c)

/-- A step leaves a statement that repeats or guards it exactly when the body ends in one. -/
theorem PullsStep.crosses_iff (hwf : g.WellFormed) (hloop : g.InTree loop)
    (h : g.PullsStep g' loop leaf step) :
    (∃ r, g.Between loop r leaf ∧ g.IsRegion r) ↔ g.EndsInRegion loop := by
  have hF := hwf.forest
  have henters := hwf.entersChildren hloop
  obtain ⟨lt, hlt, exprs, hkind, -⟩ := h.last
  have hTree : g.InTree leaf := hloop.within (h.ends.below henters).to_reflTransGen
  have hchildless : ∀ c, ¬ g.ChildOf leaf c := fun c hc => by
    have hshape := (hwf.fits hTree hlt).children
    rw [hkind] at hshape
    rw [childOf_iff hlt, hshape] at hc
    cases hc
  refine exists_congr fun r => and_congr_left fun ⟨rt, hrt, hregion⟩ => ⟨fun hr =>
    hF.endsBody_of_between hloop henters h.ends hr, fun hr => ⟨hr.below henters, ?_⟩⟩
  rcases reflTransGen_iff_eq_or_transGen.1 (hr.within h.ends hchildless) with rfl | hbelow
  · rw [hlt] at hrt
    cases hrt
    rw [hkind] at hregion
    cases hregion
  · exact hbelow

/-! ## The two forms -/

/-- What a change of slots cuts from a leaf is not listed there any more. -/
theorem Refits.not_lists {f : Loop → Loop} {cuts : List (StatId × ExprId)}
    (h : Refits g g' loop f cuts) (hcut : (leaf, step) ∈ cuts) : ¬ g'.Lists leaf step := by
  rintro ⟨st', hst', hmem⟩
  obtain ⟨st, -, heq⟩ := h.stat_before hst'
  obtain ⟨l, hl, hmem⟩ := Stat.mem_exprs?.1 hmem
  rw [(Stat.bare_eq_iff.1 heq).1, Stat.refit_kind_eq_block] at hl
  obtain ⟨l₀, -, rfl⟩ := hl
  simp [hcut] at hmem

/-- A `for` takes its step out of the last leaf of the body. All that continues the loop by an edge
is that leaf. -/
theorem pullsStep_forForm (h : g.forForm? loop options = .ok (some g')) : ∃ leaf step,
    g.PullsStep g' loop leaf step ∧
    (∀ l, g'.loopAt loop = some l → l.kind = .counted ∧ l.step = some step) ∧
    Returns (g.neighbours loop [.continueTo] .backward) fun sources => ∀ s ∈ sources, s = leaf := by
  obtain ⟨st, body, leaf, lt, step, init, hst, hfirst, hleaf, hlt, hstep, hinit, h, hcontinues⟩ :=
    forForm?_eq_some h
  obtain ⟨g₁, r, -, h⟩ := refits_toCounted h
  obtain ⟨exprs, hexprs, hlast⟩ : ∃ exprs, lt.exprs? = some exprs ∧ exprs.getLast? = some step := by
    cases hexprs : lt.exprs? with
    | none => simp [hexprs] at hstep
    | some exprs => exact ⟨exprs, rfl, by simpa [hexprs] using hstep⟩
  have hends : g.EndsBody loop leaf := ⟨body, ⟨st, hst, hfirst⟩, ends_lastLeafIn hleaf⟩
  -- taking the leaf out if it is empty changes neither loops nor what leaves list
  have htrait : ∀ {β : Type} {φ : Stat → Option β}, Stat.IsTrait φ → SameTrait φ g₁ g' := by
    intro β φ hφ
    rcases pruneStep_dropEmptyLeaf h with rfl | ⟨g₂, -, e, hprune⟩
    · exact .refl _
    · exact (SameTrait.of_sameTree hφ e).trans (hprune.sameTrait hφ)
  have hgone : ¬ g'.Lists leaf step := by
    rw [lists_iff_listed?, htrait Stat.isTrait_listed?, ← lists_iff_listed?]
    exact r.not_lists (by simp)
  refine ⟨leaf, step, ⟨hends, ⟨lt, hlt, exprs, Stat.exprs?_eq_some.1 hexprs, hlast⟩, hgone⟩,
    fun l hl => ?_, hcontinues⟩
  have hloopAt : g'.loopAt loop = g₁.loopAt loop := htrait Stat.isTrait_loop? loop
  rw [hloopAt, r.loopAt, if_pos rfl, Option.map_eq_some_iff] at hl
  obtain ⟨l₀, -, rfl⟩ := hl
  exact ⟨rfl, rfl⟩

/-- So does a loop over an array, which drops it. -/
theorem pullsStep_overArray {m : ElementLoop} (hm : g.elementLoop? loop = .ok (some m))
    (h : g.overArray? m = .ok (some g')) : ∃ leaf step,
    g.PullsStep g' loop leaf step ∧ g'.IsLoop loop .forEach := by
  obtain ⟨rfl, ⟨st, hst, l, hl, -⟩, -, -, st', hst', body, hbody, hlast⟩ := elementLoop?_parts hm
  rw [hst] at hst'
  cases hst'
  obtain ⟨a, source, cuts, ha, -, t, -, hcut⟩ := takesElements_array h
  obtain ⟨p, rfl, hform⟩ := arrayLoop?_eq_some.1 ha
  rw [hform.last] at hlast
  obtain ⟨_ | leaf, hleaf, hlast⟩ := Checked.bind_eq_ok.1 hlast
  · cases hlast
  obtain ⟨last, hexpr, hlast⟩ := Checked.bind_eq_ok.1 hlast
  obtain ⟨e, rfl, he⟩ := Option.map_eq_some_iff.1 (Checked.pure_eq_ok.1 hlast)
  obtain ⟨lt, hlt, hexpr⟩ := Checked.bind_eq_ok.1 hexpr
  obtain ⟨exprs, hexprs, hstep⟩ := Option.bind_eq_some_iff.1 (Checked.pure_eq_ok.1 hexpr)
  cases he
  refine ⟨p.lastLeaf, p.step, ⟨⟨body, ⟨st, hst, hbody⟩, ends_lastLeafIn hleaf⟩,
    ⟨lt, hlt, exprs, Stat.exprs?_eq_some.1 hexprs, hstep⟩, t.refits.not_lists hcut⟩, ?_⟩
  exact t.refits.isLoop (fun _ => rfl) (isLoop_iff.2 ⟨st, l, hst, hl, rfl⟩)

/-! ## Steps that leave what guards them -/

/-- **A step is taken out of what repeats or guards it only where the body ends in that.** A loop
that becomes a `for` or a loop over an array gives up the last expression of the last leaf of its
body. No loop, `try`, catch-all or synchronized statement stands between the loop and that leaf,
unless the body ends in one, and then one does. What continues a loop that becomes a `for` by an
edge of its own is never among them, since it would have to be the leaf itself. -/
theorem pulledSteps_stayInside_iff (hwf : g.WellFormed) (hloop : g.InTree loop) :
    (∀ options g', g.forForm? loop options = .ok (some g') → ∃ leaf step,
      g.PullsStep g' loop leaf step ∧
      (∀ l, g'.loopAt loop = some l → l.kind = .counted ∧ l.step = some step) ∧
      Returns (g.neighbours loop [.continueTo] .backward)
        (fun sources => ∀ s ∈ sources, s = leaf) ∧
      ((∀ r, g.Between loop r leaf → ¬ g.IsRegion r) ↔ ¬ g.EndsInRegion loop)) ∧
    ∀ m g', g.elementLoop? loop = .ok (some m) → g.overArray? m = .ok (some g') → ∃ leaf step,
      g.PullsStep g' loop leaf step ∧ g'.IsLoop loop .forEach ∧
      ((∀ r, g.Between loop r leaf → ¬ g.IsRegion r) ↔ ¬ g.EndsInRegion loop) := by
  have hiff : ∀ {g' leaf step}, g.PullsStep g' loop leaf step →
      ((∀ r, g.Between loop r leaf → ¬ g.IsRegion r) ↔ ¬ g.EndsInRegion loop) := fun h => by
    rw [← h.crosses_iff hwf hloop]
    simp only [not_exists, not_and]
  refine ⟨fun options g' h => ?_, fun m g' hm h => ?_⟩
  · obtain ⟨leaf, step, hpulls, hslot, hcontinues⟩ := pullsStep_forForm h
    exact ⟨leaf, step, hpulls, hslot, hcontinues, hiff hpulls⟩
  · obtain ⟨leaf, step, hpulls, hkind⟩ := pullsStep_overArray hm h
    exact ⟨leaf, step, hpulls, hkind, hiff hpulls⟩

/-- The body of a method that visits the elements of an array from within a statement of some kind:
`v1 = v2.length; v3 = 0; while (v3 < v1) { … { v4 = v2[v3]; v3++; } }`. The statement may have an
empty leaf besides, as a head block or a handler. -/
def steppingMethod (kind : StatKind) (children : List StatId) : Graph where
  stats := ⟨#[
    ⟨.exit, none, none, [], [], [], [], []⟩,
    ⟨.root, none, some ⟨2⟩, [⟨2⟩], [], [], [], []⟩,
    ⟨.sequence, some ⟨1⟩, some ⟨3⟩, [⟨3⟩, ⟨4⟩], [], [], [], []⟩,
    ⟨.block [⟨3⟩, ⟨6⟩], some ⟨2⟩, none, [], [], [⟨0⟩], [], []⟩,
    ⟨.loop ⟨.whileDo, none, some ⟨9⟩, none⟩, some ⟨2⟩, some ⟨5⟩, [⟨5⟩], [], [], [⟨0⟩, ⟨1⟩], [⟨1⟩]⟩,
    ⟨kind, some ⟨4⟩, children.head?, children, [], [], [], []⟩,
    ⟨.block [⟨14⟩, ⟨16⟩], some ⟨5⟩, none, [], [], [⟨1⟩], [], []⟩,
    ⟨.block [], some ⟨5⟩, none, [], [], [], [], []⟩]⟩
  edges := ⟨#[
    ⟨.regular, ⟨3⟩, ⟨4⟩, none, true, true⟩,
    ⟨.continueTo, ⟨6⟩, ⟨4⟩, some ⟨4⟩, true, true⟩]⟩
  exprs :=
    let occurrence (index : ℕ) (dims : UInt8) : ExprNode :=
      ⟨.var ⟨⟨index, 0⟩, ⟨.int, dims⟩, false, false, none⟩, .empty⟩
    ⟨#[
      occurrence 1 0,
      occurrence 2 1,
      ⟨.apply .arrayLength [⟨1⟩], .empty⟩,
      ⟨.assign ⟨0⟩ ⟨2⟩, .empty⟩,
      occurrence 3 0,
      ⟨.const ⟨.int, 0⟩ (.int 0), .empty⟩,
      ⟨.assign ⟨4⟩ ⟨5⟩, .empty⟩,
      occurrence 3 0,
      occurrence 1 0,
      ⟨.apply .lt [⟨7⟩, ⟨8⟩], .empty⟩,
      occurrence 4 0,
      occurrence 2 1,
      occurrence 3 0,
      ⟨.element ⟨11⟩ ⟨12⟩, .empty⟩,
      ⟨.assign ⟨10⟩ ⟨13⟩, .empty⟩,
      occurrence 3 0,
      ⟨.apply .postInc [⟨15⟩], .empty⟩]⟩

/-- The loop of the method takes both forms. -/
def TakesBothForms (g : Graph) : Prop :=
  Returns (g.forForm? ⟨4⟩ .default) (fun r => r.isSome) ∧
    Returns (g.elementLoop? ⟨4⟩) fun m => ∃ m' ∈ m.toList,
      Returns (g.overArray? m') fun r => r.isSome

instance (g : Graph) : Decidable g.TakesBothForms := inferInstanceAs (Decidable (_ ∧ _))

theorem TakesBothForms.exists_forms (h : g.TakesBothForms) :
    (∃ g', g.forForm? ⟨4⟩ .default = .ok (some g')) ∧
      ∃ m g', g.elementLoop? ⟨4⟩ = .ok (some m) ∧ g.overArray? m = .ok (some g') := by
  obtain ⟨⟨r, hr, hsome⟩, m, hm, m', hm', r', hr', hsome'⟩ := h
  obtain ⟨g₁, rfl⟩ := Option.isSome_iff_exists.1 hsome
  obtain ⟨g₂, rfl⟩ := Option.isSome_iff_exists.1 hsome'
  obtain rfl := Option.mem_toList.1 hm'
  exact ⟨⟨g₁, hr⟩, m', g₂, hm, hr'⟩

theorem inTree_steppingMethod (kind : StatKind) (children : List StatId) :
    (steppingMethod kind children).InTree ⟨4⟩ :=
  .head (b := ⟨2⟩) ⟨_, rfl, List.mem_cons_self⟩
    (.single ⟨_, rfl, List.mem_cons_of_mem _ List.mem_cons_self⟩)

/-- In a sequence nothing guards the step. -/
theorem pulledSteps_stayInside_sequence :
    let g := steppingMethod .sequence [⟨6⟩, ⟨7⟩]
    (g.WellFormed ∧ g.InTree ⟨4⟩ ∧ ¬ g.EndsInRegion ⟨4⟩) ∧
      Returns (g.forForm? ⟨4⟩ .default) (fun r => ∃ g' ∈ r.toList, ∃ leaf step,
        g.PullsStep g' ⟨4⟩ leaf step ∧ ∀ r, g.Between ⟨4⟩ r leaf → ¬ g.IsRegion r) ∧
      ∃ m, g.elementLoop? ⟨4⟩ = .ok (some m) ∧
        Returns (g.overArray? m) fun r => ∃ g' ∈ r.toList, ∃ leaf step,
          g.PullsStep g' ⟨4⟩ leaf step ∧ ∀ r, g.Between ⟨4⟩ r leaf → ¬ g.IsRegion r := by
  intro g
  have hwf : g.WellFormed := by decide +kernel
  have hloop : g.InTree ⟨4⟩ := inTree_steppingMethod _ _
  have hboth : g.TakesBothForms := by decide +kernel
  have hregions : ∀ s ∈ g.stats.ids, Returns (g.stat s) fun st =>
      st.kind.isRegion = true → s = ⟨4⟩ := by decide +kernel
  have hend : ¬ g.EndsInRegion ⟨4⟩ := by
    rintro ⟨r, hr, rt, hrt, hregion⟩
    obtain ⟨rt', hrt', hself⟩ := hregions r (Arena.mem_ids.2 ⟨rt, hrt⟩)
    rw [hrt] at hrt'
    cases hrt'
    exact (hwf.forest.ne_of_below hloop (hr.below (hwf.entersChildren hloop))).2.1 (hself hregion)
  obtain ⟨⟨g₁, h₁⟩, m, g₂, hm, h₂⟩ := hboth.exists_forms
  obtain ⟨leaf₁, step₁, hpulls₁, -, -, hiff₁⟩ :=
    (pulledSteps_stayInside_iff hwf hloop).1 .default g₁ h₁
  obtain ⟨leaf₂, step₂, hpulls₂, -, hiff₂⟩ := (pulledSteps_stayInside_iff hwf hloop).2 m g₂ hm h₂
  exact ⟨⟨hwf, hloop, hend⟩, ⟨_, h₁, g₁, by simp, leaf₁, step₁, hpulls₁, hiff₁.2 hend⟩, m, hm, _,
    h₂, g₂, by simp, leaf₂, step₂, hpulls₂, hiff₂.2 hend⟩

/-- In both forms the loop takes a step out of a statement that repeats or guards it. -/
def TakesStepAcross (g : Graph) : Prop :=
  Returns (g.forForm? ⟨4⟩ .default) (fun r => ∃ g' ∈ r.toList, ∃ leaf step,
    g.PullsStep g' ⟨4⟩ leaf step ∧ ∃ r, g.Between ⟨4⟩ r leaf ∧ g.IsRegion r) ∧
  ∃ m, g.elementLoop? ⟨4⟩ = .ok (some m) ∧
    Returns (g.overArray? m) fun r => ∃ g' ∈ r.toList, ∃ leaf step,
      g.PullsStep g' ⟨4⟩ leaf step ∧ ∃ r, g.Between ⟨4⟩ r leaf ∧ g.IsRegion r

theorem takesStepAcross_steppingMethod {kind : StatKind} {children : List StatId}
    (hregion : kind.isRegion = true) (hwf : (steppingMethod kind children).WellFormed)
    (hboth : (steppingMethod kind children).TakesBothForms) :
    (steppingMethod kind children).TakesStepAcross := by
  have hloop := inTree_steppingMethod kind children
  have hend : (steppingMethod kind children).EndsInRegion ⟨4⟩ :=
    ⟨⟨5⟩, ⟨⟨5⟩, ⟨_, rfl, rfl⟩, .refl⟩, _, rfl, hregion⟩
  obtain ⟨⟨g₁, h₁⟩, m, g₂, hm, h₂⟩ := hboth.exists_forms
  obtain ⟨leaf₁, step₁, hpulls₁, -⟩ := pullsStep_forForm h₁
  obtain ⟨leaf₂, step₂, hpulls₂, -⟩ := pullsStep_overArray hm h₂
  exact ⟨⟨_, h₁, g₁, by simp, leaf₁, step₁, hpulls₁, (hpulls₁.crosses_iff hwf hloop).2 hend⟩,
    m, hm, _, h₂, g₂, by simp, leaf₂, step₂, hpulls₂, (hpulls₂.crosses_iff hwf hloop).2 hend⟩

/-- The body of the outer loop is an inner one. -/
def stepsInLoop : Graph := steppingMethod (.loop ⟨.endless, none, none, none⟩) [⟨6⟩]

/-- The body is a `try` with a handler. -/
def stepsInTry : Graph := steppingMethod (.tryCatch []) [⟨6⟩, ⟨7⟩]

/-- The body is a `try` with a handler for everything. -/
def stepsInCatchAll : Graph := steppingMethod (.catchAll [] true none) [⟨6⟩, ⟨7⟩]

/-- The body is synchronized. -/
def stepsInMonitor : Graph := steppingMethod (.synchronized none ⟨6⟩) [⟨7⟩, ⟨6⟩]

/-- A step is taken out of an inner loop, a `try`, a catch-all and a synchronized statement. -/
theorem not_outside_regions :
    (stepsInLoop.WellFormed ∧ stepsInLoop.TakesStepAcross) ∧
      (stepsInTry.WellFormed ∧ stepsInTry.TakesStepAcross) ∧
      (stepsInCatchAll.WellFormed ∧ stepsInCatchAll.TakesStepAcross) ∧
      stepsInMonitor.WellFormed ∧ stepsInMonitor.TakesStepAcross := by
  have hloop : stepsInLoop.WellFormed := by decide +kernel
  have htry : stepsInTry.WellFormed := by decide +kernel
  have hall : stepsInCatchAll.WellFormed := by decide +kernel
  have hmonitor : stepsInMonitor.WellFormed := by decide +kernel
  exact ⟨⟨hloop, takesStepAcross_steppingMethod rfl hloop (by decide +kernel)⟩,
    ⟨htry, takesStepAcross_steppingMethod rfl htry (by decide +kernel)⟩,
    ⟨hall, takesStepAcross_steppingMethod rfl hall (by decide +kernel)⟩,
    hmonitor, takesStepAcross_steppingMethod rfl hmonitor (by decide +kernel)⟩

end Graph

end Decompiler

import Decompiler.Proofs.Loops.Phases

/-!
# Recognition comes to rest

The loops of a method are visited until a round counts no change. That such a round leaves the graph
as it was needs that a matcher which changes anything at all changes the kind of the loop it looks
at.

* `Graph.betterForm?_kind`: a visit that makes a rewrite leaves a loop of another kind.
* `Graph.visitLoop_cases`, `Graph.recogniseOnce_unchanged`: a visit is counted or leaves the graph
  alone, and so is a round.
* `Graph.recogniseLoops_again`: when the loops have been recognised, doing it again changes nothing.
-/

namespace Decompiler.Graph

variable {g g' : Graph} {loop s : StatId} {options : Options}

/-! ## The kind of a loop -/

theorem isLoop_whileForm {old : LoopKind} (h : g.whileForm? loop = .ok (some g'))
    (hloop : g.IsLoop loop old) : g'.IsLoop loop .whileDo := by
  obtain ⟨t, kept, -, -, hmoves⟩ := testMoves_whileForm h
  exact hmoves.isLoop hloop

theorem isLoop_doWhileForm {old : LoopKind} (h : g.doWhileForm? loop = .ok (some g'))
    (hloop : g.IsLoop loop old) : g'.IsLoop loop .doWhile := by
  obtain ⟨t, kept, -, -, hmoves⟩ := testMoves_doWhileForm h
  exact hmoves.isLoop hloop

theorem isLoop_forForm {old : LoopKind} (h : g.forForm? loop options = .ok (some g'))
    (hloop : g.IsLoop loop old) : g'.IsLoop loop .counted := by
  obtain ⟨leaf, lt, exprs, step, init, g₁, -, -, -, -, -, r, -, h⟩ := stepMoves_forForm h
  have h₁ : g₁.IsLoop loop .counted := r.isLoop (fun _ => rfl) hloop
  rcases h with rfl | ⟨g₂, -, e, hstep⟩
  · exact h₁
  · exact hstep.keepsLoops.isLoop ((KeepsLoops.of_sameTree e).isLoop h₁)

theorem isLoop_forEachForm {old : LoopKind} (h : g.forEachForm? loop = .ok (some g'))
    (hloop : g.IsLoop loop old) : g'.IsLoop loop .forEach := by
  obtain ⟨element, source, cuts, t⟩ := takesElements_forEachForm h
  exact t.refits.isLoop (fun _ => rfl) hloop

theorem isLoop_formOfWhile {old : LoopKind} (h : g.formOfWhile? loop options = .ok (some g'))
    (hloop : g.IsLoop loop old) : g'.IsLoop loop .counted ∨ g'.IsLoop loop .forEach := by
  rcases formOfWhile?_eq_some h with h | h
  · exact .inr (isLoop_forEachForm h hloop)
  · exact .inl (isLoop_forForm h hloop)

/-- A visit that makes a rewrite leaves a loop of another kind behind. -/
theorem betterForm?_kind (h : g.betterForm? loop options = .ok (some g')) {old : LoopKind}
    (hloop : g.IsLoop loop old) : ∃ new, g'.IsLoop loop new ∧ new ≠ old := by
  obtain ⟨st, hst, l, hl, hforms⟩ := betterForm?_cases h
  obtain rfl : l.kind = old := by
    obtain ⟨st', l', hst', hl', hkind⟩ := isLoop_iff.1 hloop
    rw [hst] at hst'
    cases hst'
    rw [hl] at hl'
    cases hl'
    exact hkind
  rcases hforms with ⟨hkind, hforms⟩ | ⟨hkind, hform⟩
  · rw [hkind]
    rcases hforms with ⟨g₁, hwhile, rfl | hform⟩ | hdo
    · exact ⟨_, isLoop_whileForm hwhile hloop, nofun⟩
    · rcases isLoop_formOfWhile hform (isLoop_whileForm hwhile hloop) with h | h
      · exact ⟨_, h, nofun⟩
      · exact ⟨_, h, nofun⟩
    · exact ⟨_, isLoop_doWhileForm hdo hloop, nofun⟩
  · rw [hkind]
    rcases isLoop_formOfWhile hform hloop with h | h
    · exact ⟨_, h, nofun⟩
    · exact ⟨_, h, nofun⟩

/-! ## Rounds -/

/-- A visit leaves the graph alone, or it rewrites a loop of the tree and is counted. -/
theorem visitLoop_cases {n n' : ℕ} (h : visitLoop options (g, n) s = .ok (g', n')) :
    (g' = g ∧ n' = n) ∨
      (n' = n + 1 ∧ g.contains root s = .ok true ∧ g.betterForm? s options = .ok (some g')) := by
  simp only [visitLoop, Checked.bind_eq_ok] at h
  obtain ⟨_ | l, hl, h⟩ := h
  · cases h
    exact .inl ⟨rfl, rfl⟩
  obtain ⟨inside, hinside, h⟩ := Checked.bind_eq_ok.1 h
  split at h
  · cases h
    exact .inl ⟨rfl, rfl⟩
  · next hin =>
    simp only [Checked.bind_eq_ok, Checked.pure_eq_ok, Prod.mk.injEq] at h
    obtain ⟨form, hform, l', hl', rfl, rfl⟩ := h
    obtain rfl : inside = true := by simpa using hin
    obtain ⟨st, hst, hstl⟩ := loop?_eq_ok.1 hl
    have hloop : g.IsLoop s l.kind := isLoop_iff.2 ⟨st, l, hst, hstl, rfl⟩
    cases form with
    | none =>
      rw [Option.getD_none, hl] at hl'
      cases hl'
      exact .inl ⟨rfl, if_pos rfl⟩
    | some g₁ =>
      obtain ⟨new, hnew, hne⟩ := betterForm?_kind hform hloop
      obtain ⟨st', lnew, hst', hlnew, rfl⟩ := isLoop_iff.1 hnew
      obtain ⟨st₁, hst₁, rfl⟩ := loop?_eq_ok.1 hl'
      rw [Option.getD_some, hst'] at hst₁
      cases hst₁
      rw [hlnew, Option.map_some]
      exact .inr ⟨if_neg fun heq => hne (Option.some.inj heq), hinside, hform⟩

/-- A round that counts no change leaves the graph alone. -/
theorem recogniseOnce_unchanged (h : g.recogniseOnce options = .ok (g', 0)) : g' = g := by
  simp only [recogniseOnce, Checked.bind_eq_ok] at h
  obtain ⟨order, -, h⟩ := h
  -- as long as nothing is counted, nothing has changed
  have hkeep : ((g', 0) : Graph × ℕ).2 = 0 → ((g', 0) : Graph × ℕ).1 = g := by
    refine Checked.foldlM_keeps (fun acc : Graph × ℕ => acc.2 = 0 → acc.1 = g) h (fun _ => rfl) ?_
    rintro s - ⟨g₁, n₁⟩ ⟨g₂, n₂⟩ hacc hvisit hzero
    rcases visitLoop_cases hvisit with ⟨rfl, rfl⟩ | ⟨hcount, -⟩
    · exact hacc hzero
    · simp only at hzero
      omega
  exact hkeep rfl

/-- The rounds end with one that counts no change. -/
theorem recogniseIn_rest {rounds total n : ℕ}
    (h : recogniseIn options rounds g total = .ok (g', n)) :
    g'.recogniseOnce options = .ok (g', 0) := by
  induction rounds generalizing g total with
  | zero => cases h
  | succ rounds ih =>
    simp only [recogniseIn, Checked.bind_eq_ok] at h
    obtain ⟨⟨g₁, changed⟩, h₁, h⟩ := h
    simp only at h
    split at h
    · next hzero =>
      cases h
      rw [hzero] at h₁
      obtain rfl := recogniseOnce_unchanged h₁
      exact h₁
    · exact ih h

/-- **Recognition is a fixpoint**: on the graph it leaves, it counts nothing and changes nothing. -/
theorem recogniseLoops_again {n : ℕ} (h : g.recogniseLoops options = .ok (g', n)) :
    g'.recogniseLoops options = .ok (g', 0) := by
  have hrest := recogniseIn_rest h
  simp [recogniseLoops, recogniseIn, hrest]

theorem recogniseLoops_again_countingMethod :
    Returns (countingMethod.recogniseLoops .default) fun r =>
      r.2 = 1 ∧ r.1.recogniseLoops .default = .ok (r.1, 0) := by
  have hrun : Returns (countingMethod.recogniseLoops .default) fun r => r.2 = 1 := by
    decide +kernel
  obtain ⟨r, hr, hcount⟩ := hrun
  exact ⟨r, hr, hcount, recogniseLoops_again hr⟩

end Decompiler.Graph

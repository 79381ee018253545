import Decompiler.Loops.Recognition
import Decompiler.Proofs.Graph.Forest

/-!
# The visits of a run

A run visits the statements of the tree again and again, each sweep in the order the tree had at its
start. So a statement may be visited after it has left the tree.

* `Graph.visits`: the statements visited in a run, each with the graph it is visited in.
* `Graph.visitLoop_eq_ok`: a visit changes the graph only at a loop of the tree.
* `Graph.recogniseIn_keeps`: what every such visit keeps is kept by the run.
-/

namespace Decompiler.Graph

variable {g g' : Graph} {K : StatId → Prop} {s : StatId} {options : Options}

/-- The visits of a sweep along a list of statements. -/
def visitsAlong (options : Options) : List StatId → Graph × ℕ → Checked (List (Graph × StatId))
  | [], _ => return []
  | s :: rest, acc => do
    return (acc.1, s) :: (← visitsAlong options rest (← visitLoop options acc s))

/-- The visits of a run of at most `rounds` sweeps. -/
def visitsIn (options : Options) : (rounds : ℕ) → Graph → Checked (List (Graph × StatId))
  | 0, _ => .error .cyclic
  | rounds + 1, g => do
    let sweep ← visitsAlong options (← g.postorder root) (g, 0)
    let (g, changed) ← g.recogniseOnce options
    if changed = 0 then return sweep else return sweep ++ (← visitsIn options rounds g)

/-- The visits made while the loops of a graph are recognised. -/
def visits (g : Graph) (options : Options) : Checked (List (Graph × StatId)) :=
  visitsIn options (2 * g.stats.size + 1) g

/-- A visit with a result of its own is one of a loop in the tree. -/
theorem visitLoop_eq_ok {n n' : ℕ} (hF : Forest g K) (hs : K s)
    (h : visitLoop options (g, n) s = .ok (g', n')) :
    g' = g ∨ (g.contains root s = .ok true ∧ g.InTree s ∧
      g.betterForm? s options = .ok (some g')) := by
  simp only [visitLoop, Checked.bind_eq_ok] at h
  obtain ⟨_ | l, -, h⟩ := h
  · cases h
    exact .inl rfl
  obtain ⟨inside, hinside, h⟩ := Checked.bind_eq_ok.1 h
  split at h
  · cases h
    exact .inl rfl
  · next hin =>
    simp only [Checked.bind_eq_ok, Checked.pure_eq_ok, Prod.mk.injEq] at h
    obtain ⟨form, hform, l', -, rfl, -⟩ := h
    obtain rfl : inside = true := by simpa using hin
    cases form with
    | none => exact .inl rfl
    | some g₁ => exact .inr ⟨hinside, hF.inTree_of_contains hs hinside, hform⟩

theorem visitsAlong_returns {order : List StatId} {acc acc' : Graph × ℕ}
    (h : order.foldlM (visitLoop options) acc = .ok acc') :
    ∃ l, visitsAlong options order acc = .ok l := by
  induction order generalizing acc with
  | nil => exact ⟨[], rfl⟩
  | cons s order ih =>
    simp only [List.foldlM_cons, Checked.bind_eq_ok] at h
    obtain ⟨acc₁, h₁, h⟩ := h
    obtain ⟨l, hl⟩ := ih h
    exact ⟨(acc.1, s) :: l, by simp [visitsAlong, h₁, hl]⟩

/-- A run has visits. -/
theorem visitsIn_returns {rounds total n : ℕ}
    (h : recogniseIn options rounds g total = .ok (g', n)) :
    ∃ l, visitsIn options rounds g = .ok l := by
  induction rounds generalizing g total with
  | zero => cases h
  | succ rounds ih =>
    obtain ⟨⟨g₁, changed⟩, hround, h⟩ := Checked.bind_eq_ok.1 h
    obtain ⟨order, horder, hfold⟩ := Checked.bind_eq_ok.1 hround
    obtain ⟨sweep, hsweep⟩ := visitsAlong_returns hfold
    simp only at h
    split at h
    · next hzero => exact ⟨sweep, by simp [visitsIn, horder, hsweep, hround, hzero]⟩
    · next hchanged =>
      obtain ⟨l, hl⟩ := ih h
      exact ⟨sweep ++ l, by simp [visitsIn, horder, hsweep, hround, hchanged, hl]⟩

/-- What each visit of a sweep keeps is kept by the sweep. -/
theorem visitsAlong_keeps (P : Graph × ℕ → Prop) {order : List StatId} {acc acc' : Graph × ℕ}
    {l : List (Graph × StatId)} (hl : visitsAlong options order acc = .ok l)
    (h : order.foldlM (visitLoop options) acc = .ok acc') (start : P acc)
    (step : ∀ s ∈ order, ∀ acc acc', (acc.1, s) ∈ l → P acc →
      visitLoop options acc s = .ok acc' → P acc') : P acc' := by
  induction order generalizing acc l with
  | nil =>
    simp only [List.foldlM_nil, Checked.pure_eq_ok] at h
    exact h ▸ start
  | cons s order ih =>
    simp only [List.foldlM_cons, Checked.bind_eq_ok] at h
    obtain ⟨acc₁, h₁, h⟩ := h
    simp only [visitsAlong, h₁, Checked.ok_bind, Checked.bind_eq_ok, Checked.pure_eq_ok] at hl
    obtain ⟨rest, hrest, rfl⟩ := hl
    exact ih hrest h (step s (by simp) acc acc₁ (by simp) start h₁) fun t ht b b' hb =>
      step t (by simp [ht]) b b' (by simp [hb])

/-- An invariant on a growing set of statements that every visit of a loop in the tree keeps is kept
by a run of all visits. -/
theorem recogniseIn_keeps_of_visits {I : Graph → (StatId → Prop) → Prop}
    {l : List (Graph × StatId)} (forest : ∀ g K, I g K → Forest g K)
    (visit : ∀ g g' K loop, (g, loop) ∈ l → I g K → g.contains root loop = .ok true →
      g.InTree loop → g.betterForm? loop options = .ok (some g') →
      ∃ K', I g' K' ∧ ∀ s, K s → K' s)
    {rounds total n : ℕ} (hl : visitsIn options rounds g = .ok l) (hI : I g K)
    (h : recogniseIn options rounds g total = .ok (g', n)) : ∃ K', I g' K' := by
  induction rounds generalizing g K total l with
  | zero => cases h
  | succ rounds ih =>
    simp only [recogniseIn, Checked.bind_eq_ok] at h
    obtain ⟨⟨g₁, changed⟩, hround, h⟩ := h
    simp only [visitsIn, hround, Checked.ok_bind, Checked.bind_eq_ok] at hl
    obtain ⟨order, horder, sweep, hsweep, hl⟩ := hl
    simp only [recogniseOnce, horder, Checked.ok_bind] at hround
    obtain ⟨order', horder', -, hmem⟩ := (forest g K hI).postorder .refl
    rw [horder] at horder'
    cases horder'
    have hsub : ∀ v ∈ sweep, v ∈ l := by
      intro v hv
      split at hl
      · exact Checked.pure_eq_ok.1 hl ▸ hv
      · simp only [Checked.bind_eq_ok, Checked.pure_eq_ok] at hl
        obtain ⟨rest, -, rfl⟩ := hl
        exact List.mem_append_left _ hv
    have hI₁ : ∃ K', I g₁ K' ∧ ∀ s, K s → K' s := by
      refine visitsAlong_keeps (fun acc : Graph × ℕ => ∃ K', I acc.1 K' ∧ ∀ s, K s → K' s) hsweep
        hround ⟨K, hI, fun _ hs => hs⟩ ?_
      rintro s hs ⟨g₂, n₂⟩ ⟨g₃, n₃⟩ hv ⟨K₂, hI₂, hK₂⟩ hvisit
      have hsK : K₂ s := hK₂ s ((forest g K hI).mem ((hmem s).1 hs))
      rcases visitLoop_eq_ok (forest g₂ K₂ hI₂) hsK hvisit with
        rfl | ⟨hinside, hsTree, hform⟩
      · exact ⟨K₂, hI₂, hK₂⟩
      · obtain ⟨K₃, hI₃, hK₃⟩ := visit g₂ g₃ K₂ s (hsub _ hv) hI₂ hinside hsTree hform
        exact ⟨K₃, hI₃, fun s hs => hK₃ s (hK₂ s hs)⟩
    obtain ⟨K₁, hI₁, -⟩ := hI₁
    simp only at h
    split at h
    · cases h
      exact ⟨K₁, hI₁⟩
    · next hchanged =>
      rw [if_neg hchanged] at hl
      simp only [Checked.bind_eq_ok, Checked.pure_eq_ok] at hl
      obtain ⟨rest, hrest, rfl⟩ := hl
      exact ih (fun g g' K loop hv => visit g g' K loop (List.mem_append_right _ hv)) hrest hI₁ h

/-- The same for an invariant that visits keep without further conditions. -/
theorem recogniseIn_keeps {I : Graph → (StatId → Prop) → Prop}
    (forest : ∀ g K, I g K → Forest g K)
    (visit : ∀ g g' K loop, I g K → g.InTree loop → g.betterForm? loop options = .ok (some g') →
      ∃ K', I g' K' ∧ ∀ s, K s → K' s)
    {rounds total n : ℕ} (hI : I g K) (h : recogniseIn options rounds g total = .ok (g', n)) :
    ∃ K', I g' K' := by
  obtain ⟨l, hl⟩ := visitsIn_returns h
  exact recogniseIn_keeps_of_visits forest (fun g g' K loop _ hI _ => visit g g' K loop hI) hl hI h

end Decompiler.Graph

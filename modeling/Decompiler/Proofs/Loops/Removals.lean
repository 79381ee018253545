import Decompiler.Proofs.Loops.Trees

/-!
# What a run takes out of the tree

Some properties of a graph survive the recognition of loops only if no rewrite takes out a statement
that something else still needs. Here the statements that rewrites take out are listed, so that such
a condition can be put on all of them.

* `Graph.Removal`: a statement that is taken out, and the edges that go with it.
* `Graph.removals`: all removals of a run.
* `Graph.Rewrite`: one rewrite of a loop, the removals of which satisfy a condition.
* `Graph.rewrites_betterForm`, `Graph.recogniseLoops_keeps`: where all removals of a run satisfy the
  condition, the run is made of such rewrites, and keeps what they keep.
-/

namespace Decompiler.Graph

open Relation

variable {g g' : Graph} {K : StatId → Prop} {loop : StatId} {options : Options}

/-! ## Removals -/

/-- A statement that a rewrite of a loop takes out of the tree. -/
structure Removal where
  /-- The graph before the rewrite. -/
  graph : Graph
  /-- The statement. -/
  old : StatId
  /-- The child that takes its place, if one does. -/
  kept : Option StatId
  /-- Whether nothing takes its place. -/
  vacant : Bool
  /-- The edges that are detached because of it. -/
  edges : List EdgeId
  /-- The one of them by which the loop is left, if one of them is. -/
  exit : Option EdgeId

/-- The removal of the `if` of a test. An `if` that is the body of the loop is replaced by what is
kept of it, or else by an empty leaf. -/
def LoopTest.removal (t : LoopTest) (g : Graph) (body kept : Option StatId) (exit : EdgeId) :
    Removal :=
  ⟨g, t.stat, kept, kept.isNone && body ≠ some t.stat, [t.thenEdge, t.elseEdge], some exit⟩

/-- The edge by which a loop with a leading test is left. -/
def LoopTest.leadingExit (t : LoopTest) : EdgeId :=
  if t.body.isNone then t.thenEdge else t.elseEdge

/-- The removal of the leaf that a step was taken from. -/
def stepRemoval (g : Graph) (body : Option StatId) (leaf : StatId) (stat : Stat) : Removal :=
  ⟨g, leaf, none, body ≠ some leaf, stat.successors.head?.toList, none⟩

theorem removal_vacant {t : LoopTest} {st : Stat} {kept : Option StatId} {exit : EdgeId}
    (hst : g.stat loop = .ok st) : (t.removal g st.first kept exit).vacant = true ↔
      kept = none ∧ Returns (g.stat loop) fun st => st.first ≠ some t.stat := by
  rw [hst, Returns.ok_iff]
  simp [LoopTest.removal]

theorem stepRemoval_vacant {leaf : StatId} {st lt : Stat} (hst : g.stat loop = .ok st) :
    (stepRemoval g st.first leaf lt).vacant = true ↔
      Returns (g.stat loop) fun st => st.first ≠ some leaf := by
  rw [hst, Returns.ok_iff]
  simp [stepRemoval]

/-- What is taken out when a loop becomes a `while`. -/
def leadingRemovals (g : Graph) (loop : StatId) : Checked (List Removal) := do
  let some s ← g.leading? loop | return []
  let some t ← g.loopTest? s acceptsLeading | return []
  return [t.removal g (← g.stat loop).first t.body t.leadingExit]

/-- What is taken out when a loop becomes a `do-while`. -/
def trailingRemovals (g : Graph) (loop : StatId) : Checked (List Removal) := do
  let some _ ← g.doWhileForm? loop | return []
  let some s ← g.trailing? loop | return []
  let some t ← g.loopTest? s acceptsTrailing | return []
  let leavesOnTrue ← g.leavesOrContinues loop t.thenEdge t.elseEdge
  let kept := t.keptBlock (← g.stat t.headBlock)
  return [t.removal g (← g.stat loop).first kept (t.trailingExit leavesOnTrue)]

/-- What is taken out when a `while` takes another form. -/
def stepRemovals (g : Graph) (loop : StatId) (options : Options) : Checked (List Removal) := do
  if (← g.forEachForm? loop).isSome then return []
  else
    let some g' ← g.forForm? loop options | return []
    let stat ← g.stat loop
    let some body := stat.first | return []
    let some leaf ← g.lastLeaf? body | return []
    if (← g'.stat leaf).parent.isSome then return []
    else return [stepRemoval g stat.first leaf (← g.stat leaf)]

/-- What is taken out when a statement is visited. -/
def removalsAt (g : Graph) (loop : StatId) (options : Options) : Checked (List Removal) := do
  let some l ← g.loop? loop | return []
  if !(← g.contains root loop) then return []
  else
    match l.kind with
    | .endless =>
      match ← g.whileForm? loop with
      | some g' => return (← g.leadingRemovals loop) ++ (← g'.stepRemovals loop options)
      | none => if options.tryDoWhile then g.trailingRemovals loop else return []
    | .whileDo => g.stepRemovals loop options
    | _ => return []

/-- What is taken out while the loops of a graph are recognised. -/
def removals (g : Graph) (options : Options) : Checked (List Removal) := do
  return (← (← g.visits options).mapM fun v => v.1.removalsAt v.2 options).flatten

/-! ## Rewrites -/

/-- One rewrite of a loop, the removals of which satisfy `P`. -/
inductive Rewrite (P : Removal → Prop) (loop : StatId) (options : Options) : Graph → Graph → Prop
  /-- A leading test makes the loop a `while`. -/
  | leading {g g' : Graph} {t : LoopTest} {st : Stat} (stat : g.stat loop = .ok st)
      (found : g.leading? loop = .ok (some t.stat))
      (test : g.loopTest? t.stat acceptsLeading = .ok (some t))
      (h : (t.body = none ∧ g.whileNot loop t = .ok g') ∨
        ∃ body, t.body = some body ∧ g.whileGuard loop t body = .ok g')
      (removal : P (t.removal g st.first t.body t.leadingExit)) : Rewrite P loop options g g'
  /-- A trailing test makes the loop a `do-while`. -/
  | trailing {g g' : Graph} {t : LoopTest} {st ht : Stat} {leavesOnTrue : Bool}
      (stat : g.stat loop = .ok st) (found : g.trailing? loop = .ok (some t.stat))
      (test : g.loopTest? t.stat acceptsTrailing = .ok (some t))
      (headBlock : g.stat t.headBlock = .ok ht) (h : g.doWhileTest loop t leavesOnTrue = .ok g')
      (removal : P (t.removal g st.first (t.keptBlock ht) (t.trailingExit leavesOnTrue))) :
      Rewrite P loop options g g'
  /-- A `while` becomes a loop over elements. -/
  | elements {g g' : Graph} (h : g.forEachForm? loop = .ok (some g')) : Rewrite P loop options g g'
  /-- A `while` becomes a `for`, and the leaf of its step may be taken out. -/
  | step {g g' : Graph} (h : g.forForm? loop options = .ok (some g'))
      (removal : ∀ st body leaf lt, g.stat loop = .ok st → st.first = some body →
        g.lastLeaf? body = .ok (some leaf) → g.stat leaf = .ok lt →
        (Returns (g'.stat leaf) fun lt' => lt'.parent = none) →
        P (stepRemoval g st.first leaf lt)) : Rewrite P loop options g g'

variable {P : Removal → Prop}

theorem rewrite_whileForm {l : List Removal} (h : g.whileForm? loop = .ok (some g'))
    (hl : g.leadingRemovals loop = .ok l) (hP : ∀ r ∈ l, P r) : Rewrite P loop options g g' := by
  obtain ⟨s, t, hs, ht, h⟩ := whileForm?_eq_some h
  obtain ⟨rfl, -⟩ := loopTest?_eq_some ht
  simp only [leadingRemovals, hs, ht, Checked.ok_bind, Checked.bind_eq_ok, Checked.pure_eq_ok] at hl
  obtain ⟨st, hst, rfl⟩ := hl
  exact .leading hst hs ht h (hP _ (by simp))

theorem rewrite_doWhileForm {l : List Removal} (h : g.doWhileForm? loop = .ok (some g'))
    (hl : g.trailingRemovals loop = .ok l) (hP : ∀ r ∈ l, P r) : Rewrite P loop options g g' := by
  obtain ⟨s, t, leavesOnTrue, hs, ht, hleaves, htest⟩ := doWhileForm?_eq_some h
  obtain ⟨rfl, -⟩ := loopTest?_eq_some ht
  simp only [trailingRemovals, h, hs, ht, hleaves, Checked.ok_bind, Checked.bind_eq_ok,
    Checked.pure_eq_ok] at hl
  obtain ⟨bt, hbt, st, hst, rfl⟩ := hl
  exact .trailing hst hs ht hbt htest (hP _ (by simp))

theorem rewrite_formOfWhile {l : List Removal} (h : g.formOfWhile? loop options = .ok (some g'))
    (hl : g.stepRemovals loop options = .ok l) (hP : ∀ r ∈ l, P r) :
    Rewrite P loop options g g' := by
  simp only [formOfWhile?, orElseForm, Checked.bind_eq_ok] at h
  obtain ⟨_ | g₁, h₁, h⟩ := h
  · refine .step h fun st body leaf lt hst hfirst hleaf hlt hparent => hP _ ?_
    obtain ⟨lt', hlt', hnone⟩ := hparent
    simp only [stepRemovals, h₁, h, hst, hfirst, hleaf, hlt, hlt', hnone, Checked.ok_bind,
      Option.isSome_none, Bool.false_eq_true, ↓reduceIte, Checked.pure_eq_ok] at hl
    simp [← hl, hfirst]
  · obtain rfl := Option.some.inj (Checked.pure_eq_ok.1 h)
    exact .elements h₁

/-- A visit the removals of which satisfy a condition is made of one or two rewrites that do. -/
theorem rewrites_betterForm (hin : g.contains root loop = .ok true)
    (h : g.betterForm? loop options = .ok (some g'))
    (hP : Returns (g.removalsAt loop options) fun l => ∀ r ∈ l, P r) :
    ReflTransGen (Rewrite P loop options) g g' := by
  obtain ⟨removed, hremoved, hP⟩ := hP
  obtain ⟨st, hst, l, hl, -⟩ := betterForm?_cases h
  have hloop : g.loop? loop = .ok (some l) := loop?_eq_ok.2 ⟨st, hst, hl⟩
  simp only [betterForm?, hloop, Checked.ok_bind, Option.map_some] at h
  simp only [removalsAt, hloop, hin, Checked.ok_bind] at hremoved
  cases hkind : l.kind with
  | endless =>
    simp only [hkind] at h hremoved
    obtain ⟨_ | g₁, hwhile, h⟩ := Checked.bind_eq_ok.1 h
    · simp only [hwhile, Checked.ok_bind] at hremoved
      simp only at h
      split at h
      · next hdo => exact .single (rewrite_doWhileForm h (by simpa [hdo] using hremoved) hP)
      · cases h
    · simp only [hwhile, Checked.ok_bind, Checked.bind_eq_ok, Checked.pure_eq_ok, Bool.not_true,
        Bool.false_eq_true, ↓reduceIte] at hremoved
      obtain ⟨l₁, hl₁, l₂, hl₂, rfl⟩ := hremoved
      have hfirst : Rewrite P loop options g g₁ :=
        rewrite_whileForm hwhile hl₁ fun r hr => hP r (by simp [hr])
      obtain ⟨_ | g₂, hform, h⟩ := Checked.bind_eq_ok.1 h
      · cases h
        exact .single hfirst
      · cases h
        exact .tail (.single hfirst) (rewrite_formOfWhile hform hl₂ fun r hr => hP r (by simp [hr]))
  | whileDo =>
    simp only [hkind] at h hremoved
    exact .single (rewrite_formOfWhile h (by simpa using hremoved) hP)
  | doWhile | counted | forEach =>
    simp only [hkind] at h
    cases h

/-- An invariant on a growing set of statements that every rewrite with good removals keeps is kept
by a run all removals of which are good. -/
theorem recogniseLoops_keeps {I : Graph → (StatId → Prop) → Prop}
    (forest : ∀ g K, I g K → Forest g K)
    (rewrite : ∀ g g' K loop, I g K → g.InTree loop → Rewrite P loop options g g' →
      (∃ K', I g' K' ∧ ∀ s, K s → K' s) ∧ g'.InTree loop)
    (hP : Returns (g.removals options) fun l => ∀ r ∈ l, P r) {n : ℕ} (hI : I g K)
    (h : g.recogniseLoops options = .ok (g', n)) : ∃ K', I g' K' := by
  obtain ⟨removed, hremoved, hP⟩ := hP
  simp only [removals, Checked.bind_eq_ok, Checked.pure_eq_ok] at hremoved
  obtain ⟨visited, hvisited, lists, hlists, rfl⟩ := hremoved
  refine recogniseIn_keeps_of_visits forest ?_ hvisited hI h
  intro g₁ g₂ K₁ loop hv hI₁ hin hloop hform
  obtain ⟨l, hmem, hl⟩ := Checked.exists_of_mem (Checked.mapM_eq_ok_iff.1 hlists) hv
  have hrewrites : ReflTransGen (Rewrite P loop options) g₁ g₂ :=
    rewrites_betterForm hin hform ⟨l, hl, fun r hr => hP r (List.mem_flatten.2 ⟨l, hmem, hr⟩)⟩
  have hkept : (∃ K', I g₂ K' ∧ ∀ s, K₁ s → K' s) ∧ g₂.InTree loop := by
    clear hform
    induction hrewrites with
    | refl => exact ⟨⟨K₁, hI₁, fun _ hs => hs⟩, hloop⟩
    | tail _ hstep ih =>
      obtain ⟨⟨K₂, hI₂, hK₂⟩, hloop₂⟩ := ih
      obtain ⟨⟨K₃, hI₃, hK₃⟩, hloop₃⟩ := rewrite _ _ K₂ loop hI₂ hloop₂ hstep
      exact ⟨⟨K₃, hI₃, fun s hs => hK₃ s (hK₂ s hs)⟩, hloop₃⟩
  exact hkept.1

end Decompiler.Graph

import Decompiler.Proofs.Variables.Elimination
import Decompiler.Variables.Scopes

/-!
# Rounds of merging

Versions of variables are merged round by round, and so are variables across scopes. A round looks
for a candidate, tries to merge it, and remembers it when it is refused. The two differ in how they
look for candidates, in what they remember, and in what they tidy up after a merge.

* `Method.Merging`: these differences. The two ways to merge are `Method.mergingVersions` and
  `Method.mergingScopes`.
* `Method.Merging.Round`: one round. What every merge keeps is kept by all rounds
  (`Method.Merging.Rounds.keeps`).
* `Method.mergeVersionsIn_rounds`, `Method.mergeScopedIn_rounds`: merging goes from round to round
  until no candidate is found.
-/

namespace Decompiler.Method

open Relation Decompiler.Graph

/-- How candidates are looked for, where `ρ` is what is remembered of those that were refused. -/
structure Merging (ρ : Type) where
  /-- The next candidate. -/
  candidate? : Method → ρ → Checked (Option Candidate)
  /-- What is remembered when a candidate is refused. -/
  refuse : ρ → Candidate → ρ
  /-- What is done to the graph after a merge. -/
  tidy : Graph → Checked Graph

/-- The search for versions of one slot. -/
def mergingVersions (arrange : Occurrences → Occurrences) : Merging (List Candidate) where
  candidate? m refused := m.candidate? arrange refused
  refuse refused c := c :: refused
  tidy g := do (← g.statements).foldlM dropSelfAssignments g

/-- The search across scopes. -/
def mergingScopes : Merging (Table Local Local) where
  candidate? m refused := m.scopedCandidate? refused
  refuse refused c := refused.insert c.source c.target
  tidy g := return g

namespace Merging

variable {ρ : Type} (S : Merging ρ)

/-- A candidate is found and merged. -/
def Merges (p : Method × ρ) (c : Candidate) (m : Method) : Prop :=
  S.candidate? p.1 p.2 = .ok (some c) ∧ p.1.unify c.source c.target = .ok (m, .merged)

/-- A candidate is found and refused. -/
def Refuses (p : Method × ρ) (c : Candidate) : Prop :=
  S.candidate? p.1 p.2 = .ok (some c) ∧ p.1.unify c.source c.target = .ok (p.1, .refused)

/-- One round, from a method and what was refused until then. -/
inductive Round : Method × ρ → Method × ρ → Prop
  /-- The candidate is refused. -/
  | refuse {p : Method × ρ} {c : Candidate} (h : S.Refuses p c) : Round p (p.1, S.refuse p.2 c)
  /-- The candidate is merged. -/
  | merge {p : Method × ρ} {c : Candidate} {m : Method} {g : Graph} (h : S.Merges p c m)
      (tidy : S.tidy m.graph = .ok g) : Round p ({ m with graph := g }, p.2)

/-- Any number of rounds. -/
abbrev Rounds : Method × ρ → Method × ρ → Prop := ReflTransGen S.Round

variable {S} {p q : Method × ρ}

/-- What every merge of a run keeps is kept by all rounds. -/
theorem Rounds.keeps {P : Method → Prop} (h : S.Rounds p q) (start : P p.1)
    (step : ∀ q c m g, S.Rounds p q → P q.1 → S.Merges q c m → S.tidy m.graph = .ok g →
      P { m with graph := g }) : P q.1 := by
  induction h with
  | refl => exact start
  | @tail q r hrounds hround ih =>
    cases hround with
    | refuse => exact ih
    | @merge c m g hmerges htidy => exact step q c m g hrounds ih hmerges htidy

/-- What is done after a merge does nothing but take expressions out of lists. -/
def TrimsLists (S : Merging ρ) : Prop :=
  ∀ g g', g.Legible → S.tidy g = .ok g' → Trims g g' fun _ => True

theorem Rounds.legible (htidy : S.TrimsLists) (h : S.Rounds p q) (hL : p.1.graph.Legible) :
    q.1.graph.Legible := by
  refine h.keeps (P := fun m => m.graph.Legible) hL fun q c m g _ hL hmerges hg => ?_
  have hLm := (unify_folds hL hmerges.2).2.1.legible hL
  exact (htidy m.graph g hLm hg).legible hLm

end Merging

theorem trimsLists_versions (arrange : Occurrences → Occurrences) :
    (mergingVersions arrange).TrimsLists := by
  intro g g' hL h
  obtain ⟨stats, hstats, h⟩ := Checked.bind_eq_ok.1 h
  have hmem : ∀ s ∈ stats, g.InTree s := fun s hs => (mem_preorderIn hstats s).1 hs
  obtain ⟨g₁, hg₁, ht⟩ := foldlM_dropSelfAssignments_trims hL hmem
  rw [h] at hg₁
  cases hg₁
  exact ht

theorem trimsLists_scopes : mergingScopes.TrimsLists := by
  intro g g' _ h
  cases h
  exact .refl g

variable {arrange : Occurrences → Occurrences} {m m' : Method}

/-- Versions are merged round by round until no candidate is left. -/
theorem mergeVersionsIn_rounds {rounds merges : ℕ} {refused : List Candidate}
    {r : Except MergeFailure ℕ}
    (h : mergeVersionsIn arrange rounds m refused merges = .ok (m', r)) :
    ∃ refused', (mergingVersions arrange).Rounds (m, refused) (m', refused') ∧
      ∀ n, r = .ok n → m'.candidate? arrange refused' = .ok none := by
  induction rounds generalizing m refused merges with
  | zero => cases h
  | succ rounds ih =>
    obtain ⟨c?, hc, h⟩ := Checked.bind_eq_ok.1 h
    cases c? with
    | none =>
      cases h
      exact ⟨refused, .refl, fun _ _ => hc⟩
    | some c =>
      obtain ⟨⟨m₁, outcome⟩, hu, h⟩ := Checked.bind_eq_ok.1 h
      cases outcome with
      | ontoItself =>
        obtain ⟨rfl, -⟩ := unify_ontoItself hu
        cases h
        exact ⟨refused, .refl, nofun⟩
      | refused =>
        obtain ⟨rfl, -⟩ := unify_refused hu
        obtain ⟨refused', hrounds, hnone⟩ := ih h
        exact ⟨refused', .head (.refuse ⟨hc, hu⟩) hrounds, hnone⟩
      | merged =>
        simp only [Checked.bind_eq_ok] at h
        obtain ⟨stats, hstats, g, hg, h⟩ := h
        obtain ⟨refused', hrounds, hnone⟩ := ih h
        have htidy : (mergingVersions arrange).tidy m₁.graph = .ok g :=
          Checked.bind_eq_ok.2 ⟨stats, hstats, hg⟩
        exact ⟨refused', .head (.merge ⟨hc, hu⟩ htidy) hrounds, hnone⟩

/-- Variables are merged across scopes round by round until no candidate is left. -/
theorem mergeScopedIn_rounds {rounds : ℕ} {refused : Table Local Local}
    {r : Except MergeFailure Unit} (h : mergeScopedIn rounds m refused = .ok (m', r)) :
    ∃ refused', mergingScopes.Rounds (m, refused) (m', refused') ∧
      ∀ u, r = .ok u → m'.scopedCandidate? refused' = .ok none := by
  induction rounds generalizing m refused with
  | zero => cases h
  | succ rounds ih =>
    obtain ⟨c?, hc, h⟩ := Checked.bind_eq_ok.1 h
    cases c? with
    | none =>
      cases h
      exact ⟨refused, .refl, fun _ _ => hc⟩
    | some c =>
      obtain ⟨⟨m₁, outcome⟩, hu, h⟩ := Checked.bind_eq_ok.1 h
      cases outcome with
      | ontoItself =>
        obtain ⟨rfl, -⟩ := unify_ontoItself hu
        cases h
        exact ⟨refused, .refl, nofun⟩
      | refused =>
        obtain ⟨rfl, -⟩ := unify_refused hu
        obtain ⟨refused', hrounds, hnone⟩ := ih h
        exact ⟨refused', .head (.refuse ⟨hc, hu⟩) hrounds, hnone⟩
      | merged =>
        obtain ⟨refused', hrounds, hnone⟩ := ih h
        exact ⟨refused', .head (.merge ⟨hc, hu⟩ rfl) hrounds, hnone⟩

end Decompiler.Method

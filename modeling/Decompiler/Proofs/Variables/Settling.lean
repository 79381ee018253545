import Decompiler.Passes
import Decompiler.Proofs.Variables.Declaring
import Decompiler.Proofs.Variables.Searching
import Decompiler.Proofs.Variables.Unifying

/-!
# Settling the variables of a method ends

Of the targets refused for a variable only the last one is remembered, so a refusal may undo another
one. That does no harm: as long as nothing is merged, each search stops later than the one before.
And a merge makes a declared variable go away.

* `Method.mergeScopedIn_returns`: with `n` variables, `n * n + n + 1` rounds are enough.
* `Method.settle_succeeds`: settling the variables of a method in which none is declared yet always
  succeeds.
-/

namespace Decompiler

open Decompiler.Graph

/-! ## Rounds of merging -/

/-- What follows an element of a list is longer than what follows a later one. -/
theorem length_lt_of_mem_after {α : Type} {l before after before' after' : List α} {a b : α}
    (hl : l.Nodup) (h : l = before ++ a :: after) (hb : b ∈ after)
    (h' : l = before' ++ b :: after') : after'.length < after.length := by
  obtain ⟨x, y, rfl⟩ := List.append_of_mem hb
  have hsplit : l = (before ++ a :: x) ++ b :: y := by simp [h]
  have hnodup := List.nodup_append.1 (hsplit ▸ hl)
  have hx : b ∉ before ++ a :: x := fun hb => hnodup.2.2 b hb b List.mem_cons_self rfl
  have hy : b ∉ y := (List.nodup_cons.1 hnodup.2.1).1
  obtain ⟨-, -, rfl⟩ := (List.append_cons_inj_of_notMem hx hy).1 (hsplit.symm.trans h')
  simp only [List.length_append, List.length_cons]
  omega

/-- No more than `n` variables are declared. -/
def Graph.DeclaresAtMost (g : Graph) (n : ℕ) : Prop :=
  ∀ l : List Local, l.Nodup → (∀ v ∈ l, ∃ e, g.Declares e v) → l.length ≤ n

namespace Method

variable {m m' : Method} {source : Local}

theorem Merges.mergeable (h : m.Mergeable) (hm : m.Merges m' source) : m'.Mergeable where
  orderly := hm.orderly
  leaders := hm.leaders
  unique e e' v he he' := h.unique e e' v (hm.declares e v he).1 (hm.declares e' v he').1
  parameters e slot hslot he :=
    h.parameters e slot (hm.parameters ▸ hslot) (hm.declares e _ he).1

/-- A merge leaves one variable less. -/
theorem Merges.declaresAtMost {n : ℕ} (hm : m.Merges m' source)
    (hsource : ∃ e, m.graph.Declares e source) (hn : m.graph.DeclaresAtMost (n + 1)) :
    m'.graph.DeclaresAtMost n := by
  intro l hl hdeclared
  have hnot : source ∉ l := fun hs =>
    (hdeclared source hs).elim fun e he => (hm.declares e source he).2 rfl
  have hlength := hn (source :: l) (List.nodup_cons.2 ⟨hnot, hl⟩) fun v hv => by
    rcases List.mem_cons.1 hv with rfl | hv
    · exact hsource
    · exact (hdeclared v hv).imp fun e he => (hm.declares e v he).1
  simpa using hlength

/-- As long as nothing is merged, each search stops later than the one before. `later` bounds how
many variables come after the one a search stops at, and `rest` rounds are enough after a merge. -/
theorem mergeScopedIn_of_merged {sites : List Local} {P : Method → Prop} {rest later rounds : ℕ}
    {refused : Table Local Local} (h : m.Mergeable) (hsites : m.Sites sites) (hP : P m)
    (hmerged : ∀ source m' refused rounds, source ∈ sites → m.Merges m' source → rest ≤ rounds →
      Returns (mergeScopedIn rounds m' refused) fun r => r.2 = .ok () ∧ P r.1)
    (hstop : ∀ c before after, m.scopedCandidate? refused = .ok (some c) →
      sites = before ++ c.source :: after → after.length < later)
    (hrounds : rest + later + 1 ≤ rounds) :
    Returns (mergeScopedIn rounds m refused) fun r => r.2 = .ok () ∧ P r.1 := by
  induction later using Nat.strong_induction_on generalizing refused rounds with
  | _ later ih =>
    obtain ⟨rounds, rfl⟩ : ∃ k, rounds = k + 1 := ⟨rounds - 1, by omega⟩
    obtain ⟨r, hr, hfound⟩ := hsites.search refused
    rw [mergeScopedIn, hr, Checked.ok_bind]
    cases r with
    | none => exact Returns.pure_iff.2 ⟨rfl, hP⟩
    | some c =>
      obtain ⟨hne, before, after, hsplit, hnext⟩ := hfound c rfl
      have hlength := hstop c before after hr hsplit
      refine (unify_returns h.orderly h.leaders hne).bind fun u _ hu => ?_
      obtain rfl | ⟨m', rfl, hm⟩ := hu
      · refine ih after.length hlength (fun c' before' after' hc' hsplit' => ?_) (by omega)
        exact length_lt_of_mem_after hsites.nodup hsplit (hnext c' hc') hsplit'
      · exact hmerged c.source m' refused rounds (hsplit ▸ by simp) hm (by omega)

/-- Merging ends without an error, within a number of rounds that depends on the number of
variables. -/
theorem mergeScopedIn_returns {n rounds : ℕ} {refused : Table Local Local} (h : m.Mergeable)
    (hn : m.graph.DeclaresAtMost n) (hrounds : n * n + n + 1 ≤ rounds) :
    Returns (mergeScopedIn rounds m refused) fun r => r.2 = .ok () ∧ r.1.graph.Orderly := by
  induction n using Nat.strong_induction_on generalizing m refused rounds with
  | _ n ih =>
    obtain ⟨sites, hsites⟩ := h.exists_sites
    have hlength := hn sites hsites.nodup hsites.declared
    refine mergeScopedIn_of_merged (P := fun m => m.graph.Orderly) h hsites h.orderly
      (fun source m' refused rounds hsource hm hrounds => ?_)
      (fun c before after _ hsplit => ?_) hrounds
    · have hpos := List.length_pos_of_mem hsource
      obtain ⟨k, rfl⟩ : ∃ k, n = k + 1 := ⟨n - 1, by omega⟩
      have hsquare := Nat.add_one_mul_add_one k k
      have hless := hm.declaresAtMost (hsites.declared source hsource) hn
      exact ih k (by omega) (hm.mergeable h) hless (by omega)
    · rw [hsplit, List.length_append, List.length_cons] at hlength
      omega

/-- There are no more declared variables than expressions. -/
theorem Mergeable.declaresAtMost (h : m.Mergeable) : m.graph.DeclaresAtMost m.graph.exprs.size := by
  intro l hl hdeclared
  have : Nonempty ExprId := ⟨⟨0⟩⟩
  choose! f hf using hdeclared
  have hnodup : (l.map f).Nodup := by
    refine (List.nodup_map_iff_inj_on hl).2 fun v hv w hw heq => ?_
    exact (hf v hv).functional h.orderly (heq ▸ hf w hw)
  have hsub : l.map f ⊆ m.graph.exprs.ids := by
    intro e he
    obtain ⟨v, hv, rfl⟩ := List.mem_map.1 he
    obtain ⟨s, hs, hat⟩ := hf v hv
    exact Arena.mem_ids.2 (h.orderly.grounded s _ hs hat.holds).exists_node
  simpa [Arena.ids] using (hnodup.subperm hsub).length_le

theorem rounds_le (n k : ℕ) : n * n + n + 1 ≤ Nat.pow (n + k + 1) (n + k + 1) := by
  have hsquare := Nat.add_one_mul_add_one n n
  change _ ≤ (n + k + 1) ^ (n + k + 1)
  rcases Nat.eq_zero_or_pos n with rfl | hn
  · exact Nat.one_le_pow _ _ (by omega)
  · calc n * n + n + 1 ≤ (n + 1) * (n + 1) := by omega
      _ ≤ (n + k + 1) * (n + k + 1) := Nat.mul_le_mul (by omega) (by omega)
      _ = (n + k + 1) ^ 2 := (Nat.pow_two _).symm
      _ ≤ (n + k + 1) ^ (n + k + 1) := Nat.pow_le_pow_right (by omega) (by omega)

theorem mergeScoped_returns (h : m.Mergeable) :
    Returns m.mergeScoped fun r => r.2 = .ok () ∧ r.1.graph.Orderly := by
  refine mergeScopedIn_returns h h.declaresAtMost ?_
  exact rounds_le m.graph.exprs.size m.vars.parameterSlots.length

/-! ## Entries and names -/

theorem varInfos_returns (o : m.graph.Legible) : ∃ infos, m.varInfos = .ok infos := by
  obtain ⟨stats, hstats, hmem⟩ := o.statements
  have hheld : Returns (stats.mapM fun s => do
      let stat ← m.graph.stat s
      return stat.declarations ++ stat.ownExprs)
      (List.Forall₂ (fun s held => m.graph.InTree s ∧ ∀ e ∈ held, m.graph.Holds s e) stats) := by
    refine Returns.mapM fun s hs => ?_
    obtain ⟨st, hst⟩ := o.forest.stat s ((hmem s).1 hs)
    rw [hst, Checked.ok_bind, Returns.pure_iff, Stat.ownExprs_eq]
    refine ⟨(hmem s).1 hs, fun e he => ⟨st, hst, ?_⟩⟩
    exact List.mem_append.2 (List.mem_append.1 he).symm
  obtain ⟨held, hheld, hall⟩ := hheld
  have hground : ∀ e ∈ held.flatten, m.graph.Grounded e := by
    intro e he
    obtain ⟨l, hl, he⟩ := List.mem_flatten.1 he
    obtain ⟨s, -, hs, hholds⟩ := Checked.exists_of_mem hall.flip hl
    exact o.grounded s e hs (hholds e he)
  obtain ⟨vars, hvars⟩ := refsInAll_returns hground
  exact ⟨_, by simp only [varInfos, hstats, hheld, hvars, Checked.ok_bind]; rfl⟩

theorem carryEntries_returns {g : Graph} (o : g.Legible) (entries : Table Local DebugEntry) :
    Returns (carryEntries g entries) fun g' =>
      Revises g g' (fun _ => False) ∧ g'.stats = g.stats := by
  obtain ⟨l, hl, hground⟩ := o.exprsIn .refl
  rw [carryEntries, hl, Checked.ok_bind]
  refine Returns.foldlM ⟨.refl g, rfl⟩ fun e he g₁ ⟨r, hstats⟩ => ?_
  have hge := r.grounded (hground e he)
  obtain ⟨refs, hrefs⟩ := hge.refsIn
  have hbelow : ∀ x ∈ refs.map Prod.fst, g₁.Grounded x := by
    intro x hx
    obtain ⟨v, hv, rfl⟩ := List.mem_map.1 hx
    exact hge.of_reaches ((mem_refsIn hrefs).1 hv).1
  have hretype (f : Expr → Expr) := retype_returns (f := f) _ hbelow
  simp only [List.foldlM_map] at hretype
  rw [hrefs, Checked.ok_bind]
  refine (hretype _ fun x => ?_).mono fun _ h => ⟨r.trans h.1, h.2.trans hstats⟩
  cases x with
  | var v =>
    simp only [Expr.mapVar]
    split <;> rfl
  | _ => rfl

/-- In a legible graph entries and names can be settled. -/
theorem settleEntries_returns (o : m.graph.Legible) (namer : Namer) (useDebugNames : Bool) :
    ∃ r, m.settleEntries namer useDebugNames = .ok r := by
  obtain ⟨infos, hinfos⟩ := varInfos_returns o
  simp only [settleEntries, hinfos, Checked.ok_bind]
  split
  · exact ⟨_, rfl⟩
  · obtain ⟨g', hg', -⟩ := carryEntries_returns o _
    exact ⟨_, by rw [hg']; rfl⟩

end Method

/-! ## All of it -/

namespace Graph

/-- No variable is declared: no statement has declarations, and no occurrence is marked as one. -/
def Undeclared (g : Graph) : Prop :=
  g.EachStat (fun st => st.declarations = []) ∧
    Returns (do g.refsInAll (← g.exprsIn root)) fun l => ∀ v ∈ l, v.2.isDefinition = false

instance (g : Graph) : Decidable g.Undeclared :=
  inferInstanceAs (Decidable (_ ∧ Returns _ _))

namespace Undeclared

variable {g : Graph} {s : StatId} {e : ExprId} {v : Local}

theorem not_listsDeclaration (h : g.Undeclared) (hs : g.InTree s) : ¬ g.ListsDeclaration s e := by
  rintro ⟨st, hst, he⟩
  rw [h.1.stat hs hst] at he
  cases he

theorem not_declares (h : g.Undeclared) (o : g.Orderly) : ¬ g.Declares e v := by
  rintro ⟨s, hs, ⟨hlist, -⟩ | ⟨heval, hdeclared⟩⟩
  · exact h.not_listsDeclaration hs hlist
  · obtain ⟨y, w, hy, hw, hdef, -⟩ := declared?_eq_some.1 hdeclared
    have hreach := (o.grounded s e hs heval.holds).reaches_target hy
    obtain ⟨refs, hrefs, hall⟩ := h.2
    obtain ⟨l, hl, hrefs⟩ := Checked.bind_eq_ok.1 hrefs
    have he : e ∈ l := (o.forest.mem_exprsIn .refl hl).2 ⟨s, hs, heval.holds⟩
    have hmark := hall (y, w) ((mem_refsInAll hrefs).2 ⟨e, he, hreach, hw⟩)
    rw [hdef] at hmark
    cases hmark

end Undeclared

end Graph

namespace Method

/-- Settling the variables of a method comes to a result without an error, when no variable is
declared yet and no node is shared. What merging makes of leaders always satisfies the last condition
(`Leaders.acyclic_of_merges`). -/
theorem settle_succeeds (m : Method) (namer : Namer) (useDebugNames : Bool)
    (hw : m.graph.WellFormed) (hn : m.graph.NodesOnce) (hl : m.graph.LabelsExist)
    (hu : m.graph.Undeclared) (ha : m.vars.leaders.Acyclic) :
    ∃ m' types, m.settle namer useDebugNames = .ok (m', .ok types) := by
  have o := orderly_of_nodesOnce hw hn hl
  obtain ⟨⟨m₁, plan⟩, hplan, o₁, hnone, hhomes, himplicit, hmerges⟩ := plan_returns o
    (fun s e hs => hu.not_listsDeclaration hs) fun e v => hu.not_declares o
  obtain ⟨m₂, hdeclare, hprogress⟩ := declareAll_returns o₁ hnone hhomes.1 hhomes.2
  have hmergeable : m₂.Mergeable := by
    obtain ⟨hleaders, hslots⟩ := hprogress.merges
    refine ⟨hprogress.orderly, ?_, fun e e' v he he' => ?_, fun e slot hslot he => ?_⟩
    · rw [hleaders, hmerges.1]
      exact ha
    · exact hprogress.once.unique e e' v v he he' rfl
    · rw [hslots, hmerges.2] at hslot
      exact hprogress.once.index e _ he (himplicit slot hslot)
  obtain ⟨⟨m₃, r⟩, hscoped, rfl, o₃⟩ := mergeScoped_returns hmergeable
  obtain ⟨⟨m₄, types⟩, hentries⟩ := settleEntries_returns
    (m := if useDebugNames then { m₃ with vars := m₃.vars.useDebugNames } else m₃)
    (by split <;> exact o₃.toLegible) namer useDebugNames
  refine ⟨m₄, types, ?_⟩
  simp only [settle, settlePlanned, hplan, hdeclare, hscoped, andThen, hentries, Checked.ok_bind]
  rfl

/-- The method that counts, where the copy took over the slot of the counter. The search finds these
two, but their types have nothing in common. -/
def reusedSlot : Method where
  graph := countingMethod
  vars := { Registry.ofSlots none [1] with origins := .ofList [(2, ⟨0, 1⟩)] }

theorem settle_succeeds_reusedSlot :
    reusedSlot.graph.Undeclared ∧
      ∃ m' types, reusedSlot.settle .keepAll true = .ok (m', .ok types) :=
  ⟨by decide +kernel, settle_succeeds reusedSlot .keepAll true (by decide +kernel)
    (by decide +kernel) (by decide +kernel) (by decide +kernel)
    (Returns.pure_iff.1 (Leaders.acyclic_of_merges []))⟩

end Method

end Decompiler

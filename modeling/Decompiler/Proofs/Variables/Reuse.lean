import Decompiler.Proofs.Variables.Rounds

/-!
# A slot that is used again

Where no copies join versions of a slot, versions are merged because the one starts in a leaf where
the other has died. Then every read sees the write it saw before, in whatever order the leaves and
the other expressions are evaluated, and however often.

* `Graph.Succession.flow_eq`: one merge of two such versions keeps the flow of every run in which
  variables are written before they are read. The flow of the one into its own first assignment has
  to be the same each time, if there is any (`Graph.Steady`).
* `Method.mergeVersionsBy_flow`: so do all merges together.
-/

namespace Decompiler

open Relation

/-- Of the two variables of a candidate the other ones can be told apart by their new names. -/
theorem Candidate.rename_ofPair_injOn {l o u v w : Local} (hu : u = l ∨ u = o) (hv : v ≠ u)
    (hw : w ≠ u) (h : (ofPair l o).rename v = (ofPair l o).rename w) : v = w := by
  unfold ofPair rename at h
  split at h <;> dsimp only at h <;> split at h <;> split at h <;> grind

namespace Graph

variable {g : Graph} {o l : Local} {s : StatId} {before between after : List ExprId}
  {opening closing : ExprId} {p q : Step} {t : List Access}

/-- An assignment of a leaf to a variable that occurs in what is assigned is evaluated alike in all
steps. -/
def Steady (g : Graph) (steps : List Step) : Prop :=
  ∀ s st exprs e v right, g.InTree s → g.stat s = .ok st → st.exprs? = some exprs → e ∈ exprs →
    g.assigned? e = .ok (some (v, right)) → g.Involves right v →
    ∀ p ∈ steps, ∀ q ∈ steps, g.accesses p.taken e = g.accesses q.taken e

theorem var_ne_of_accesses {taken : ExprId → Bool} {e : ExprId} {v : Local}
    (ht : g.accesses taken e = .ok t) (h : ¬ g.Involves e v) : ∀ a ∈ t, a.var ≠ v := by
  rintro a ha rfl
  exact h (involves_of_accessesIn ht ha)

theorem reaches_right {e right : ExprId} {v : Local}
    (h : g.assigned? e = .ok (some (v, right))) : g.Reaches e right := by
  obtain ⟨left, hexpr, -⟩ := assigned?_eq_some.1 h
  obtain ⟨n, hn, hassign⟩ := expr_eq_ok.1 hexpr
  exact .single ⟨n, hn, by simp [hassign, Expr.children]⟩

theorem involves_of_assigned? {e right : ExprId} {v : Local} (he : g.Grounded e)
    (h : g.assigned? e = .ok (some (v, right))) : g.Involves e v := by
  obtain ⟨left, hexpr, hleft⟩ := assigned?_eq_some.1 h
  exact (involves_of_local? hleft).up (.single (he.sides hexpr).1)

theorem accesses_assigned {taken : ExprId → Bool} {e right : ExprId} {v : Local}
    (ht : g.accesses taken e = .ok t) (he : g.assigned? e = .ok (some (v, right))) :
    ∃ u, t = u ++ [.write e v] ∧ ∀ a ∈ u, g.Involves right a.var ∧ g.Involves e a.var := by
  obtain ⟨left, hexpr, hleft⟩ := assigned?_eq_some.1 he
  obtain ⟨n, u, hu, rfl⟩ := accessesIn_assign ht hexpr hleft
  exact ⟨u, rfl, fun a ha =>
    ⟨involves_of_accessesIn hu ha, involves_of_accessesIn ht (List.mem_append_left _ ha)⟩⟩

theorem var_ne_of_flatten {taken : ExprId → Bool} {exprs : List ExprId} {ts : List (List Access)}
    {v : Local} (h : List.Forall₂ (fun e u => g.accesses taken e = .ok u) exprs ts)
    (hv : ∀ e ∈ exprs, ¬ g.Involves e v) : ∀ a ∈ ts.flatten, a.var ≠ v := by
  intro a ha
  obtain ⟨u, hu, ha⟩ := List.mem_flatten.1 ha
  obtain ⟨e, he, heu⟩ := Checked.exists_of_mem h.flip hu
  exact var_ne_of_accesses heu (hv e he) a ha

/-! ## The accesses of one step -/

namespace Succession

variable (h : g.Succession o l s before opening between closing after)

include h

/-- The accesses of a step at another statement. -/
theorem var_ne_of_perform (hp : g.InTree p.stat) (hs : ¬ (p.stat = s ∧ p.expr = none))
    (ht : g.perform p = .ok t) : ∀ a ∈ t, a.var ≠ o := by
  obtain ⟨st, ts, hst, hts, rfl⟩ := perform_eq_ok.1 ht
  refine var_ne_of_flatten hts fun e he => ?_
  by_cases hstat : p.stat = s
  · -- a leaf has no step that evaluates a single expression
    obtain ⟨st', hst', hexprs⟩ := h.leaf
    rw [← hstat, hst] at hst'
    cases hst'
    cases hexpr : p.expr with
    | none => exact absurd ⟨hstat, hexpr⟩ hs
    | some x => simp [Step.exprs, hexpr, hexprs] at he
  · exact h.elsewhere p.stat e hstat ⟨hp, st, hst, Step.mem_exprs he⟩

/-- The accesses of a step at the leaf: those in the first assignment to the one variable, and those
from the first assignment to the other one on, are told apart. -/
theorem perform_leaf (hs : p.stat = s) (hexpr : p.expr = none) (ht : g.perform p = .ok t) :
    ∃ u₁ u₂ u₃ u₄ u₅, t = u₁ ++ ((u₂ ++ [.write opening o]) ++ (u₃ ++ ((u₄ ++ [.write closing l])
        ++ u₅))) ∧ g.accesses p.taken opening = .ok (u₂ ++ [.write opening o]) ∧
      (∀ a ∈ u₁, a.var ≠ o ∧ a.var ≠ l) ∧ (∀ a ∈ u₂ ++ u₃, a.var ≠ l) ∧
      (∀ a ∈ u₄, a.var ≠ o ∧ a.var ≠ l) ∧ ∀ a ∈ u₅, a.var ≠ o := by
  obtain ⟨st, ts, hst, hts, rfl⟩ := perform_eq_ok.1 ht
  obtain ⟨st', hst', hexprs⟩ := h.leaf
  rw [← hs, hst] at hst'
  cases hst'
  have hall : p.exprs st = before ++ opening :: (between ++ closing :: after) := by
    simp [Step.exprs, hexpr, hexprs]
  rw [hall] at hts
  obtain ⟨ts₁, ts', rfl, hts₁, hts'⟩ := Checked.exists_of_forall₂_append hts
  obtain ⟨t₂, ts'', ht₂, hts'', rfl⟩ := List.forall₂_cons_left_iff.1 hts'
  obtain ⟨ts₃, ts''', rfl, hts₃, hts'''⟩ := Checked.exists_of_forall₂_append hts''
  obtain ⟨t₄, ts₅, ht₄, hts₅, rfl⟩ := List.forall₂_cons_left_iff.1 hts'''
  obtain ⟨right, hopens⟩ := h.opens
  obtain ⟨right', hcloses, hright'⟩ := h.closes
  obtain ⟨u₂, rfl, hu₂⟩ := accesses_assigned ht₂ hopens
  obtain ⟨u₄, rfl, hu₄⟩ := accesses_assigned ht₄ hcloses
  have hl₁ := var_ne_of_flatten hts₁ fun e he => h.later e (by simp [he])
  have ho₁ := var_ne_of_flatten hts₁ h.fresh
  have hl₃ := var_ne_of_flatten hts₃ fun e he => h.later e (by simp [he])
  refine ⟨ts₁.flatten, u₂, ts₃.flatten, u₄, ts₅.flatten, by simp, ht₂,
    fun a ha => ⟨ho₁ a ha, hl₁ a ha⟩, fun a ha hal => ?_,
    fun a ha => ⟨fun hao => ?_, fun hal => ?_⟩,
    var_ne_of_flatten hts₅ fun e he => h.dead e (by simp [he])⟩
  · rcases List.mem_append.1 ha with ha | ha
    · exact h.later opening (by simp) (hal ▸ (hu₂ a ha).2)
    · exact hl₃ a ha hal
  · exact h.dead closing (by simp) (hao ▸ (hu₄ a ha).2)
  · exact hright' (hal ▸ (hu₄ a ha).1)

omit h in
/-- Renaming keeps the flow of a leaf in which the one variable is written before it is read. -/
theorem simulates_leaf {u₁ u₂ u₃ u₄ u₅ : List Access} (hne : o ≠ l)
    (h₁ : ∀ a ∈ u₁, a.var ≠ o ∧ a.var ≠ l) (h₂₃ : ∀ a ∈ u₂ ++ u₃, a.var ≠ l)
    (h₄ : ∀ a ∈ u₄, a.var ≠ o ∧ a.var ≠ l) (h₅ : ∀ a ∈ u₅, a.var ≠ o) (hw : WritesFirst o u₂) :
    Simulates (Candidate.ofPair l o).rename (· ≠ o) (· ≠ o) (u₁ ++ ((u₂ ++ [.write opening o]) ++
      (u₃ ++ ((u₄ ++ [.write closing l]) ++ u₅)))) := by
  have hinjo : ∀ v w, v ≠ o → w ≠ o →
      (Candidate.ofPair l o).rename v = (Candidate.ofPair l o).rename w → v = w :=
    fun v w => Candidate.rename_ofPair_injOn (.inr rfl)
  have hinjl : ∀ v w, v ≠ l → w ≠ l →
      (Candidate.ofPair l o).rename v = (Candidate.ofPair l o).rename w → v = w :=
    fun v w => Candidate.rename_ofPair_injOn (.inl rfl)
  -- until the one is written, neither of the two is to be found
  have before : Simulates (Candidate.ofPair l o).rename (· ≠ o) (fun v => v ≠ l ∧ v ≠ o) u₁ :=
    (Simulates.of_injOn hinjo fun a ha => (h₁ a ha).1).keeps fun v hv => hv.2
  have opens : Simulates (Candidate.ofPair l o).rename (fun v => v ≠ l ∧ v ≠ o) (· ≠ l)
      (u₂ ++ [.write opening o]) := by
    refine (Simulates.of_writesFirst hinjl (fun a ha => h₂₃ a (by simp [ha])) hw).append ?_
    refine .write opening (fun w hwl hwo => ⟨⟨hwl, hwo⟩, fun heq => hwo ?_⟩) (.nil fun _ hv => hv)
    exact hinjl w o hwl hne heq
  have between : Simulates (Candidate.ofPair l o).rename (· ≠ l) (· ≠ l) u₃ :=
    .of_injOn hinjl fun a ha => h₂₃ a (by simp [ha])
  have closes : Simulates (Candidate.ofPair l o).rename (· ≠ l) (· ≠ o)
      (u₄ ++ [.write closing l]) := by
    refine (Simulates.of_injOn hinjl fun a ha => (h₄ a ha).2).append ?_
    refine .write closing (fun w hwo hwl => ⟨hwl, fun heq => hwl ?_⟩) (.nil fun _ hv => hv)
    exact hinjo w l hwo (Ne.symm hne) heq
  have after : Simulates (Candidate.ofPair l o).rename (· ≠ o) (· ≠ o) u₅ := .of_injOn hinjo h₅
  exact before.append (opens.append (between.append (closes.append after)))

omit h in
/-- If a variable is written before it is read, then so in the first step that uses it. -/
theorem exists_writesFirst {Q : Step → List Access → Prop} {uses : Step → Prop}
    {steps : List Step} {ts : List (List Access)} (hts : List.Forall₂ Q steps ts)
    (hother : ∀ p t, Q p t → ¬ uses p → ∀ a ∈ t, a.var ≠ o) (hw : WritesFirst o ts.flatten)
    (hex : ∃ p ∈ steps, uses p) : ∃ p ∈ steps, ∃ t, Q p t ∧ uses p ∧ WritesFirst o t := by
  induction hts with
  | nil => simp at hex
  | @cons p t steps ts hQ hrest ih =>
    rw [List.flatten_cons] at hw
    by_cases hp : uses p
    · exact ⟨p, by simp, t, hQ, hp, hw.left⟩
    · obtain ⟨q, hq, hqu⟩ := hex
      have hq : q ∈ steps := (List.mem_cons.1 hq).resolve_left fun heq => hp (heq ▸ hqu)
      obtain ⟨q', hq', rest⟩ := ih (hw.right (hother p t hQ hp)) ⟨q, hq, hqu⟩
      exact ⟨q', by simp [hq'], rest⟩

/-- The first assignment to the one variable does not read it before some part of it writes it. -/
theorem writesFirst_opening {steps : List Step} {ts : List (List Access)}
    (hsteps : ∀ p ∈ steps, g.InTree p.stat) (hsteady : g.Steady steps)
    (hts : List.Forall₂ (fun p t => g.perform p = .ok t) steps ts)
    (hw : WritesFirst o ts.flatten) (hp : p ∈ steps) (hps : p.stat = s ∧ p.expr = none)
    {u : List Access} (hu : g.accesses p.taken opening = .ok (u ++ [.write opening o])) :
    WritesFirst o u := by
  obtain ⟨right, hopens⟩ := h.opens
  by_cases hinv : g.Involves right o
  · have hboth := (List.forall₂_and_left _ _).2 ⟨fun p hp => hp, hts⟩
    obtain ⟨q, hq, t, ⟨-, ht⟩, hqs, hwt⟩ := exists_writesFirst hboth
      (fun q t hQ hqs => h.var_ne_of_perform (hsteps q hQ.1) hqs hQ.2) hw ⟨p, hp, hps⟩
    obtain ⟨u₁, u₂, u₃, u₄, u₅, rfl, hopening, h₁, -⟩ := h.perform_leaf hqs.1 hqs.2 ht
    -- the assignment is evaluated as it was in the first such step
    obtain ⟨st, hst, hexprs⟩ := h.leaf
    have hsame := hsteady s st _ opening o right h.inTree hst hexprs (by simp) hopens hinv p hp q hq
    rw [hu, hopening] at hsame
    obtain rfl : u = u₂ := by simpa using hsame
    exact (hwt.right fun a ha => (h₁ a ha).1).left.left
  · obtain ⟨u', heq, hu'⟩ := accesses_assigned hu hopens
    obtain rfl : u = u' := by simpa using heq
    refine writesFirst_of_forall_ne fun a ha hao => hinv (hao ▸ (hu' a ha).1)

/-- Merging the two variables keeps the flow of every run in which variables are written before they
are read. -/
theorem flow_eq (hne : o ≠ l) {steps : List Step} {trace : List Access}
    (hsteps : ∀ p ∈ steps, g.InTree p.stat) (hsteady : g.Steady steps)
    (hrun : g.run steps = .ok trace) (hinit : Initialised trace) :
    flow (trace.map (.rename (Candidate.ofPair l o).rename)) = flow trace := by
  obtain ⟨ts, hts, rfl⟩ := run_eq_ok.1 hrun
  have hw : WritesFirst o ts.flatten := writesFirst_of_flow hinit rfl
  have hall : Simulates (Candidate.ofPair l o).rename (· ≠ o) (· ≠ o) ts.flatten := by
    refine .flatten fun t ht => ?_
    obtain ⟨p, hp, hpt⟩ := Checked.exists_of_mem hts.flip ht
    by_cases hps : p.stat = s ∧ p.expr = none
    · obtain ⟨u₁, u₂, u₃, u₄, u₅, rfl, hopening, h₁, h₂₃, h₄, h₅⟩ := h.perform_leaf hps.1 hps.2 hpt
      exact simulates_leaf hne h₁ h₂₃ h₄ h₅
        (h.writesFirst_opening hsteps hsteady hts hw hp hps hopening)
    · exact .of_injOn (fun v w => Candidate.rename_ofPair_injOn (.inr rfl))
        (h.var_ne_of_perform (hsteps p hp) hps hpt)
  exact (hall 0 _ _ fun _ _ => rfl).1

/-- No expression has both variables, so what has one name in it after a merge had it before. -/
theorem eq_of_rename_eq {r : StatId} {e : ExprId} {v w : Local} (he : g.Owns r e)
    (hv : g.Involves e v) (hw : g.Involves e w)
    (heq : (Candidate.ofPair l o).rename v = (Candidate.ofPair l o).rename w) : v = w := by
  by_cases ho : g.Involves e o
  · -- the expression stands in the leaf, before the other variable starts
    have hl : ¬ g.Involves e l := by
      obtain rfl : r = s := not_not.1 fun hr => h.elsewhere r e hr he ho
      obtain ⟨-, st, hst, hmem⟩ := he
      obtain ⟨st', hst', hexprs⟩ := h.leaf
      rw [hst] at hst'
      cases hst'
      rw [Stat.exprs?_eq_some.1 hexprs] at hmem
      change e ∈ before ++ opening :: (between ++ closing :: after) at hmem
      refine h.later e ?_
      have hdead : e ∉ closing :: after := fun hlate => h.dead e hlate ho
      simp only [List.mem_append, List.mem_cons] at hmem hdead ⊢
      tauto
    refine Candidate.rename_ofPair_injOn (.inl rfl) ?_ ?_ heq
    · rintro rfl
      exact hl hv
    · rintro rfl
      exact hl hw
  · refine Candidate.rename_ofPair_injOn (.inr rfl) ?_ ?_ heq
    · rintro rfl
      exact ho hv
    · rintro rfl
      exact ho hw

end Succession

end Graph

/-! ## All merges -/

namespace Method

open Decompiler.Graph

variable {m m' : Method} {steps : List Step} {ρ : Local → Local}

/-- Copies do not join variables, and merging does nothing but rename them. -/
structure Ready (m : Method) (steps : List Step) : Prop where
  /-- There are no declarations. -/
  plain : m.graph.Plain
  /-- There are no copies within a slot. -/
  copies : m.CopiesApart
  /-- The steps are steps of the method. -/
  inTree : ∀ p ∈ steps, m.graph.InTree p.stat
  /-- Assignments that use what they assign to are evaluated alike. -/
  steady : m.graph.Steady steps

/-- A merge keeps all this. -/
theorem Ready.of_renames (h : m.Ready steps) (r : Renames m.graph m'.graph ρ)
    (hslot : ∀ v, m'.vars.slotOf (ρ v).index = m.vars.slotOf v.index)
    (hground : ∀ s e, m.graph.Owns s e → m.graph.Grounded e)
    (hapart : ∀ s e v w, m.graph.Owns s e → m.graph.Involves e v → m.graph.Involves e w →
      ρ v = ρ w → v = w) : m'.Ready steps := by
  have hleaf : ∀ s st exprs e, m'.graph.InTree s → m'.graph.stat s = .ok st →
      st.exprs? = some exprs → e ∈ exprs →
      m.graph.InTree s ∧ m.graph.stat s = .ok st ∧ m.graph.Owns s e := by
    intro s st exprs e hs hst hexprs he
    rw [r.inTree_iff] at hs
    rw [r.stat] at hst
    exact ⟨hs, hst, owns_of_exprs? hs hst hexprs he⟩
  refine ⟨r.plain h.plain, ?_, fun p hp => r.inTree_iff.2 (h.inTree p hp), ?_⟩
  · intro s st exprs e v' right w' hs' hst' hexprs he hassigned hw'
    obtain ⟨hs, hst, hown⟩ := hleaf s st exprs e hs' hst' hexprs he
    have hge := hground s e hown
    obtain ⟨v, hv, rfl⟩ := r.assigned?_eq_some hown hge hassigned
    have hright := reaches_right hv
    obtain ⟨w, hw, rfl⟩ := r.local?_eq_some hown hge hright hw'
    rw [hslot, hslot]
    exact h.copies s st exprs e v right w hs hst hexprs he hv hw
  · intro s st exprs e v' right hs' hst' hexprs he hassigned hinv p hp q hq
    obtain ⟨hs, hst, hown⟩ := hleaf s st exprs e hs' hst' hexprs he
    have hge := hground s e hown
    obtain ⟨v, hv, rfl⟩ := r.assigned?_eq_some hown hge hassigned
    have hright := reaches_right hv
    obtain ⟨w, hw, hρ⟩ := r.involves hown hge hright hinv
    obtain rfl : w = v := hapart s e w v hown (hw.up hright) (involves_of_assigned? hge hv) hρ
    have hsame := h.steady s st exprs e w right hs hst hexprs he hv hw p hp q hq
    obtain ⟨t, ht⟩ := hge.accesses p.taken
    rw [r.accesses hown .refl ht, r.accesses hown .refl (hsame ▸ ht)]

theorem slotOf_eq {r r' : Registry} (h : r'.origins = r.origins) (i : ℕ) :
    r'.slotOf i = r.slotOf i := by
  rw [Registry.slotOf, Registry.origin, h]
  rfl

theorem slotOf_rename {l o : Local} (h : m.vars.slotOf o.index = m.vars.slotOf l.index)
    (v : Local) :
    m.vars.slotOf ((Candidate.ofPair l o).rename v).index = m.vars.slotOf v.index := by
  unfold Candidate.ofPair Candidate.rename
  split
  · dsimp only
    split
    · next hv => rw [hv, h]
    · rfl
  · dsimp only
    split
    · next hv => rw [hv, h]
    · rfl

/-! ### Self-assignments -/

theorem dropFrom_spares {doomed : ExprId → Checked Bool} {keepLone : Bool} {g g' : Graph}
    {kept l l' : List ExprId} (h : dropFrom doomed keepLone g kept l = .ok (g', l'))
    (hd : ∀ e ∈ l, doomed e ≠ .ok true) : g' = g ∧ l' = kept.reverse ++ l := by
  induction l generalizing kept with
  | nil =>
    cases Checked.pure_eq_ok.1 h
    simp
  | cons e rest ih =>
    obtain ⟨b, hb, h⟩ := Checked.bind_eq_ok.1 h
    cases b with
    | true => exact absurd hb (hd e (by simp))
    | false =>
      have hrest := ih h fun x hx => hd x (by simp [hx])
      simpa using hrest

theorem isSelfAssignment_eq_true {g : Graph} {e : ExprId} (h : isSelfAssignment g e = .ok true) :
    ∃ v right, g.assigned? e = .ok (some (v, right)) ∧ g.local? right = .ok (some v) := by
  obtain ⟨sides, hsides, h⟩ := Checked.bind_eq_ok.1 h
  cases sides with
  | none => cases h
  | some p =>
    obtain ⟨v?, hv, h⟩ := Checked.bind_eq_ok.1 h
    obtain ⟨w?, hw, h⟩ := Checked.bind_eq_ok.1 h
    cases v? with
    | none => cases h
    | some v =>
      cases w? with
      | none => cases h
      | some w =>
        obtain rfl : v = w := by simpa using h
        exact ⟨v, p.2, assigned?_eq_some.2 ⟨p.1, assign?_eq_ok.1 hsides, hv⟩, hw⟩

/-- A leaf in which no variable is assigned to itself stays as it is. -/
theorem dropSelfAssignments_same {g g' : Graph} {s : StatId}
    (hself : ∀ st exprs e v right, g.stat s = .ok st → st.exprs? = some exprs → e ∈ exprs →
      g.assigned? e = .ok (some (v, right)) → g.local? right ≠ .ok (some v))
    (h : dropSelfAssignments g s = .ok g') : ReadsSame g g' := by
  obtain ⟨st, hst, h⟩ := Checked.bind_eq_ok.1 h
  cases hexprs : st.exprs? with
  | none =>
    rw [hexprs] at h
    exact Checked.pure_eq_ok.1 h ▸ .refl g
  | some exprs =>
    rw [hexprs] at h
    obtain ⟨⟨g₁, l⟩, hdrop, hmodify⟩ := Checked.bind_eq_ok.1 h
    have hspares : g₁ = g ∧ l = exprs := by
      refine dropFrom_spares hdrop fun e he hdoomed => ?_
      obtain ⟨v, right, hassigned, hright⟩ := isSelfAssignment_eq_true hdoomed
      exact hself st exprs e v right hst hexprs he hassigned hright
    obtain ⟨rfl, rfl⟩ := hspares
    refine .modifyStat hmodify fun st' hst' => ?_
    rw [hst] at hst'
    cases hst'
    rw [Stat.exprs?_eq_some] at hexprs
    obtain ⟨kind, parent, first, children, declarations, successors, predecessors, labels⟩ := st
    cases hexprs
    rfl

theorem CopiesApart.of_readsSame {g : Graph} (h : m.CopiesApart) (hg : ReadsSame m.graph g) :
    CopiesApart { m with graph := g } := by
  intro s st exprs e v right w hs hst hexprs he hassigned hw
  dsimp only at hs hst hassigned hw ⊢
  rw [hg.inTree_iff] at hs
  rw [hg.stat] at hst
  rw [hg.local?_eq] at hw
  obtain ⟨left, hexpr, hleft⟩ := assigned?_eq_some.1 hassigned
  rw [hg.expr_eq] at hexpr
  rw [hg.local?_eq] at hleft
  exact h s st exprs e v right w hs hst hexprs he (assigned?_eq_some.2 ⟨left, hexpr, hleft⟩) hw

theorem foldlM_dropSelfAssignments_same (h : m.CopiesApart) {stats : List StatId} {g : Graph}
    (hstats : m.graph.statements = .ok stats)
    (hg : stats.foldlM dropSelfAssignments m.graph = .ok g) : ReadsSame m.graph g := by
  refine .foldlM hg (fun s hs => (mem_preorderIn hstats s).1 hs) fun g₁ g₂ s hsame hs hdrop => ?_
  refine dropSelfAssignments_same
    (fun st exprs e v right hst hexprs he hassigned hright => ?_) hdrop
  exact h.of_readsSame hsame s st exprs e v right v hs hst hexprs he hassigned hright rfl

theorem candidate?_grounded {arrange : Occurrences → Occurrences} {refused : List Candidate}
    {c : Option Candidate} (h : m.candidate? arrange refused = .ok c) {s : StatId} {e : ExprId}
    (he : m.graph.Owns s e) : m.graph.Grounded e := by
  obtain ⟨occ, hocc, -⟩ := Checked.bind_eq_ok.1 h
  obtain ⟨hs, st, hst, hmem⟩ := he
  obtain ⟨place, hplace, -⟩ := exists_mem_placedExprs (s := s) hmem
  exact ((occurrences_eq_ok hocc).2 s st hs hst _ hplace).1

/-- One merge keeps the flow of the run, and all that the next merge needs. -/
theorem Ready.merge {arrange : Occurrences → Occurrences} {refused : List Candidate} {c : Candidate}
    {g : Graph} {stats : List StatId} (h : m.Ready steps)
    (harrange : ∀ occ, (arrange occ).entries.Perm occ.entries)
    (hc : m.candidate? arrange refused = .ok (some c))
    (hm : m.unify c.source c.target = .ok (m', .merged)) (hstats : m'.graph.statements = .ok stats)
    (hg : stats.foldlM dropSelfAssignments m'.graph = .ok g) {trace : List Access}
    (hrun : m.graph.run steps = .ok trace) (hinit : Initialised trace) :
    Ready { m' with graph := g } steps ∧
      Returns (g.run steps) fun trace' => flow trace' = flow trace := by
  obtain ⟨o, l, s, before, opening, between, closing, after, hsucc, hne, hslot, rfl⟩ :=
    candidate?_reuse harrange h.copies hc
  obtain ⟨r, horigins⟩ := unify_renames h.plain hm
  have hground : ∀ s e, m.graph.Owns s e → m.graph.Grounded e := fun s e => candidate?_grounded hc
  have hslots : ∀ v, m'.vars.slotOf ((Candidate.ofPair l o).rename v).index =
      m.vars.slotOf v.index := fun v => (slotOf_eq horigins _).trans (slotOf_rename hslot v)
  have hapart : ∀ s e v w, m.graph.Owns s e → m.graph.Involves e v → m.graph.Involves e w →
      (Candidate.ofPair l o).rename v = (Candidate.ofPair l o).rename w → v = w :=
    fun s e v w => hsucc.eq_of_rename_eq
  have hcopies : m'.CopiesApart := (h.of_renames r hslots hground hapart).copies
  have r' := r.of_readsSame (foldlM_dropSelfAssignments_same hcopies hstats hg)
  refine ⟨h.of_renames r' hslots hground hapart, _, r'.run h.inTree hrun, ?_⟩
  exact hsucc.flow_eq hne h.inTree h.steady hrun hinit

theorem mergeVersionsIn_flow {arrange : Occurrences → Occurrences}
    (harrange : ∀ occ, (arrange occ).entries.Perm occ.entries) {rounds merges : ℕ}
    {refused : List Candidate} {result : Except MergeFailure ℕ} {trace : List Access}
    (h : m.Ready steps) (hm : mergeVersionsIn arrange rounds m refused merges = .ok (m', result))
    (hrun : m.graph.run steps = .ok trace) (hinit : Initialised trace) :
    Returns (m'.graph.run steps) fun trace' => flow trace' = flow trace := by
  obtain ⟨refused', hrounds, -⟩ := mergeVersionsIn_rounds hm
  have hkept : m'.Ready steps ∧
      Returns (m'.graph.run steps) fun trace' => flow trace' = flow trace := by
    refine hrounds.keeps (P := fun m => m.Ready steps ∧
      Returns (m.graph.run steps) fun trace' => flow trace' = flow trace) ⟨h, trace, hrun, rfl⟩
      fun q c m₁ g _ hq hmerges htidy => ?_
    obtain ⟨hready, trace₁, hrun₁, hflow₁⟩ := hq
    obtain ⟨hc, hu⟩ := hmerges
    obtain ⟨stats, hstats, hg⟩ := Checked.bind_eq_ok.1 htidy
    have hinit₁ : Initialised trace₁ := by rw [Initialised, hflow₁]; exact hinit
    obtain ⟨hready₂, hrun₂⟩ := hready.merge harrange hc hu hstats hg hrun₁ hinit₁
    exact ⟨hready₂, hrun₂.mono fun trace₂ hflow => hflow.trans hflow₁⟩
  exact hkept.2

end Method

/-! ## What can be checked beforehand -/

namespace Graph

theorem EachStat.exists_stat {g : Graph} {P : Stat → Prop} (h : g.EachStat P) {s : StatId}
    (hs : g.InTree s) : ∃ st, g.stat s = .ok st := by
  obtain ⟨l, hl, hP⟩ := h
  obtain ⟨st, hst, -⟩ := hP s ((mem_preorderIn hl s).2 hs)
  exact ⟨st, hst⟩

/-- Every expression of a leaf satisfies a condition. -/
def EachLeafExpr (g : Graph) (P : ExprId → Prop) : Prop :=
  g.EachStat fun st => ∀ e ∈ st.exprs?.getD [], P e

instance (g : Graph) (P : ExprId → Prop) [DecidablePred P] : Decidable (g.EachLeafExpr P) :=
  inferInstanceAs (Decidable (g.EachStat _))

theorem EachLeafExpr.expr {g : Graph} {P : ExprId → Prop} (h : g.EachLeafExpr P) {s : StatId}
    {st : Stat} {exprs : List ExprId} {e : ExprId} (hs : g.InTree s) (hst : g.stat s = .ok st)
    (hexprs : st.exprs? = some exprs) (he : e ∈ exprs) : P e := by
  have hall := h.stat hs hst
  rw [hexprs] at hall
  exact hall e he

/-- No leaf holds an occurrence of a variable on its own. -/
def NoBareOccurrence (g : Graph) : Prop :=
  g.EachLeafExpr fun e => Returns (g.local? e) fun v => v = none

/-- An assignment of a leaf to a variable that occurs in what is assigned is evaluated alike in all
steps of a run. -/
def EvaluatedAlike (g : Graph) (steps : List Step) : Prop :=
  g.EachLeafExpr fun e => Returns (g.assigned? e) fun a => ∀ p ∈ a,
    Returns (g.refsIn p.2) fun refs => (∃ r ∈ refs, r.2.var = p.1) →
      ∀ p ∈ steps, ∀ q ∈ steps, g.accesses p.taken e = g.accesses q.taken e

/-- The steps are made by statements of the tree. -/
def Makes (g : Graph) (steps : List Step) : Prop :=
  Returns g.statements fun l => ∀ p ∈ steps, p.stat ∈ l

instance (g : Graph) : Decidable g.NoBareOccurrence :=
  inferInstanceAs (Decidable (EachLeafExpr _ _))

instance (g : Graph) (steps : List Step) : Decidable (g.EvaluatedAlike steps) :=
  inferInstanceAs (Decidable (EachLeafExpr _ _))

instance (g : Graph) (steps : List Step) : Decidable (g.Makes steps) :=
  inferInstanceAs (Decidable (Returns _ _))

end Graph

namespace Method

open Decompiler.Graph

/-- No leaf assigns to a variable another version of its slot, or the variable itself. -/
def NoCopyInSlot (m : Method) : Prop :=
  m.graph.EachLeafExpr fun e => Returns (m.graph.assigned? e) fun a => ∀ p ∈ a,
    Returns (m.graph.local? p.2) fun w => ∀ u ∈ w, m.vars.slotOf u.index ≠ m.vars.slotOf p.1.index

instance (m : Method) : Decidable m.NoCopyInSlot := inferInstanceAs (Decidable (EachLeafExpr _ _))

/-- Merging versions by reuse keeps the flow of every run in which variables are written before they
are read, in whatever order the versions of a slot are tried: each read sees the write that it saw
before. -/
theorem mergeVersionsBy_flow (arrange : Occurrences → Occurrences)
    (harrange : ∀ occ, (arrange occ).entries.Perm occ.entries) (m m' : Method)
    (result : Except MergeFailure ℕ) (steps : List Step)
    (hdecl : m.graph.EachStat fun st => st.declarations = []) (hbare : m.graph.NoBareOccurrence)
    (hcopies : m.NoCopyInSlot) (halike : m.graph.EvaluatedAlike steps)
    (hsteps : m.graph.Makes steps) (hm : m.mergeVersionsBy arrange = .ok (m', result)) :
    Returns (m.graph.run steps) fun trace => Initialised trace →
      Returns (m'.graph.run steps) fun trace' => flow trace' = flow trace := by
  have hready : m.Ready steps := by
    refine ⟨⟨fun s st hs hst => hdecl.stat hs hst, ?_⟩, ?_, fun p hp => ?_, ?_⟩
    · intro s st exprs e hs hst hexprs he v hv
      obtain ⟨v', hv', rfl⟩ := hbare.expr hs hst hexprs he
      rw [hv] at hv'
      cases hv'
    · intro s st exprs e v right w hs hst hexprs he hassigned hw
      obtain ⟨a, ha, hall⟩ := hcopies.expr hs hst hexprs he
      rw [hassigned] at ha
      cases ha
      obtain ⟨w', hw', hslot⟩ := hall (v, right) rfl
      rw [hw] at hw'
      cases hw'
      exact hslot w rfl
    · obtain ⟨l, hl, hmem⟩ := hsteps
      exact (mem_preorderIn hl _).1 (hmem p hp)
    · intro s st exprs e v right hs hst hexprs he hassigned hinv
      obtain ⟨a, ha, hall⟩ := halike.expr hs hst hexprs he
      rw [hassigned] at ha
      cases ha
      obtain ⟨refs, hrefs, hsame⟩ := hall (v, right) rfl
      exact hsame ((mem_refsIn_iff_involves hrefs).2 hinv)
  obtain ⟨rounds, hm⟩ : ∃ rounds, mergeVersionsIn arrange (rounds + 1) m [] 0 = .ok (m', result) :=
    ⟨(m.graph.exprs.size + 1) * m.graph.exprs.size + m.graph.exprs.size, hm⟩
  have hperform : ∀ p ∈ steps, Returns (m.graph.perform p) fun _ => True := by
    intro p hp
    obtain ⟨c, hc, -⟩ := Checked.bind_eq_ok.1 hm
    have hs := hready.inTree p hp
    obtain ⟨st, hst⟩ := hdecl.exists_stat hs
    exact perform_returns hst fun e he => candidate?_grounded hc ⟨hs, st, hst, he⟩
  obtain ⟨ts, hts, -⟩ := Returns.mapM hperform
  have hrun : m.graph.run steps = .ok ts.flatten :=
    run_eq_ok.2 ⟨ts, Checked.mapM_eq_ok_iff.1 hts, rfl⟩
  exact ⟨ts.flatten, hrun, mergeVersionsIn_flow harrange hready hm hrun⟩

/-- A slot that is used twice in a loop:
`v5 = 0; while (v5 < 3) { v3 = value; Out.print(v3); v5 = 7; }`, where `v3` and `v5` are versions of
one slot. The value at 1 is `In.flag()`, and the one at 4 is `In.flag() ? v3 : 5`. -/
def reusedInLoop (value : ExprId) : Method where
  graph :=
    { stats := ⟨#[
        ⟨.exit, none, none, [], [], [], [], []⟩,
        ⟨.root, none, some ⟨5⟩, [⟨5⟩], [], [], [], []⟩,
        ⟨.block [⟨13⟩], some ⟨5⟩, none, [], [], [], [], []⟩,
        ⟨.block [⟨5⟩, ⟨7⟩, ⟨10⟩], some ⟨4⟩, none, [], [], [], [], []⟩,
        ⟨.loop ⟨.whileDo, none, some ⟨16⟩, none⟩, some ⟨5⟩, some ⟨3⟩, [⟨3⟩], [], [], [], []⟩,
        ⟨.sequence, some ⟨1⟩, some ⟨2⟩, [⟨2⟩, ⟨4⟩], [], [], [], []⟩]⟩
      edges := .empty
      exprs :=
        let occurrence (index : ℕ) : Expr := .var ⟨⟨index, 0⟩, ⟨.int, 0⟩, false, false, none⟩
        let constant (n : ℤ) : Expr := .const ⟨.int, 0⟩ (.int n)
        ⟨#[
          ⟨occurrence 3, .empty⟩,
          ⟨.call ⟨"In", "flag", "()Z", none, []⟩, .empty⟩,
          ⟨occurrence 3, .empty⟩,
          ⟨constant 5, .empty⟩,
          ⟨.apply .ternary [⟨1⟩, ⟨2⟩, ⟨3⟩], .empty⟩,
          ⟨.assign ⟨0⟩ value, .empty⟩,
          ⟨occurrence 3, .empty⟩,
          ⟨.call ⟨"Out", "print", "(I)V", none, [⟨6⟩]⟩, .empty⟩,
          ⟨occurrence 5, .empty⟩,
          ⟨constant 7, .empty⟩,
          ⟨.assign ⟨8⟩ ⟨9⟩, .empty⟩,
          ⟨occurrence 5, .empty⟩,
          ⟨constant 0, .empty⟩,
          ⟨.assign ⟨11⟩ ⟨12⟩, .empty⟩,
          ⟨occurrence 5, .empty⟩,
          ⟨constant 3, .empty⟩,
          ⟨.apply .lt [⟨14⟩, ⟨15⟩], .empty⟩]⟩ }
  vars := { Registry.empty with origins := .ofList [(3, ⟨1, 3⟩), (5, ⟨1, 5⟩)] }

/-- Two rounds of the loop. The flag is not set in the first, and it is in the second. -/
def twoRounds : List Step :=
  let visit (s : ℕ) (e : Option ExprId) (operand : ExprId) : Step := ⟨⟨s⟩, e, (· = operand)⟩
  [visit 2 none ⟨3⟩, visit 4 (some ⟨16⟩) ⟨3⟩, visit 3 none ⟨3⟩, visit 4 (some ⟨16⟩) ⟨2⟩,
    visit 3 none ⟨2⟩]

theorem mergeVersionsBy_flow_reusedInLoop :
    Returns ((reusedInLoop ⟨1⟩).mergeVersionsBy id) (fun r => r.2 = .ok 1) ∧
      ∀ m' result, (reusedInLoop ⟨1⟩).mergeVersionsBy id = .ok (m', result) →
        Returns ((reusedInLoop ⟨1⟩).graph.run twoRounds) fun trace => Initialised trace →
          Returns (m'.graph.run twoRounds) fun trace' => flow trace' = flow trace :=
  ⟨by decide +kernel, fun m' result h => mergeVersionsBy_flow id (fun _ => .refl _) _ m' result
    twoRounds (by decide +kernel) (by decide +kernel) (by decide +kernel) (by decide +kernel)
    (by decide +kernel) h⟩

/-- Where the first assignment to a variable reads it under a condition, its value may come from the
last time the leaf was run, and merging it with the variable that takes its place loses that value:
in the second round `v3` is `7` instead of `5`. -/
theorem not_flow_of_conditional_read :
    ((reusedInLoop ⟨4⟩).graph.EachStat fun st => st.declarations = []) ∧
      (reusedInLoop ⟨4⟩).graph.NoBareOccurrence ∧ (reusedInLoop ⟨4⟩).NoCopyInSlot ∧
      (reusedInLoop ⟨4⟩).graph.Makes twoRounds ∧
      Returns (reusedInLoop ⟨4⟩).mergeVersions fun r =>
        Returns ((reusedInLoop ⟨4⟩).graph.run twoRounds) fun trace => Initialised trace ∧
          Returns (r.1.graph.run twoRounds) fun trace' => flow trace' ≠ flow trace := by
  decide +kernel

end Method

end Decompiler

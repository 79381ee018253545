import Decompiler.Proofs.Variables.Candidates
import Mathlib.Data.List.Dedup
import Mathlib.Data.List.ProdSigma

/-!
# Merging versions ends

A round of merging takes a variable out of the tree, or else it refuses a candidate for good. Either
can happen so many times only: variables do not come back, and candidates are pairs of variables of
the tree.

* `Graph.Involved`: a variable occurs in the tree.
* `Method.candidate?_returns`: a candidate is made of two variables of the tree.
* `Method.Fusible.merge`: one merge takes its source out of the tree, and out of the unique
  variables.
* `Method.MergeRun`: the merges of a run, in their order.
* `Method.mergeVersionsBy_eliminates`: merging comes to a result without an error, and it takes as
  many variables out of the tree as it counts merges.
-/

namespace Decompiler

open Relation

theorem Table.mem_keys_foldl_alter {κ α : Type} [DecidableEq κ] {l : List (κ × α)}
    {t : Table κ (List α)} {k : κ}
    (h : k ∈ (l.foldl (fun t v => t.alter v.1 fun l => l.getD [] ++ [v.2]) t).keys) :
    k ∈ t.keys ∨ ∃ v ∈ l, v.1 = k := by
  induction l generalizing t with
  | nil => exact .inl h
  | cons v l ih =>
    rcases ih h with hk | ⟨w, hw, rfl⟩
    · rcases mem_keys_insert.1 hk with hk | rfl
      · exact .inl hk
      · exact .inr ⟨v, by simp, rfl⟩
    · exact .inr ⟨w, by simp [hw], rfl⟩

namespace Leaders

variable {t : Leaders} {v w source target : Local}

theorem find_unique (h : t.isUnique v = true) : t.find v = .ok (t, v) := by
  have hlink := isUnique_iff.1 h
  have hredirect : redirect v t.size t v = .ok t := by cases t.size <;> simp [redirect]
  simp [find, leader, follow_unique hlink, hredirect]

/-- Merging two unique variables links the one to the other. -/
theorem merge_unique (hs : t.isUnique source = true) (ht : t.isUnique target = true)
    (hne : source ≠ target) : t.merge source target = .ok ⟨t.links.insert source target⟩ := by
  simp [merge, find_unique hs, find_unique ht, hne]

theorem isUnique_insert : (⟨t.links.insert v w⟩ : Leaders).isUnique source = true ↔
    t.isUnique source = true ∧ source ≠ v := by
  rw [isUnique_iff, isUnique_iff, Table.get?_insert]
  split
  · next h => simp [h]
  · next h => simp [Ne.symm h]

end Leaders

/-! ## The variables of the tree -/

namespace Graph

variable {g g' : Graph} {s : StatId} {e x : ExprId} {v source target : Local} {st : Stat}
  {lost : ExprId → Prop}

/-- The variable occurs in an expression that a statement of the tree evaluates or declares. -/
def Involved (g : Graph) (v : Local) : Prop :=
  ∃ s e, g.InTree s ∧ g.Holds s e ∧ g.Involves e v

/-- The variables that occur in the tree, each once. -/
def locals (g : Graph) : Checked (List Local) := do
  return ((← g.refsInAll (← g.exprsIn root)).map fun v => v.2.var).dedup

/-- The expressions of the tree are there, and none leads back to itself. -/
def ExprsGrounded (g : Graph) : Prop :=
  Returns (g.exprsIn root) fun l => ∀ e ∈ l, Returns (g.nodes e) fun _ => True

/-- Declarations are occurrences of variables. -/
def DeclaresVariables (g : Graph) : Prop :=
  g.EachStat fun st => ∀ e ∈ st.declarations, Returns (g.local? e) fun v => v ≠ none

instance (g : Graph) : Decidable g.ExprsGrounded := inferInstanceAs (Decidable (Returns _ _))

instance (g : Graph) : Decidable g.DeclaresVariables := inferInstanceAs (Decidable (EachStat _ _))

theorem legible_of_wellFormed (hw : g.WellFormed) (he : g.ExprsGrounded) : g.Legible := by
  obtain ⟨l, hl, hnodes⟩ := he
  refine ⟨hw.forest, fun s e hs hheld => ?_⟩
  obtain ⟨nodes, hnodes, -⟩ := hnodes e ((hw.forest.mem_exprsIn .refl hl).2 ⟨s, hs, hheld⟩)
  exact grounded_of_nodes hnodes

/-- There are no more variables than expressions. -/
theorem length_le_of_involved {l : List Local} (hl : l.Nodup) (hinv : ∀ v ∈ l, g.Involved v) :
    l.length ≤ g.exprs.size := by
  have hsite : ∀ v ∈ l, ∃ y, g.local? y = .ok (some v) := by
    intro v hv
    obtain ⟨s, e, -, -, y, w, -, hexpr, hw⟩ := hinv v hv
    exact ⟨y, local?_eq_ok.2 ⟨w, hexpr, hw⟩⟩
  have : Nonempty ExprId := ⟨⟨0⟩⟩
  choose! f hf using hsite
  have hnodup : (l.map f).Nodup := by
    refine (List.nodup_map_iff_inj_on hl).2 fun v hv w hw heq => ?_
    have hsame := hf v hv
    rw [heq, hf w hw] at hsame
    cases hsame
    rfl
  have hsub : l.map f ⊆ g.exprs.ids := by
    intro e he
    obtain ⟨v, hv, rfl⟩ := List.mem_map.1 he
    obtain ⟨w, hw, -⟩ := local?_eq_ok.1 (hf v hv)
    obtain ⟨n, hn, -⟩ := expr_eq_ok.1 hw
    exact Arena.mem_ids.2 ⟨n, hn⟩
  simpa [Arena.ids] using (hnodup.subperm hsub).length_le

namespace Legible

variable (o : g.Legible)

include o

theorem locals : Returns g.locals fun l => l.Nodup ∧ ∀ v, v ∈ l ↔ g.Involved v := by
  obtain ⟨l, hl, hground⟩ := o.exprsIn .refl
  obtain ⟨refs, hrefs⟩ := refsInAll_returns hground
  simp only [Graph.locals, hl, hrefs, Checked.ok_bind, Returns.pure_iff]
  refine ⟨List.nodup_dedup _, fun v => ?_⟩
  simp only [List.mem_dedup, List.mem_map, mem_refsInAll hrefs, o.forest.mem_exprsIn .refl hl]
  constructor
  · rintro ⟨r, ⟨e, ⟨s, hs, he⟩, hreach, hexpr⟩, rfl⟩
    exact ⟨s, e, hs, he, r.1, r.2, hreach, hexpr, rfl⟩
  · rintro ⟨s, e, hs, he, y, w, hreach, hexpr, rfl⟩
    exact ⟨(y, w), ⟨e, ⟨s, hs, he⟩, hreach, hexpr⟩, rfl⟩

theorem involved_of_leaf {exprs : List ExprId} (hs : g.InTree s) (hst : g.stat s = .ok st)
    (hexprs : st.exprs? = some exprs) (he : e ∈ exprs) :
    g.Grounded e ∧ ∀ v, g.Involves e v → g.Involved v := by
  have hheld : g.Holds s e := ⟨st, hst, List.mem_append_left _ (mem_exprs_of_exprs? hexprs he)⟩
  exact ⟨o.grounded s e hs hheld, fun v hv => ⟨s, e, hs, hheld, hv⟩⟩

end Legible

theorem mem_of_mem_placedExprs {p : ExprId × Place} (h : p ∈ placedExprs s st) :
    p.1 ∈ st.kind.exprs ++ st.declarations := by
  rcases List.mem_append.1 h with h | h
  · refine List.mem_append_left _ ?_
    cases hexprs : st.exprs? with
    | none =>
      rw [hexprs, Stat.ownExprs_eq] at h
      obtain ⟨e, he, rfl⟩ := List.mem_map.1 h
      exact he
    | some exprs =>
      rw [hexprs] at h
      obtain ⟨q, hq, rfl⟩ := List.mem_map.1 h
      exact mem_exprs_of_exprs? hexprs (List.mem_of_getElem? (List.mem_zipIdx_iff_getElem?.1 hq))
  · obtain ⟨e, he, rfl⟩ := List.mem_map.1 h
    exact List.mem_append_right _ he

/-- The table of occurrences has entries for variables of the tree only. -/
theorem Legible.occurrences (o : g.Legible) :
    Returns g.occurrences fun occ => ∀ v ∈ occ.keys, g.Involved v := by
  obtain ⟨stats, hstats, hmem⟩ := o.statements
  have hplaced : Returns (stats.mapM fun s => do return placedExprs s (← g.stat s))
      (List.Forall₂ (fun s l => g.InTree s ∧ ∀ p ∈ l, g.Holds s p.1) stats) := by
    refine Returns.mapM fun s hs => ?_
    obtain ⟨st, hst⟩ := o.forest.stat s ((hmem s).1 hs)
    rw [hst, Checked.ok_bind, Returns.pure_iff]
    exact ⟨(hmem s).1 hs, fun p hp => ⟨st, hst, mem_of_mem_placedExprs hp⟩⟩
  simp only [Graph.occurrences, hstats, Checked.ok_bind]
  refine hplaced.bind fun placed _ hplaced => ?_
  have hheld : ∀ p ∈ placed.flatten, ∃ s, g.InTree s ∧ g.Holds s p.1 := by
    intro p hp
    obtain ⟨l, hl, hp⟩ := List.mem_flatten.1 hp
    obtain ⟨s, -, hs, hall⟩ := Checked.exists_of_mem hplaced.flip hl
    exact ⟨s, hs, hall p hp⟩
  have hvars : Returns (placed.flatten.mapM fun p => do
      return (← g.refsIn p.1).map fun v => (v.2.var, p.2))
      (List.Forall₂ (fun _ l => ∀ v ∈ l, g.Involved v.1) placed.flatten) := by
    refine Returns.mapM fun p hp => ?_
    obtain ⟨s, hs, hheld⟩ := hheld p hp
    obtain ⟨refs, hrefs⟩ := (o.grounded s p.1 hs hheld).refsIn
    rw [hrefs, Checked.ok_bind, Returns.pure_iff]
    intro v hv
    obtain ⟨r, hr, rfl⟩ := List.mem_map.1 hv
    exact ⟨s, p.1, hs, hheld, (mem_refsIn_iff_involves hrefs).1 ⟨r, hr, rfl⟩⟩
  refine hvars.bind fun vars _ hvars => Returns.pure_iff.2 fun v hv => ?_
  rcases Table.mem_keys_foldl_alter hv with hv | ⟨p, hp, rfl⟩
  · cases hv
  · obtain ⟨l, hl, hp⟩ := List.mem_flatten.1 hp
    obtain ⟨q, -, hall⟩ := Checked.exists_of_mem hvars.flip hl
    exact hall p hp

theorem Grounded.assigned? (h : g.Grounded e) : Returns (g.assigned? e) fun r =>
    ∀ p, r = some p → g.Involves e p.1 ∧ g.Reaches e p.2 ∧ g.Grounded p.2 := by
  obtain ⟨sides, hsides⟩ := h.assign?
  rw [Graph.assigned?, hsides, Checked.ok_bind]
  cases sides with
  | none => exact Returns.pure_none
  | some p =>
    obtain ⟨left, right⟩ := p
    have hexpr := assign?_eq_ok.1 hsides
    obtain ⟨hsub, hleft, hright⟩ := h.sides hexpr
    obtain ⟨v, hv⟩ := hleft.local?
    simp only [hv, Checked.ok_bind]
    refine Returns.pure_iff.2 fun p hp => ?_
    obtain ⟨w, rfl, rfl⟩ := Option.map_eq_some_iff.1 hp
    obtain ⟨n, hn, hassign⟩ := expr_eq_ok.1 hexpr
    exact ⟨(involves_of_local? hv).up (.single hsub),
      .single ⟨n, hn, by simp [hassign, Expr.children]⟩, hright⟩

end Graph

/-! ## Candidates -/

namespace Candidate

open Decompiler.Graph

variable {g : Graph} {refused : List Candidate} {v w : Local}

/-- A candidate that may be tried: two variables of the tree that were not refused. -/
structure Fresh (g : Graph) (refused : List Candidate) (c : Candidate) : Prop where
  /-- It is tried for the first time. -/
  new : c ∉ refused
  /-- There are two variables. -/
  ne : c.source ≠ c.target
  /-- The one that goes away. -/
  source : g.Involved c.source
  /-- The one that stays. -/
  target : g.Involved c.target

theorem fresh_ofPair (hne : w ≠ v) (hv : g.Involved v) (hw : g.Involved w)
    (hnew : ofPair v w ∉ refused) : Fresh g refused (ofPair v w) := by
  unfold ofPair at hnew ⊢
  split
  · next hlt => exact ⟨by simpa [hlt] using hnew, hne.symm, hv, hw⟩
  · next hlt => exact ⟨by simpa [hlt] using hnew, hne, hw, hv⟩

end Candidate

namespace Method

open Decompiler.Graph

variable {m m' : Method} {occ : Occurrences} {a : LeafAssignment} {refused : List Candidate}
  {arrange : Occurrences → Occurrences}

theorem diesBefore_returns (occ : Occurrences) (hexprs : ∀ e ∈ a.exprs, m.graph.Grounded e)
    (hright : m.graph.Grounded a.right) (other : Local) (places : List Place) :
    ∃ b, m.diesBefore occ a other places = .ok b := by
  unfold diesBefore
  split
  · dsimp only
    split
    · next first hfirst =>
      obtain ⟨p, hp, -⟩ := (hexprs first (List.mem_of_getElem? hfirst)).assigned?
      obtain ⟨refs, hrefs⟩ := hright.refsIn
      exact ⟨_, by simp only [hp, hrefs, Checked.ok_bind]; rfl⟩
    · exact ⟨false, rfl⟩
  · exact ⟨false, rfl⟩

/-- A copy gives a candidate of the two variables that it joins. -/
theorem copyCandidate?_returns (hleft : m.graph.Involved a.left)
    (hground : m.graph.Grounded a.right)
    (hright : ∀ v, m.graph.Involves a.right v → m.graph.Involved v) :
    Returns (m.copyCandidate? refused a) fun r =>
      ∀ c, r = some c → c.Fresh m.graph refused := by
  obtain ⟨source?, hsource⟩ := hground.local?
  rw [copyCandidate?, hsource, Checked.ok_bind]
  cases source? with
  | none => exact Returns.pure_none
  | some source =>
    dsimp only
    split
    · next hcond =>
      simp only [Bool.and_eq_true, decide_eq_true_eq] at hcond
      refine Returns.pure_iff.2 fun c hc => ?_
      cases hc
      exact Candidate.fresh_ofPair hcond.1.1 hleft (hright source (involves_of_local? hsource))
        hcond.2
    · exact Returns.pure_none

/-- A simple assignment gives a candidate of its variable and one of the table. -/
theorem reuseCandidate?_returns (harrange : ∀ occ, (arrange occ).entries.Perm occ.entries)
    (hocc : ∀ v ∈ occ.keys, m.graph.Involved v) (hleft : m.graph.Involved a.left)
    (hexprs : ∀ e ∈ a.exprs, m.graph.Grounded e) (hright : m.graph.Grounded a.right) :
    Returns (m.reuseCandidate? arrange refused occ a) fun r =>
      ∀ c, r = some c → c.Fresh m.graph refused := by
  obtain ⟨x, hx⟩ := hright.expr
  rw [reuseCandidate?, hx, Checked.ok_bind]
  refine iteInduction (motive := fun y => Returns y _) (fun _ => Returns.pure_none)
    fun _ => ?_
  refine Returns.findSomeM? fun entry hentry => ?_
  have hother : m.graph.Involved entry.1 :=
    hocc entry.1 (List.mem_map_of_mem ((harrange occ).mem_iff.1 hentry))
  dsimp only
  split
  · exact Returns.pure_none
  · next hne =>
    split
    · exact Returns.pure_none
    · obtain ⟨b, hb⟩ := diesBefore_returns occ hexprs hright entry.1 entry.2
      rw [hb, Checked.ok_bind]
      split
      · next hcond =>
        simp only [Bool.and_eq_true, decide_eq_true_eq] at hcond
        refine Returns.pure_iff.2 fun c hc => ?_
        cases hc
        exact Candidate.fresh_ofPair hne hleft hother hcond.2
      · exact Returns.pure_none

/-- The search for a candidate ends, and what it finds is one that may be tried. -/
theorem candidate?_returns (harrange : ∀ occ, (arrange occ).entries.Perm occ.entries)
    (o : m.graph.Legible) (refused : List Candidate) :
    Returns (m.candidate? arrange refused) fun r =>
      ∀ c, r = some c → c.Fresh m.graph refused := by
  obtain ⟨occ, hocc, hkeys⟩ := o.occurrences
  obtain ⟨stats, hstats, hmem⟩ := o.statements
  rw [candidate?, hocc, Checked.ok_bind, hstats, Checked.ok_bind]
  refine Returns.findSomeM? fun s hs => ?_
  have hs := (hmem s).1 hs
  obtain ⟨st, hst⟩ := o.forest.stat s hs
  rw [hst, Checked.ok_bind]
  cases hexprs : st.exprs? with
  | none => exact Returns.pure_none
  | some exprs =>
    have hleaf := fun e => o.involved_of_leaf (e := e) hs hst hexprs
    refine Returns.findSomeM? fun p hp => ?_
    have hp : p.1 ∈ exprs := List.mem_of_getElem? (List.mem_zipIdx_iff_getElem?.1 hp)
    obtain ⟨hground, hinv⟩ := hleaf p.1 hp
    rw [candidateAt?]
    refine hground.assigned?.bind fun assigned _ hassigned => ?_
    cases assigned with
    | none => exact Returns.pure_none
    | some q =>
      obtain ⟨hleft, hreach, hright⟩ := hassigned q rfl
      have hbelow : ∀ v, m.graph.Involves q.2 v → m.graph.Involved v :=
        fun v hv => hinv v (hv.up hreach)
      dsimp only
      refine (copyCandidate?_returns (a := ⟨s, exprs, p.2, q.1, q.2⟩) (hinv _ hleft) hright
        hbelow).bind fun r _ hr => ?_
      cases r with
      | some c => exact Returns.pure_iff.2 hr
      | none =>
        exact reuseCandidate?_returns harrange hkeys (hinv _ hleft)
          (fun e he => (hleaf e he).1) hright

end Method

/-! ## What one merge does -/

namespace Graph

variable {g g' : Graph} {s : StatId} {e : ExprId} {v source target : Local} {lost : ExprId → Prop}
  {touched : ExprId → Prop}

/-- Every declaration of the tree is an occurrence of some variable. -/
def ListsVariables (g : Graph) : Prop :=
  ∀ s e, g.InTree s → g.ListsDeclaration s e → ∃ v, g.local? e = .ok (some v)

theorem DeclaresVariables.lists (h : g.DeclaresVariables) : g.ListsVariables := by
  rintro s e hs ⟨st, hst, he⟩
  obtain ⟨v, hv, hne⟩ := h.stat hs hst e he
  obtain ⟨w, rfl⟩ := Option.ne_none_iff_exists'.1 hne
  exact ⟨w, hv⟩

theorem ListsVariables.of_revises (h : g.ListsVariables) (o : g.Legible) (r : Revises g g' touched)
    (hstats : Shrinks g g' lost) : g'.ListsVariables := by
  intro s e hs he
  have hs := (r.inTree_iff o.forest).1 hs
  obtain ⟨v, hv⟩ := h s e hs (hstats.listsDeclaration (o.forest.stat s hs) he)
  obtain ⟨w, hw, -⟩ := local?_eq_ok.1 hv
  obtain ⟨x', hx', hshape, -⟩ := r.exprs e _ hw
  obtain ⟨w', rfl⟩ := Expr.eq_var_of_shape hshape
  exact ⟨w'.var, local?_eq_ok.2 ⟨w', hx', rfl⟩⟩

/-- A variable of the tree was there before, unless its occurrence was touched. -/
theorem Revises.involved (r : Revises g g' touched) (o : g.Legible) (hstats : Shrinks g g' lost)
    (h : g'.Involved v) : ∃ s e y marked, g.InTree s ∧ g'.Holds s e ∧ g.Holds s e ∧
      g.Reaches e y ∧ g'.IsVar y v marked ∧ (¬ touched y → g.IsVar y v marked) := by
  obtain ⟨s, e, hs, he, y, w, hreach, hexpr, rfl⟩ := h
  have hs := (r.inTree_iff o.forest).1 hs
  have hbefore := hstats.holds (o.forest.stat s hs) he
  have hground := o.grounded s e hs hbefore
  have hreach := r.reaches hground hreach
  have hvar : g'.IsVar y w.var w.isDefinition := ⟨w, hexpr, rfl, rfl⟩
  exact ⟨s, e, y, w.isDefinition, hs, he, hbefore, hreach, hvar,
    fun ht => (r.isVar_iff (hground.of_reaches hreach) ht).1 hvar⟩

theorem involved_of_isVar {y : ExprId} {marked : Bool} (hs : g.InTree s) (he : g.Holds s e)
    (hy : g.Reaches e y) (hvar : g.IsVar y v marked) : g.Involved v := by
  obtain ⟨w, hw, rfl, -⟩ := hvar
  exact ⟨s, e, hs, he, y, w, hy, hw, rfl⟩

theorem Trims.involved (t : Trims g g' lost) (o : g.Legible) (h : g'.Involved v) :
    g.Involved v := by
  obtain ⟨s, e, y, marked, hs, -, he, hy, -, hvar⟩ := t.revises.involved o t.stats h
  exact involved_of_isVar hs he hy (hvar id)

/-- A merge brings no new variable into the tree. -/
theorem Folds.involved (f : Folds g g' source target) (o : g.Legible) (h : g'.Involved v) :
    g.Involved v ∨ v = target := by
  obtain ⟨s, e, y, marked, hs, -, he, hy, hvar, hbefore⟩ := f.revises.involved o f.stats h
  by_cases hocc : g.OccursAt source y
  · exact .inr (hvar.functional (f.renamed y hocc)).1
  · exact .inl (involved_of_isVar hs he hy (hbefore hocc))

/-- A merge takes the source out of the tree. -/
theorem Folds.not_involved_source (f : Folds g g' source target) (o : g.Legible)
    (hlists : g.ListsVariables) (hne : source ≠ target) : ¬ g'.Involved source := by
  intro h
  obtain ⟨s, e, y, marked, hs, he', he, hy, hvar, hbefore⟩ := f.revises.involved o f.stats h
  have hocc : ¬ g.OccursAt source y := fun hocc =>
    hne (hvar.functional (f.renamed y hocc)).1
  obtain ⟨st', hst', hmem⟩ := he'
  rcases List.mem_append.1 hmem with hmem | hmem
  · -- an occurrence in an expression that is evaluated would have been renamed
    obtain ⟨st, hst, ht⟩ := f.stats.stat (o.forest.stat s hs) hst'
    exact hocc (occursAt_of_isVar hs hst (ht.exprs.subset hmem) hy (hbefore hocc))
  · -- a declaration is an occurrence itself, and it would have been dropped
    have hlist : g'.ListsDeclaration s e := ⟨st', hst', hmem⟩
    obtain ⟨u, hu⟩ := hlists s e hs (f.stats.listsDeclaration (o.forest.stat s hs) hlist)
    obtain ⟨w, hw, hwu⟩ := local?_eq_ok.1 hu
    have hself : g.IsVar e u w.isDefinition := ⟨w, hw, hwu, rfl⟩
    obtain rfl := hself.eq_of_reaches hy
    obtain ⟨w', hw', hsource, -⟩ := hvar
    exact f.none s ((f.revises.inTree_iff o.forest).2 hs) y hlist (local?_eq_ok.2 ⟨w', hw', hsource⟩)

end Graph

namespace Method

open Decompiler.Graph

variable {m m' m'' : Method} {source target v : Local} {arrange : Occurrences → Occurrences}

theorem isSelfAssignment_returns {g : Graph} {e : ExprId} (h : g.Grounded e) :
    ∃ b, isSelfAssignment g e = .ok b := by
  obtain ⟨sides, hsides⟩ := h.assign?
  rw [isSelfAssignment, hsides, Checked.ok_bind]
  cases sides with
  | none => exact ⟨false, rfl⟩
  | some p =>
    obtain ⟨left, right⟩ := p
    obtain ⟨-, hleft, hright⟩ := h.sides (assign?_eq_ok.1 hsides)
    obtain ⟨v, hv⟩ := hleft.local?
    obtain ⟨w, hw⟩ := hright.local?
    simp only [hv, hw, Checked.ok_bind]
    cases v <;> cases w <;> exact ⟨_, rfl⟩

/-- Dropping self-assignments takes expressions out of a list. -/
theorem dropSelfAssignments_trims {g : Graph} {s : StatId} (o : g.Legible) (hs : g.InTree s) :
    Returns (dropSelfAssignments g s) fun g' => Trims g g' fun _ => True := by
  obtain ⟨st, hst⟩ := o.forest.stat s hs
  rw [dropSelfAssignments, hst, Checked.ok_bind]
  cases hexprs : st.exprs? with
  | none => exact Returns.pure_iff.2 (.refl g)
  | some exprs =>
    have hground : ∀ e ∈ exprs, g.Grounded e := fun e he =>
      (o.involved_of_leaf hs hst hexprs he).1
    have hdoomed : ∀ e ∈ exprs,
        isSelfAssignment g e = .ok (decide (isSelfAssignment g e = .ok true)) := by
      intro e he
      obtain ⟨b, hb⟩ := isSelfAssignment_returns (hground e he)
      cases b <;> simp [hb]
    refine (dropFrom_returns hdoomed (List.forall_mem_nil _) hground).bind
      fun r _ ⟨r₁, hstats, left, hr, hleft⟩ => ?_
    have hst₁ : r.1.stat s = .ok st := by rw [stat, hstats]; exact hst
    obtain ⟨g', hg'⟩ := modifyStat_returns (fun st => st.withExprs r.2) hst₁
    obtain rfl : r.2 = left := hr
    exact ⟨g', hg', (Trims.of_stats_eq r₁ hstats).trans (.modifyStat hg' hst₁
      (Stat.trims_withExprs hexprs hleft.sublist fun _ _ => .inr trivial))⟩

theorem foldlM_dropSelfAssignments_trims {g : Graph} (o : g.Legible) {stats : List StatId}
    (hstats : ∀ s ∈ stats, g.InTree s) :
    Returns (stats.foldlM dropSelfAssignments g) fun g' => Trims g g' fun _ => True := by
  refine Returns.foldlM (.refl g) fun s hs g₁ ht => ?_
  have hs := (ht.revises.inTree_iff o.forest).2 (hstats s hs)
  exact (dropSelfAssignments_trims (ht.legible o) hs).mono fun _ ht' => ht.trans ht'

theorem mergeKnown_leaders {r r' : Registry} {ty : Ty} {bothStored : Bool}
    (h : mergeKnown r source target ty bothStored = .ok r') :
    r.leaders.merge source target = .ok r'.leaders := by
  simp only [mergeKnown, Registry.recordMerge, Checked.bind_eq_ok, Checked.pure_eq_ok] at h
  obtain ⟨leaders, hleaders, rfl⟩ := h
  exact hleaders

/-- A method in which variables can be merged: the variables of the tree are unique. -/
structure Fusible (m : Method) : Prop where
  /-- The graph can be read. -/
  legible : m.graph.Legible
  /-- Declarations are occurrences. -/
  lists : m.graph.ListsVariables
  /-- Leaders can be found. -/
  leaders : m.vars.leaders.Acyclic
  /-- The variables of the tree stand for themselves. -/
  unique : ∀ v, m.graph.Involved v → m.vars.leaders.isUnique v = true

/-- Variables are taken out of the tree and out of the unique variables, and nothing else comes into
the tree. -/
structure Eliminates (m m' : Method) (vs : List Local) : Prop where
  /-- Variables can still be merged. -/
  fusible : m'.Fusible
  /-- They are different variables. -/
  nodup : vs.Nodup
  /-- They were in the tree. -/
  before : ∀ v ∈ vs, m.graph.Involved v
  /-- The variables of the tree. -/
  involved : ∀ v, m'.graph.Involved v → m.graph.Involved v ∧ v ∉ vs
  /-- The unique variables. -/
  unique : ∀ v, m'.vars.leaders.isUnique v = true ↔ m.vars.leaders.isUnique v = true ∧ v ∉ vs

theorem Eliminates.refl (h : m.Fusible) : m.Eliminates m [] :=
  ⟨h, .nil, nofun, fun _ hv => ⟨hv, nofun⟩, fun v => by simp⟩

theorem Eliminates.cons {vs : List Local} (h : m.Eliminates m' [v]) (h' : m'.Eliminates m'' vs) :
    m.Eliminates m'' (v :: vs) := by
  have hv : v ∉ vs := fun hmem => (h.involved v (h'.before v hmem)).2 (by simp)
  refine ⟨h'.fusible, List.nodup_cons.2 ⟨hv, h'.nodup⟩, fun w hw => ?_, fun w hw => ?_,
    fun w => ?_⟩
  · rcases List.mem_cons.1 hw with rfl | hw
    · exact h.before w (by simp)
    · exact (h.involved w (h'.before w hw)).1
  · obtain ⟨hw, hvs⟩ := h'.involved w hw
    obtain ⟨hw, hne⟩ := h.involved w hw
    exact ⟨hw, by simpa [hvs] using hne⟩
  · rw [h'.unique, h.unique, and_assoc, List.mem_singleton, List.mem_cons, not_or]

/-- What comes of a candidate: it is refused, or its source goes away. -/
theorem Fusible.merge (h : m.Fusible) {refused : List Candidate} {c : Candidate}
    (hc : c.Fresh m.graph refused) : Returns (m.unify c.source c.target) fun r =>
      r = (m, .refused) ∨ ∃ m₁ stats, r = (m₁, .merged) ∧ m₁.graph.statements = .ok stats ∧
        Returns (stats.foldlM dropSelfAssignments m₁.graph) fun g =>
          m.Eliminates { m₁ with graph := g } [c.source] := by
  have o := h.legible
  obtain ⟨u, hu, rfl | ⟨m₁, rfl⟩⟩ := unify_total o h.leaders hc.ne
  · exact ⟨_, hu, .inl rfl⟩
  · obtain ⟨-, f, -⟩ := unify_folds o hu
    obtain ⟨-, ty, _, bothStored, -, -, hvars⟩ := unify_eq_merged hu
    have o₁ := f.legible o
    obtain ⟨stats, hstats, hmem⟩ := o₁.statements
    have hdropped := foldlM_dropSelfAssignments_trims o₁ fun s hs => (hmem s).1 hs
    refine ⟨_, hu, .inr ⟨m₁, stats, rfl, hstats, hdropped.mono fun g ht => ?_⟩⟩
    have hleaders := Leaders.merge_unique (h.unique _ hc.source) (h.unique _ hc.target) hc.ne
    have hacyclic := h.leaders.merge c.source c.target
    rw [mergeKnown_leaders hvars, Except.ok.injEq] at hleaders
    rw [mergeKnown_leaders hvars, Returns.ok_iff] at hacyclic
    have hunique : ∀ v, m₁.vars.leaders.isUnique v = true ↔
        m.vars.leaders.isUnique v = true ∧ v ≠ c.source := fun v => by
      rw [hleaders, Leaders.isUnique_insert]
    have hinvolved : ∀ v, g.Involved v → m.graph.Involved v ∧ v ≠ c.source := by
      intro v hv
      have hv := ht.involved o₁ hv
      refine ⟨?_, fun heq => f.not_involved_source o h.lists hc.ne (heq ▸ hv)⟩
      rcases f.involved o hv with hv | rfl
      · exact hv
      · exact hc.target
    refine ⟨⟨ht.legible o₁, (h.lists.of_revises o f.revises f.stats).of_revises o₁ ht.revises ht.stats,
      hacyclic, fun v hv => ?_⟩, by simp, by simpa using hc.source, by simpa using hinvolved,
      by simpa using hunique⟩
    obtain ⟨hv, hne⟩ := hinvolved v hv
    exact (hunique v).2 ⟨h.unique v hv, hne⟩

/-! ## All merges -/

/-- The merges of a run, in their order, when some candidates were refused before. -/
inductive MergeRun (arrange : Occurrences → Occurrences) :
    Method → (refused merged : List Candidate) → Method → Prop
  /-- No candidate is left. -/
  | done {m : Method} {refused : List Candidate} (hc : m.candidate? arrange refused = .ok none) :
    MergeRun arrange m refused [] m
  /-- A candidate is refused. -/
  | refuse {m m' : Method} {refused merged : List Candidate} {c : Candidate}
    (hc : m.candidate? arrange refused = .ok (some c))
    (hu : m.unify c.source c.target = .ok (m, .refused))
    (rest : MergeRun arrange m (c :: refused) merged m') : MergeRun arrange m refused merged m'
  /-- A candidate is merged, and self-assignments are dropped. -/
  | merge {m m₁ m' : Method} {refused merged : List Candidate} {c : Candidate}
    {stats : List StatId} {g : Graph} (hc : m.candidate? arrange refused = .ok (some c))
    (hu : m.unify c.source c.target = .ok (m₁, .merged))
    (hstats : m₁.graph.statements = .ok stats)
    (hg : stats.foldlM dropSelfAssignments m₁.graph = .ok g)
    (rest : MergeRun arrange { m₁ with graph := g } refused merged m') :
    MergeRun arrange m refused (c :: merged) m'

/-- Candidates of different variables of a list are no more than its pairs off the diagonal. -/
theorem length_add_length_le {vs : List Local} {refused : List Candidate} (hvs : vs.Nodup)
    (hnodup : refused.Nodup)
    (hpairs : ∀ c ∈ refused, c.source ≠ c.target ∧ c.source ∈ vs ∧ c.target ∈ vs) :
    refused.length + vs.length ≤ vs.length * vs.length := by
  have hall : (refused.map (fun c => (c.source, c.target)) ++ vs.map fun v => (v, v)).Nodup := by
    refine List.nodup_append.2 ⟨?_, ?_, fun p hp q hq heq => ?_⟩
    · refine hnodup.map fun c d hcd => ?_
      obtain ⟨cs, ct⟩ := c
      cases hcd
      rfl
    · exact hvs.map fun v w hvw => congrArg Prod.fst hvw
    · obtain ⟨c, hc, rfl⟩ := List.mem_map.1 hp
      obtain ⟨v, -, rfl⟩ := List.mem_map.1 hq
      obtain ⟨hsource, htarget⟩ := Prod.mk.inj heq
      exact (hpairs c hc).1 (hsource.trans htarget.symm)
  have hsub : (refused.map (fun c => (c.source, c.target)) ++ vs.map fun v => (v, v)) ⊆
      vs ×ˢ vs := by
    intro p hp
    rcases List.mem_append.1 hp with hp | hp
    · obtain ⟨c, hc, rfl⟩ := List.mem_map.1 hp
      exact List.pair_mem_product.2 (hpairs c hc).2
    · obtain ⟨v, hv, rfl⟩ := List.mem_map.1 hp
      exact List.pair_mem_product.2 ⟨hv, hv⟩
  simpa [List.length_product] using (hall.subperm hsub).length_le

/-- Merging ends. `vs` are the variables there were at first, and no more than `k` of them are
left. -/
theorem mergeVersionsIn_returns (harrange : ∀ occ, (arrange occ).entries.Perm occ.entries)
    {vs : List Local} (hvs : vs.Nodup) (rounds merges : ℕ) {k : ℕ} {refused : List Candidate}
    (h : m.Fusible) (hinv : ∀ v, m.graph.Involved v → v ∈ vs)
    (hk : ∀ l : List Local, l.Nodup → (∀ v ∈ l, m.graph.Involved v) → l.length ≤ k)
    (hnodup : refused.Nodup)
    (hpairs : ∀ c ∈ refused, c.source ≠ c.target ∧ c.source ∈ vs ∧ c.target ∈ vs)
    (hrounds : vs.length * vs.length + k < rounds + refused.length + vs.length) :
    Returns (mergeVersionsIn arrange rounds m refused merges) fun r => ∃ merged,
      r.2 = .ok (merges + merged.length) ∧ MergeRun arrange m refused merged r.1 ∧
        m.Eliminates r.1 (merged.map Candidate.source) := by
  induction rounds generalizing m refused k merges with
  | zero =>
    have := length_add_length_le hvs hnodup hpairs
    omega
  | succ rounds ih =>
    obtain ⟨c?, hc?, hfresh⟩ := candidate?_returns harrange h.legible refused
    rw [mergeVersionsIn, hc?, Checked.ok_bind]
    cases c? with
    | none => exact Returns.pure_iff.2 ⟨[], rfl, .done hc?, .refl h⟩
    | some c =>
      have hc := hfresh c rfl
      obtain ⟨u, hu, rfl | ⟨m₁, stats, rfl, hstats, g, hg, helim⟩⟩ := h.merge hc
      · simp only [hu, Checked.ok_bind]
        have hpairs' : ∀ d ∈ c :: refused, d.source ≠ d.target ∧ d.source ∈ vs ∧ d.target ∈ vs :=
          List.forall_mem_cons.2 ⟨⟨hc.ne, hinv _ hc.source, hinv _ hc.target⟩, hpairs⟩
        refine (ih merges h hinv hk (List.nodup_cons.2 ⟨hc.new, hnodup⟩) hpairs' ?_).mono
          fun r ⟨merged, hr, hrun, hall⟩ => ⟨merged, hr, .refuse hc? hu hrun, hall⟩
        rw [List.length_cons]
        omega
      · simp only [hu, hstats, hg, Checked.ok_bind]
        -- one variable less is left
        have hpos : 1 ≤ k := hk [c.source] (by simp) (by simpa using hc.source)
        have hk' : ∀ l : List Local, l.Nodup → (∀ v ∈ l, g.Involved v) → l.length ≤ k - 1 := by
          intro l hl hinvolved
          have hnot : c.source ∉ l := fun hmem =>
            (helim.involved _ (hinvolved _ hmem)).2 (by simp)
          have := hk (c.source :: l) (List.nodup_cons.2 ⟨hnot, hl⟩) (List.forall_mem_cons.2
            ⟨hc.source, fun v hv => (helim.involved v (hinvolved v hv)).1⟩)
          rw [List.length_cons] at this
          omega
        refine (ih (merges + 1) helim.fusible (fun v hv => hinv v (helim.involved v hv).1) hk' hnodup
          hpairs (by omega)).mono fun r ⟨merged, hr, hrun, hall⟩ => ?_
        refine ⟨c :: merged, ?_, .merge hc? hu hstats hg hrun, helim.cons hall⟩
        rw [hr, List.length_cons]
        congr 1
        omega

theorem rounds_lt (n size : ℕ) (h : n ≤ size) : n * n + n < (size + 1) * (size + 1) + n := by
  have := Nat.mul_le_mul h h
  have := Nat.add_one_mul_add_one size size
  omega

/-- Merging the versions of a method ends without an error, whatever the order in which the other
variables of a slot are tried. It takes at least as many variables out of the tree as it counts
merges: the source of each merge was in the tree and is not there any more, and it does not stand
for itself any more. -/
theorem mergeVersionsBy_eliminates (arrange : Occurrences → Occurrences)
    (harrange : ∀ occ, (arrange occ).entries.Perm occ.entries) (m : Method)
    (hw : m.graph.WellFormed) (he : m.graph.ExprsGrounded) (hd : m.graph.DeclaresVariables)
    (hl : m.vars.leaders = .empty) :
    ∃ m' n merged, m.mergeVersionsBy arrange = .ok (m', .ok n) ∧
      MergeRun arrange m [] merged m' ∧ merged.length = n ∧
      Returns m.graph.locals (fun before => Returns m'.graph.locals fun after =>
        n ≤ (before.filter (· ∉ after)).length ∧
          ∀ c ∈ merged, c.source ∈ before ∧ c.source ∉ after) ∧
      ∀ c ∈ merged, m'.vars.leaders.isUnique c.source = false := by
  have o := legible_of_wellFormed hw he
  obtain ⟨before, hbefore, hnodup, hmem⟩ := o.locals
  have hfusible : m.Fusible := by
    refine ⟨o, hd.lists, hl ▸ nofun, fun v _ => ?_⟩
    rw [hl]
    rfl
  have hsize : before.length ≤ m.graph.exprs.size :=
    length_le_of_involved hnodup fun v hv => (hmem v).1 hv
  have hk : ∀ l : List Local, l.Nodup → (∀ v ∈ l, m.graph.Involved v) → l.length ≤ before.length :=
    fun l hl hinv => (hl.subperm fun v hv => (hmem v).2 (hinv v hv)).length_le
  obtain ⟨⟨m', result⟩, hrun, merged, hresult, hmerges, helim⟩ := mergeVersionsIn_returns harrange
    hnodup ((m.graph.exprs.size + 1) * (m.graph.exprs.size + 1)) 0 hfusible
    (fun v hv => (hmem v).2 hv) hk .nil nofun (rounds_lt before.length m.graph.exprs.size hsize)
  obtain ⟨after, hafter, -, hmem'⟩ := helim.fusible.legible.locals
  have hgone : ∀ c ∈ merged, c.source ∈ before ∧ c.source ∉ after := by
    intro c hc
    have hc := List.mem_map_of_mem (f := Candidate.source) hc
    refine ⟨(hmem _).2 (helim.before _ hc), fun hmem => ?_⟩
    exact (helim.involved _ ((hmem' _).1 hmem)).2 hc
  refine ⟨m', merged.length, merged, ?_, hmerges, rfl, ⟨before, hbefore, after, hafter, ?_, hgone⟩,
    fun c hc => ?_⟩
  · obtain rfl : result = .ok merged.length := by simpa using hresult
    exact hrun
  · have hsub : merged.map Candidate.source ⊆ before.filter (· ∉ after) := by
      intro v hv
      obtain ⟨c, hc, rfl⟩ := List.mem_map.1 hv
      exact List.mem_filter.2 ⟨(hgone c hc).1, by simpa using (hgone c hc).2⟩
    simpa using (helim.nodup.subperm hsub).length_le
  · rw [← Bool.not_eq_true, helim.unique]
    exact fun hunique => hunique.2 (List.mem_map_of_mem hc)

/-- Three versions of a slot that copies join, and a copy to a fourth one whose type has nothing in
common with theirs: `int v3; v1 = 0; v3 = v1; v5 = v3; v7 = v5;`. -/
def copiedTwice : Method where
  graph :=
    { stats := ⟨#[
        ⟨.exit, none, none, [], [], [], [], []⟩,
        ⟨.root, none, some ⟨2⟩, [⟨2⟩], [], [], [], []⟩,
        ⟨.block [⟨2⟩, ⟨5⟩, ⟨8⟩, ⟨11⟩], some ⟨1⟩, none, [], [⟨12⟩], [], [], []⟩]⟩
      edges := .empty
      exprs :=
        let occurrence (index : ℕ) (ty : Base) (marked : Bool) : Expr :=
          .var ⟨⟨index, 0⟩, ⟨ty, 0⟩, marked, false, none⟩
        ⟨#[
          ⟨occurrence 1 .int false, .empty⟩,
          ⟨.const ⟨.int, 0⟩ (.int 0), .empty⟩,
          ⟨.assign ⟨0⟩ ⟨1⟩, .empty⟩,
          ⟨occurrence 3 .int false, .empty⟩,
          ⟨occurrence 1 .int false, .empty⟩,
          ⟨.assign ⟨3⟩ ⟨4⟩, .empty⟩,
          ⟨occurrence 5 .int false, .empty⟩,
          ⟨occurrence 3 .int false, .empty⟩,
          ⟨.assign ⟨6⟩ ⟨7⟩, .empty⟩,
          ⟨occurrence 7 (.object none) false, .empty⟩,
          ⟨occurrence 5 .int false, .empty⟩,
          ⟨.assign ⟨9⟩ ⟨10⟩, .empty⟩,
          ⟨occurrence 3 .int true, .empty⟩]⟩ }
  vars := { Registry.empty with origins := .ofList [(3, ⟨1, 3⟩), (5, ⟨1, 5⟩), (7, ⟨1, 7⟩)] }

theorem mergeVersionsBy_eliminates_copiedTwice :
    Returns (copiedTwice.mergeVersionsBy fun occ => ⟨occ.entries.reverse⟩) (fun r => r.2 = .ok 2) ∧
      ∃ m' n merged, copiedTwice.mergeVersionsBy (fun occ => ⟨occ.entries.reverse⟩) =
          .ok (m', .ok n) ∧
        MergeRun (fun occ => ⟨occ.entries.reverse⟩) copiedTwice [] merged m' ∧ merged.length = n ∧
        Returns copiedTwice.graph.locals (fun before => Returns m'.graph.locals fun after =>
          n ≤ (before.filter (· ∉ after)).length ∧
            ∀ c ∈ merged, c.source ∈ before ∧ c.source ∉ after) ∧
        ∀ c ∈ merged, m'.vars.leaders.isUnique c.source = false :=
  ⟨by decide +kernel, mergeVersionsBy_eliminates _ (fun occ => occ.entries.reverse_perm) copiedTwice
    (by decide +kernel) (by decide +kernel) (by decide +kernel) rfl⟩

end Method

end Decompiler

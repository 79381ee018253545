import Decompiler.Proofs.Types
import Decompiler.Proofs.Variables.Rounds

/-!
# Refusals

A candidate that is refused is not tried again in the same run. A merge can change the type of the
variable that stays, so a refusal may be out of date at the end of the run, and another run then
merges what this one refused.

* `Method.Offers`: a leaf joins two versions of a slot. The search goes through what is on offer
  (`Method.candidate?_offers`) and leaves out only what was refused
  (`Method.mem_refused_of_offers`).
* `Method.mergeVersionsBy_idle_iff`: a run merges nothing exactly if nothing on offer shares a type.
* `Method.FirmTypes`: the types of variables are known, and uses set no bounds on references. Merges
  then only exchange integers for each other (`Method.Merging.Rounds.settles`).
* `Method.mergeVersionsBy_again`: what another run does. One that merges again is in
  `Method.not_idle_of_stale_refusal`.
-/

namespace Decompiler

open Relation

namespace Graph

variable {g : Graph} {a : LeafAssignment} {v : Local} {e y : ExprId}

/-- A leaf of the tree makes the assignment. -/
structure IsLeafAssignment (g : Graph) (a : LeafAssignment) : Prop where
  /-- The leaf is in the tree. -/
  inTree : g.InTree a.stat
  /-- Its expressions. -/
  leaf : Returns (g.stat a.stat) fun st => st.exprs? = some a.exprs
  /-- One of them is the assignment. -/
  assigns : ∃ e, a.exprs[a.position]? = some e ∧ g.assigned? e = .ok (some (a.left, a.right))

/-- The expression is a variable or a constant. -/
def IsSimple (g : Graph) (e : ExprId) : Prop :=
  (∃ v, g.expr e = .ok (.var v)) ∨ ∃ ty value, g.expr e = .ok (.const ty value)

/-- What occurs below an expression of the leaf is an occurrence in the tree. -/
theorem IsLeafAssignment.occursAt (h : g.IsLeafAssignment a) (he : e ∈ a.exprs)
    (hy : g.Reaches e y) (hv : g.local? y = .ok (some v)) : g.OccursAt v y := by
  obtain ⟨st, hst, hexprs⟩ := h.leaf
  obtain ⟨w, hw, hwv⟩ := local?_eq_ok.1 hv
  exact occursAt_of_isVar h.inTree hst (mem_exprs_of_exprs? hexprs he) hy ⟨w, hw, hwv, rfl⟩

/-- A variable to which an expression of the leaf assigns occurs in the tree. -/
theorem IsLeafAssignment.occursAt_assigned {right : ExprId} (h : g.IsLeafAssignment a)
    (he : e ∈ a.exprs) (hassigned : g.assigned? e = .ok (some (v, right))) :
    ∃ y, g.OccursAt v y := by
  obtain ⟨left, hexpr, hleft⟩ := assigned?_eq_some.1 hassigned
  obtain ⟨n, hn, hassign⟩ := expr_eq_ok.1 hexpr
  exact ⟨left, h.occursAt he (.single ⟨n, hn, by simp [hassign, Expr.children]⟩) hleft⟩

theorem OccursAt.involved (h : g.OccursAt v y) : g.Involved v := by
  obtain ⟨w, hw, hwv⟩ := local?_eq_ok.1 h.local?
  obtain ⟨n, hn, rfl, -⟩ := h
  exact ⟨n.stat, n.top, hn.1, hn.holds, n.id, w, hn.2.2.1, hw, hwv⟩

/-- A graph is legible, if the places of all variables can be found. -/
theorem legible_of_occurrences {occ : Occurrences} (hw : g.WellFormed)
    (h : g.occurrences = .ok occ) : g.Legible := by
  refine ⟨hw.forest, fun s e hs ⟨st, hst, he⟩ => ?_⟩
  have hplaced : ∃ place, (e, place) ∈ placedExprs s st := by
    rcases List.mem_append.1 he with he | he
    · exact (exists_mem_placedExprs he).imp fun _ h => h.1
    · exact ⟨_, List.mem_append_right _ (List.mem_map_of_mem he)⟩
  obtain ⟨place, hplace⟩ := hplaced
  exact ((occurrences_eq_ok h).2 s st hs hst _ hplace).1

end Graph

theorem Candidate.ofPair_sides {P : Local → Prop} {v w : Local} (hv : P v) (hw : P w) :
    P (ofPair v w).source ∧ P (ofPair v w).target := by
  unfold ofPair
  split
  · exact ⟨hv, hw⟩
  · exact ⟨hw, hv⟩

theorem Candidate.ofPair_ne {v w : Local} (h : w ≠ v) :
    (ofPair v w).source ≠ (ofPair v w).target := by
  unfold ofPair
  split
  · exact h.symm
  · exact h

namespace Method

open Decompiler.Graph

variable {m m' : Method} {arrange : Occurrences → Occurrences} {refused : List Candidate}
  {c : Candidate} {occ : Occurrences} {a : LeafAssignment} {w : Local}

/-! ## What is on offer -/

/-- The assignment joins its variable to another one: it is a copy of that one, or a simple
assignment before which that one has died. -/
def Joins (m : Method) (occ : Occurrences) (a : LeafAssignment) (w : Local) : Prop :=
  m.graph.local? a.right = .ok (some w) ∨
    m.graph.IsSimple a.right ∧
      ∃ places, (w, places) ∈ occ.entries ∧ m.diesBefore occ a w places = .ok true

/-- Some leaf joins two versions of one slot, and these are the candidate. -/
def Offers (m : Method) (c : Candidate) : Prop :=
  ∃ occ a w, m.graph.occurrences = .ok occ ∧ m.graph.IsLeafAssignment a ∧ m.Joins occ a w ∧
    w ≠ a.left ∧ m.vars.slotOf w.index = m.vars.slotOf a.left.index ∧ c = .ofPair a.left w

theorem reuseCandidate?_isSimple (h : m.reuseCandidate? arrange refused occ a = .ok (some c)) :
    m.graph.IsSimple a.right := by
  obtain ⟨x, hx, h⟩ := Checked.bind_eq_ok.1 h
  cases x with
  | var v => exact .inl ⟨v, hx⟩
  | const ty value => exact .inr ⟨ty, value, hx⟩
  | _ => cases h

/-- What is found is on offer. -/
theorem candidate?_offers (harrange : ∀ occ, (arrange occ).entries.Perm occ.entries)
    (h : m.candidate? arrange refused = .ok (some c)) : m.Offers c := by
  obtain ⟨occ, s, st, exprs, i, e, left, right, hocc, hs, hst, hexprs, hi, hassigned, h⟩ :=
    candidate?_eq_some h
  have ha : m.graph.IsLeafAssignment ⟨s, exprs, i, left, right⟩ :=
    ⟨hs, ⟨st, hst, hexprs⟩, e, hi, hassigned⟩
  rcases h with h | h
  · obtain ⟨w, hw, hne, hslot, rfl⟩ := copyCandidate?_eq_some h
    exact ⟨occ, _, w, hocc, ha, .inl hw, hne, hslot, rfl⟩
  · obtain ⟨w, places, hentry, hne, hslot, hdies, rfl⟩ := reuseCandidate?_eq_some harrange h
    exact ⟨occ, _, w, hocc, ha, .inr ⟨reuseCandidate?_isSimple h, places, hentry, hdies⟩, hne,
      hslot, rfl⟩

theorem mem_refused_of_copy (h : m.copyCandidate? refused a = .ok none)
    (hw : m.graph.local? a.right = .ok (some w)) (hne : w ≠ a.left)
    (hslot : m.vars.slotOf w.index = m.vars.slotOf a.left.index) :
    .ofPair a.left w ∈ refused := by
  by_contra hnew
  rw [copyCandidate?, hw, Checked.ok_bind] at h
  simp [hne, hslot, hnew] at h

theorem mem_refused_of_reuse (harrange : ∀ occ, (arrange occ).entries.Perm occ.entries)
    (h : m.reuseCandidate? arrange refused occ a = .ok none) (hsimple : m.graph.IsSimple a.right)
    {places : List Place} (hentry : (w, places) ∈ occ.entries)
    (hdies : m.diesBefore occ a w places = .ok true) (hne : w ≠ a.left)
    (hslot : m.vars.slotOf w.index = m.vars.slotOf a.left.index) :
    .ofPair a.left w ∈ refused := by
  by_contra hnew
  obtain ⟨x, hx, h⟩ := Checked.bind_eq_ok.1 h
  rcases ite_eq_iff.1 h with ⟨hnot, -⟩ | ⟨-, hsearch⟩
  · rcases hsimple with ⟨v, hx'⟩ | ⟨ty, value, hx'⟩ <;>
    · rw [hx] at hx'
      cases hx'
      cases hnot
  · have hnone := Checked.forall_of_findSomeM?_eq_none hsearch (w, places)
      ((harrange occ).mem_iff.2 hentry)
    simp [hne, hslot, hdies, hnew] at hnone

/-- A search that finds nothing leaves out only what was refused. -/
theorem mem_refused_of_offers (harrange : ∀ occ, (arrange occ).entries.Perm occ.entries)
    (h : m.candidate? arrange refused = .ok none) (hc : m.Offers c) : c ∈ refused := by
  obtain ⟨occ, a, w, hocc, ha, hjoins, hne, hslot, rfl⟩ := hc
  obtain ⟨st, hst, hexprs⟩ := ha.leaf
  obtain ⟨e, he, hassigned⟩ := ha.assigns
  simp only [candidate?, hocc, Checked.ok_bind, Checked.bind_eq_ok] at h
  obtain ⟨stats, hstats, h⟩ := h
  have hleaf := Checked.forall_of_findSomeM?_eq_none h a.stat
    ((mem_preorderIn hstats _).2 ha.inTree)
  simp only [hst, hexprs, Checked.ok_bind, Option.getD_some] at hleaf
  have hat := Checked.forall_of_findSomeM?_eq_none hleaf (e, a.position)
    (List.mem_zipIdx_iff_getElem?.2 he)
  simp only [candidateAt?, hassigned, Checked.ok_bind, Checked.bind_eq_ok] at hat
  obtain ⟨copied, hcopied, hat⟩ := hat
  cases copied with
  | some c => cases hat
  | none =>
    rcases hjoins with hw | ⟨hsimple, places, hentry, hdies⟩
    · exact mem_refused_of_copy (a := a) hcopied hw hne hslot
    · exact mem_refused_of_reuse harrange (a := a) hat hsimple hentry hdies hne hslot

theorem Offers.occursAt (h : m.Offers c) : (∃ y, m.graph.OccursAt c.source y) ∧
    ∃ y, m.graph.OccursAt c.target y := by
  obtain ⟨occ, a, w, -, ha, hjoins, -, -, rfl⟩ := h
  obtain ⟨e, he, hassigned⟩ := ha.assigns
  have he := List.mem_of_getElem? he
  refine Candidate.ofPair_sides (P := fun v => ∃ y, m.graph.OccursAt v y)
    (ha.occursAt_assigned he hassigned) ?_
  rcases hjoins with hw | ⟨-, places, -, hdies⟩
  · obtain ⟨left, hexpr, -⟩ := assigned?_eq_some.1 hassigned
    obtain ⟨n, hn, hassign⟩ := expr_eq_ok.1 hexpr
    exact ⟨a.right, ha.occursAt he (.single ⟨n, hn, by simp [hassign, Expr.children]⟩) hw⟩
  · obtain ⟨-, first, opening, right, -, -, -, hopening, hopens, -⟩ := diesBefore_eq_true hdies
    exact ha.occursAt_assigned (List.mem_of_getElem? hopening) hopens

theorem Offers.ne (h : m.Offers c) : c.source ≠ c.target := by
  obtain ⟨occ, a, w, -, -, -, hne, -, rfl⟩ := h
  exact Candidate.ofPair_ne hne

/-- What is on offer is refused exactly if it shares no type. -/
theorem Offers.unify_eq_refused (h : m.Offers c) :
    m.unify c.source c.target = .ok (m, .refused) ↔ m.sharedType? c.source c.target = .ok none := by
  constructor
  · intro hu
    -- the source occurs, so that there is no other reason
    obtain ⟨y, hy⟩ := h.occursAt.1
    exact (unify_refused hu).2.resolve_right fun hnone => hnone y hy
  · intro hty
    rw [unify, if_neg h.ne, hty]
    rfl

/-! ## Runs that merge nothing -/

theorem le_of_mergeVersionsIn {rounds merges n : ℕ}
    (h : mergeVersionsIn arrange rounds m refused merges = .ok (m', .ok n)) : merges ≤ n := by
  induction rounds generalizing m refused merges with
  | zero => cases h
  | succ rounds ih =>
    obtain ⟨c?, -, h⟩ := Checked.bind_eq_ok.1 h
    cases c? with
    | none =>
      cases h
      exact le_rfl
    | some c =>
      obtain ⟨⟨m₁, outcome⟩, -, h⟩ := Checked.bind_eq_ok.1 h
      cases outcome with
      | ontoItself => cases h
      | refused => exact ih h
      | merged =>
        simp only [Checked.bind_eq_ok] at h
        obtain ⟨-, -, g, -, h⟩ := h
        exact (Nat.le_succ merges).trans (ih h)

/-- A run that counts no merge has refused all that is on offer. -/
theorem refused_of_mergeVersionsIn (harrange : ∀ occ, (arrange occ).entries.Perm occ.entries)
    {rounds merges : ℕ} (h : mergeVersionsIn arrange rounds m refused merges = .ok (m', .ok merges))
    (hc : m.Offers c) : c ∈ refused ∨ m.unify c.source c.target = .ok (m, .refused) := by
  induction rounds generalizing refused with
  | zero => cases h
  | succ rounds ih =>
    obtain ⟨c?, hc?, h⟩ := Checked.bind_eq_ok.1 h
    cases c? with
    | none => exact .inl (mem_refused_of_offers harrange hc? hc)
    | some d =>
      obtain ⟨⟨m₁, outcome⟩, hu, h⟩ := Checked.bind_eq_ok.1 h
      cases outcome with
      | ontoItself => cases h
      | refused =>
        obtain ⟨rfl, -⟩ := unify_refused hu
        rcases ih h with hmem | hrefused
        · rcases List.mem_cons.1 hmem with rfl | hmem
          · exact .inr hu
          · exact .inl hmem
        · exact .inr hrefused
      | merged =>
        simp only [Checked.bind_eq_ok] at h
        obtain ⟨-, -, g, -, h⟩ := h
        exact absurd (le_of_mergeVersionsIn h) (by omega)

/-- Where all that is on offer is refused, a run ends without a merge. `vs` are the variables of the
tree. -/
theorem mergeVersionsIn_of_refused (harrange : ∀ occ, (arrange occ).entries.Perm occ.entries)
    (hL : m.graph.Legible) {vs : List Local} (hvs : vs.Nodup)
    (hinv : ∀ v, m.graph.Involved v → v ∈ vs) {rounds : ℕ} (merges : ℕ)
    (hall : ∀ c, m.Offers c → m.unify c.source c.target = .ok (m, .refused))
    (hnodup : refused.Nodup)
    (hpairs : ∀ c ∈ refused, c.source ≠ c.target ∧ c.source ∈ vs ∧ c.target ∈ vs)
    (hrounds : vs.length * vs.length < rounds + refused.length + vs.length) :
    mergeVersionsIn arrange rounds m refused merges = .ok (m, .ok merges) := by
  induction rounds generalizing refused with
  | zero =>
    have := length_add_length_le hvs hnodup hpairs
    omega
  | succ rounds ih =>
    obtain ⟨c?, hc?, hfresh⟩ := candidate?_returns harrange hL refused
    rw [mergeVersionsIn, hc?, Checked.ok_bind]
    cases c? with
    | none => rfl
    | some c =>
      have hc := hfresh c rfl
      simp only [hall c (candidate?_offers harrange hc?), Checked.ok_bind]
      refine ih (List.nodup_cons.2 ⟨hc.new, hnodup⟩) (List.forall_mem_cons.2
        ⟨⟨hc.ne, hinv _ hc.source, hinv _ hc.target⟩, hpairs⟩) ?_
      rw [List.length_cons]
      omega

/-- A run merges nothing exactly if nothing on offer shares a type. -/
theorem mergeVersionsBy_idle_iff (harrange : ∀ occ, (arrange occ).entries.Perm occ.entries)
    (hL : m.graph.Legible) : m.mergeVersionsBy arrange = .ok (m, .ok 0) ↔
      ∀ c, m.Offers c → m.sharedType? c.source c.target = .ok none := by
  constructor
  · intro h c hc
    exact hc.unify_eq_refused.1 ((refused_of_mergeVersionsIn harrange h hc).resolve_left nofun)
  · intro hall
    obtain ⟨vs, -, hnodup, hmem⟩ := hL.locals
    have hsize : vs.length ≤ m.graph.exprs.size :=
      length_le_of_involved hnodup fun v hv => (hmem v).1 hv
    refine mergeVersionsIn_of_refused harrange hL hnodup (fun v hv => (hmem v).2 hv) 0
      (fun c hc => hc.unify_eq_refused.2 (hall c hc)) .nil nofun ?_
    have := rounds_lt vs.length m.graph.exprs.size hsize
    rw [List.length_nil]
    omega

end Method

/-! ## Types along a run -/

namespace Registry

/-- The type that is known of a variable: as inferred, else as declared. -/
def knownType? (r : Registry) (v : Local) : Option Ty := r.minTypes.get? v <|> r.types.get? v

/-- The type of a variable is known, and uses set no bound on it if it is a reference. -/
def IsFirm (r : Registry) (v : Local) (t : Ty) : Prop :=
  r.knownType? v = some t ∧ t.base ≠ .unknown ∧ (t.family = .object → r.maxTypes.get? v = none)

instance (r : Registry) (v : Local) (t : Ty) : Decidable (r.IsFirm v t) :=
  inferInstanceAs (Decidable (_ ∧ _ ∧ _))

end Registry

namespace Method

open Decompiler.Graph

variable {m m' : Method} {arrange : Occurrences → Occurrences} {c : Candidate}
  {source target v : Local} {t u ty : Ty}

/-- The types of all variables of the tree are firm. -/
def FirmTypes (m : Method) : Prop :=
  Returns m.graph.locals fun l => ∀ v ∈ l, ∃ t ∈ m.vars.knownType? v, m.vars.IsFirm v t

instance (m : Method) : Decidable m.FirmTypes := inferInstanceAs (Decidable (Returns _ _))

theorem leastType?_of_isFirm (h : m.vars.IsFirm v t) : m.leastType? v = .ok (some t) := by
  have hknown : (m.vars.minTypes.get? v <|> m.vars.types.get? v) = some t := h.1
  rw [leastType?, hknown]
  rfl

/-- Firm types that are alike share a type, and it is alike them. -/
theorem sharedType?_of_alike (hs : m.vars.IsFirm source t) (ht : m.vars.IsFirm target u)
    (halike : t.Alike u) : ∃ w, m.sharedType? source target = .ok (some w) ∧ w.base ≠ .unknown ∧
      t.Alike w ∧ u.Alike w := by
  obtain ⟨w, hw, hrest⟩ := Ty.merged_alike (a := m.vars.maxTypes.get? source)
    (b := m.vars.maxTypes.get? target) halike hs.2.1
  refine ⟨w, ?_, hrest⟩
  simp [sharedType?, leastType?_of_isFirm hs, leastType?_of_isFirm ht, hw]

/-- Others share none. -/
theorem sharedType?_eq_none (hs : m.vars.IsFirm source t) (ht : m.vars.IsFirm target u)
    (halike : ¬ t.Alike u) : m.sharedType? source target = .ok none := by
  have hnone := Ty.merged_eq_none (b := m.vars.maxTypes.get? target) halike hs.2.1 ht.2.1 hs.2.2
  simp [sharedType?, leastType?_of_isFirm hs, leastType?_of_isFirm ht, hnone]

/-- A merge changes what is known of the type of the variable that stays, and of no other. -/
theorem mergeKnown_types {r r' : Registry} {bothStored : Bool}
    (h : mergeKnown r source target ty bothStored = .ok r') : r'.maxTypes = r.maxTypes ∧
      ∀ v, r'.knownType? v = if target = v then some ty else r.knownType? v := by
  simp only [mergeKnown, Registry.recordMerge, Checked.bind_eq_ok, Checked.pure_eq_ok] at h
  obtain ⟨leaders, -, rfl⟩ := h
  refine ⟨rfl, fun v => ?_⟩
  simp only [Registry.knownType?, Table.get?_insert]
  split <;> rfl

/-- The types of the variables of `m'` are firm, and they are alike those in `m`. -/
def Settles (m m' : Method) : Prop :=
  ∀ v, m'.graph.Involved v → ∃ t u, m.vars.IsFirm v t ∧ m'.vars.IsFirm v u ∧ t.Alike u

theorem FirmTypes.settles (h : m.FirmTypes) (hL : m.graph.Legible) : m.Settles m := by
  obtain ⟨l, hl, hfirm⟩ := h
  obtain ⟨l', hl', -, hmem⟩ := hL.locals
  rw [hl] at hl'
  cases hl'
  intro v hv
  obtain ⟨t, -, ht⟩ := hfirm v ((hmem v).2 hv)
  exact ⟨t, t, ht, ht, .refl t⟩

/-- A merge of two variables whose types are firm gives the one that stays a type alike its own. -/
theorem Settles.unify {m₀ : Method} (h : m₀.Settles m) (hL : m.graph.Legible)
    (hs : m.graph.Involved source) (ht : m.graph.Involved target)
    (hu : m.unify source target = .ok (m', .merged)) : m₀.Settles m' := by
  obtain ⟨-, -, ty, nodes, sourceStored, targetStored, hty, -, -, -, -, hvars⟩ := unify_inv hu
  obtain ⟨hmax, hknown⟩ := mergeKnown_types hvars
  obtain ⟨-, s, -, hfirm_s, -⟩ := h source hs
  obtain ⟨t₀, t, hfirm₀, hfirm_t, halike₀⟩ := h target ht
  have halike : s.Alike t := by
    by_contra hnot
    cases (sharedType?_eq_none hfirm_s hfirm_t hnot).symm.trans hty
  obtain ⟨w, hw, hbase, -, htw⟩ := sharedType?_of_alike hfirm_s hfirm_t halike
  rw [hty] at hw
  cases hw
  intro v hv
  by_cases hvt : target = v
  · subst hvt
    refine ⟨t₀, ty, hfirm₀, ⟨by rw [hknown, if_pos rfl], hbase, fun hobject => ?_⟩,
      halike₀.trans htw⟩
    -- an integer is no reference, so the type is the one that the variable had
    rcases htw with rfl | ⟨-, hint⟩
    · rw [hmax]
      exact hfirm_t.2.2 hobject
    · rw [hobject] at hint
      cases hint
  · have hbefore := ((unify_folds hL hu).2.1.involved hL hv).resolve_right (Ne.symm hvt)
    obtain ⟨t₀, t, hfirm₀, ⟨hknown_t, hrest⟩, halike⟩ := h v hbefore
    refine ⟨t₀, t, hfirm₀, ⟨?_, ?_⟩, halike⟩
    · rw [hknown, if_neg hvt, hknown_t]
    · rw [hmax]
      exact hrest

theorem Merging.Rounds.settles (harrange : ∀ occ, (arrange occ).entries.Perm occ.entries)
    {p q : Method × List Candidate} (h : (mergingVersions arrange).Rounds p q)
    (hL : p.1.graph.Legible) (hfirm : p.1.FirmTypes) : p.1.Settles q.1 := by
  have htrims := trimsLists_versions arrange
  refine h.keeps (P := p.1.Settles) (hfirm.settles hL)
    fun q c m g hrounds hsettles ⟨hc, hu⟩ hg => ?_
  have hLq := hrounds.legible htrims hL
  have hLm := (unify_folds hLq hu).2.1.legible hLq
  obtain ⟨c?, hc?, hfresh⟩ := candidate?_returns harrange hLq q.2
  obtain rfl : c? = some c := Except.ok.inj (hc?.symm.trans hc)
  have hsettles := hsettles.unify hLq (hfresh c rfl).source (hfresh c rfl).target hu
  exact fun v hv => hsettles v ((htrims m.graph g hLm hg).involved hLm hv)

/-! ## Another run -/

/-- What is remembered as refused was refused in some round. -/
theorem Merging.Rounds.exists_refuses {p q : Method × List Candidate}
    (h : (mergingVersions arrange).Rounds p q) (hc : c ∈ q.2) :
    c ∈ p.2 ∨ ∃ q', (mergingVersions arrange).Rounds p q' ∧
      (mergingVersions arrange).Refuses q' c := by
  induction h with
  | refl => exact .inl hc
  | @tail q r hrounds hround ih =>
    cases hround with
    | @refuse d hrefuses =>
      rcases List.mem_cons.1 hc with rfl | hc
      · exact .inr ⟨q, hrounds, hrefuses⟩
      · exact ih hc
    | merge => exact ih hc

/-- A run starts by looking for the places of all variables. -/
theorem occurrences_of_mergeVersionsIn {rounds merges : ℕ} {refused : List Candidate}
    {r : Method × Except MergeFailure ℕ}
    (h : mergeVersionsIn arrange rounds m refused merges = .ok r) :
    ∃ occ, m.graph.occurrences = .ok occ := by
  cases rounds with
  | zero => cases h
  | succ rounds =>
    obtain ⟨c?, hc?, -⟩ := Checked.bind_eq_ok.1 h
    obtain ⟨occ, hocc, -⟩ := Checked.bind_eq_ok.1 hc?
    exact ⟨occ, hocc⟩

/-- What was refused when types were firm shares no type in the end either. -/
theorem Settles.sharedType?_eq_none {m₀ m₁ : Method} (h₁ : m₀.Settles m₁) (h : m₀.Settles m)
    (hs₁ : m₁.graph.Involved source) (ht₁ : m₁.graph.Involved target)
    (hnone : m₁.sharedType? source target = .ok none) (hs : m.graph.Involved source)
    (ht : m.graph.Involved target) : m.sharedType? source target = .ok none := by
  obtain ⟨s₀, s₁, hs₀, hs₁, hss₁⟩ := h₁ source hs₁
  obtain ⟨t₀, t₁, ht₀, ht₁, htt₁⟩ := h₁ target ht₁
  obtain ⟨s₀', s, hs₀', hs, hss⟩ := h source hs
  obtain ⟨t₀', t, ht₀', ht, htt⟩ := h target ht
  obtain rfl : s₀ = s₀' := Option.some.inj (hs₀.1.symm.trans hs₀'.1)
  obtain rfl : t₀ = t₀' := Option.some.inj (ht₀.1.symm.trans ht₀'.1)
  refine Method.sharedType?_eq_none hs ht fun halike => ?_
  have halike₁ : s₁.Alike t₁ := hss₁.symm.trans ((hss.trans halike).trans (htt.symm.trans htt₁))
  obtain ⟨w, hw, -⟩ := sharedType?_of_alike hs₁ ht₁ halike₁
  cases hnone.symm.trans hw

/-- What another run does after a run of merging. It merges nothing exactly if nothing on offer
shares a type any more. All that is on offer was refused in some round of the first run, so where it
shares a type now, that refusal is out of date. Where types are firm from the start, no refusal ever
is, and one run is enough. -/
theorem mergeVersionsBy_again (arrange arrange' : Occurrences → Occurrences)
    (harrange : ∀ occ, (arrange occ).entries.Perm occ.entries)
    (harrange' : ∀ occ, (arrange' occ).entries.Perm occ.entries) (m m' : Method) (n : ℕ)
    (hw : m.graph.WellFormed) (h : m.mergeVersionsBy arrange = .ok (m', .ok n)) :
    (m'.mergeVersionsBy arrange' = .ok (m', .ok 0) ↔
      ∀ c, m'.Offers c → m'.sharedType? c.source c.target = .ok none) ∧
    (∀ c, m'.Offers c → ∃ p, (mergingVersions arrange).Rounds (m, []) p ∧
      (mergingVersions arrange).Refuses p c) ∧
    (m.FirmTypes → m'.mergeVersionsBy arrange' = .ok (m', .ok 0)) := by
  obtain ⟨occ, hocc⟩ := occurrences_of_mergeVersionsIn h
  have hL := legible_of_occurrences hw hocc
  obtain ⟨refused, hrounds, hnone⟩ := mergeVersionsIn_rounds h
  have htrims := trimsLists_versions arrange
  have hidle := mergeVersionsBy_idle_iff harrange' (hrounds.legible htrims hL)
  have hrefused : ∀ c, m'.Offers c → ∃ p, (mergingVersions arrange).Rounds (m, []) p ∧
      (mergingVersions arrange).Refuses p c := fun c hc =>
    (hrounds.exists_refuses
      (mem_refused_of_offers harrange (hnone n rfl) hc)).resolve_left nofun
  refine ⟨hidle, hrefused, fun hfirm => hidle.2 fun c hc => ?_⟩
  obtain ⟨p, hp, hfound, hu⟩ := hrefused c hc
  have hoffer := candidate?_offers harrange hfound
  obtain ⟨⟨x, hx⟩, y, hy⟩ := hoffer.occursAt
  obtain ⟨⟨x', hx'⟩, y', hy'⟩ := hc.occursAt
  exact (hp.settles harrange hL hfirm).sharedType?_eq_none (hrounds.settles harrange hL hfirm)
    hx.involved hy.involved (hoffer.unify_eq_refused.1 hu) hx'.involved hy'.involved

/-- `v3 = null; v5 = v3; v7 = v3; Out.print(v5); Out.print(v7);` for three versions of a slot, with
the types that their definitions give and their uses accept. -/
def copiedNull (minTypes maxTypes : Table Local Ty) : Method where
  graph :=
    { stats := ⟨#[
        ⟨.exit, none, none, [], [], [], [], []⟩,
        ⟨.root, none, some ⟨2⟩, [⟨2⟩], [], [], [], []⟩,
        ⟨.block [⟨2⟩, ⟨5⟩, ⟨8⟩, ⟨10⟩, ⟨12⟩], some ⟨1⟩, none, [], [], [], [], []⟩]⟩
      edges := .empty
      exprs :=
        let occurrence (index : ℕ) : Expr := .var ⟨⟨index, 0⟩, .unknown, false, false, none⟩
        let output (argument : ExprId) : Expr :=
          .call ⟨"Out", "print", "(Ljava/lang/String;)V", none, [argument]⟩
        ⟨#[
          ⟨occurrence 3, .empty⟩,
          ⟨.const .null .null, .empty⟩,
          ⟨.assign ⟨0⟩ ⟨1⟩, .empty⟩,
          ⟨occurrence 5, .empty⟩,
          ⟨occurrence 3, .empty⟩,
          ⟨.assign ⟨3⟩ ⟨4⟩, .empty⟩,
          ⟨occurrence 7, .empty⟩,
          ⟨occurrence 3, .empty⟩,
          ⟨.assign ⟨6⟩ ⟨7⟩, .empty⟩,
          ⟨occurrence 5, .empty⟩,
          ⟨output ⟨9⟩, .empty⟩,
          ⟨occurrence 7, .empty⟩,
          ⟨output ⟨11⟩, .empty⟩]⟩ }
  vars := { Registry.empty with
    origins := .ofList [(3, ⟨1, 3⟩), (5, ⟨1, 5⟩), (7, ⟨1, 7⟩)]
    minTypes := minTypes
    maxTypes := maxTypes }

/-- Two strings and an object, of which only the strings can be merged. -/
def stringsAndObject : Method :=
  copiedNull (.ofList [(⟨3, 0⟩, .ofClass "java/lang/String"), (⟨5, 0⟩, .ofClass "java/lang/String"),
    (⟨7, 0⟩, .javaObject)]) .empty

theorem mergeVersionsBy_again_stringsAndObject :
    stringsAndObject.graph.WellFormed ∧ stringsAndObject.FirmTypes ∧
      ∃ m', stringsAndObject.mergeVersionsBy id = .ok (m', .ok 1) ∧
        m'.mergeVersionsBy (fun occ => ⟨occ.entries.reverse⟩) = .ok (m', .ok 0) ∧
        (∀ c, m'.Offers c → m'.sharedType? c.source c.target = .ok none) ∧
        ∀ c, m'.Offers c → ∃ p, (mergingVersions id).Rounds (stringsAndObject, []) p ∧
          (mergingVersions id).Refuses p c := by
  have hw : stringsAndObject.graph.WellFormed := by decide +kernel
  have hfirm : stringsAndObject.FirmTypes := by decide +kernel
  have hrun : Returns (stringsAndObject.mergeVersionsBy id) fun r => r.2 = .ok 1 := by
    decide +kernel
  obtain ⟨⟨m', n⟩, h, rfl⟩ := hrun
  obtain ⟨hidle, hrefused, hfixed⟩ := mergeVersionsBy_again id
    (fun occ => ⟨occ.entries.reverse⟩) (fun _ => .refl _) (fun occ => occ.entries.reverse_perm)
    _ m' 1 hw h
  exact ⟨hw, hfirm, m', h, hfixed hfirm, hidle.1 (hfixed hfirm), hrefused⟩

/-- A variable that starts with `null` and is used as a string, and two strings of which only the
second has a use that asks for one. -/
def lateString : Method :=
  copiedNull (.ofList [(⟨3, 0⟩, .null), (⟨5, 0⟩, .ofClass "java/lang/String"),
      (⟨7, 0⟩, .ofClass "java/lang/String")])
    (.ofList [(⟨3, 0⟩, .ofClass "java/lang/String"), (⟨7, 0⟩, .ofClass "java/lang/String")])

/-- The first string is refused while the variable that it copies has the type of `null`. The second
one is merged and makes that variable a string, so that another run merges the first one as well. -/
theorem not_idle_of_stale_refusal :
    lateString.graph.WellFormed ∧ Returns lateString.mergeVersions fun r => r.2 = .ok 1 ∧
      Returns r.1.mergeVersions fun r' => r'.2 = .ok 1 := by
  decide +kernel

end Method

end Decompiler

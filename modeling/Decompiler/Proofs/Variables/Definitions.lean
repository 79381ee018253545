import Decompiler.Proofs.Variables.Rounds
import Decompiler.Proofs.Variables.Settling

/-!
# Every variable is defined once

When the variables of a method have been settled, each index that a statement uses has one
occurrence that is marked as its definition, unless it is that of a parameter or an exception
variable. Of these only the exception variables themselves are marked.

* `Method.Tidy`: the invariant behind it. No index is marked twice, and none occurs in two versions.
* `Method.declareAll_marks`: every index that has a home gets one mark.
* `Method.Tidy.folds`, `Method.DefinesOnce.folds`: a merge takes away the mark of the variable that
  goes away, and no other.
* `Method.settle_defines_once`: all of it.
-/

namespace Decompiler

open Decompiler.Graph

/-! ## Indices without a declaration -/

/-- The exception variables of a statement do not depend on what else it holds. -/
theorem Stat.handlerVars_eq_of_skeleton {s t : Stat} (h : s.skeleton = t.skeleton) :
    Method.handlerVars s = Method.handlerVars t := by
  have key : ∀ s : Stat, Method.handlerVars s.skeleton = Method.handlerVars s := by
    intro s
    obtain ⟨kind, parent, first, children, declarations, successors, predecessors, labels⟩ := s
    cases kind <;> rfl
  rw [← key, h, key]

theorem Graph.Revises.isHandlerVar_iff {g g' : Graph} {touched : ExprId → Prop} {e : ExprId}
    (r : Revises g g' touched) (o : g.Orderly) :
    Method.IsHandlerVar g' e ↔ Method.IsHandlerVar g e := by
  refine exists_congr fun s => ?_
  rw [r.inTree_iff o.forest]
  refine and_congr_right fun hs => ?_
  obtain ⟨st, hst⟩ := o.forest.stat s hs
  obtain ⟨st', hst', heq⟩ := r.stats s st hst
  rw [hst, hst', Returns.ok_iff, Returns.ok_iff, Stat.handlerVars_eq_of_skeleton heq]

/-- An exception variable is not in the list of declarations of a statement. -/
theorem Method.IsHandlerVar.not_listsDeclaration {g : Graph} {s : StatId} {e : ExprId}
    (h : Method.IsHandlerVar g e) (o : g.Orderly) (hs : g.InTree s) :
    ¬ g.ListsDeclaration s e := by
  intro hlist
  obtain ⟨t, ht, tt, htt, hmem⟩ := h
  have hexpr := Method.mem_exprs_of_handlerVars hmem
  have hheld : g.Holds t e := ⟨tt, htt, List.mem_append_left _ hexpr⟩
  obtain ⟨rfl, -⟩ := o.apart s t e e e hs ht hlist.holds hheld .refl .refl
  exact hlist.not_mem_exprs o hs htt hexpr

/-- An exception variable does not lie in an expression that is evaluated. -/
theorem Method.IsHandlerVar.not_reaches_of_evaluates {g : Graph} {s : StatId} {e y : ExprId}
    (h : Method.IsHandlerVar g y) (o : g.Orderly) (hs : g.InTree s) (heval : g.Evaluates s e) :
    ¬ g.Reaches e y := by
  intro hreach
  obtain ⟨t, ht, hheld, hnot⟩ := h.held
  obtain ⟨rfl, rfl⟩ := o.apart s t e y y hs ht heval.holds hheld hreach .refl
  exact hnot heval

namespace Method

variable {m m' : Method} {e y : ExprId} {v var source target : Local} {index : ℕ} {I : ℕ → Prop}

/-- The index is that of a parameter or of an exception variable. -/
def Implicit (m : Method) (index : ℕ) : Prop :=
  index ∈ m.vars.parameterSlots ∨
    ∃ e v marked, IsHandlerVar m.graph e ∧ m.graph.Occurs e v marked ∧ v.index = index

theorem implicit_congr (hslots : m'.vars.parameterSlots = m.vars.parameterSlots)
    (hvars : ∀ e, IsHandlerVar m'.graph e ↔ IsHandlerVar m.graph e)
    (hoccurs : ∀ e v, IsHandlerVar m.graph e →
      ((∃ marked, m'.graph.Occurs e v marked) ↔ ∃ marked, m.graph.Occurs e v marked)) :
    m'.Implicit index ↔ m.Implicit index := by
  rw [Implicit, Implicit, hslots]
  refine or_congr_right (exists_congr fun e => exists_congr fun v => ?_)
  constructor
  · rintro ⟨marked, he, hv, hindex⟩
    have he := (hvars e).1 he
    obtain ⟨marked', hv'⟩ := (hoccurs e v he).1 ⟨marked, hv⟩
    exact ⟨marked', he, hv', hindex⟩
  · rintro ⟨marked, he, hv, hindex⟩
    obtain ⟨marked', hv'⟩ := (hoccurs e v he).2 ⟨marked, hv⟩
    exact ⟨marked', (hvars e).2 he, hv', hindex⟩

/-! ## Marks -/

/-- No index is marked twice or occurs in two versions, apart from the indices `I` of parameters and
exception variables, of which only the latter are marked. -/
structure Tidy (m : Method) (I : ℕ → Prop) : Prop where
  /-- The graph is orderly. -/
  orderly : m.graph.Orderly
  /-- Which indices are those of parameters and exception variables. -/
  implicit : ∀ i, m.Implicit i ↔ I i
  /-- Other indices have one version. -/
  version : ∀ e e' v v' marked marked', m.graph.Occurs e v marked → m.graph.Occurs e' v' marked' →
    v.index = v'.index → ¬ I v.index → v = v'
  /-- They are marked once. -/
  unique : ∀ e e' v v', m.graph.Occurs e v true → m.graph.Occurs e' v' true →
    v.index = v'.index → ¬ I v.index → e = e'
  /-- Marks of the other ones are exception variables. -/
  handlers : ∀ e v, m.graph.Occurs e v true → I v.index → IsHandlerVar m.graph e
  /-- Declarations that stand apart are marked. -/
  listed : ∀ s e, m.graph.InTree s → m.graph.ListsDeclaration s e → ∃ v, m.graph.IsVar e v true

/-- One more index is marked. -/
theorem Tidy.adds (h : m.Tidy I) (ha : Adds m.graph m'.graph var)
    (hslots : m'.vars.parameterSlots = m.vars.parameterSlots) (hI : ¬ I var.index)
    (hvar : ∃ e marked, m.graph.Occurs e var marked) (hnew : ¬ m.graph.IsMarked var.index) :
    m'.Tidy I := by
  obtain ⟨y, v, hmark, hindex, horigin⟩ := ha.marks
  have o := h.orderly
  have r := hmark.revises
  have hiff : ∀ e w marked, m'.graph.Occurs e w marked ↔
      e = y ∧ w = v ∧ marked = true ∨ e ≠ y ∧ m.graph.Occurs e w marked :=
    fun _ _ _ => hmark.occurs_iff o ha.orderly
  have hold : ∃ e marked, m.graph.Occurs e v marked := by
    rcases horigin with ⟨marked, hy⟩ | ⟨-, rfl⟩
    · exact ⟨y, marked, hy⟩
    · exact hvar
  rw [← hindex] at hI hnew
  have hy : ¬ IsHandlerVar m.graph y := by
    intro hy
    rcases horigin with ⟨marked, hocc⟩ | ⟨hfresh, -⟩
    · exact hI ((h.implicit _).1 (.inr ⟨y, v, marked, hy, hocc, rfl⟩))
    · obtain ⟨s, hs, hheld, -⟩ := hy.held
      obtain ⟨n, hn⟩ := (o.grounded s y hs hheld).exists_node
      exact hfresh n hn
  have hvars := fun e => r.isHandlerVar_iff (e := e) o
  refine ⟨ha.orderly, fun i => ?_, ?_, ?_, ?_, fun s e hs he => ?_⟩
  · rw [← h.implicit]
    refine implicit_congr hslots hvars fun e w he => exists_congr fun marked => ?_
    have hne : e ≠ y := fun heq => hy (heq ▸ he)
    simp [hiff, hne]
  · intro e e' w w' marked marked' hw hw' heq hnot
    obtain ⟨e₀, marked₀, hv⟩ := hold
    rcases (hiff e w marked).1 hw with ⟨-, rfl, -⟩ | ⟨-, hw⟩ <;>
      rcases (hiff e' w' marked').1 hw' with ⟨-, rfl, -⟩ | ⟨-, hw'⟩
    · rfl
    · exact h.version e₀ e' w w' marked₀ marked' hv hw' heq hnot
    · exact h.version e e₀ w w' marked marked₀ hw hv heq hnot
    · exact h.version e e' w w' marked marked' hw hw' heq hnot
  · intro e e' w w' hw hw' heq hnot
    rcases (hiff e w true).1 hw with ⟨rfl, rfl, -⟩ | ⟨-, hw⟩ <;>
      rcases (hiff e' w' true).1 hw' with ⟨rfl, rfl, -⟩ | ⟨-, hw'⟩
    · rfl
    · exact absurd ⟨e', w', hw', heq.symm⟩ hnew
    · exact absurd ⟨e, w, hw, heq⟩ hnew
    · exact h.unique e e' w w' hw hw' heq hnot
  · intro e w hw hw'
    rcases (hiff e w true).1 hw with ⟨-, rfl, -⟩ | ⟨-, hw⟩
    · exact absurd hw' hI
    · exact (hvars e).2 (h.handlers e w hw hw')
  · have hs := (r.inTree_iff o.forest).1 hs
    by_cases heq : e = y
    · exact ⟨v, heq ▸ hmark.marked⟩
    · have he := (hmark.lists s e hs he).resolve_right heq
      obtain ⟨w, hw⟩ := h.listed s e hs he
      exact ⟨w, (r.isVar_iff (o.grounded s e hs he.holds) heq).2 hw⟩

/-! ## Declaring -/

/-- What is known once the homes of some indices have been visited. -/
structure MarksHomes (m : Method) (I : ℕ → Prop) (visited : List (ℕ × StatId)) (m' : Method) :
    Prop where
  /-- The method is tidy. -/
  tidy : m'.Tidy I
  /-- Nothing was merged. -/
  merges : m.vars.SameMerges m'.vars
  /-- What was named in a statement still is. -/
  named : ∀ s i, m.graph.InTree s → m.graph.NamedIn s i → m'.graph.InTree s ∧ m'.graph.NamedIn s i
  /-- Which indices are marked. -/
  marks : ∀ i, m'.graph.IsMarked i ↔ m.graph.IsMarked i ∨ i ∈ visited.map Prod.fst ∧ ¬ I i
  /-- What is used was used before, or is marked. -/
  uses : ∀ s i, m'.graph.InTree s → m'.graph.Uses s i →
    (∃ t, m.graph.InTree t ∧ m.graph.Uses t i) ∨ m'.graph.IsMarked i

namespace MarksHomes

variable {visited : List (ℕ × StatId)} {s : StatId} {m'' : Method}

/-- An index that needs no declaration is passed over. -/
theorem skip (h : m.MarksHomes I visited m') (hI : I index) :
    m.MarksHomes I (visited ++ [(index, s)]) m' := by
  refine ⟨h.tidy, h.merges, h.named, fun i => ?_, h.uses⟩
  rw [h.marks, List.map_append, List.mem_append]
  refine or_congr_right (and_congr_left fun hi => (or_iff_left ?_).symm)
  simp only [List.map_cons, List.map_nil, List.mem_singleton]
  rintro rfl
  exact hi hI

/-- An index is marked in its home. -/
theorem adds (h : m.MarksHomes I visited m') (ha : Adds m'.graph m''.graph var)
    (hmerges : m'.vars.SameMerges m''.vars) (hI : ¬ I var.index)
    (hvar : ∃ e marked, m'.graph.Occurs e var marked) (hnew : ¬ m'.graph.IsMarked var.index) :
    m.MarksHomes I (visited ++ [(var.index, s)]) m'' := by
  have o := h.tidy.orderly
  obtain ⟨y, v, hmark, hindex, horigin⟩ := ha.marks
  have r := hmark.revises
  have hmarked : m''.graph.IsMarked var.index :=
    ⟨y, v, ha.orderly.occurs_iff.2 ⟨hmark.lies, hmark.marked⟩, hindex⟩
  refine ⟨h.tidy.adds ha hmerges.2 hI hvar hnew, ⟨hmerges.1.trans h.merges.1,
    hmerges.2.trans h.merges.2⟩, fun t i ht hi => ?_, fun i => ?_, fun t i ht hi => ?_⟩
  · obtain ⟨ht, hi⟩ := h.named t i ht hi
    exact ⟨(r.inTree_iff o.forest).2 ht, hmark.namedIn o ht hi⟩
  · rw [hmark.isMarked_iff o ha.orderly, hindex, h.marks, List.map_append, List.mem_append,
      or_assoc]
    refine or_congr_right ⟨?_, ?_⟩
    · rintro (⟨hi, hnot⟩ | rfl)
      · exact ⟨.inl hi, hnot⟩
      · exact ⟨.inr (by simp), hI⟩
    · rintro ⟨hi | hi, hnot⟩
      · exact .inl ⟨hi, hnot⟩
      · exact .inr (by simpa using hi)
  · have ht := (r.inTree_iff o.forest).1 ht
    rcases hmark.uses o ha.orderly ht hi with hi | rfl
    · refine (h.uses t i ht hi).imp_right fun hi => ?_
      exact (hmark.isMarked_iff o ha.orderly).2 (.inl hi)
    · exact .inr (hindex ▸ hmarked)

end MarksHomes

/-- A tidy method in which every index that a statement uses is marked, but for those of parameters
and exception variables. -/
structure DefinesOnce (m : Method) (I : ℕ → Prop) : Prop extends m.Tidy I where
  /-- What is used is marked. -/
  used : ∀ s i, m.graph.InTree s → m.graph.Uses s i → ¬ I i → m.graph.IsMarked i

namespace Tidy

/-- A variable that a search across scopes finds declared is marked in the expression that declares
it, and it is neither a parameter nor an exception variable. -/
theorem occurs_of_declares (h : m.Tidy I) (he : m.graph.Declares e v) :
    (∃ s y, m.graph.InTree s ∧ m.graph.Holds s e ∧ m.graph.Reaches e y ∧
      m.graph.Occurs y v true) ∧ ¬ I v.index := by
  have o := h.orderly
  obtain ⟨s, hs, ⟨hlist, hlocal⟩ | ⟨heval, hdeclared⟩⟩ := he
  · obtain ⟨u, w, hw, rfl, hdef⟩ := h.listed s e hs hlist
    obtain ⟨w', hw', rfl⟩ := local?_eq_ok.1 hlocal
    rw [hw] at hw'
    cases hw'
    have hocc := o.occurs_iff.2 ⟨⟨s, e, hs, hlist.holds, .refl⟩, w, hw, rfl, hdef⟩
    exact ⟨⟨s, e, hs, hlist.holds, .refl, hocc⟩, fun hI =>
      (h.handlers e _ hocc hI).not_listsDeclaration o hs hlist⟩
  · obtain ⟨y, w, hy, hw, hdef, rfl⟩ := declared?_eq_some.1 hdeclared
    have hreach := (o.grounded s e hs heval.holds).reaches_target hy
    have hocc := o.occurs_iff.2 ⟨⟨s, e, hs, heval.holds, hreach⟩, w, hw, rfl, hdef⟩
    exact ⟨⟨s, y, hs, heval.holds, hreach, hocc⟩, fun hI =>
      (h.handlers y _ hocc hI).not_reaches_of_evaluates o hs heval hreach⟩

/-- The variables of a tidy method can be merged across scopes. -/
theorem mergeable (h : m.Tidy I) (hleaders : m.vars.leaders.Acyclic) : m.Mergeable where
  orderly := h.orderly
  leaders := hleaders
  unique e e' v he he' := by
    obtain ⟨⟨s, y, hs, hheld, hy, hocc⟩, hI⟩ := h.occurs_of_declares he
    obtain ⟨⟨s', y', hs', hheld', hy', hocc'⟩, -⟩ := h.occurs_of_declares he'
    obtain rfl := h.unique y y' v v hocc hocc' rfl hI
    exact (h.orderly.apart s s' e e' y hs hs' hheld hheld' hy hy').2
  parameters e slot hslot he := (h.occurs_of_declares he).2 ((h.implicit _).1 (.inl hslot))

/-- A merge takes away the mark of the variable that goes away, and adds none. -/
theorem folds (h : m.Tidy I) (f : Folds m.graph m'.graph source target)
    (hslots : m'.vars.parameterSlots = m.vars.parameterSlots) (hsource : ¬ I source.index)
    (htarget : I target.index ∨ ∃ e, m.graph.Occurs e target true) : m'.Tidy I := by
  have o := h.orderly
  have hvars := fun e => f.revises.isHandlerVar_iff (e := e) o
  have hafter : ∀ e v marked, m'.graph.Occurs e v marked → v ≠ source ∧ m.graph.Occurs e v marked ∨
      v = target ∧ marked = false ∧ ∃ marked', m.graph.Occurs e source marked' :=
    fun _ _ _ => f.occurs o h.listed
  have hmarks : ∀ e v, m'.graph.Occurs e v true → m.graph.Occurs e v true := by
    intro e v hv
    rcases hafter e v true hv with ⟨-, hv⟩ | ⟨-, hfalse, -⟩
    · exact hv
    · cases hfalse
  have hhandler : ∀ e marked, IsHandlerVar m.graph e → ¬ m.graph.Occurs e source marked :=
    fun e marked he hocc => hsource ((h.implicit _).1 (.inr ⟨e, source, marked, he, hocc, rfl⟩))
  refine ⟨f.orderly o, fun i => ?_, ?_, fun e e' v v' hv hv' => h.unique e e' v v' (hmarks e v hv)
    (hmarks e' v' hv'), fun e v hv hI => (hvars e).2 (h.handlers e v (hmarks e v hv) hI),
    fun s e hs he => ?_⟩
  · rw [← h.implicit]
    refine implicit_congr hslots hvars fun e v he =>
      ⟨fun ⟨marked, hv⟩ => ?_, fun ⟨marked, hv⟩ => ?_⟩
    · rcases hafter e v marked hv with ⟨-, hv⟩ | ⟨-, -, marked', hocc⟩
      · exact ⟨marked, hv⟩
      · exact absurd hocc (hhandler e marked' he)
    · refine ⟨marked, f.keeps o hv fun heq => ?_⟩
      exact hhandler e marked he (heq ▸ hv)
  · -- a new occurrence of `target` agrees with the one that is marked
    have hversion : ∀ e v marked, m.graph.Occurs e v marked → v.index = target.index →
        ¬ I v.index → v = target := by
      intro e v marked hv heq hI
      obtain ⟨e₀, h₀⟩ := htarget.resolve_left (heq ▸ hI)
      exact h.version e e₀ v target marked true hv h₀ heq hI
    intro e e' v v' marked marked' hv hv' heq hI
    rcases hafter e v marked hv with ⟨-, hv⟩ | ⟨rfl, -⟩ <;>
      rcases hafter e' v' marked' hv' with ⟨-, hv'⟩ | ⟨rfl, -⟩
    · exact h.version e e' v v' marked marked' hv hv' heq hI
    · exact hversion e v marked hv heq hI
    · exact (hversion e' v' marked' hv' heq.symm (heq ▸ hI)).symm
    · rfl
  · have hs := (f.revises.inTree_iff o.forest).1 hs
    have he := f.stats.listsDeclaration (o.forest.stat s hs) he
    obtain ⟨v, hv⟩ := h.listed s e hs he
    exact ⟨v, (f.revises.isVar_iff (o.grounded s e hs he.holds)
      (not_occursAt_of_listsDeclaration o hs he)).2 hv⟩

end Tidy

namespace DefinesOnce

/-- What is used after a merge is marked: the mark of the variable that stays is kept. -/
theorem folds (h : m.DefinesOnce I) (f : Folds m.graph m'.graph source target)
    (hslots : m'.vars.parameterSlots = m.vars.parameterSlots) (hne : source ≠ target)
    (hsource : ¬ I source.index) (htarget : I target.index ∨ ∃ e, m.graph.Occurs e target true) :
    m'.DefinesOnce I := by
  have o := h.orderly
  refine ⟨h.toTidy.folds f hslots hsource htarget, fun s i hs hi hI => ?_⟩
  obtain ⟨top, heval, x, w, marked, hreach, hw, rfl⟩ := ((f.orderly o).uses_iff hs).1 hi
  have hocc := (f.orderly o).occurs_iff.2 ⟨⟨s, top, hs, heval.holds, hreach⟩, hw⟩
  have hs := (f.revises.inTree_iff o.forest).1 hs
  have heval := f.stats.evaluates (o.forest.stat s hs) heval
  have hreach := f.revises.reaches (o.grounded s top hs heval.holds) hreach
  rcases f.occurs o h.listed hocc with ⟨hws, hocc⟩ | ⟨rfl, -⟩
  · have huses := (o.uses_iff hs).2
      ⟨top, heval, x, w, marked, hreach, (o.occurs_iff.1 hocc).2, rfl⟩
    obtain ⟨e, v, hv, heq⟩ := h.used s _ hs huses hI
    obtain rfl := h.version e x v w true marked hv hocc heq (heq ▸ hI)
    exact ⟨e, v, f.keeps o hv hws, rfl⟩
  · obtain ⟨e, he⟩ := htarget.resolve_left hI
    exact ⟨e, w, f.keeps o he hne.symm, rfl⟩

/-- Merging across scopes keeps each variable defined once. -/
theorem mergeScopedIn {rounds : ℕ} {refused : Table Local Local}
    {r : Except MergeFailure Unit} (h : m.DefinesOnce I)
    (hr : Method.mergeScopedIn rounds m refused = .ok (m', r)) : m'.DefinesOnce I := by
  obtain ⟨refused', hrounds, -⟩ := mergeScopedIn_rounds hr
  refine hrounds.keeps (P := fun m => m.DefinesOnce I) h fun q c m₁ g _ hq hmerges htidy => ?_
  obtain ⟨hc, hu⟩ := hmerges
  obtain rfl := Checked.pure_eq_ok.1 htidy
  obtain ⟨hne, hfolds, hslots⟩ := unify_folds hq.orderly.toLegible hu
  obtain ⟨⟨e, he⟩, htarget⟩ := declares_of_scopedCandidate? hq.orderly hc
  refine hq.folds hfolds hslots hne (hq.occurs_of_declares he).2 ?_
  rcases htarget with ⟨slot, hslot, htarget⟩ | ⟨e', he'⟩
  · refine .inl ((hq.implicit _).1 (.inl ?_))
    rw [htarget]
    exact hslot
  · obtain ⟨⟨-, y, -, -, -, hocc⟩, -⟩ := hq.occurs_of_declares he'
    exact .inr ⟨y, hocc⟩

/-! ## Entries and names -/

/-- Changes of types and debug entries do not matter. -/
theorem of_revises (h : m.DefinesOnce I)
    (r : Revises m.graph m'.graph fun _ => False) (hstats : m'.graph.stats = m.graph.stats)
    (hslots : m'.vars.parameterSlots = m.vars.parameterSlots) : m'.DefinesOnce I := by
  have o := h.orderly
  have o' := o.of_stats_eq r hstats
  have hstat : ∀ s, m'.graph.stat s = m.graph.stat s := fun s => by rw [stat, hstats, stat]
  have hTree := fun s => r.inTree_iff (s := s) o.forest
  have hvars := fun e => r.isHandlerVar_iff (e := e) o
  have hoccurs : ∀ e v marked, m'.graph.Occurs e v marked ↔ m.graph.Occurs e v marked := by
    intro e v marked
    rw [o.occurs_iff, o'.occurs_iff, r.lies_iff o.toLegible hstats]
    exact and_congr_right fun he => r.isVar_iff (he.grounded o.toLegible) id
  refine ⟨⟨o', fun i => ?_, ?_, ?_, ?_, fun s e hs he => ?_⟩, fun s i hs hi => ?_⟩
  · rw [← h.implicit]
    exact implicit_congr hslots hvars fun e v _ => exists_congr fun marked => hoccurs e v marked
  · simpa only [hoccurs] using h.version
  · simpa only [hoccurs] using h.unique
  · simpa only [hoccurs, hvars] using h.handlers
  · have hs := (hTree s).1 hs
    have he : m.graph.ListsDeclaration s e := by rwa [ListsDeclaration, hstat] at he
    obtain ⟨v, hv⟩ := h.listed s e hs he
    exact ⟨v, (r.isVar_iff (o.grounded s e hs he.holds) id).2 hv⟩
  · obtain ⟨top, heval, x, v, marked, hreach, hv, rfl⟩ := (o'.uses_iff hs).1 hi
    have hs := (hTree s).1 hs
    have heval : m.graph.Evaluates s top := by rwa [Evaluates, hstat] at heval
    have hground := o.grounded s top hs heval.holds
    have hreach := r.reaches hground hreach
    have hv := (r.isVar_iff (hground.of_reaches hreach) id).1 hv
    simp only [IsMarked, hoccurs]
    exact h.used s v.index hs ((o.uses_iff hs).2 ⟨top, heval, x, v, marked, hreach, hv, rfl⟩)

end DefinesOnce

end Method

/-! ## All of it -/

namespace Graph

/-- No index occurs in two versions. -/
def OneVersionEach (g : Graph) : Prop :=
  Returns (do g.refsInAll (← g.exprsIn root)) fun l =>
    ∀ v ∈ l, ∀ w ∈ l, v.2.var.index = w.2.var.index → v.2.var = w.2.var

instance (g : Graph) : Decidable g.OneVersionEach :=
  inferInstanceAs (Decidable (Returns _ _))

theorem OneVersionEach.eq {g : Graph} (h : g.OneVersionEach) {e e' : ExprId} {v v' : Local}
    {marked marked' : Bool} (hv : g.Occurs e v marked) (hv' : g.Occurs e' v' marked')
    (heq : v.index = v'.index) : v = v' := by
  obtain ⟨l, hl, hall⟩ := h
  rw [Occurs, hl, Returns.ok_iff] at hv hv'
  obtain ⟨w, hw, rfl, -⟩ := hv
  obtain ⟨w', hw', rfl, -⟩ := hv'
  exact hall (e, w) hw (e', w') hw' heq

theorem Undeclared.not_occurs {g : Graph} (h : g.Undeclared) {e : ExprId} {v : Local} :
    ¬ g.Occurs e v true := by
  obtain ⟨-, l, hl, hall⟩ := h
  rw [Occurs, hl, Returns.ok_iff]
  rintro ⟨w, hw, -, hdef⟩
  rw [hall (e, w) hw] at hdef
  cases hdef

end Graph

namespace Method

variable {m m' : Method} {e : ExprId} {v : Local} {index : ℕ}

namespace Planned

variable {plan : Plan} (h : m.Planned m' plan) (o : m.graph.Orderly)

include h o

/-- Planning leaves variables where they are. -/
theorem occurs_iff : (∃ marked, m'.graph.Occurs e v marked) ↔
    ∃ marked, m.graph.Occurs e v marked := by
  have r := h.revises
  simp only [o.occurs_iff, h.orderly.occurs_iff, r.lies_iff o.toLegible h.stats, exists_and_left]
  refine and_congr_right fun he =>
    ⟨fun ⟨marked, hv⟩ => ?_, fun ⟨marked, hv⟩ => h.vars e v marked hv⟩
  -- the node was an occurrence before, and it was not renamed
  obtain ⟨x, hx⟩ := (he.grounded o.toLegible).expr
  obtain ⟨x', hx', hshape, -⟩ := r.exprs e x hx
  obtain ⟨w', hw', rfl, rfl⟩ := hv
  rw [hw'] at hx'
  cases hx'
  obtain ⟨w, rfl⟩ := Expr.eq_var_of_shape hshape.symm
  obtain ⟨marked', hv⟩ := h.vars e w.var w.isDefinition ⟨w, hx, rfl, rfl⟩
  exact ⟨w.isDefinition, w, hx, (hv.functional ⟨w', hw', rfl, rfl⟩).1, rfl⟩

/-- What needs no declaration are the parameters and the exception variables. -/
theorem mem_implicit_iff : index ∈ plan.implicit ↔ m.Implicit index := by
  rw [h.implicit, Implicit]
  refine or_congr_right (exists_congr fun e => exists_congr fun v => exists_congr fun marked =>
    and_congr_right fun he => and_congr_left fun _ => ?_)
  obtain ⟨s, hs, hheld, -⟩ := he.held
  rw [o.occurs_iff]
  exact (and_iff_right ⟨s, e, hs, hheld, .refl⟩).symm

theorem implicit_iff : m'.Implicit index ↔ index ∈ plan.implicit := by
  rw [h.mem_implicit_iff o, implicit_congr h.merges.2 (fun e => h.revises.isHandlerVar_iff o)
    fun e v _ => h.occurs_iff o]

variable (hu : m.graph.Undeclared)

include hu

/-- Planning marks exception variables alone. -/
theorem isHandlerVar_of_marked (hv : m'.graph.Occurs e v true) : IsHandlerVar m.graph e := by
  by_contra he
  obtain ⟨hlies, hvar⟩ := h.orderly.occurs_iff.1 hv
  have hlies := (h.revises.lies_iff o.toLegible h.stats).1 hlies
  exact hu.not_occurs
    (o.occurs_iff.2 ⟨hlies, (h.revises.isVar_iff (hlies.grounded o.toLegible) he).1 hvar⟩)

theorem mem_implicit_of_marked (hv : m'.graph.Occurs e v true) : v.index ∈ plan.implicit :=
  (h.implicit_iff o).1 (.inr ⟨e, v, true,
    (h.revises.isHandlerVar_iff o).2 (h.isHandlerVar_of_marked o hu hv), hv, rfl⟩)

/-- A planned method is tidy, and only exception variables are marked. -/
theorem tidy (hone : m.graph.OneVersionEach) :
    m'.Tidy (· ∈ plan.implicit) ∧ ∀ i, i ∉ plan.implicit → ¬ m'.graph.IsMarked i := by
  refine ⟨⟨h.orderly, fun i => h.implicit_iff o, ?_, ?_, fun e v hv _ =>
    (h.revises.isHandlerVar_iff o).2 (h.isHandlerVar_of_marked o hu hv), fun s e hs he => ?_⟩, ?_⟩
  · intro e e' v v' marked marked' hv hv' heq _
    obtain ⟨_, hv⟩ := (h.occurs_iff o).1 ⟨marked, hv⟩
    obtain ⟨_, hv'⟩ := (h.occurs_iff o).1 ⟨marked', hv'⟩
    exact hone.eq hv hv' heq
  · exact fun e _ v _ hv _ _ hnot => absurd (h.mem_implicit_of_marked o hu hv) hnot
  · have hs := (h.revises.inTree_iff o.forest).1 hs
    rw [ListsDeclaration, stat, h.stats] at he
    exact absurd he (hu.not_listsDeclaration hs)
  · rintro i hi ⟨e, v, hv, rfl⟩
    exact hi (h.mem_implicit_of_marked o hu hv)

end Planned

end Method

end Decompiler

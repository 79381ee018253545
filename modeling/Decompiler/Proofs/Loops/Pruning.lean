import Decompiler.Loops.Recognition
import Decompiler.Proofs.Graph.WellFormed

/-!
# Taking the test of a loop out of its body

Once a loop has its slots, the `if` its condition came from, or a leaf that was left empty, is taken
out of the tree.

* `Graph.SameTrait`: what the changes made for this leave as it is. Loops are among it
  (`Graph.SameLoops`).
* `Graph.PruneStep`: the ways in which this is done.
* `Graph.CutOut`: one statement leaves the tree with all that lies in it, and one of its children or
  an empty leaf may take its place (`Graph.PruneStep.cutOut`).
* `Graph.Pruned`: the same where its other children are childless.
-/

namespace Decompiler

/-- A part of a statement to which neither its edges nor its children matter, and which an empty
leaf does not have. -/
structure Stat.IsTrait {β : Type} (φ : Stat → Option β) : Prop where
  /-- It depends on the kind only. -/
  congr : ∀ {s t : Stat}, t.kind = s.kind → φ t = φ s
  /-- It does not depend on children. -/
  exchange : ∀ {s : Stat} {old : StatId} {new : Option StatId}, φ (s.exchange old new) = φ s
  /-- Empty leaves do not have it. -/
  leaf : ∀ {s : Stat}, s.kind = .block [] → φ s = none

theorem Stat.isTrait_loop? : IsTrait loop? where
  congr h := by
    unfold loop?
    rw [h]
  exchange := exchange_loop?
  leaf h := by
    unfold loop?
    rw [h]

namespace Graph

open Relation

variable {g g' g'' : Graph} {K : StatId → Prop} {loop s p old : StatId} {new : Option StatId}

/-! ## Changes of edges -/

section Edges

variable {e : EdgeId} {child : StatId}

theorem sameTree_liftExit (h : g.liftExit loop e = .ok g') : SameTree g g' := by
  simp only [liftExit, Checked.bind_eq_ok] at h
  obtain ⟨st, -, h⟩ := h
  split at h
  · exact Checked.pure_eq_ok.1 h ▸ .refl g
  · obtain ⟨g₁, h₁, h⟩ := Checked.bind_eq_ok.1 h
    exact .trans (.modifyEdge h₁) (sameTree_attachEdge h)

theorem sameTree_raiseClosure (h : raiseClosure loop g e = .ok g') : SameTree g g' := by
  simp only [raiseClosure, Checked.bind_eq_ok] at h
  obtain ⟨edge, -, h⟩ := h
  split at h
  · obtain ⟨inside, -, h⟩ := Checked.bind_eq_ok.1 h
    split at h
    · exact sameTree_setClosure h
    · exact Checked.pure_eq_ok.1 h ▸ .refl g
  · exact Checked.pure_eq_ok.1 h ▸ .refl g

theorem sameTree_continueLoop (h : continueLoop loop g e = .ok g') : SameTree g g' := by
  simp only [continueLoop, Checked.bind_eq_ok] at h
  obtain ⟨g₁, h₁, g₂, h₂, h⟩ := h
  exact .trans (.modifyEdge h₁) (.trans (sameTree_changeDestination h₂) (sameTree_setClosure h))

theorem sameTree_lowerLabel (h : lowerLabel e g child = .ok g') : SameTree g g' := by
  simp only [lowerLabel, Checked.bind_eq_ok] at h
  obtain ⟨edge, -, inside, -, h⟩ := h
  split at h
  · obtain ⟨falls, -, h⟩ := Checked.bind_eq_ok.1 h
    split at h
    · exact sameTree_setClosure h
    · exact Checked.pure_eq_ok.1 h ▸ .refl g
  · exact Checked.pure_eq_ok.1 h ▸ .refl g

theorem sameTree_lowerLabels (h : g.lowerLabels s = .ok g') : SameTree g g' := by
  simp only [lowerLabels, Checked.bind_eq_ok] at h
  obtain ⟨st, -, h⟩ := h
  refine .foldlM h fun e _ g₁ g₂ h₁ => ?_
  obtain ⟨edge, -, h₁⟩ := Checked.bind_eq_ok.1 h₁
  split at h₁
  · exact .foldlM h₁ fun child _ _ _ h₂ => sameTree_lowerLabel h₂
  · exact Checked.pure_eq_ok.1 h₁ ▸ .refl g₁

theorem sameTree_lowerBreaksIn {n : ℕ} (h : lowerBreaksIn n g s = .ok g') : SameTree g g' := by
  induction n generalizing g g' s with
  | zero => cases h
  | succ n ih =>
    simp only [lowerBreaksIn, Checked.bind_eq_ok] at h
    obtain ⟨g₁, h₁, st, -, h⟩ := h
    exact .trans (sameTree_lowerLabels h₁) (.foldlM h fun c _ _ _ h₂ => ih h₂)

end Edges

/-! ## What stays as it is -/

/-- What a statement has of some part, if there is such a statement. -/
def traitAt {β : Type} (g : Graph) (φ : Stat → Option β) (s : StatId) : Option β :=
  (g.stat s).toOption.bind φ

section Traits

variable {β : Type} {φ : Stat → Option β}

theorem traitAt_of_stat {st : Stat} (h : g.stat s = .ok st) : g.traitAt φ s = φ st := by
  rw [traitAt, h]
  rfl

theorem traitAt_of_missing (h : ∀ st, g.stat s ≠ .ok st) : g.traitAt φ s = none := by
  cases hst : g.stat s with
  | error => rw [traitAt, hst]; rfl
  | ok st => exact absurd hst (h st)

theorem traitAt_eq_some {b : β} :
    g.traitAt φ s = some b ↔ Returns (g.stat s) fun st => φ st = some b := by
  cases hst : g.stat s with
  | error => simp [traitAt, hst, Except.toOption, Returns]
  | ok st => rw [traitAt_of_stat hst, Returns.ok_iff]

/-- Edges do not matter to a part. -/
theorem traitAt_eq_bareStat (hφ : Stat.IsTrait φ) :
    g.traitAt φ s = (g.bareStat s).toOption.bind φ := by
  rw [traitAt, bareStat]
  cases g.stat s with
  | error => rfl
  | ok st => exact (hφ.congr (s := st) (t := st.bare) rfl).symm

/-- The same statements have the part, and it is the same. -/
def SameTrait (φ : Stat → Option β) (g g' : Graph) : Prop := ∀ s, g'.traitAt φ s = g.traitAt φ s

namespace SameTrait

theorem refl (g : Graph) : SameTrait φ g g := fun _ => rfl

theorem trans (h : SameTrait φ g g') (h' : SameTrait φ g' g'') : SameTrait φ g g'' := fun s =>
  (h' s).trans (h s)

theorem of_sameTree (hφ : Stat.IsTrait φ) (h : SameTree g g') : SameTrait φ g g' := fun s => by
  rw [traitAt_eq_bareStat hφ, traitAt_eq_bareStat hφ, h.stats]

theorem modifyStat {f : Stat → Stat} (h : g.modifyStat s f = .ok g')
    (hf : ∀ st, φ (f st) = φ st) : SameTrait φ g g' := by
  obtain ⟨st, hst, ht, -⟩ := stat_modifyStat h
  intro t
  by_cases hs : s = t
  · subst hs
    rw [traitAt_of_stat ((ht s).trans (if_pos rfl)), traitAt_of_stat hst, hf]
  · rw [traitAt, traitAt, ht, if_neg hs]

end SameTrait

variable (hφ : Stat.IsTrait φ)

include hφ

theorem sameTrait_removeChild {child : StatId} (h : g.removeChild p child = .ok g') :
    SameTrait φ g g' := by
  simp only [removeChild, Checked.bind_eq_ok] at h
  obtain ⟨g₁, h₁, h⟩ := h
  have hdrop : ∀ st : Stat, φ (st.exchange child none) = φ st := fun _ => hφ.exchange
  exact .trans (.modifyStat h₁ hdrop) (.modifyStat h fun _ => hφ.congr rfl)

theorem sameTrait_replaceStat {b : StatId} (h : g.replaceStat p old b = .ok g') :
    SameTrait φ g g' := by
  simp only [replaceStat, Checked.bind_eq_ok] at h
  obtain ⟨ot, -, g₁, h₁, g₂, h₂, g₃, h₃, g₄, h₄, g₅, h₅, ot', -, g₆, h₆, h₇⟩ := h
  have e₂ : SameTree g g₂ := .trans (.foldlM h₁ fun e _ _ _ he => sameTree_changeDestination he)
    (sameTree_moveSuccessors h₂)
  have e₆ : SameTree g₅ g₆ := .foldlM h₆ fun e _ _ _ he => sameTree_moveLabel he
  have hreplace : ∀ st : Stat, φ (st.exchange old (some b)) = φ st := fun _ => hφ.exchange
  have k₅ : SameTrait φ g₂ g₅ := .trans (.modifyStat h₃ hreplace)
    (.trans (.modifyStat h₄ fun _ => hφ.congr rfl) (.modifyStat h₅ fun _ => hφ.congr rfl))
  exact .trans (.of_sameTree hφ e₂)
    (.trans k₅ (.trans (.of_sameTree hφ e₆) (.modifyStat h₇ fun _ => hφ.congr rfl)))

theorem sameTrait_block {b : StatId} (h : g.block [] = .ok (g', b)) : SameTrait φ g g' := by
  obtain ⟨-, hfresh, hs⟩ := stat_block h
  intro s
  by_cases hb : b = s
  · subst hb
    rw [traitAt_of_stat ((hs b).trans (if_pos rfl)), traitAt_of_missing hfresh, hφ.leaf rfl]
  · rw [traitAt, traitAt, hs, if_neg hb]

theorem sameTrait_removeStat (h : g.removeStat s = .ok g') : SameTrait φ g g' := by
  simp only [removeStat, Checked.bind_eq_ok] at h
  obtain ⟨st₀, -, g₁, h₁, st₁, -, g₂, h₂, st₂, -, h⟩ := h
  have e₂ : SameTree g g₂ := .trans (.foldlM h₁ fun e _ _ _ he => sameTree_detachEdge he)
    (.foldlM h₂ fun e _ _ _ he => sameTree_detachEdge he)
  split at h
  · exact Checked.pure_eq_ok.1 h ▸ .of_sameTree hφ e₂
  · exact .trans (.of_sameTree hφ e₂) (sameTrait_removeChild hφ h)

end Traits

/-- The slots of a statement, if there is one and it is a loop. -/
def loopAt (g : Graph) (s : StatId) : Option Loop := g.traitAt Stat.loop? s

theorem loopAt_of_stat {st : Stat} (h : g.stat s = .ok st) : g.loopAt s = st.loop? :=
  traitAt_of_stat h

theorem loopAt_eq_some {l : Loop} :
    g.loopAt s = some l ↔ Returns (g.stat s) fun st => st.loop? = some l := traitAt_eq_some

theorem loopAt_eq_bareStat : g.loopAt s = (g.bareStat s).toOption.bind Stat.loop? :=
  traitAt_eq_bareStat Stat.isTrait_loop?

/-- The same statements are loops, with the same kinds and slots. -/
abbrev SameLoops (g g' : Graph) : Prop := SameTrait Stat.loop? g g'

theorem SameLoops.of_sameTree (h : SameTree g g') : SameLoops g g' :=
  SameTrait.of_sameTree Stat.isTrait_loop? h

/-- Every loop of `g` is in `g'` with the same kind and the same slots. -/
def KeepsLoops (g g' : Graph) : Prop :=
  ∀ s st l, g.stat s = .ok st → st.loop? = some l → Returns (g'.stat s) fun st' => st'.loop? = some l

theorem SameLoops.keepsLoops (h : SameLoops g g') : KeepsLoops g g' := fun s _ _ hst hl =>
  loopAt_eq_some.1 ((h s).trans (loopAt_eq_some.2 ⟨_, hst, hl⟩))

theorem KeepsLoops.of_sameTree (h : SameTree g g') : KeepsLoops g g' :=
  (SameLoops.of_sameTree h).keepsLoops

/-! ## The ways out of the tree -/

/-- How a statement is taken out of the tree. Where `kept` names one of its children, that one takes
its place. -/
inductive PruneStep (loop old : StatId) : (kept : Option StatId) → Graph → Graph → Prop
  /-- It is not the body of the loop and is taken out. -/
  | remove {g g' : Graph} (inner : Returns (g.stat loop) fun st => st.first ≠ some old)
      (h : g.removeStat old = .ok g') : PruneStep loop old none g g'
  /-- It is the whole body of the loop and gives its place to an empty leaf. -/
  | empty {g g₁ g' : Graph} {b : StatId}
      (first : Returns (g.stat loop) fun st => st.first = some old)
      (alloc : g.block [] = .ok (g₁, b)) (replace : g₁.replaceStat loop old b = .ok g') :
      PruneStep loop old none g g'
  /-- It gives its place to one of its children. -/
  | child {g g₁ g' : Graph} {p c : StatId} {st : Stat} (stat : g.stat old = .ok st)
      (parent : st.parent = some p) (detach : g.removeChild old c = .ok g₁)
      (replace : g₁.replaceStat p old c = .ok g') : PruneStep loop old (some c) g g'
  /-- It is in no tree. -/
  | orphan {g : Graph} {st : Stat} {kept : Option StatId} (stat : g.stat old = .ok st)
      (parent : st.parent = none) : PruneStep loop old kept g g

/-- What led to an empty statement at the end of the body continues the loop, unless the statement
is the whole body. -/
theorem dropEmptyTail_eq_ok (h : g.dropEmptyTail loop old = .ok g') :
    ∃ (l : List EdgeId) (g₁ : Graph), (∀ st, g.stat old = .ok st → ∀ e ∈ l, e ∈ st.predecessors) ∧
      l.foldlM (continueLoop loop) g = .ok g₁ ∧ PruneStep loop old none g₁ g' := by
  simp only [dropEmptyTail, Checked.bind_eq_ok] at h
  obtain ⟨st, hst, h⟩ := h
  split at h
  · next hfirst =>
    obtain ⟨⟨g₁, b⟩, h₁, h⟩ := Checked.bind_eq_ok.1 h
    exact ⟨[], g, fun _ _ => List.forall_mem_nil _, rfl, .empty ⟨st, hst, hfirst⟩ h₁ h⟩
  · next hfirst =>
    simp only [Checked.bind_eq_ok] at h
    obtain ⟨et, het, g₁, h₁, h⟩ := h
    have e₁ : SameTree g g₁ := .foldlM h₁ fun e _ _ _ he => sameTree_continueLoop he
    obtain ⟨st₁, hst₁, -, -, hfirst₁, -⟩ := e₁.stat hst
    refine ⟨et.predecessors, g₁, fun et' het' e he => ?_, h₁,
      .remove ⟨st₁, hst₁, fun h₁ => hfirst (hfirst₁.symm.trans h₁)⟩ h⟩
    rw [het] at het'
    cases het'
    exact he

theorem pruneStep_dropEmptyTail (h : g.dropEmptyTail loop old = .ok g') :
    ∃ g₁, SameTree g g₁ ∧ PruneStep loop old none g₁ g' := by
  obtain ⟨l, g₁, -, h₁, hstep⟩ := dropEmptyTail_eq_ok h
  exact ⟨g₁, .foldlM h₁ fun e _ _ _ he => sameTree_continueLoop he, hstep⟩

/-- A leaf is dropped only where it is empty. Its first edge is detached then. -/
theorem dropEmptyLeaf_eq_ok (h : g.dropEmptyLeaf loop old = .ok g') : g' = g ∨
    ∃ st g₁, g.stat old = .ok st ∧ st.isEmptyLeaf = true ∧
      st.successors.head?.toList.foldlM detachEdge g = .ok g₁ ∧
      g₁.dropEmptyTail loop old = .ok g' := by
  simp only [dropEmptyLeaf, Checked.bind_eq_ok] at h
  obtain ⟨st, hst, h⟩ := h
  split at h
  · next hempty =>
    refine .inr ⟨st, ?_⟩
    split at h
    · next e rest hsucc =>
      obtain ⟨g₁, h₁, h⟩ := Checked.bind_eq_ok.1 h
      exact ⟨g₁, hst, hempty, by simpa [hsucc] using h₁, h⟩
    · next hsucc => exact ⟨g, hst, hempty, by rw [hsucc]; rfl, h⟩
  · exact .inl (Checked.pure_eq_ok.1 h).symm

theorem pruneStep_dropEmptyLeaf (h : g.dropEmptyLeaf loop old = .ok g') : g' = g ∨
    ∃ g₁, Returns (g.stat old) (fun st => st.isEmptyLeaf = true) ∧ SameTree g g₁ ∧
      PruneStep loop old none g₁ g' := by
  rcases dropEmptyLeaf_eq_ok h with rfl | ⟨st, g₁, hst, hempty, h₁, h⟩
  · exact .inl rfl
  · obtain ⟨g₂, e₂, hstep⟩ := pruneStep_dropEmptyTail h
    have e₁ : SameTree g g₁ := .foldlM h₁ fun e _ _ _ he => sameTree_detachEdge he
    exact .inr ⟨g₂, ⟨st, hst, hempty⟩, e₁.trans e₂, hstep⟩

theorem PruneStep.sameTrait {β : Type} {φ : Stat → Option β} {kept : Option StatId}
    (hφ : Stat.IsTrait φ) (h : PruneStep loop old kept g g') : SameTrait φ g g' := by
  cases h with
  | remove _ h => exact sameTrait_removeStat hφ h
  | empty _ alloc replace =>
    exact (sameTrait_block hφ alloc).trans (sameTrait_replaceStat hφ replace)
  | child _ _ detach replace =>
    exact (sameTrait_removeChild hφ detach).trans (sameTrait_replaceStat hφ replace)
  | orphan => exact .refl g

theorem PruneStep.sameLoops {kept : Option StatId} (h : PruneStep loop old kept g g') :
    SameLoops g g' := h.sameTrait Stat.isTrait_loop?

theorem PruneStep.keepsLoops {kept : Option StatId} (h : PruneStep loop old kept g g') :
    KeepsLoops g g' := h.sameLoops.keepsLoops

/-! ## What is left of the tree -/

/-- The child `old` of `p` has left the tree with all that lies in it but what lies in its child
`kept`. Its place went to `kept`, to an empty leaf `fresh`, or to nothing. -/
structure CutOut (g g' : Graph) (K : StatId → Prop) (p old : StatId) (kept fresh : Option StatId) :
    Prop where
  /-- The place was one in the tree. -/
  parent : g.InTree p
  /-- It was that of `old`. -/
  child : g.ChildOf p old
  /-- What is kept was below it. -/
  below : ∀ c, kept = some c → g.ChildOf old c
  /-- Expressions are left alone. -/
  exprs : g'.exprs = g.exprs
  /-- Lists of children and parents match. -/
  forest : Forest g' fun s => K s ∨ fresh = some s
  /-- What is in the tree now. -/
  inTree : ∀ s, g'.InTree s ↔
    (g.InTree s ∧ ¬ g.Within old s) ∨ (∃ c, kept = some c ∧ g.Within c s) ∨ fresh = some s
  /-- What was taken out has no parent. -/
  at_old : Returns (g'.stat old) fun st => st.parent = none
  /-- The parent has another child in the place, or a child less. -/
  at_parent : ∀ st, g.stat p = .ok st → Returns (g'.stat p) fun st' =>
    st'.bare = (st.exchange old (kept.or fresh)).bare
  /-- What else there was is as it was. -/
  elsewhere : ∀ s st, s ≠ p → s ≠ old → g.stat s = .ok st → Returns (g'.stat s) fun st' =>
    st'.kind = st.kind ∧ st'.first = st.first ∧ st'.children = st.children ∧
      st'.declarations = st.declarations
  /-- What came in is an empty leaf. -/
  leaf : ∀ b, fresh = some b → (∀ st, g.stat b ≠ .ok st) ∧ Returns (g'.stat b) fun st =>
    st.kind = .block [] ∧ st.first = none ∧ st.children = [] ∧ st.declarations = []

/-- A place is given to a statement from below, or to none. -/
theorem cutOut_of_edit (h : Edit g g' p old new) (hF : Forest g K) (hp : g.InTree p)
    (hold : g.ChildOf p old) (hnew : ∀ c, new = some c → g.ChildOf old c) :
    CutOut g g' K p old new none := by
  have hA : Edit.Admissible g K p old new := ⟨hp, hold, fun b hb => .inl (hnew b hb)⟩
  obtain ⟨ot, hot⟩ := hF.exists_stat (hp.child hold)
  refine ⟨hp, hold, hnew, h.exprs, ?_, fun s => ?_, (h.at_old ot hot).mono fun _ h => h.1,
    fun st hst => ?_, fun s st hsp hso hst => h.same_elsewhere hsp hso hst, nofun⟩
  · simpa using h.forest hA hF
  · simpa using h.inTree_iff hA hF
  · rw [Option.or_none]
    exact h.stat_parent hst

/-- The body of a loop gives its place to a new leaf. -/
theorem cutOut_of_block {g₁ : Graph} {b : StatId} (alloc : g.block [] = .ok (g₁, b))
    (replace : g₁.replaceStat loop old b = .ok g') (hF : Forest g K) (hloop : g.InTree loop)
    (hchild : g.ChildOf loop old) : CutOut g g' K loop old none (some b) := by
  obtain ⟨he, hfresh, hstat⟩ := stat_block alloc
  have hKb : ¬ K b := fun h => (hF.stat b h).elim hfresh
  have hne : ∀ s, K s → s ≠ b := fun s hs heq => hKb (heq ▸ hs)
  have hbt : g₁.stat b = .ok (Stat.ofKind (.block []) []) := (hstat b).trans (if_pos rfl)
  have hsame : ∀ s st, g.stat s = .ok st → g₁.stat s = .ok st := by
    intro s st hst
    rw [hstat, if_neg, hst]
    rintro rfl
    exact hfresh st hst
  have hlinks : ∀ s, K s → g₁.links s = g.links s := fun s hs => by
    obtain ⟨st, hst⟩ := hF.stat s hs
    rw [links_of_stat hst, links_of_stat (hsame s st hst)]
  have hTree : ∀ s, g₁.InTree s ↔ g.InTree s := fun s => hF.inTree_congr hlinks
  have hChild : ∀ s c, K s → (g₁.ChildOf s c ↔ g.ChildOf s c) := fun s c hs =>
    ⟨childOf_of_links (hlinks s hs).symm, childOf_of_links (hlinks s hs)⟩
  have hF₁ : Forest g₁ fun s => K s ∨ some b = some s := (hF.congr hlinks).insert hbt rfl rfl
  have hKloop := hF.mem hloop
  have hKold := hF.mem (hloop.child hchild)
  have hE : Edit g₁ g' loop old (some b) := by
    refine edit_replaceStat replace (hF.ne_of_childOf hloop hchild).symm (hne loop hKloop)
      (hne old hKold) fun hc => ?_
    exact hKb (hF.down old b hKold ((hChild old b hKold).1 hc)).1
  have hA : Edit.Admissible g₁ (fun s => K s ∨ some b = some s) loop old (some b) := by
    refine ⟨(hTree loop).2 hloop, (hChild loop old hKloop).2 hchild, fun c hc => .inr ?_⟩
    obtain rfl := Option.some.inj hc
    exact ⟨.inr rfl, (hne root hF.root).symm, _, hbt, rfl⟩
  have hWithin : ∀ s, g₁.Within old s ↔ g.Within old s := fun s =>
    hF.within_congr hlinks hKold
  obtain ⟨ot, hot⟩ := hF.exists_stat (hloop.child hchild)
  refine ⟨hloop, hchild, nofun, hE.exprs.trans he, hE.forest hA hF₁, fun s => ?_,
    (hE.at_old ot (hsame _ _ hot)).mono fun _ h => h.1, fun st hst => hE.stat_parent (hsame _ _ hst),
    fun s st hsp hso hst => hE.same_elsewhere hsp hso (hsame _ _ hst), fun c hc => ?_⟩
  · rw [hE.inTree_iff hA hF₁, hTree, hWithin]
    have hleaf : (∃ c, some b = some c ∧ g₁.Within c s) ↔ some b = some s := by
      simp [within_childless hbt rfl, eq_comm]
    rw [hleaf]
    simp
  · obtain rfl := Option.some.inj hc
    obtain ⟨bt, hbt', heq⟩ := hE.stat_new rfl hbt
    obtain ⟨hkind, -, hrest⟩ := Stat.bare_eq_iff.1 heq
    exact ⟨hfresh, bt, hbt', hkind, hrest⟩

/-- A statement of the tree is taken out. If nothing takes its place, it is not the body of the loop.
-/
theorem PruneStep.cutOut {kept : Option StatId} (h : PruneStep loop old kept g g')
    (hF : Forest g K) (hloop : g.InTree loop) (henters : g.EntersChildren loop)
    (hold : g.InTree old) (hroot : old ≠ root) (hkept : ∀ c, kept = some c → g.ChildOf old c) :
    ∃ p fresh, CutOut g g' K p old kept fresh ∧
      (kept.or fresh = none → Returns (g.stat loop) fun st => st.first ≠ some old) := by
  obtain ⟨ot, hot⟩ := hF.exists_stat hold
  obtain ⟨p, hp, hpTree, hpc⟩ := hF.exists_parent hold hroot hot
  have hpo : p ≠ old := (hF.ne_of_childOf hpTree hpc).symm
  cases h with
  | remove inner h =>
    exact ⟨p, none, cutOut_of_edit (edit_removeStat h hot hp hpo) hF hpTree hpc nofun,
      fun _ => inner⟩
  | @child _ g₁ _ p' c st stat parent detach replace =>
    rw [hot] at stat
    cases stat
    rw [hp] at parent
    cases parent
    have hc := hkept c rfl
    have hE := edit_replaceByChild detach replace hpo
      (fun hpc' => hF.acyclic hpTree (.head hpc (.single (hpc' ▸ hc))))
      (hF.ne_of_childOf hold hc).symm
    exact ⟨p, none, cutOut_of_edit hE hF hpTree hpc hkept, nofun⟩
  | @empty _ g₁ _ b first alloc replace =>
    exact ⟨loop, some b,
      cutOut_of_block alloc replace hF hloop (henters loop old .refl first), nofun⟩
  | orphan stat parent =>
    rw [hot] at stat
    cases stat
    rw [hp] at parent
    cases parent

/-- What a statement that stays keeps. -/
def KeepsStat (st st' : Stat) : Prop :=
  st'.kind.exprs = st.kind.exprs ∧ st'.kind.named = st.kind.named ∧
    st'.declarations = st.declarations ∧ (st.Fits → st'.Fits)

/-- The statement `old` has left the tree with all of its children but `kept`. An empty leaf `fresh`
may have come in. -/
structure Pruned (g g' : Graph) (K : StatId → Prop) (old : StatId) (kept fresh : Option StatId) :
    Prop where
  /-- Expressions are left alone. -/
  exprs : g'.exprs = g.exprs
  /-- Lists of children and parents match. -/
  forest : Forest g' fun s => K s ∨ fresh = some s
  /-- What is in the tree now. -/
  inTree : ∀ s, g'.InTree s ↔
    (g.InTree s ∧ s ≠ old ∧ (g.ChildOf old s → kept = some s)) ∨ fresh = some s
  /-- What stays is as it was. -/
  stat : ∀ s st, s ≠ old → g.stat s = .ok st → Returns (g'.stat s) (KeepsStat st)
  /-- What came in is an empty leaf. -/
  leaf : ∀ b, fresh = some b → ¬ K b ∧ Returns (g'.stat b) fun st =>
    st.kind = .block [] ∧ st.declarations = [] ∧ st.Fits

namespace CutOut

variable {kept fresh : Option StatId} (h : CutOut g g' K p old kept fresh)

include h

theorem inTree_old : g.InTree old := h.parent.child h.child

/-- What is in the tree now was there before, unless it came in. -/
theorem inTree_before (hF : Forest g K) (hs : g'.InTree s) :
    (g.InTree s ∧ s ≠ old) ∨ fresh = some s := by
  rcases (h.inTree s).1 hs with ⟨hs, hold⟩ | ⟨c, hkept, hcs⟩ | hfresh
  · exact .inl ⟨hs, fun heq => hold (heq ▸ .refl)⟩
  · obtain ⟨hs, hso, -⟩ := hF.ne_of_below h.inTree_old (.head' (h.below c hkept) hcs)
    exact .inl ⟨hs, hso⟩
  · exact .inr hfresh

/-- The parent did not list what takes the place. -/
theorem not_childOf_new (hF : Forest g K) (hs : kept.or fresh = some s) : ¬ g.ChildOf p s := by
  intro hps
  have hKp := hF.mem h.parent
  rcases Option.or_eq_some_iff.1 hs with hkept | ⟨-, hfresh⟩
  · have hpo := hF.parent_unique hKp (hF.mem h.inTree_old) hps (h.below s hkept)
    exact hF.ne_of_childOf h.parent h.child hpo.symm
  · exact (hF.stat s (hF.down p s hKp hps).1).elim (h.leaf s hfresh).1

theorem keepsStat (hs : s ≠ old) {st : Stat} (hst : g.stat s = .ok st) :
    Returns (g'.stat s) (KeepsStat st) := by
  by_cases hsp : s = p
  · subst hsp
    obtain ⟨st', hst', heq⟩ := h.at_parent st hst
    obtain ⟨hkind, -, -, hchildren, hdecl⟩ := Stat.bare_eq_iff.1 heq
    exact ⟨st', hst', by rw [hkind, Stat.exchange_exprs], by rw [hkind, Stat.exchange_named],
      by rw [hdecl, Stat.exchange_declarations], fun hfits => hfits.exchange.of_bare_eq heq⟩
  · obtain ⟨st', hst', hkind, hfirst, hchildren, hdecl⟩ := h.elsewhere s st hsp hs hst
    exact ⟨st', hst', by rw [hkind], by rw [hkind], hdecl, .congr hkind hfirst hchildren⟩

/-- Where nothing lies below what is lost, it is the statement itself and its other children. -/
theorem pruned (hF : Forest g K)
    (hrest : ∀ c ct, g.ChildOf old c → kept ≠ some c → g.stat c = .ok ct → ct.children = []) :
    Pruned g g' K old kept fresh := by
  refine ⟨h.exprs, h.forest, fun s => ?_, fun s st hs hst => h.keepsStat hs hst, fun b hb => ?_⟩
  · rw [h.inTree, ← or_assoc]
    refine or_congr_left ⟨?_, ?_⟩
    · rintro (⟨hs, hold⟩ | ⟨c, hkept, hcs⟩)
      · exact ⟨hs, fun heq => hold (heq ▸ .refl), fun hc => absurd (.single hc) hold⟩
      · have hc := h.below c hkept
        obtain ⟨hs, hso, -⟩ := hF.ne_of_below h.inTree_old (.head' hc hcs)
        exact ⟨hs, hso, fun hos => hF.eq_of_within h.inTree_old hc hos hcs .refl ▸ hkept⟩
    · rintro ⟨hs, hso, hchild⟩
      by_cases hw : g.Within old s
      · obtain rfl | ⟨c, hc, hcs⟩ := ReflTransGen.cases_head hw
        · exact absurd rfl hso
        · by_cases hkept : kept = some c
          · exact .inr ⟨c, hkept, hcs⟩
          · obtain ⟨ct, hct⟩ := hF.exists_stat (h.inTree_old.child hc)
            obtain rfl := (within_childless hct (hrest c ct hc hkept hct)).1 hcs
            exact absurd (hchild hc) hkept
      · exact .inl ⟨hs, hw⟩
  · obtain ⟨hmissing, bt, hbt, hkind, hfirst, hchildren, hdecl⟩ := h.leaf b hb
    exact ⟨fun hK => (hF.stat b hK).elim hmissing, bt, hbt, hkind, hdecl,
      .of_leaf hkind hfirst hchildren⟩

end CutOut

/-- A statement of the tree is taken out. All of its children but the one that is kept have no
children of their own. -/
theorem PruneStep.pruned {kept : Option StatId} (h : PruneStep loop old kept g g')
    (hF : Forest g K) (hloop : g.InTree loop) (henters : g.EntersChildren loop)
    (hold : g.InTree old) (hroot : old ≠ root) (hkept : ∀ c, kept = some c → g.ChildOf old c)
    (hrest : ∀ c ct, g.ChildOf old c → kept ≠ some c → g.stat c = .ok ct → ct.children = []) :
    ∃ fresh, Pruned g g' K old kept fresh := by
  obtain ⟨p, fresh, hcut, -⟩ := h.cutOut hF hloop henters hold hroot hkept
  exact ⟨fresh, hcut.pruned hF hrest⟩

end Graph

end Decompiler

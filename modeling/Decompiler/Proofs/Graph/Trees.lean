import Decompiler.Proofs.Graph.Surgery

/-!
# Consistent trees

When the statements of a graph form a tree, and which operations keep it one.

* `Graph.IsTree`: what lies in a statement is a tree of its own. This can be decided.
* `Graph.TreeConsistent`: what lies in the root is one.
* `Graph.Coherent`: the same as a relation, on a set of statements that may hold other trees
  besides; this is the form that changes are followed in.
* `Graph.treeConsistent_replaceStat`, `Graph.treeConsistent_removeChild`,
  `Graph.treeConsistent_removeStat`: one statement is replaced or taken out.
-/

namespace Decompiler

open Relation

/-! ## Roles -/

/-- The branches of an `if`. -/
def StatKind.branches : StatKind → List StatId
  | .branch b => b.thenStat.toList ++ b.elseStat.toList
  | _ => []

namespace Stat

variable {s t : Stat} {old c : StatId} {new : Option StatId}

/-- The roles of the children of a statement agree with the list of children: control enters through
the first of them, and the branches are among them. -/
structure HoldsRoles (s : Stat) : Prop where
  /-- Control enters through the first child. -/
  first : s.first = s.children.head?
  /-- Branches are children. -/
  branches : ∀ c ∈ s.kind.branches, c ∈ s.children

instance (s : Stat) : Decidable s.HoldsRoles :=
  decidable_of_iff (s.first = s.children.head? ∧ ∀ c ∈ s.kind.branches, s.children.contains c)
    ⟨fun h => ⟨h.1, fun c hc => List.contains_iff_mem.1 (h.2 c hc)⟩,
      fun h => ⟨h.first, fun c hc => List.contains_iff_mem.2 (h.branches c hc)⟩⟩

/-- Whatever takes the place of a child takes over that control enters through it, and if nothing
does the next child takes it over. -/
theorem exchange_first (h : s.first = s.children.head?) :
    (s.exchange old new).first = (s.exchange old new).children.head? := by
  obtain ⟨kind, parent, first, children, declarations, successors, predecessors, labels⟩ := s
  obtain rfl : first = children.head? := h
  cases new with
  | some new => cases children <;> rfl
  | none =>
    cases children with
    | nil => rfl
    | cons c rest =>
      by_cases hc : c = old <;> simp [exchange, dropChild, hc]

theorem mem_exchange_branches :
    c ∈ (s.exchange old new).kind.branches ↔
      (c ∈ s.kind.branches ∧ c ≠ old) ∨ (old ∈ s.kind.branches ∧ new = some c) := by
  obtain ⟨kind, parent, first, children, declarations, successors, predecessors, labels⟩ := s
  cases kind with
  | branch b =>
    obtain ⟨head, thenStat, elseStat, form⟩ := b
    cases new <;> cases thenStat <;> cases elseStat <;>
      simp [exchange, replaceChild, dropChild, StatKind.branches, Option.filter] <;> grind
  | _ => cases new <;> simp [exchange, replaceChild, dropChild, StatKind.branches]

theorem HoldsRoles.exchange (h : s.HoldsRoles) : (s.exchange old new).HoldsRoles := by
  refine ⟨exchange_first h.first, fun c hc => ?_⟩
  rw [mem_exchange_children]
  exact (mem_exchange_branches.1 hc).imp (And.imp_left (h.branches c))
    (And.imp_left (h.branches old))

theorem HoldsRoles.congr (h : s.HoldsRoles) (hkind : t.kind = s.kind) (hfirst : t.first = s.first)
    (hchildren : t.children = s.children) : t.HoldsRoles :=
  ⟨by rw [hfirst, hchildren, h.first], by rw [hkind, hchildren]; exact h.branches⟩

theorem HoldsRoles.first_mem (h : s.HoldsRoles) (hc : s.first = some c) : c ∈ s.children :=
  List.mem_of_head? (h.first.symm.trans hc)

end Stat

namespace Graph

variable {g g' : Graph} {K : StatId → Prop} {p old s c : StatId} {new : Option StatId}

/-! ## Trees of statements -/

/-- What lies in `top` is a tree: following lists of children reaches each statement once, every
child names the statement that lists it as its parent, control enters a statement through the first
of its children, and the branches of an `if` are among its children. The top has no parent. -/
def IsTree (g : Graph) (top : StatId) : Prop :=
  Returns (g.preorderIn g.statLevels top) fun l => l.Nodup ∧
    Returns (g.stat top) (fun st => st.parent = none) ∧
    ∀ s ∈ l, Returns (g.stat s) fun st => st.HoldsRoles ∧
      ∀ c ∈ st.children, Returns (g.stat c) fun ct => ct.parent = some s

instance (g : Graph) (top : StatId) : Decidable (g.IsTree top) :=
  inferInstanceAs (Decidable (Returns (g.preorderIn g.statLevels top) _))

/-- The statements below the root are a tree. -/
def TreeConsistent (g : Graph) : Prop := g.IsTree root

instance (g : Graph) : Decidable g.TreeConsistent := inferInstanceAs (Decidable (g.IsTree root))

/-- Where a listing repeats nothing, no list of children does. -/
theorem nodup_children_of_preorderIn {n : ℕ} {l : List StatId} (h : g.preorderIn n s = .ok l)
    (hl : l.Nodup) {x : StatId} (hx : g.Within s x) {xt : Stat} (hxt : g.stat x = .ok xt) :
    xt.children.Nodup := by
  induction n generalizing s l with
  | zero => cases h
  | succ n ih =>
    obtain ⟨st, ls, hst, hls, rfl⟩ := preorderIn_succ.1 h
    have hflat : ls.flatten.Nodup := (List.nodup_cons.1 hl).2
    rcases ReflTransGen.cases_head hx with rfl | ⟨c, hc, hx⟩
    · rw [hst] at hxt
      cases hxt
      -- every child stands in its own listing, so a repeated one would stand in two of them
      exact nodup_of_nodup_flatten hls hflat (fun c lc hc => mem_preorderIn hc) fun c => ⟨c, .refl⟩
    · obtain ⟨lc, hmem, hlc⟩ := Checked.exists_of_mem hls ((childOf_iff hst).1 hc)
      exact ih hlc (hflat.sublist (List.sublist_flatten_of_mem hmem)) hx

namespace IsTree

variable {top : StatId} (h : g.IsTree top)

include h

theorem stat (hs : g.Within top s) : Returns (g.stat s) fun st => st.HoldsRoles ∧
    ∀ c ∈ st.children, Returns (g.stat c) fun ct => ct.parent = some s := by
  obtain ⟨l, hl, -, -, hstat⟩ := h
  exact hstat s ((mem_preorderIn hl s).2 hs)

theorem parent_top : Returns (g.stat top) fun st => st.parent = none := by
  obtain ⟨l, -, -, htop, -⟩ := h
  exact htop

theorem nodup_children (hs : g.Within top s) {st : Stat} (hst : g.stat s = .ok st) :
    st.children.Nodup := by
  obtain ⟨l, hl, hnodup, -⟩ := h
  exact nodup_children_of_preorderIn hl hnodup hs hst

theorem holdsRoles (hs : g.Within top s) {st : Stat} (hst : g.stat s = .ok st) :
    st.HoldsRoles := by
  obtain ⟨st', hst', hroles, -⟩ := h.stat hs
  rw [hst] at hst'
  cases hst'
  exact hroles

theorem parent_eq (hs : g.Within top s) (hc : g.ChildOf s c) :
    Returns (g.stat c) fun ct => ct.parent = some s := by
  obtain ⟨st, hst, -, hparent⟩ := h.stat hs
  exact hparent c ((childOf_iff hst).1 hc)

/-- Inside the tree a parent lists the statements that name it. -/
theorem childOf_parent (hs : g.Within top s) {st : Stat} (hst : g.stat s = .ok st)
    (hp : st.parent = some p) : g.Within top p ∧ g.ChildOf p s := by
  rcases ReflTransGen.cases_tail hs with rfl | ⟨q, hq, hqs⟩
  · obtain ⟨tt, htt, hnone⟩ := h.parent_top
    rw [hst] at htt
    cases htt
    rw [hp] at hnone
    cases hnone
  · obtain ⟨st', hst', hq'⟩ := h.parent_eq hq hqs
    rw [hst] at hst'
    cases hst'
    rw [hp] at hq'
    cases hq'
    exact ⟨hq, hqs⟩

end IsTree

/-- Lists of children and parents match on all that lies in the trees of a set that holds the root.
-/
theorem forest_of_trees {T : StatId → Prop} (hroot : T root) (hT : ∀ t, T t → g.IsTree t) :
    Forest g fun s => ∃ t, T t ∧ g.Within t s where
  root := ⟨root, hroot, .refl⟩
  root_parent := (hT root hroot).parent_top
  stat := by
    rintro s ⟨t, ht, hs⟩
    obtain ⟨st, hst, -⟩ := (hT t ht).stat hs
    exact ⟨st, hst⟩
  nodup := by
    rintro s st ⟨t, ht, hs⟩ hst
    exact (hT t ht).nodup_children hs hst
  down := by
    rintro s c ⟨t, ht, hs⟩ hc
    exact ⟨⟨t, ht, hs.tail hc⟩, (hT t ht).parent_eq hs hc⟩
  up := by
    rintro s st p ⟨t, ht, hs⟩ hst hp
    obtain ⟨hwithin, hps⟩ := (hT t ht).childOf_parent hs hst hp
    exact ⟨⟨t, ht, hwithin⟩, hps⟩

/-! ## The tree among other trees -/

/-- Control enters every statement in `s` through one of its children. -/
def EntersChildren (g : Graph) (s : StatId) : Prop :=
  ∀ t c, g.Within s t → Returns (g.stat t) (fun st => st.first = some c) → g.ChildOf t c

theorem childOf_getLast? (h : Returns (g.stat s) fun st => st.children.getLast? = some c) :
    g.ChildOf s c :=
  h.mono fun _ hc => List.mem_of_getLast? hc

theorem EntersChildren.congr (h : g.EntersChildren s) (hlinks : SameLinks g g') :
    g'.EntersChildren s := by
  rintro t c ht ⟨tt', htt', hc⟩
  obtain ⟨tt, htt, -, hfirst, -⟩ := links_eq_ok ((hlinks t).symm.trans (links_of_stat htt'))
  rw [hlinks.within_eq] at ht
  rw [hlinks.childOf_eq]
  exact h t c ht ⟨tt, htt, hfirst.trans hc⟩

theorem entersChildren_of_holdsRoles
    (h : ∀ s st, g.InTree s → g.stat s = .ok st → st.HoldsRoles) (hs : g.InTree s) :
    g.EntersChildren s := fun t _ ht ⟨tt, htt, hc⟩ =>
  ⟨tt, htt, (h t tt (hs.within ht) htt).first_mem hc⟩

/-- Lists of children and parents match on the set `K`, and in the tree so do the roles of the
children. -/
structure Coherent (g : Graph) (K : StatId → Prop) : Prop where
  /-- Lists of children and parents match. -/
  forest : Forest g K
  /-- The roles of the children agree with the lists of children. -/
  roles : ∀ s st, g.InTree s → g.stat s = .ok st → st.HoldsRoles

theorem Coherent.entersChildren (h : Coherent g K) (hs : g.InTree s) : g.EntersChildren s :=
  entersChildren_of_holdsRoles h.roles hs

theorem TreeConsistent.forest (h : g.TreeConsistent) : Forest g g.InTree := by
  have hF : Forest g fun s => ∃ t, t = root ∧ g.Within t s :=
    forest_of_trees rfl fun t ht => ht ▸ h
  have hK : (fun s => ∃ t, t = root ∧ g.Within t s) = g.InTree := by
    funext s
    simp [InTree]
  exact hK ▸ hF

theorem TreeConsistent.coherent (h : g.TreeConsistent) : Coherent g g.InTree :=
  ⟨h.forest, fun _ _ hs hst => IsTree.holdsRoles h hs hst⟩

theorem Coherent.of_sameTree (h : Coherent g K) (hg : SameTree g g') : Coherent g' K := by
  refine ⟨hg.sameLinks.forest h.forest, fun s st' hs hst' => ?_⟩
  obtain ⟨st, hst, heq⟩ := bareStat_eq_ok.1 ((hg.stats s).symm.trans (bareStat_of_stat hst'))
  obtain ⟨hkind, -, hfirst, hchildren, -⟩ := Stat.bare_eq_iff.1 heq
  exact (h.roles s st (hg.sameLinks.inTree_iff.1 hs) hst).congr hkind.symm hfirst.symm
    hchildren.symm

theorem Coherent.treeConsistent (h : Coherent g K) : g.TreeConsistent := by
  obtain ⟨l, hl, hnodup, hmem⟩ := h.forest.statements
  refine ⟨l, hl, hnodup, h.forest.root_parent, fun s hs => ?_⟩
  have hs := (hmem s).1 hs
  obtain ⟨st, hst⟩ := h.forest.exists_stat hs
  exact ⟨st, hst, h.roles s st hs hst, fun c hc =>
    (h.forest.down s c (h.forest.mem hs) ⟨st, hst, hc⟩).2⟩

/-- The roles of the children still agree with the lists of children, but for the statement that is
taken out. -/
theorem Edit.holdsRoles (h : Edit g g' p old new) (hs : s ≠ old) {st st' : Stat}
    (hst : g.stat s = .ok st) (hroles : st.HoldsRoles) (hst' : g'.stat s = .ok st') :
    st'.HoldsRoles := by
  by_cases hsp : s = p
  · subst hsp
    obtain ⟨st₁, hst₁, heq⟩ := h.stat_parent hst
    rw [hst'] at hst₁
    cases hst₁
    obtain ⟨hkind, -, hfirst, hchildren, -⟩ := Stat.bare_eq_iff.1 heq
    exact hroles.exchange.congr hkind hfirst hchildren
  · obtain ⟨st₁, hst₁, hkind, hfirst, hchildren, -⟩ := h.same_elsewhere hsp hs hst
    rw [hst'] at hst₁
    cases hst₁
    exact hroles.congr hkind hfirst hchildren

/-! ## Operations -/

/-- A child of a statement of the tree gives its place to another tree. -/
theorem treeConsistent_replaceStat {b : StatId} (h : g.TreeConsistent) (hp : g.InTree p)
    (hold : g.ChildOf p old) (hb : g.IsTree b) (hapart : ∀ s, g.Within b s → ¬ g.InTree s)
    (hg : g.replaceStat p old b = .ok g') : g'.TreeConsistent := by
  have hF : Forest g fun s => ∃ t, (t = root ∨ t = b) ∧ g.Within t s :=
    forest_of_trees (.inl rfl) fun t ht => ht.elim (fun ht => ht ▸ h) fun ht => ht ▸ hb
  have hout : ¬ g.InTree b := hapart b .refl
  have hpb : p ≠ b := fun heq => hout (heq ▸ hp)
  have hob : old ≠ b := fun heq => hout (heq ▸ hp.child hold)
  have hE : Edit g g' p old (some b) :=
    edit_replaceStat hg (hF.ne_of_childOf hp hold).symm hpb hob fun hc =>
      hout ((hp.child hold).child hc)
  have hA : Edit.Admissible g (fun s => ∃ t, (t = root ∨ t = b) ∧ g.Within t s) p old (some b) := by
    refine ⟨hp, hold, fun c hc => .inr ?_⟩
    obtain rfl := Option.some.inj hc
    refine ⟨⟨_, .inr rfl, .refl⟩, ?_, hb.parent_top⟩
    rintro rfl
    exact hout .refl
  refine Coherent.treeConsistent ⟨hE.forest hA hF, fun s st' hs hst' => ?_⟩
  rcases (hE.inTree_iff hA hF).1 hs with ⟨hs, hso⟩ | ⟨c, hc, hs⟩
  · obtain ⟨st, hst, hroles, -⟩ := IsTree.stat h hs
    exact hE.holdsRoles (fun heq => hso (heq ▸ .refl)) hst hroles hst'
  · obtain rfl := Option.some.inj hc
    obtain ⟨st, hst, hroles, -⟩ := hb.stat hs
    refine hE.holdsRoles ?_ hst hroles hst'
    rintro rfl
    exact hapart _ hs (hp.child hold)

/-- A child is dropped. If it is in the tree, it is dropped from the statement of the tree that
lists it. -/
theorem treeConsistent_removeChild (h : g.TreeConsistent)
    (hc : g.InTree c → g.InTree p ∧ g.ChildOf p c) (hg : g.removeChild p c = .ok g') :
    g'.TreeConsistent := by
  have hF := h.forest
  by_cases hcTree : g.InTree c
  · obtain ⟨hp, hpc⟩ := hc hcTree
    have hE := edit_removeChild hg (hF.ne_of_childOf hp hpc).symm
    have hA : Edit.Admissible g g.InTree p c none := ⟨hp, hpc, nofun⟩
    refine Coherent.treeConsistent ⟨hE.forest hA hF, fun s st' hs hst' => ?_⟩
    obtain ⟨hs, hsc⟩ | ⟨b, hb, -⟩ := (hE.inTree_iff hA hF).1 hs
    · obtain ⟨st, hst, hroles, -⟩ := IsTree.stat h hs
      exact hE.holdsRoles (fun heq => hsc (heq ▸ .refl)) hst hroles hst'
    · cases hb
  · -- the statements of the tree keep their children, and the parent may lose a role at most
    have hstat : ∀ s st, g.InTree s → g.stat s = .ok st → Returns (g'.stat s) fun st' =>
        st'.parent = st.parent ∧ st'.first = st.first ∧ st'.children = st.children ∧
          st'.HoldsRoles := by
      intro s st hs hst
      have hroles := IsTree.holdsRoles h hs hst
      have hread := bareStat_removeChild_of_ne hg (s := s) fun heq => hcTree (heq ▸ hs)
      split at hread
      · obtain ⟨st', hst', heq⟩ := stat_of_bareStat_map hread (fun _ => rfl) hst
        obtain ⟨hkind, hparent, hfirst, hchildren, -⟩ := Stat.bare_eq_iff.1 heq
        have hdrop : (st.exchange c none).HoldsRoles := hroles.exchange
        have hsame : (st.exchange c none).children = st.children :=
          List.filter_eq_self.2 fun d hd => by
            have hdc : d ≠ c := fun heq => hcTree (heq ▸ hs.child ⟨st, hst, hd⟩)
            simp [hdc]
        have hentry : (st.exchange c none).first = st.first := by
          rw [hdrop.first, hsame, hroles.first]
        exact ⟨st', hst', hparent, hfirst.trans hentry, hchildren.trans hsame,
          hdrop.congr hkind hfirst hchildren⟩
      · obtain ⟨st', hst', heq⟩ := bareStat_eq_ok.1 (hread.trans (bareStat_of_stat hst))
        obtain ⟨hkind, hparent, hfirst, hchildren, -⟩ := Stat.bare_eq_iff.1 heq
        exact ⟨st', hst', hparent, hfirst, hchildren, hroles.congr hkind hfirst hchildren⟩
    have hlinks : ∀ s, g.InTree s → g'.links s = g.links s := by
      intro s hs
      obtain ⟨st, hst⟩ := hF.exists_stat hs
      obtain ⟨st', hst', hparent, hfirst, hchildren, -⟩ := hstat s st hs hst
      rw [links_of_stat hst, links_of_stat hst', hparent, hfirst, hchildren]
    refine Coherent.treeConsistent ⟨hF.congr hlinks, fun s st' hs hst' => ?_⟩
    have hs := (hF.inTree_congr hlinks).1 hs
    obtain ⟨st, hst⟩ := hF.exists_stat hs
    obtain ⟨st₁, hst₁, -, -, -, hroles⟩ := hstat s st hs hst
    rw [hst'] at hst₁
    cases hst₁
    exact hroles

/-- A statement other than the root is taken out, be it in the tree or not. -/
theorem treeConsistent_removeStat (h : g.TreeConsistent) (hs : s ≠ root)
    (hg : g.removeStat s = .ok g') : g'.TreeConsistent := by
  obtain ⟨st, hst, -⟩ := Checked.bind_eq_ok.1 hg
  obtain ⟨g₁, e₁, hg⟩ := removeStat_eq_ok hg hst
  have h₁ : g₁.TreeConsistent := (h.coherent.of_sameTree e₁).treeConsistent
  obtain ⟨-, rfl⟩ | ⟨p, hp, hg⟩ := hg
  · exact h₁
  · refine treeConsistent_removeChild h₁ (fun hsTree => ?_) hg
    obtain ⟨st₁, hst₁, -, hparent, -⟩ := e₁.stat hst
    obtain ⟨q, hq, hqTree, hqs⟩ := h₁.forest.exists_parent hsTree hs hst₁
    rw [hparent, hp] at hq
    cases hq
    exact ⟨hqTree, hqs⟩

end Graph

end Decompiler

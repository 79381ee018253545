import Decompiler.Proofs.Graph.Frame
import Mathlib.Data.Finset.Card
import Mathlib.Data.List.Nodup
import Mathlib.Data.List.Perm.Basic
import Mathlib.Logic.Relation

/-!
# The statement tree as a relation

Which statements lie in which, and why every walk down the tree ends.

* `Graph.Within`: a statement is another one or lies below it; `Graph.InTree` for the root.
* `Graph.Forest`: on a set of statements that holds the root, lists of children and parents match. A
  statement taken out of the tree stays in such a set as the top of a tree of its own.
* `Graph.Forest.walk`: what holds of a statement once it holds of its children, with one level less,
  holds in the whole tree with as many levels as there are statements.
* `Graph.Forest.postorder`: the listings of the tree come to a result, in which each statement of
  the tree stands once.
-/

namespace Decompiler

open Relation

/-- Along a relation without cycles among `N` nodes there is a rank below `N` that decreases. -/
theorem exists_rank {s : NodeSort} {R : Id s → Id s → Prop} {S : Id s → Prop} {N : ℕ}
    (bound : ∀ a, S a → a.index < N) (closed : ∀ a b, S a → R a b → S b)
    (acyclic : ∀ a, S a → ¬ TransGen R a a) :
    ∃ rank : Id s → ℕ, (∀ a, S a → rank a < N) ∧ ∀ a b, S a → R a b → rank b < rank a := by
  classical
  -- the rank of a node is the number of nodes strictly below it
  let below (a : Id s) : Finset ℕ := (Finset.range N).filter fun i => TransGen R a ⟨i⟩
  refine ⟨fun a => (below a).card, fun a ha => ?_, fun a b ha hab => ?_⟩
  · have hlt : (below a).card < (Finset.range N).card := by
      refine Finset.card_lt_card (Finset.filter_ssubset.2 ⟨a.index, ?_, acyclic a ha⟩)
      exact Finset.mem_range.2 (bound a ha)
    rwa [Finset.card_range] at hlt
  · have hb : S b := closed a b ha hab
    refine Finset.card_lt_card (Finset.ssubset_iff_of_subset ?_ |>.2 ⟨b.index, ?_, ?_⟩)
    · intro i hi
      rw [Finset.mem_filter] at hi ⊢
      exact ⟨hi.1, .head hab hi.2⟩
    · exact Finset.mem_filter.2 ⟨Finset.mem_range.2 (bound b hb), .single hab⟩
    · exact fun h => acyclic b hb (Finset.mem_filter.1 h).2

/-- Along such a relation, what holds of a node once it holds of the next ones with a count less by
one holds of every node with the count `N`. -/
theorem walk_of_acyclic {s : NodeSort} {R : Id s → Id s → Prop} {S : Id s → Prop} {N : ℕ}
    (bound : ∀ a, S a → a.index < N) (closed : ∀ a b, S a → R a b → S b)
    (acyclic : ∀ a, S a → ¬ TransGen R a a) {P : ℕ → Id s → Prop}
    (step : ∀ n a, S a → (∀ b, R a b → P n b) → P (n + 1) a) {a : Id s} (ha : S a) {n : ℕ}
    (hn : N ≤ n) : P n a := by
  obtain ⟨rank, hbound, hdec⟩ := exists_rank bound closed acyclic
  have key : ∀ n a, S a → rank a < n → P n a := by
    intro n
    induction n with
    | zero => intro a _ h; omega
    | succ n ih =>
      intro a ha h
      refine step n a ha fun b hab => ?_
      have := hdec a b ha hab
      exact ih b (closed a b ha hab) (by omega)
  exact key n a ha (lt_of_lt_of_le (hbound a ha) hn)

namespace Graph

variable {g g' g'' : Graph} {K : StatId → Prop} {a b c p q s : StatId}

/-- `c` is listed among the children of `s`. -/
def ChildOf (g : Graph) (s c : StatId) : Prop := ∃ st, g.stat s = .ok st ∧ c ∈ st.children

/-- `s` is `a` or lies below it. -/
def Within (g : Graph) : StatId → StatId → Prop := ReflTransGen g.ChildOf

/-- `s` is reached from the root. -/
def InTree (g : Graph) (s : StatId) : Prop := g.Within root s

theorem childOf_iff {st : Stat} (h : g.stat s = .ok st) : g.ChildOf s c ↔ c ∈ st.children := by
  constructor
  · rintro ⟨st', h', hc⟩
    rw [h] at h'
    cases h'
    exact hc
  · exact fun hc => ⟨st, h, hc⟩

theorem InTree.child (h : g.InTree s) (hc : g.ChildOf s c) : g.InTree c := ReflTransGen.tail h hc

theorem InTree.within (h : g.InTree a) (hs : g.Within a s) : g.InTree s := ReflTransGen.trans h hs

/-- A statement without children holds nothing but itself. -/
theorem within_childless {st : Stat} (h : g.stat a = .ok st) (hc : st.children = []) :
    g.Within a s ↔ s = a := by
  refine reflTransGen_iff_eq fun b hb => ?_
  rw [childOf_iff h, hc] at hb
  cases hb

/-- Lists of children and parents match on the set `K`, which holds the root and is closed under
children and parents. -/
structure Forest (g : Graph) (K : StatId → Prop) : Prop where
  /-- The root is in the set. -/
  root : K Graph.root
  /-- The root has no parent. -/
  root_parent : Returns (g.stat Graph.root) fun st => st.parent = none
  /-- The statements of the set exist. -/
  stat : ∀ s, K s → ∃ st, g.stat s = .ok st
  /-- No child is listed twice. -/
  nodup : ∀ s st, K s → g.stat s = .ok st → st.children.Nodup
  /-- A child names the statement that lists it as its parent. -/
  down : ∀ s c, K s → g.ChildOf s c → K c ∧ Returns (g.stat c) fun ct => ct.parent = some s
  /-- A parent lists the statements that name it. -/
  up : ∀ s st p, K s → g.stat s = .ok st → st.parent = some p → K p ∧ g.ChildOf p s

namespace Forest

theorem mem_within (hF : Forest g K) (ha : K a) (h : g.Within a s) : K s := by
  induction h with
  | refl => exact ha
  | tail _ hc ih => exact (hF.down _ _ ih hc).1

theorem mem (hF : Forest g K) (h : g.InTree s) : K s := hF.mem_within hF.root h

theorem exists_stat (hF : Forest g K) (h : g.InTree s) : ∃ st, g.stat s = .ok st :=
  hF.stat s (hF.mem h)

theorem parent_eq (hF : Forest g K) (hp : K p) (hc : g.ChildOf p c) {ct : Stat}
    (hct : g.stat c = .ok ct) : ct.parent = some p := by
  obtain ⟨ct', h, hpar⟩ := (hF.down p c hp hc).2
  rw [hct] at h
  cases h
  exact hpar

theorem parent_unique (hF : Forest g K) (hp : K p) (hq : K q) (hpc : g.ChildOf p c)
    (hqc : g.ChildOf q c) : p = q := by
  obtain ⟨ct, hct, hpar⟩ := (hF.down p c hp hpc).2
  have hpar' := hF.parent_eq hq hqc hct
  rw [hpar] at hpar'
  exact Option.some.inj hpar'

theorem not_childOf_root (hF : Forest g K) (hp : K p) : ¬ g.ChildOf p Graph.root := by
  intro hc
  obtain ⟨rt, hrt, hpar⟩ := hF.root_parent
  have := hF.parent_eq hp hc hrt
  rw [hpar] at this
  cases this

/-- Every statement of the tree but the root has a parent in the tree, which lists it. -/
theorem exists_parent (hF : Forest g K) (h : g.InTree s) (hs : s ≠ Graph.root) {st : Stat}
    (hst : g.stat s = .ok st) : ∃ p, st.parent = some p ∧ g.InTree p ∧ g.ChildOf p s := by
  rcases ReflTransGen.cases_tail h with rfl | ⟨p, hp, hc⟩
  · exact absurd rfl hs
  · exact ⟨p, hF.parent_eq (hF.mem hp) hc hst, hp, hc⟩

theorem inTree_parent (hF : Forest g K) (h : g.InTree s) {st : Stat} (hst : g.stat s = .ok st)
    (hp : st.parent = some p) : g.InTree p ∧ g.ChildOf p s := by
  have hs : s ≠ Graph.root := by
    rintro rfl
    obtain ⟨rt, hrt, hnone⟩ := hF.root_parent
    rw [hst] at hrt
    cases hrt
    rw [hnone] at hp
    cases hp
  obtain ⟨q, hq, hqTree, hqs⟩ := hF.exists_parent h hs hst
  rw [hp] at hq
  cases hq
  exact ⟨hqTree, hqs⟩

theorem acyclic (hF : Forest g K) (h : g.InTree s) : ¬ TransGen g.ChildOf s s := by
  induction h with
  | refl =>
    intro hcycle
    obtain ⟨p, hp, hc⟩ := TransGen.tail'_iff.1 hcycle
    exact hF.not_childOf_root (hF.mem hp) hc
  | @tail p c hp hc ih =>
    -- a cycle through `c` comes back to it from its parent, so it is one through the parent
    intro hcycle
    obtain ⟨q, hq, hqc⟩ := TransGen.tail'_iff.1 hcycle
    have hKp := hF.mem hp
    have hKq := hF.mem_within (hF.down p c hKp hc).1 hq
    obtain rfl := hF.parent_unique hKp hKq hc hqc
    exact ih (.head' hc hq)

theorem ne_of_childOf (hF : Forest g K) (h : g.InTree s) (hc : g.ChildOf s c) : c ≠ s := by
  rintro rfl
  exact hF.acyclic h (.single hc)

/-- What lies below a statement of the tree is neither that statement nor the root. -/
theorem ne_of_below (hF : Forest g K) (ha : g.InTree a) (h : TransGen g.ChildOf a s) :
    g.InTree s ∧ s ≠ a ∧ s ≠ Graph.root := by
  obtain ⟨p, hp, hc⟩ := TransGen.tail'_iff.1 h
  refine ⟨(ha.within hp).child hc, ?_, ?_⟩
  · rintro rfl
    exact hF.acyclic ha h
  · rintro rfl
    exact hF.not_childOf_root (hF.mem (ha.within hp)) hc

/-- What lies in two statements makes one of them lie in the other. -/
theorem within_or_within (hF : Forest g K) (ha : K a) (hb : K b) (h : g.Within a s)
    (h' : g.Within b s) : g.Within a b ∨ g.Within b a := by
  induction h with
  | refl => exact .inr h'
  | @tail p c hp hc ih =>
    rcases ReflTransGen.cases_tail h' with rfl | ⟨q, hq, hqc⟩
    · exact .inl (hp.tail hc)
    · obtain rfl := hF.parent_unique (hF.mem_within ha hp) (hF.mem_within hb hq) hc hqc
      exact ih hq

/-- What holds a statement of the tree is in the tree. -/
theorem inTree_of_within (hF : Forest g K) (ha : K a) (hs : g.InTree s) (h : g.Within a s) :
    g.InTree a := by
  rcases hF.within_or_within hF.root ha hs h with h' | h'
  · exact h'
  · rcases ReflTransGen.cases_tail h' with rfl | ⟨q, hq, hqr⟩
    · exact .refl
    · exact absurd hqr (hF.not_childOf_root (hF.mem_within ha hq))

/-- Two children of one statement share nothing that lies in both. -/
theorem eq_of_within (hF : Forest g K) (hs : g.InTree s) (ha : g.ChildOf s a)
    (hb : g.ChildOf s b) {x : StatId} (hax : g.Within a x) (hbx : g.Within b x) : a = b := by
  have key : ∀ {a b}, g.ChildOf s a → g.ChildOf s b → g.Within a b → a = b := by
    intro a b ha hb hab
    rcases ReflTransGen.cases_tail hab with rfl | ⟨q, hq, hqb⟩
    · rfl
    · have hKa := hF.mem (hs.child ha)
      obtain rfl := hF.parent_unique (hF.mem hs) (hF.mem_within hKa hq) hb hqb
      exact absurd (TransGen.head' ha hq) (hF.acyclic hs)
  rcases hF.within_or_within (hF.mem (hs.child ha)) (hF.mem (hs.child hb)) hax hbx with h | h
  · exact key ha hb h
  · exact (key hb ha h).symm

/-- What climbs to the root along parents is reached from it along children. -/
theorem inTree_of_climbsTo (hF : Forest g K) {n : ℕ} (hs : K s)
    (h : g.climbsTo Graph.root n s = .ok true) : g.InTree s := by
  induction n generalizing s with
  | zero => cases h
  | succ n ih =>
    simp only [climbsTo, Checked.bind_eq_ok] at h
    obtain ⟨st, hst, h⟩ := h
    split at h
    · cases h
    · next p hp =>
      obtain ⟨hKp, hps⟩ := hF.up s st p hs hst hp
      split at h
      · next hroot =>
        subst hroot
        exact .single hps
      · exact (ih hKp h).child hps

theorem inTree_of_contains (hF : Forest g K) (hs : K s)
    (h : g.contains Graph.root s = .ok true) : g.InTree s := by
  unfold contains at h
  split at h
  · next heq => exact heq ▸ .refl
  · exact hF.inTree_of_climbsTo hs h

/-- Induction down the tree, with a count of levels that the number of statements bounds. -/
theorem walk (hF : Forest g K) {P : ℕ → StatId → Prop}
    (step : ∀ n s st, g.InTree s → g.stat s = .ok st → (∀ c ∈ st.children, P n c) → P (n + 1) s)
    (hs : g.InTree s) {n : ℕ} (hn : g.stats.size ≤ n) : P n s := by
  refine walk_of_acyclic (R := g.ChildOf)
    (fun s hs => (hF.exists_stat hs).elim fun _ hst => Arena.get_lt hst)
    (fun _ _ hs hc => hs.child hc) (fun _ hs => hF.acyclic hs) (fun n s hs hbelow => ?_) hs hn
  obtain ⟨st, hst⟩ := hF.exists_stat hs
  exact step n s st hs hst fun c hc => hbelow c ⟨st, hst, hc⟩

end Forest

/-! ## Changes that leave the tree alone -/

/-- The parent of a statement, the child through which control enters it, and its children. -/
def links (g : Graph) (s : StatId) : Checked (Option StatId × Option StatId × List StatId) :=
  (g.stat s).map fun st => (st.parent, st.first, st.children)

theorem links_of_stat {st : Stat} (h : g.stat s = .ok st) :
    g.links s = .ok (st.parent, st.first, st.children) := by
  rw [links, h]
  rfl

theorem links_eq_ok {l : Option StatId × Option StatId × List StatId} (h : g.links s = .ok l) :
    ∃ st, g.stat s = .ok st ∧ st.parent = l.1 ∧ st.first = l.2.1 ∧ st.children = l.2.2 := by
  unfold links at h
  cases hs : g.stat s with
  | error f => rw [hs] at h; cases h
  | ok st =>
    rw [hs] at h
    cases h
    exact ⟨st, rfl, rfl, rfl, rfl⟩

theorem links_eq :
    g.links s = (g.bareStat s).map fun st => (st.parent, st.first, st.children) := by
  unfold links bareStat
  cases g.stat s <;> rfl

theorem childOf_of_links (h : g'.links s = g.links s) (hc : g.ChildOf s c) : g'.ChildOf s c := by
  obtain ⟨st, hst, hc⟩ := hc
  obtain ⟨st', hst', -, -, hchildren⟩ := links_eq_ok (h.trans (links_of_stat hst))
  exact ⟨st', hst', hchildren ▸ hc⟩

namespace Forest

variable (hF : Forest g K) (h : ∀ s, K s → g'.links s = g.links s)

include hF h

theorem within_congr (ha : K a) : g'.Within a s ↔ g.Within a s := by
  constructor
  · intro hs
    induction hs with
    | refl => exact .refl
    | tail _ hc ih => exact ih.tail (childOf_of_links (h _ (hF.mem_within ha ih)).symm hc)
  · intro hs
    induction hs with
    | refl => exact .refl
    | tail hp hc ih => exact ih.tail (childOf_of_links (h _ (hF.mem_within ha hp)) hc)

theorem inTree_congr : g'.InTree s ↔ g.InTree s := hF.within_congr h hF.root

/-- A change of neither parents nor children keeps them matched. -/
theorem congr : Forest g' K := by
  have hstat : ∀ s st, K s → g.stat s = .ok st → Returns (g'.stat s) fun st' =>
      st'.parent = st.parent ∧ st'.first = st.first ∧ st'.children = st.children :=
    fun s st hs hst => links_eq_ok ((h s hs).trans (links_of_stat hst))
  have hstat' : ∀ s st', K s → g'.stat s = .ok st' → Returns (g.stat s) fun st =>
      st.parent = st'.parent ∧ st.first = st'.first ∧ st.children = st'.children :=
    fun s st' hs hst' => links_eq_ok ((h s hs).symm.trans (links_of_stat hst'))
  refine ⟨hF.root, ?_, fun s hs => ?_, fun s st' hs hst' => ?_, fun s c hs hc => ?_,
    fun s st' p hs hst' hp => ?_⟩
  · obtain ⟨rt, hrt, hpar⟩ := hF.root_parent
    exact (hstat _ rt hF.root hrt).mono fun _ h => h.1.trans hpar
  · obtain ⟨st, hst⟩ := hF.stat s hs
    obtain ⟨st', hst', -⟩ := hstat s st hs hst
    exact ⟨st', hst'⟩
  · obtain ⟨st, hst, -, -, hchildren⟩ := hstat' s st' hs hst'
    exact hchildren ▸ hF.nodup s st hs hst
  · obtain ⟨hKc, ct, hct, hpar⟩ := hF.down s c hs (childOf_of_links (h s hs).symm hc)
    exact ⟨hKc, (hstat c ct hKc hct).mono fun _ h => h.1.trans hpar⟩
  · obtain ⟨st, hst, hpar, -⟩ := hstat' s st' hs hst'
    obtain ⟨hKp, hps⟩ := hF.up s st p hs hst (hpar.trans hp)
    exact ⟨hKp, childOf_of_links (h p hKp) hps⟩

end Forest

/-- A statement on its own may be added to the set. -/
theorem Forest.insert {b : StatId} {bt : Stat} (hF : Forest g K) (hbt : g.stat b = .ok bt)
    (hparent : bt.parent = none) (hchildren : bt.children = []) :
    Forest g fun s => K s ∨ some b = some s where
  root := .inl hF.root
  root_parent := hF.root_parent
  stat s hs := by
    rcases hs with hs | hs
    · exact hF.stat s hs
    · exact ⟨bt, Option.some.inj hs ▸ hbt⟩
  nodup s st hs hst := by
    rcases hs with hs | hs
    · exact hF.nodup s st hs hst
    · obtain rfl := Option.some.inj hs
      rw [hbt] at hst
      cases hst
      simp [hchildren]
  down s c hs hc := by
    rcases hs with hs | hs
    · exact (hF.down s c hs hc).imp_left .inl
    · obtain rfl := Option.some.inj hs
      rw [childOf_iff hbt, hchildren] at hc
      cases hc
  up s st p hs hst hp := by
    rcases hs with hs | hs
    · exact (hF.up s st p hs hst hp).imp_left .inl
    · obtain rfl := Option.some.inj hs
      rw [hbt] at hst
      cases hst
      rw [hparent] at hp
      cases hp

/-- The two graphs agree in the parents and the children of all statements, and in the children
through which control enters them. -/
def SameLinks (g g' : Graph) : Prop := ∀ s, g'.links s = g.links s

namespace SameLinks

theorem refl (g : Graph) : SameLinks g g := fun _ => rfl

theorem trans (h : SameLinks g g') (h' : SameLinks g' g'') : SameLinks g g'' := fun s =>
  (h' s).trans (h s)

theorem symm (h : SameLinks g g') : SameLinks g' g := fun s => (h s).symm

theorem childOf_eq (h : SameLinks g g') : g'.ChildOf = g.ChildOf := by
  ext s c
  exact ⟨childOf_of_links (h.symm s), childOf_of_links (h s)⟩

theorem within_eq (h : SameLinks g g') : g'.Within = g.Within := by
  unfold Within
  rw [h.childOf_eq]

theorem inTree_iff (h : SameLinks g g') : g'.InTree s ↔ g.InTree s := by
  rw [InTree, h.within_eq, InTree]

theorem forest (h : SameLinks g g') (hF : Forest g K) : Forest g' K := hF.congr fun s _ => h s

end SameLinks

theorem SameTree.sameLinks (h : SameTree g g') : SameLinks g g' := by
  intro s
  rw [links_eq, links_eq, h.stats]

/-! ## Listings of the tree -/

theorem preorderIn_succ {n : ℕ} {l : List StatId} : g.preorderIn (n + 1) s = .ok l ↔
    ∃ st ls, g.stat s = .ok st ∧
      List.Forall₂ (fun c lc => g.preorderIn n c = .ok lc) st.children ls ∧
      l = s :: ls.flatten := by
  simp only [preorderIn, Checked.bind_eq_ok, Checked.pure_eq_ok, Checked.mapM_eq_ok_iff]
  constructor
  · rintro ⟨st, hst, ls, hls, rfl⟩
    exact ⟨st, ls, hst, hls, rfl⟩
  · rintro ⟨st, ls, hst, hls, rfl⟩
    exact ⟨st, hst, ls, hls, rfl⟩

theorem mem_flatten_of_forall₂ {α β : Type} {R : α → List β → Prop} {l : List α}
    {ls : List (List β)} (h : List.Forall₂ R l ls) {P : α → β → Prop}
    (hP : ∀ a lb, R a lb → ∀ b, b ∈ lb ↔ P a b) (b : β) : b ∈ ls.flatten ↔ ∃ a ∈ l, P a b := by
  induction h with
  | nil => simp
  | cons hR _ ih => simp [ih, hP _ _ hR]

/-- Lists made from different elements are without repetition as a whole, if each is and no two of
them share anything. -/
theorem nodup_flatten_of_forall₂ {α β : Type} {R : α → List β → Prop} {l : List α}
    {ls : List (List β)} (h : List.Forall₂ R l ls) (hl : l.Nodup) {P : α → β → Prop}
    (hP : ∀ a lb, R a lb → ∀ b, b ∈ lb ↔ P a b) (each : ∀ a ∈ l, ∀ lb, R a lb → lb.Nodup)
    (apart : ∀ a ∈ l, ∀ a' ∈ l, ∀ b, P a b → P a' b → a = a') : ls.flatten.Nodup := by
  induction h with
  | nil => simp
  | @cons a lb l ls hR hls ih =>
    rw [List.nodup_cons] at hl
    rw [List.flatten_cons, List.nodup_append']
    refine ⟨each a (by simp) lb hR, ih hl.2 (fun a ha => each a (by simp [ha]))
      fun a ha a' ha' => apart a (by simp [ha]) a' (by simp [ha']), ?_⟩
    intro b hb hb'
    obtain ⟨a', ha', hPb⟩ := (mem_flatten_of_forall₂ hls hP b).1 hb'
    obtain rfl := apart a (by simp) a' (by simp [ha']) b ((hP a lb hR b).1 hb) hPb
    exact hl.1 ha'

/-- Lists that are without repetition as a whole are made from different elements, unless they are
empty. -/
theorem nodup_of_nodup_flatten {α β : Type} {R : α → List β → Prop} {l : List α}
    {ls : List (List β)} (h : List.Forall₂ R l ls) (hl : ls.flatten.Nodup) {P : α → β → Prop}
    (hP : ∀ a lb, R a lb → ∀ b, b ∈ lb ↔ P a b) (hne : ∀ a, ∃ b, P a b) : l.Nodup := by
  induction h with
  | nil => exact .nil
  | @cons a lb l ls hR hls ih =>
    rw [List.flatten_cons, List.nodup_append'] at hl
    refine List.nodup_cons.2 ⟨fun ha => ?_, ih hl.2.1⟩
    obtain ⟨b, hb⟩ := hne a
    exact hl.2.2 ((hP a lb hR b).2 hb) ((mem_flatten_of_forall₂ hls hP b).2 ⟨a, ha, hb⟩)

/-- Two of the elements that such lists are made from share nothing. -/
theorem eq_of_nodup_flatten {α β : Type} {R : α → List β → Prop} {l : List α}
    {ls : List (List β)} (h : List.Forall₂ R l ls) (hl : ls.flatten.Nodup) {P : α → β → Prop}
    (hP : ∀ a lb, R a lb → ∀ b, b ∈ lb ↔ P a b) {a a' : α} (ha : a ∈ l) (ha' : a' ∈ l) {b : β}
    (hb : P a b) (hb' : P a' b) : a = a' := by
  induction h with
  | nil => cases ha
  | @cons c lc l ls hR hls ih =>
    rw [List.flatten_cons, List.nodup_append'] at hl
    have hrest : ∀ d ∈ l, P d b → b ∉ lc := fun d hd hdb hmem =>
      hl.2.2 hmem ((mem_flatten_of_forall₂ hls hP b).2 ⟨d, hd, hdb⟩)
    rcases List.mem_cons.1 ha with hac | ha <;> rcases List.mem_cons.1 ha' with hac' | ha'
    · exact hac.trans hac'.symm
    · exact absurd ((hP c lc hR b).2 (hac ▸ hb)) (hrest a' ha' hb')
    · exact absurd ((hP c lc hR b).2 (hac' ▸ hb')) (hrest a ha hb)
    · exact ih hl.2.1 ha ha'

/-- A listing of a statement holds what lies in it. -/
theorem mem_preorderIn {n : ℕ} {l : List StatId} (h : g.preorderIn n s = .ok l) (x : StatId) :
    x ∈ l ↔ g.Within s x := by
  induction n generalizing s l x with
  | zero => cases h
  | succ n ih =>
    obtain ⟨st, ls, hst, hls, rfl⟩ := preorderIn_succ.1 h
    rw [List.mem_cons, mem_flatten_of_forall₂ hls fun c lc hc => ih hc]
    constructor
    · rintro (rfl | ⟨c, hc, hx⟩)
      · exact .refl
      · exact ReflTransGen.head ⟨st, hst, hc⟩ hx
    · intro hx
      rcases ReflTransGen.cases_head hx with rfl | ⟨c, hc, hx⟩
      · exact .inl rfl
      · exact .inr ⟨c, (childOf_iff hst).1 hc, hx⟩

theorem exists_perm_of_forall₂ {α β : Type} {R R' : α → List β → Prop} {l : List α}
    {ls : List (List β)} (h : List.Forall₂ R l ls)
    (hR : ∀ a lb, R a lb → ∃ lb', R' a lb' ∧ lb'.Perm lb) :
    ∃ ls', List.Forall₂ R' l ls' ∧ ls'.flatten.Perm ls.flatten := by
  induction h with
  | nil => exact ⟨[], .nil, .refl _⟩
  | cons ha _ ih =>
    obtain ⟨lb, hlb, hperm⟩ := hR _ _ ha
    obtain ⟨ls', hls', hperm'⟩ := ih
    exact ⟨lb :: ls', .cons hlb hls', hperm.append hperm'⟩

/-- The two listings of a statement hold the same statements equally often. -/
theorem postorderIn_perm {n : ℕ} {l : List StatId} (h : g.preorderIn n s = .ok l) :
    ∃ l', g.postorderIn n s = .ok l' ∧ l'.Perm l := by
  induction n generalizing s l with
  | zero => cases h
  | succ n ih =>
    obtain ⟨st, ls, hst, hls, rfl⟩ := preorderIn_succ.1 h
    obtain ⟨ls', hls', hperm⟩ := exists_perm_of_forall₂ hls fun c lc hc => ih hc
    refine ⟨ls'.flatten ++ [s], ?_, ?_⟩
    · simp [postorderIn, hst, Checked.mapM_eq_ok_iff.2 hls']
    · exact (List.perm_append_singleton s _).trans (hperm.cons s)

namespace Forest

theorem preorderIn_nodup (hF : Forest g K) (hs : g.InTree s) {n : ℕ} {l : List StatId}
    (h : g.preorderIn n s = .ok l) : l.Nodup := by
  induction n generalizing s l with
  | zero => cases h
  | succ n ih =>
    obtain ⟨st, ls, hst, hls, rfl⟩ := preorderIn_succ.1 h
    have hchild : ∀ c ∈ st.children, g.ChildOf s c := fun c hc => ⟨st, hst, hc⟩
    have hnodup : st.children.Nodup := hF.nodup s st (hF.mem hs) hst
    have hmem := fun c lc (hc : g.preorderIn n c = .ok lc) => mem_preorderIn hc
    refine List.nodup_cons.2 ⟨fun hx => ?_, ?_⟩
    · obtain ⟨c, hc, hx⟩ := (mem_flatten_of_forall₂ hls hmem s).1 hx
      exact hF.acyclic hs (.head' (hchild c hc) hx)
    · refine nodup_flatten_of_forall₂ hls hnodup hmem (fun c hc lc hlc => ?_) ?_
      · exact ih (hs.child (hchild c hc)) hlc
      · intro c hc d hd x hx hx'
        exact hF.eq_of_within hs (hchild c hc) (hchild d hd) hx hx'

theorem preorderIn_returns (hF : Forest g K) (hs : g.InTree s) {n : ℕ} (hn : g.stats.size ≤ n) :
    ∃ l, g.preorderIn n s = .ok l := by
  refine hF.walk (P := fun n s => ∃ l, g.preorderIn n s = .ok l) ?_ hs hn
  intro n s st _ hst hbelow
  have hls : Returns (st.children.mapM (g.preorderIn n)) fun _ => True :=
    (Returns.mapM fun c hc => (hbelow c hc).elim fun l hl => ⟨l, hl, trivial⟩).mono
      fun _ (_ : List.Forall₂ (fun _ _ => True) _ _) => trivial
  obtain ⟨ls, hls, -⟩ := hls
  exact ⟨_, preorderIn_succ.2 ⟨st, ls, hst, Checked.mapM_eq_ok_iff.1 hls, rfl⟩⟩

/-- The listing of the tree, parents first. -/
theorem statements (hF : Forest g K) :
    ∃ l, g.statements = .ok l ∧ l.Nodup ∧ ∀ s, s ∈ l ↔ g.InTree s := by
  obtain ⟨l, hl⟩ := hF.preorderIn_returns .refl (n := g.statLevels) (Nat.le_succ _)
  exact ⟨l, hl, hF.preorderIn_nodup .refl hl, mem_preorderIn hl⟩

/-- The listing of a statement of the tree, children first. -/
theorem postorder (hF : Forest g K) (hs : g.InTree s) :
    ∃ l, g.postorder s = .ok l ∧ l.Nodup ∧ ∀ x, x ∈ l ↔ g.Within s x := by
  obtain ⟨l, hl⟩ := hF.preorderIn_returns hs (n := g.statLevels) (Nat.le_succ _)
  obtain ⟨l', hl', hperm⟩ := postorderIn_perm hl
  exact ⟨l', hl', hperm.nodup_iff.2 (hF.preorderIn_nodup hs hl),
    fun x => hperm.mem_iff.trans (mem_preorderIn hl x)⟩

end Forest

end Graph

end Decompiler

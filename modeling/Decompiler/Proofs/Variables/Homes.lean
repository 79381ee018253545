import Decompiler.Proofs.Variables.Planning
import Decompiler.Proofs.Variables.Searching

/-!
# Homes are lowest common ancestors

A statement is a site of an index when it mentions the index itself, or when a loop or a `finally`
right below it mentions the index in an expression that is written where that statement is
entered or left. The home of an index is the lowest statement that holds all its sites.

* `Graph.IsSite`: the sites of an index.
* `Graph.IsLowestAbove`: the lowest statement above a set of statements.
* `Graph.planIn_lowest`: what planning a statement comes to, by induction down the tree. A home that
  was found in a child is overwritten as soon as a second child has a site.
* `Method.plan_lowest`: every index that has a site gets the lowest statement above its sites.
-/

namespace Decompiler

open Relation

theorem nodup_eraseDups {α : Type} [DecidableEq α] (l : List α) : l.eraseDups.Nodup := by
  induction h : l.length using Nat.strong_induction_on generalizing l with
  | _ n ih =>
    subst h
    cases l with
    | nil => exact List.nodup_nil
    | cons a l =>
      rw [List.eraseDups_cons, List.nodup_cons, List.mem_eraseDups]
      exact ⟨by simp, ih _ (Nat.lt_succ_of_le (List.length_filter_le _ l)) _ rfl⟩

/-- No child comes twice among the items of a statement. -/
theorem Stat.notMem_of_items {st : Stat} {c : StatId} {visited rest : List Item}
    (hc : st.children.Nodup) (hitems : visited ++ .stat c :: rest = st.items) :
    .stat c ∉ visited := by
  have hexprs : ∀ l : List ExprId, (l.map Item.expr).count (.stat c) = 0 := fun l =>
    List.count_eq_zero.2 (by simp)
  have hinside : (st.children.map Item.stat).count (.stat c) = st.children.count c :=
    List.count_map_of_injective _ _ (fun _ _ => Item.stat.inj) c
  have hhead : ∀ l : List ExprId, ((st.children.map Item.stat).take 1 ++ l.map Item.expr ++
      (st.children.map Item.stat).drop 1).count (.stat c) = st.children.count c := by
    intro l
    rw [List.count_append, List.count_append, hexprs, Nat.add_zero, ← List.count_append,
      List.take_append_drop, hinside]
  have hcount : st.items.count (.stat c) ≤ st.children.count c := by
    unfold Stat.items
    split <;> simp only [hhead, List.count_append, hexprs, hinside] <;> omega
  have hone := hcount.trans (List.nodup_iff_count_le_one.1 hc c)
  rw [← hitems, List.count_append, List.count_cons_self] at hone
  exact List.count_eq_zero.1 (by omega)

namespace Graph

variable {g g' : Graph} {s t c home : StatId} {e x : ExprId} {index : ℕ} {plan plan' : Plan}

/-! ## Sites -/

/-- The expression is the condition of a loop that tests it before or after each round, or the
monitor of a `finally`. -/
def MentionsAbove (g : Graph) (s : StatId) (e : ExprId) : Prop :=
  Returns (g.stat s) fun st =>
    (∃ l, st.kind = .loop l ∧ (l.kind = .whileDo ∨ l.kind = .doWhile) ∧ l.condition = some e) ∨
      ∃ vars, st.kind = .catchAll vars true (some e)

/-- The statement of the tree mentions the index in an expression that it evaluates in turn, or a
child of it does in an expression that counts as mentioned by the parent. -/
def IsSite (g : Graph) (index : ℕ) (s : StatId) : Prop :=
  g.InTree s ∧ ((∃ e, g.Evaluates s e ∧ g.Names e index) ∨
    ∃ c e, g.ChildOf s c ∧ g.MentionsAbove c e ∧ g.Names e index)

/-- Some site of the index lies in the statement. -/
def HasSite (g : Graph) (s : StatId) (index : ℕ) : Prop := ∃ t, g.Within s t ∧ g.IsSite index t

/-- The statement holds all statements of a set, and lies in every other one that does. -/
structure IsLowestAbove (g : Graph) (S : StatId → Prop) (a : StatId) : Prop where
  /-- It is in the tree. -/
  inTree : g.InTree a
  /-- It holds them all. -/
  above : ∀ s, S s → g.Within a s
  /-- So does every other one only if it holds this one. -/
  lowest : ∀ b, g.InTree b → (∀ s, S s → g.Within b s) → g.Within b a

theorem mem_mentionedAbove {st : Stat} (hst : g.stat s = .ok st) :
    e ∈ mentionedAbove st ↔ g.MentionsAbove s e := by
  rw [MentionsAbove, hst, Returns.ok_iff]
  unfold mentionedAbove
  split
  · next l hkind =>
    have hl : ∀ l', st.kind = .loop l' ↔ l = l' := by simp [hkind]
    have hcatch : ∀ vars, st.kind ≠ .catchAll vars true (some e) := by simp [hkind]
    simp only [hl, hcatch, exists_false, or_false, exists_eq_left']
    split
    · next h =>
      rw [Bool.or_eq_true, decide_eq_true_iff, decide_eq_true_iff] at h
      simp only [h, true_and, Option.mem_toList]
    · next h =>
      rw [Bool.or_eq_true, decide_eq_true_iff, decide_eq_true_iff] at h
      simp only [h, false_and, List.not_mem_nil]
  · next vars monitor hkind => simp [hkind, eq_comm]
  · next hloop hcatch =>
    simp only [List.not_mem_nil, false_iff, not_or, not_exists]
    exact ⟨fun l h => hloop l h.1, fun vars h => hcatch vars (some e) h⟩

/-- A site in a statement is the statement itself or lies in a child. -/
theorem hasSite_iff {st : Stat} (hst : g.stat s = .ok st) :
    g.HasSite s index ↔ g.IsSite index s ∨ ∃ c ∈ st.children, g.HasSite c index := by
  constructor
  · rintro ⟨t, ht, hsite⟩
    rcases ReflTransGen.cases_head ht with rfl | ⟨c, hc, ht⟩
    · exact .inl hsite
    · exact .inr ⟨c, (childOf_iff hst).1 hc, t, ht, hsite⟩
  · rintro (hsite | ⟨c, hc, t, ht, hsite⟩)
    · exact ⟨s, .refl, hsite⟩
    · exact ⟨t, .head ((childOf_iff hst).2 hc) ht, hsite⟩

namespace IsLowestAbove

variable {S S' : StatId → Prop} {a b : StatId}

/-- There is one such statement at most. -/
theorem unique (hF : Forest g g.InTree) (h : g.IsLowestAbove S a) (h' : g.IsLowestAbove S b) :
    a = b := by
  have hab := h'.lowest a h.inTree h.above
  have hba := h.lowest b h'.inTree h'.above
  by_contra hne
  rcases ReflTransGen.cases_head hab with rfl | ⟨c, hc, hcb⟩
  · exact hne rfl
  · exact hF.acyclic h.inTree (.head' hc (hcb.trans hba))

theorem congr (h : g.IsLowestAbove S a) (hS : ∀ s, S' s ↔ S s) : g.IsLowestAbove S' a :=
  ⟨h.inTree, fun s hs => h.above s ((hS s).1 hs), fun b hb hall =>
    h.lowest b hb fun s hs => hall s ((hS s).2 hs)⟩

/-- A statement of the set that holds all others. -/
theorem of_mem (hs : S s) (hTree : g.InTree s) (habove : ∀ t, S t → g.Within s t) :
    g.IsLowestAbove S s := ⟨hTree, habove, fun _ _ hall => hall s hs⟩

/-- A statement two of whose children hold some of the set. -/
theorem of_children (hF : Forest g g.InTree) (hs : g.InTree s) (habove : ∀ t, S t → g.Within s t)
    {d : StatId} (hc : g.ChildOf s c) (hd : g.ChildOf s d) (hne : c ≠ d)
    (hcS : ∃ t, g.Within c t ∧ S t) (hdS : ∃ t, g.Within d t ∧ S t) : g.IsLowestAbove S s := by
  refine ⟨hs, habove, fun b hb hall => ?_⟩
  obtain ⟨t, hct, ht⟩ := hcS
  obtain ⟨u, hdu, hu⟩ := hdS
  have hcTree := hs.child hc
  -- if it lay in one child, it could not hold what lies in the other one
  have hnot : ¬ g.Within c b := fun hcb =>
    hne (hF.eq_of_within hs hc hd (hcb.trans (hall u hu)) hdu)
  rcases hF.within_or_within hb hcTree (hall t ht) hct with hbc | hcb
  · rcases ReflTransGen.cases_tail hbc with rfl | ⟨p, hp, hpc⟩
    · exact absurd .refl hnot
    · obtain rfl := hF.parent_unique (hF.mem_within hb hp) hs hpc hc
      exact hp
  · exact absurd hcb hnot

end IsLowestAbove

/-! ## Planning -/

/-- What planning a statement comes to. -/
structure PlansLowest (g : Graph) (s : StatId) (plan plan' : Plan) (mentioned : List ℕ) : Prop where
  /-- Nothing is mentioned twice. -/
  nodup : mentioned.Nodup
  /-- What is mentioned has a site in the statement. -/
  sites : ∀ i, i ∈ mentioned ↔ g.HasSite s i
  /-- What is mentioned gets the lowest statement above its sites in the statement as its home. -/
  homes : ∀ i, ¬ g.HasSite s i ∧ plan'.homes.get? i = plan.homes.get? i ∨
    g.HasSite s i ∧ ∃ home, plan'.homes.get? i = some home ∧
      g.IsLowestAbove (fun t => g.Within s t ∧ g.IsSite i t) home
  /-- What is mentioned below is known. -/
  below : ∀ t i, g.Within s t → (plan'.mentioned t i = true ↔ g.HasSite t i)
  /-- Nothing else gets known. -/
  others : ∀ t i, ¬ g.Within s t → plan'.mentioned t i = plan.mentioned t i

/-- What is known once some items of a statement have been visited. -/
structure Gathers (g : Graph) (plan : Plan) (visited : List Item) (m : Mentions) : Prop where
  /-- The expressions that the statement mentions. -/
  own : ∀ e, e ∈ m.own ↔ .expr e ∈ visited ∨ ∃ c, .stat c ∈ visited ∧ g.MentionsAbove c e
  /-- What the children mention. -/
  mentioned : ∀ i, i ∈ m.below ↔ ∃ c, .stat c ∈ visited ∧ g.HasSite c i
  /-- What two of them mention. -/
  twice : ∀ i, 1 < m.below.count i ↔
    ∃ c d, c ≠ d ∧ .stat c ∈ visited ∧ .stat d ∈ visited ∧ g.HasSite c i ∧ g.HasSite d i
  /-- The home that was found last. -/
  homes : ∀ i, (∀ c, .stat c ∈ visited → ¬ g.HasSite c i) ∧
      m.plan.homes.get? i = plan.homes.get? i ∨
    ∃ c home, .stat c ∈ visited ∧ g.HasSite c i ∧ m.plan.homes.get? i = some home ∧
      g.IsLowestAbove (fun t => g.Within c t ∧ g.IsSite i t) home
  /-- What is mentioned below is known. -/
  below : ∀ c t i, .stat c ∈ visited → g.Within c t →
    (m.plan.mentioned t i = true ↔ g.HasSite t i)
  /-- Nothing else gets known. -/
  others : ∀ t i, (∀ c, .stat c ∈ visited → ¬ g.Within c t) →
    m.plan.mentioned t i = plan.mentioned t i

namespace Gathers

variable {visited : List Item} {m : Mentions}

theorem expr (h : g.Gathers plan visited m) :
    g.Gathers plan (visited ++ [.expr e]) { m with own := m.own ++ [e] } := by
  have hstat : ∀ c, Item.stat c ∈ visited ++ [.expr e] ↔ .stat c ∈ visited := by simp
  refine ⟨fun x => ?_, ?_, ?_, ?_, ?_, ?_⟩
  · simp only [List.mem_append, List.mem_singleton, Item.expr.injEq, reduceCtorEq, or_false, h.own]
    exact or_right_comm
  all_goals simp only [hstat]
  · exact h.mentioned
  · exact h.twice
  · exact h.homes
  · exact h.below
  · exact h.others

theorem child {below : List ℕ} {ct : Stat} (h : g.Gathers plan visited m) (hF : Forest g g.InTree)
    (hs : g.InTree s) (hc : g.ChildOf s c) (hvisited : ∀ d, .stat d ∈ visited → g.ChildOf s d)
    (hnew : .stat c ∉ visited) (hct : g.stat c = .ok ct)
    (hplan : g.PlansLowest c m.plan plan' below) :
    g.Gathers plan (visited ++ [.stat c])
      ⟨plan', m.below ++ below, m.own ++ mentionedAbove ct⟩ := by
  have hstat : ∀ d, Item.stat d ∈ visited ++ [.stat c] ↔ .stat d ∈ visited ∨ d = c := by simp
  have hapart : ∀ d t, .stat d ∈ visited → g.Within d t → ¬ g.Within c t := fun d t hd hdt hct =>
    hnew (hF.eq_of_within hs hc (hvisited d hd) hct hdt ▸ hd)
  refine ⟨fun x => ?_, fun i => ?_, fun i => ?_, fun i => ?_, fun d t i hd hdt => ?_,
    fun t i ht => ?_⟩
  · simp only [List.mem_append, List.mem_singleton, reduceCtorEq, or_false, h.own,
      mem_mentionedAbove hct, Item.stat.injEq, or_and_right, exists_or, exists_eq_left]
    exact or_assoc
  · simp only [List.mem_append, h.mentioned, hplan.sites, List.mem_singleton, Item.stat.injEq,
      or_and_right, exists_or, exists_eq_left]
  · have hone : below.count i ≤ 1 := List.nodup_iff_count_le_one.1 hplan.nodup i
    have hbelow : 0 < below.count i ↔ g.HasSite c i := List.count_pos_iff.trans (hplan.sites i)
    have hbefore : 0 < m.below.count i ↔ ∃ d, .stat d ∈ visited ∧ g.HasSite d i :=
      List.count_pos_iff.trans (h.mentioned i)
    have hsum : 1 < (m.below ++ below).count i ↔
        1 < m.below.count i ∨ 0 < m.below.count i ∧ 0 < below.count i := by
      rw [List.count_append]
      omega
    rw [hsum, h.twice, hbefore, hbelow]
    simp only [hstat]
    constructor
    · rintro (⟨d, d', hne, hd, hd', hsites⟩ | ⟨⟨d, hd, hsite⟩, hsite'⟩)
      · exact ⟨d, d', hne, .inl hd, .inl hd', hsites⟩
      · exact ⟨d, c, fun heq => hnew (heq ▸ hd), .inl hd, .inr rfl, hsite, hsite'⟩
    · rintro ⟨d, d', hne, hd | rfl, hd' | rfl, hsite, hsite'⟩
      · exact .inl ⟨d, d', hne, hd, hd', hsite, hsite'⟩
      · exact .inr ⟨⟨d, hd, hsite⟩, hsite'⟩
      · exact .inr ⟨⟨d', hd', hsite'⟩, hsite⟩
      · exact absurd rfl hne
  · simp only [hstat]
    rcases hplan.homes i with ⟨hnone, hget⟩ | ⟨hsite, home, hget, hhome⟩
    · rw [hget]
      rcases h.homes i with ⟨hall, hstart⟩ | ⟨d, home, hd, hsite, hhome⟩
      · refine .inl ⟨fun d hd => ?_, hstart⟩
        rcases hd with hd | rfl
        · exact hall d hd
        · exact hnone
      · exact .inr ⟨d, home, .inl hd, hsite, hhome⟩
    · exact .inr ⟨c, home, .inr rfl, hsite, hget, hhome⟩
  · rcases (hstat d).1 hd with hd | rfl
    · rw [hplan.others t i (hapart d t hd hdt)]
      exact h.below d t i hd hdt
    · exact hplan.below t i hdt
  · simp only [hstat] at ht
    rw [hplan.others t i (ht c (.inr rfl))]
    exact h.others t i fun d hd => ht d (.inl hd)

variable {st : Stat} (hchild : ∀ c, Item.stat c ∈ st.items ↔ g.ChildOf s c)
  (h : g.Gathers plan st.items m)

include hchild h

/-- The expressions that were gathered name the indices of which the statement is a site. -/
theorem isSite_iff (hs : g.InTree s) (hst : g.stat s = .ok st) :
    g.IsSite index s ↔ ∃ e ∈ m.own, g.Names e index := by
  rw [IsSite, and_iff_right hs]
  simp only [h.own, or_and_right, exists_or, Evaluates, hst, Returns.ok_iff, hchild]
  refine or_congr_right ⟨?_, ?_⟩
  · rintro ⟨c, e, hc, he, hnames⟩
    exact ⟨e, ⟨c, hc, he⟩, hnames⟩
  · rintro ⟨e, ⟨c, hc, he⟩, hnames⟩
    exact ⟨c, e, hc, he, hnames⟩

/-- A statement that is a site, or two of whose children hold one, is the lowest above the sites in
it. -/
theorem isLowestAbove (hF : Forest g g.InTree) (hs : g.InTree s)
    (hhome : g.IsSite index s ∨ 1 < m.below.count index) :
    g.HasSite s index ∧ g.IsLowestAbove (fun t => g.Within s t ∧ g.IsSite index t) s := by
  have habove : ∀ t, g.Within s t ∧ g.IsSite index t → g.Within s t := fun _ ht => ht.1
  rcases hhome with hsite | htwice
  · exact ⟨⟨s, .refl, hsite⟩, .of_mem ⟨.refl, hsite⟩ hs habove⟩
  · obtain ⟨c, d, hne, hc, hd, ⟨t, hct, ht⟩, u, hdu, hu⟩ := (h.twice index).1 htwice
    have hc := (hchild c).1 hc
    have hd := (hchild d).1 hd
    exact ⟨⟨t, .head hc hct, ht⟩, .of_children hF hs habove hc hd hne ⟨t, hct, .head hc hct, ht⟩
      ⟨u, hdu, .head hd hdu, hu⟩⟩

/-- Otherwise the home that was found last is that of the one child that holds sites. -/
theorem homes_below (hst : g.stat s = .ok st) (hown : ¬ g.IsSite index s)
    (htwice : ¬ 1 < m.below.count index) :
    ¬ g.HasSite s index ∧ m.plan.homes.get? index = plan.homes.get? index ∨
      g.HasSite s index ∧ ∃ home, m.plan.homes.get? index = some home ∧
        g.IsLowestAbove (fun t => g.Within s t ∧ g.IsSite index t) home := by
  have hsites : g.HasSite s index ↔ ∃ c, .stat c ∈ st.items ∧ g.HasSite c index := by
    rw [hasSite_iff hst, or_iff_right hown]
    simp only [hchild, childOf_iff hst]
  rcases h.homes index with ⟨hnone, hget⟩ | ⟨c, home, hc, hsite, hget, hhome⟩
  · exact .inl ⟨fun hs => (hsites.1 hs).elim fun c hc => hnone c hc.1 hc.2, hget⟩
  · refine .inr ⟨hsites.2 ⟨c, hc, hsite⟩, home, hget, hhome.congr fun t => and_congr_left fun ht =>
      ⟨fun hst' => ?_, fun hct => .head ((hchild c).1 hc) hct⟩⟩
    rcases ReflTransGen.cases_head hst' with rfl | ⟨d, hd, hdt⟩
    · exact absurd ht hown
    · by_cases heq : d = c
      · exact heq ▸ hdt
      · exact absurd
          ((h.twice index).2 ⟨d, c, heq, (hchild d).2 hd, hc, ⟨t, hdt, ht⟩, hsite⟩) htwice

end Gathers

/-- A statement is entered into a plan once all its items have been visited. -/
theorem enterPlan_lowest (hF : Forest g g.InTree) (hs : g.InTree s) {st : Stat}
    (hst : g.stat s = .ok st) (hchild : ∀ c, Item.stat c ∈ st.items ↔ g.ChildOf s c) {m : Mentions}
    {mentioned : List ℕ} (h : g.Gathers plan st.items m)
    (hr : g.enterPlan s m = .ok (plan', mentioned)) : g.PlansLowest s plan plan' mentioned := by
  obtain ⟨own, hown, hr⟩ := Checked.bind_eq_ok.1 hr
  cases Checked.pure_eq_ok.1 hr
  have hsite : ∀ i, i ∈ own ↔ g.IsSite i s := fun i =>
    (mem_indicesIn hown).trans (h.isSite_iff hchild hs hst).symm
  have hmentioned : ∀ i, i ∈ (m.below ++ own).eraseDups ↔ g.HasSite s i := by
    intro i
    rw [List.mem_eraseDups, List.mem_append, h.mentioned, hsite, hasSite_iff hst, or_comm]
    simp only [hchild, childOf_iff hst]
  refine ⟨nodup_eraseDups _, hmentioned, fun i => ?_, fun t i ht => ?_, fun t i ht => ?_⟩
  · have hhome : i ∈ (m.below ++ own).eraseDups.filter (fun i => i ∈ own || 1 < m.below.count i) ↔
        g.HasSite s i ∧ (g.IsSite i s ∨ 1 < m.below.count i) := by
      rw [List.mem_filter, hmentioned, Bool.or_eq_true, decide_eq_true_iff, decide_eq_true_iff,
        hsite]
    rw [Table.get?_foldl_insert]
    split
    · next hmem =>
      obtain ⟨hsites, hcases⟩ := hhome.1 hmem
      exact .inr ⟨hsites, s, rfl, (h.isLowestAbove hchild hF hs hcases).2⟩
    · next hmem =>
      have hnot : ¬ (g.IsSite i s ∨ 1 < m.below.count i) := fun hcases =>
        hmem (hhome.2 ⟨(h.isLowestAbove hchild hF hs hcases).1, hcases⟩)
      exact h.homes_below hchild hst (not_or.1 hnot).1 (not_or.1 hnot).2
  · rw [Plan.mentioned, Table.get?_insert]
    split
    · next heq =>
      rw [← heq, Option.getD_some, decide_eq_true_iff]
      exact hmentioned i
    · next hne =>
      rcases ReflTransGen.cases_head ht with heq | ⟨c, hc, hct⟩
      · exact absurd heq hne
      · exact h.below c t i ((hchild c).2 hc) hct
  · have hne : s ≠ t := by
      rintro rfl
      exact ht .refl
    rw [Plan.mentioned, Table.get?_insert, if_neg hne]
    exact h.others t i fun c hc hct => ht (.head ((hchild c).1 hc) hct)

/-- Every statement of the tree, and all below it, is planned so. -/
theorem planIn_lowest (hF : Forest g g.InTree)
    (hleaf : ∀ s st exprs, g.InTree s → g.stat s = .ok st → st.kind = .block exprs →
      st.children = []) {n : ℕ} {mentioned : List ℕ} (hs : g.InTree s)
    (h : g.planIn n plan s = .ok (plan', mentioned)) : g.PlansLowest s plan plan' mentioned := by
  induction n generalizing s plan plan' mentioned with
  | zero => cases h
  | succ n ih =>
    rw [planIn] at h
    obtain ⟨st, hst, h⟩ := Checked.bind_eq_ok.1 h
    obtain ⟨m, hm, h⟩ := Checked.bind_eq_ok.1 h
    have hchild : ∀ c, Item.stat c ∈ st.items ↔ g.ChildOf s c := fun c =>
      ⟨childOf_of_items hst, fun hc => Stat.mem_items_of_children ((childOf_iff hst).1 hc)
        fun exprs => hleaf s st exprs hs hst⟩
    refine enterPlan_lowest hF hs hst hchild ?_ h
    refine Checked.foldlM_upTo hm ?_ fun visited item rest hitems m m' hm hstep => ?_
    · exact ⟨by simp, by simp, by simp, by simp, by simp, by simp⟩
    · have hvisited : ∀ d, Item.stat d ∈ visited → g.ChildOf s d := fun d hd =>
        (hchild d).1 (hitems ▸ List.mem_append_left _ hd)
      cases item with
      | expr e =>
        cases Checked.pure_eq_ok.1 hstep
        exact hm.expr
      | stat c =>
        have hc : g.ChildOf s c := (hchild c).1 (hitems ▸ by simp)
        obtain ⟨⟨plan₁, below⟩, hplan, hstep⟩ := Checked.bind_eq_ok.1 hstep
        obtain ⟨ct, hct, hstep⟩ := Checked.bind_eq_ok.1 hstep
        cases Checked.pure_eq_ok.1 hstep
        exact hm.child hF hs hc hvisited (Stat.notMem_of_items (hF.nodup s st hs hst) hitems) hct
          (ih (hs.child hc) hplan)

/-- The tree of a legible graph can be planned. -/
theorem planIn_total (o : g.Legible) (plan : Plan) :
    ∃ r, g.planIn g.statLevels plan root = .ok r := by
  have hplan : Returns (g.planIn g.statLevels plan root) fun _ => True := by
    refine o.forest.walk (P := fun n s => ∀ plan, Returns (g.planIn n plan s) fun _ => True)
      (fun n s st hs hst hbelow plan => ?_) .refl (Nat.le_succ _) plan
    rw [planIn, hst, Checked.ok_bind]
    -- whatever is mentioned is held by the statement or one of its children
    refine Returns.bind (P := fun m => ∀ e ∈ m.own, g.Grounded e)
      (Returns.foldlM (fun e he => absurd he List.not_mem_nil) fun item hitem m hm => ?_)
      fun m _ hm => ?_
    · cases item with
      | expr e =>
        have he : g.Evaluates s e := ⟨st, hst, hitem⟩
        refine Returns.pure_iff.2 fun x hx => (List.mem_append.1 hx).elim (hm x) fun hx => ?_
        exact List.mem_singleton.1 hx ▸ o.grounded s e hs he.holds
      | stat c =>
        have hc := childOf_of_items hst hitem
        obtain ⟨ct, hct⟩ := o.forest.stat c (hs.child hc)
        refine (hbelow c ((childOf_iff hst).1 hc) m.plan).bind fun r _ _ => ?_
        simp only [hct, Checked.ok_bind, Returns.pure_iff]
        refine fun x hx => (List.mem_append.1 hx).elim (hm x) fun hx => ?_
        exact o.grounded c x (hs.child hc)
          ⟨ct, hct, List.mem_append_left _ (mem_exprs_of_mentionedAbove hx)⟩
    · obtain ⟨own, hown⟩ := indicesIn_returns hm
      simp [enterPlan, hown]
  exact hplan.elim fun r hr => ⟨r, hr.1⟩

/-! ## Marking exception variables -/

/-- The statements are the same, and every expression names the same indices. -/
def SameNames (g g' : Graph) : Prop :=
  g'.stats = g.stats ∧ ∀ e index, g'.Names e index ↔ g.Names e index

theorem sameNames_modifyExpr {f : VarRef → VarRef} (hf : ∀ v, (f v).var = v.var)
    (h : g.modifyExpr e (Expr.mapVar f) = .ok g') : g.SameNames g' := by
  obtain ⟨n, hn, hnode, hstats, -⟩ := node_modifyExpr h
  have hsub : g'.SubOf = g.SubOf := by
    ext x y
    rw [SubOf, SubOf, hnode]
    split
    · next hx =>
      subst hx
      simp [hn, Expr.children_eq_of_shape Expr.mapVar_shape]
    · rfl
  have hvar : ∀ x v, (∃ marked, g'.IsVar x v marked) ↔ ∃ marked, g.IsVar x v marked := by
    intro x v
    have hlocal : ∀ g : Graph, (∃ marked, g.IsVar x v marked) ↔ g.local? x = .ok (some v) := by
      intro g
      rw [local?_eq_ok]
      exact ⟨fun ⟨_, w, hw, hvar, _⟩ => ⟨w, hw, hvar⟩, fun ⟨w, hw, hvar⟩ => ⟨_, w, hw, hvar, rfl⟩⟩
    have hmap : ∀ z : Expr, (z.mapVar f).local? = z.local? := by
      intro z
      cases z with
      | var w => exact congrArg some (hf w)
      | _ => rfl
    rw [hlocal, hlocal, Graph.local?, Graph.local?, expr, expr, hnode]
    split
    · next hx =>
      subst hx
      simp [hn, hmap]
    · rfl
  refine ⟨hstats, fun x index => exists_congr fun y => exists_congr fun v => ?_⟩
  rw [Reaches, hsub]
  constructor
  · rintro ⟨marked, hy, hv, hindex⟩
    obtain ⟨marked', hv'⟩ := (hvar y v).1 ⟨marked, hv⟩
    exact ⟨marked', hy, hv', hindex⟩
  · rintro ⟨marked, hy, hv, hindex⟩
    obtain ⟨marked', hv'⟩ := (hvar y v).2 ⟨marked, hv⟩
    exact ⟨marked', hy, hv', hindex⟩

namespace SameNames

theorem refl (g : Graph) : g.SameNames g := ⟨rfl, fun _ _ => .rfl⟩

theorem trans {g'' : Graph} (h : g.SameNames g') (h' : g'.SameNames g'') : g.SameNames g'' :=
  ⟨h'.1.trans h.1, fun e index => (h'.2 e index).trans (h.2 e index)⟩

variable (h : g.SameNames g')

include h

theorem stat_eq : g'.stat = g.stat := by
  funext s
  rw [stat, h.1, stat]

theorem sameLinks : SameLinks g g' := fun s => by rw [links, h.stat_eq, links]

theorem isSite_iff : g'.IsSite index s ↔ g.IsSite index s := by
  simp only [IsSite, h.sameLinks.inTree_iff, Evaluates, MentionsAbove, h.stat_eq,
    h.sameLinks.childOf_eq, h.2]

theorem isLowestAbove {S : StatId → Prop} (ha : g'.IsLowestAbove S home) :
    g.IsLowestAbove S home := by
  have hwithin := h.sameLinks.within_eq
  refine ⟨h.sameLinks.inTree_iff.1 ha.inTree, fun s hs => hwithin ▸ ha.above s hs,
    fun b hb hall => hwithin ▸ ha.lowest b (h.sameLinks.inTree_iff.2 hb) fun s hs => ?_⟩
  rw [hwithin]
  exact hall s hs

end SameNames

end Graph

namespace Method

open Decompiler.Graph

variable {m m' : Method} {plan : Plan}

theorem declareHandlerVar_sameNames {acc r : Method × List ℕ} {e : ExprId}
    (h : declareHandlerVar acc e = .ok r) : acc.1.graph.SameNames r.1.graph := by
  obtain ⟨v?, -, h⟩ := Checked.bind_eq_ok.1 h
  cases v? with
  | none => exact Checked.pure_eq_ok.1 h ▸ .refl _
  | some v =>
    obtain ⟨g', hg', h⟩ := Checked.bind_eq_ok.1 h
    cases Checked.pure_eq_ok.1 h
    exact sameNames_modifyExpr (f := fun v => { v with isDefinition := true }) (fun _ => rfl) hg'

/-- A method whose statements and expressions can be read can be planned. -/
theorem plan_total (o : m.graph.Legible) : ∃ r, m.plan = .ok r := by
  obtain ⟨stats, handlers, hstatements, hhandlers, -, ⟨m', implicit⟩, hm', hmarks⟩ :=
    markHandlers_returns o
  have o' : m'.graph.Legible := o.of_revises hmarks.revises fun s e _ he => by
    rwa [Holds, stat, hmarks.stats] at he
  obtain ⟨r, hr⟩ := planIn_total o' ⟨.empty, .empty, implicit⟩
  refine ⟨(m', r.1), ?_⟩
  simp only [Method.plan, hstatements, hhandlers, hm', hr, Checked.ok_bind]
  rfl

/-- A plan comes from planning the root of a graph that differs in marks alone. -/
theorem planned_root (h : m.plan = .ok (m', plan)) : m.graph.SameNames m'.graph ∧
    ∃ implicit mentioned, m'.graph.planIn m'.graph.statLevels ⟨.empty, .empty, implicit⟩ root =
      .ok (plan, mentioned) := by
  obtain ⟨stats, -, h⟩ := Checked.bind_eq_ok.1 h
  obtain ⟨handlers, -, h⟩ := Checked.bind_eq_ok.1 h
  obtain ⟨⟨m₁, implicit⟩, hmarks, h⟩ := Checked.bind_eq_ok.1 h
  obtain ⟨⟨plan', mentioned⟩, hplan, h⟩ := Checked.bind_eq_ok.1 h
  cases Checked.pure_eq_ok.1 h
  refine ⟨?_, implicit, mentioned, hplan⟩
  exact Checked.foldlM_keeps (fun r : Method × List ℕ => m.graph.SameNames r.1.graph) hmarks
    (.refl _) fun e _ r r' hr hstep => hr.trans (declareHandlerVar_sameNames hstep)

/-- An index has a home exactly if it has a site, and its home is the lowest statement above its
sites, which is the site itself where there is only one. -/
theorem plan_lowest (hw : m.graph.WellFormed) :
    ((∀ s e, m.graph.InTree s → m.graph.Holds s e → m.graph.Grounded e) → ∃ r, m.plan = .ok r) ∧
      ∀ m' plan, m.plan = .ok (m', plan) → ∀ index,
        ((∃ home, plan.homes.get? index = some home) ↔ ∃ s, m.graph.IsSite index s) ∧
        (∀ home, plan.homes.get? index = some home →
          m.graph.IsLowestAbove (m.graph.IsSite index) home) ∧
        ∀ s, (∀ t, m.graph.IsSite index t ↔ t = s) → plan.homes.get? index = some s := by
  refine ⟨fun hgrounded => plan_total ⟨hw.forest, hgrounded⟩, fun m' plan hm index => ?_⟩
  obtain ⟨hsame, implicit, mentioned, hplan⟩ := planned_root hm
  have hF := hsame.sameLinks.forest hw.forest
  have hF' : Forest m'.graph m'.graph.InTree :=
    (funext fun s => propext hsame.sameLinks.inTree_iff : m'.graph.InTree = m.graph.InTree) ▸ hF
  have hleaf : ∀ s st exprs, m'.graph.InTree s → m'.graph.stat s = .ok st →
      st.kind = .block exprs → st.children = [] := by
    intro s st exprs hs hst hkind
    have hshape := (hw.fits (hsame.sameLinks.inTree_iff.1 hs) (hsame.stat_eq ▸ hst)).children
    rwa [hkind] at hshape
  have hroot : ∀ s, m.graph.IsSite index s →
      m'.graph.Within Graph.root s ∧ m'.graph.IsSite index s := fun s hs =>
    ⟨(hsame.isSite_iff.2 hs).1, hsame.isSite_iff.2 hs⟩
  have hsites : m'.graph.HasSite Graph.root index ↔ ∃ s, m.graph.IsSite index s :=
    exists_congr fun s => ⟨fun h => hsame.isSite_iff.1 h.2, hroot s⟩
  have hhome : (¬ (∃ s, m.graph.IsSite index s) ∧ plan.homes.get? index = none) ∨
      (∃ s, m.graph.IsSite index s) ∧ ∃ home, plan.homes.get? index = some home ∧
        m.graph.IsLowestAbove (m.graph.IsSite index) home := by
    have hlowest := (planIn_lowest hF' hleaf .refl hplan).homes index
    rw [hsites] at hlowest
    rcases hlowest with hnone | ⟨hs, home, hget, hlow⟩
    · exact .inl hnone
    · refine .inr ⟨hs, home, hget, (hsame.isLowestAbove hlow).congr fun s => ?_⟩
      exact ⟨hroot s, fun hs => hsame.isSite_iff.1 hs.2⟩
  rcases hhome with ⟨hnone, hget⟩ | ⟨hsome, home, hget, hlow⟩
  · refine ⟨by simp [hget, hnone], by simp [hget], fun s hs => ?_⟩
    exact absurd ⟨s, (hs s).2 rfl⟩ hnone
  · refine ⟨iff_of_true ⟨home, hget⟩ hsome, fun home' hget' => ?_, fun s hs => ?_⟩
    · rw [hget] at hget'
      cases hget'
      exact hlow
    · have hself : m.graph.IsLowestAbove (m.graph.IsSite index) s :=
        .of_mem ((hs s).2 rfl) ((hs s).2 rfl).1 fun t ht => (hs t).1 ht ▸ .refl
      rw [hget, hlow.unique hw.forest hself]

/-- The condition of a loop counts for the sequence it stands in:
`v3 = p; while (v3 < 3) { v5 = v3; print(v5); }`. -/
def sharedCondition : Method where
  graph :=
    { stats := ⟨#[
        ⟨.exit, none, none, [], [], [], [], []⟩,
        ⟨.root, none, some ⟨2⟩, [⟨2⟩], [], [], [], []⟩,
        ⟨.sequence, some ⟨1⟩, some ⟨3⟩, [⟨3⟩, ⟨4⟩], [], [], [], []⟩,
        ⟨.block [⟨2⟩], some ⟨2⟩, none, [], [], [], [], []⟩,
        ⟨.loop ⟨.whileDo, none, some ⟨5⟩, none⟩, some ⟨2⟩, some ⟨5⟩, [⟨5⟩], [], [], [], []⟩,
        ⟨.block [⟨8⟩, ⟨10⟩], some ⟨4⟩, none, [], [], [], [], []⟩]⟩
      edges := .empty
      exprs :=
        let occurrence (index : ℕ) : Expr := .var ⟨⟨index, 0⟩, ⟨.int, 0⟩, false, false, none⟩
        ⟨#[
          ⟨occurrence 3, .empty⟩,
          ⟨occurrence 1, .empty⟩,
          ⟨.assign ⟨0⟩ ⟨1⟩, .empty⟩,
          ⟨occurrence 3, .empty⟩,
          ⟨.const ⟨.int, 0⟩ (.int 3), .empty⟩,
          ⟨.apply .lt [⟨3⟩, ⟨4⟩], .empty⟩,
          ⟨occurrence 5, .empty⟩,
          ⟨occurrence 3, .empty⟩,
          ⟨.assign ⟨6⟩ ⟨7⟩, .empty⟩,
          ⟨occurrence 5, .empty⟩,
          ⟨.call ⟨"Out", "print", "(I)V", none, [⟨9⟩]⟩, .empty⟩]⟩ }
  vars := Registry.ofSlots none [1]

theorem plan_lowest_sharedCondition :
    sharedCondition.graph.WellFormed ∧ ∃ m' plan, sharedCondition.plan = .ok (m', plan) ∧
      (∃ s, sharedCondition.graph.IsSite 3 s) ∧
      sharedCondition.graph.IsLowestAbove (sharedCondition.graph.IsSite 3) ⟨2⟩ ∧
      sharedCondition.graph.IsLowestAbove (sharedCondition.graph.IsSite 5) ⟨5⟩ := by
  have hw : sharedCondition.graph.WellFormed := by decide +kernel
  obtain ⟨⟨m', plan⟩, hplan, h3, h5⟩ : Returns sharedCondition.plan fun r =>
      r.2.homes.get? 3 = some ⟨2⟩ ∧ r.2.homes.get? 5 = some ⟨5⟩ := by decide +kernel
  have hlowest := (plan_lowest hw).2 m' plan hplan
  exact ⟨hw, m', plan, hplan, (hlowest 3).1.1 ⟨⟨2⟩, h3⟩, (hlowest 3).2.1 ⟨2⟩ h3,
    (hlowest 5).2.1 ⟨5⟩ h5⟩

end Method

end Decompiler

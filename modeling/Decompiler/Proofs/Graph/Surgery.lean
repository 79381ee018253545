import Decompiler.Proofs.Graph.Forest

/-!
# Taking statements out of the tree

The operations that change the tree take the place of one statement away, or give it to another
statement: the top of another tree, or one of the children of the statement that goes.

* `Graph.Edit`: what such a change does to the statements.
* `Graph.Edit.forest`: lists of children and parents still match.
* `Graph.Edit.inTree_iff`: what leaves the tree is what lay in the statement that was taken out, and
  what comes in is what lies in the one that took its place.
-/

namespace Decompiler

open Relation

/-! ## One child of a statement -/

/-- The expressions that a statement of a kind evaluates itself. -/
def StatKind.exprs : StatKind → List ExprId
  | .block exprs => exprs
  | .branch b => [b.head]
  | .switch head _ => [head]
  | .synchronized head _ => head.toList
  | .loop l => Stat.loopBefore l ++ Stat.loopAfter l
  | .tryCatch vars => vars
  | .catchAll vars _ monitor => vars ++ monitor.toList
  | .sequence | .root | .exit => []

namespace Stat

theorem filterMap_expr?_stat (l : List StatId) : (l.map Item.stat).filterMap Item.expr? = [] := by
  simp [List.filterMap_map, Function.comp_def, Item.expr?]

theorem filterMap_expr?_expr (l : List ExprId) : (l.map Item.expr).filterMap Item.expr? = l := by
  simp [List.filterMap_map, Function.comp_def, Item.expr?]

theorem ownExprs_eq (s : Stat) : s.ownExprs = s.kind.exprs := by
  have hall := filterMap_expr?_stat s.children
  have htake := filterMap_expr?_stat (s.children.take 1)
  have hdrop := filterMap_expr?_stat (s.children.drop 1)
  rw [List.map_take] at htake
  rw [List.map_drop] at hdrop
  obtain ⟨kind, parent, first, children, declarations, successors, predecessors, labels⟩ := s
  cases kind <;>
    simp only [ownExprs, items, StatKind.exprs, List.filterMap_append, filterMap_expr?_expr, hall,
      htake, hdrop, List.nil_append, List.append_nil]

/-- Gives the place of the child `old` to `new`, or closes the gap when there is none. -/
def exchange (old : StatId) : Option StatId → Stat → Stat
  | some new => replaceChild old new
  | none => dropChild old

variable {old : StatId} {new : Option StatId} {s : Stat}

@[simp] theorem exchange_parent : (s.exchange old new).parent = s.parent := by
  cases new <;> rfl

@[simp] theorem exchange_declarations : (s.exchange old new).declarations = s.declarations := by
  cases new <;> rfl

theorem exchange_bare : (s.exchange old new).bare = s.bare.exchange old new := by
  cases new <;> rfl

theorem exchange_children : (s.exchange old new).children =
    s.children.flatMap fun c => if c = old then new.toList else [c] := by
  cases new with
  | none =>
    change s.children.filter (fun c => decide (c ≠ old)) = _
    induction s.children with
    | nil => rfl
    | cons c l ih =>
      rw [List.filter_cons, List.flatMap_cons, ih]
      by_cases h : c = old <;> simp [h]
  | some new =>
    change s.children.map (fun c => if c = old then new else c) = _
    induction s.children with
    | nil => rfl
    | cons c l ih =>
      rw [List.map_cons, List.flatMap_cons, ih]
      by_cases h : c = old <;> simp [h]

theorem mem_exchange_children {c : StatId} :
    c ∈ (s.exchange old new).children ↔
      (c ∈ s.children ∧ c ≠ old) ∨ (old ∈ s.children ∧ new = some c) := by
  rw [exchange_children, List.mem_flatMap]
  constructor
  · rintro ⟨d, hd, hc⟩
    split at hc
    · next h => exact .inr ⟨h ▸ hd, Option.mem_toList.1 hc⟩
    · next h =>
      obtain rfl := List.mem_singleton.1 hc
      exact .inl ⟨hd, h⟩
  · rintro (⟨hc, h⟩ | ⟨hold, rfl⟩)
    · exact ⟨c, hc, by simp [h]⟩
    · exact ⟨old, hold, by simp⟩

theorem exchange_nodup (hs : s.children.Nodup) (hnew : ∀ b, new = some b → b ∉ s.children) :
    (s.exchange old new).children.Nodup := by
  rw [exchange_children, List.nodup_flatMap]
  refine ⟨fun c _ => ?_, hs.imp_of_mem fun {c d} hc hd hcd => ?_⟩
  · split
    · cases new <;> simp
    · simp
  · intro x hx hx'
    simp only at hx hx'
    split at hx <;> split at hx'
    · next h h' => exact hcd (h.trans h'.symm)
    · have hx := Option.mem_toList.1 hx
      obtain rfl := List.mem_singleton.1 hx'
      exact hnew x hx hd
    · have hx' := Option.mem_toList.1 hx'
      obtain rfl := List.mem_singleton.1 hx
      exact hnew x hx' hc
    · exact hcd ((List.mem_singleton.1 hx).symm.trans (List.mem_singleton.1 hx'))

theorem exchange_exprs : (s.exchange old new).kind.exprs = s.kind.exprs := by
  obtain ⟨kind, parent, first, children, declarations, successors, predecessors, labels⟩ := s
  cases new <;> cases kind <;> rfl

theorem exchange_loop? : (s.exchange old new).loop? = s.loop? := by
  obtain ⟨kind, parent, first, children, declarations, successors, predecessors, labels⟩ := s
  cases new <;> cases kind <;> rfl

end Stat

/-! ## One place in the tree -/

namespace Graph

variable {g g' g'' : Graph} {K : StatId → Prop} {p old s c : StatId} {new : Option StatId}

/-- The child `old` of `p` is taken out, and `new` is put in its place if there is one. -/
structure Edit (g g' : Graph) (p old : StatId) (new : Option StatId) : Prop where
  /-- Expressions are left alone. -/
  exprs : g'.exprs = g.exprs
  /-- The parent lists `new` where it listed `old`. -/
  at_parent : g'.bareStat p = (g.bareStat p).map (Stat.exchange old new)
  /-- What is put in has the parent now. -/
  at_new : ∀ b, new = some b →
    g'.bareStat b = (g.bareStat b).map fun st => { st with parent := some p }
  /-- What is taken out has no parent, and no longer what takes its place as a child. -/
  at_old : ∀ st, g.stat old = .ok st → Returns (g'.stat old) fun st' =>
    st'.parent = none ∧ st'.children = st.children.filter fun c => new ≠ some c
  /-- All else is left alone. -/
  elsewhere : ∀ s, s ≠ p → s ≠ old → new ≠ some s → g'.bareStat s = g.bareStat s

/-- A change of one place in the tree: `old` is listed by `p`, and what takes its place is one of its
children, or the top of a tree of its own. -/
structure Edit.Admissible (g : Graph) (K : StatId → Prop) (p old : StatId) (new : Option StatId) :
    Prop where
  /-- The parent is in the tree. -/
  parent : g.InTree p
  /-- It lists the statement. -/
  child : g.ChildOf p old
  /-- What takes the place comes from below, or is listed by nothing. -/
  source : ∀ b, new = some b → g.ChildOf old b ∨
    K b ∧ b ≠ root ∧ Returns (g.stat b) fun st => st.parent = none

theorem childOf_iff_of_bareStat {st : Stat} (h : g.bareStat s = .ok st) :
    g.ChildOf s c ↔ c ∈ st.children := by
  obtain ⟨st', hst', rfl⟩ := bareStat_eq_ok.1 h
  change _ ↔ c ∈ st'.children
  exact childOf_iff hst'

theorem childOf_congr (h : g'.bareStat s = g.bareStat s) : g'.ChildOf s c ↔ g.ChildOf s c := by
  cases hs : g.bareStat s with
  | ok st => rw [childOf_iff_of_bareStat hs, childOf_iff_of_bareStat (h.trans hs)]
  | error f =>
    constructor
    · rintro ⟨st, hst, -⟩
      rw [h.symm.trans (bareStat_of_stat hst)] at hs
      cases hs
    · rintro ⟨st, hst, -⟩
      rw [bareStat_of_stat hst] at hs
      cases hs

namespace Edit

theorem stat_parent (h : Edit g g' p old new) {pt : Stat} (hpt : g.stat p = .ok pt) :
    ∃ pt', g'.stat p = .ok pt' ∧ pt'.bare = (pt.exchange old new).bare :=
  stat_of_bareStat_map h.at_parent (fun _ => Stat.exchange_bare) hpt

theorem stat_new (h : Edit g g' p old new) {b : StatId} (hb : new = some b) {bt : Stat}
    (hbt : g.stat b = .ok bt) :
    ∃ bt', g'.stat b = .ok bt' ∧ bt'.bare = Stat.bare { bt with parent := some p } :=
  stat_of_bareStat_map (h.at_new b hb) (fun _ => rfl) hbt

theorem stat_elsewhere (h : Edit g g' p old new) (hp : s ≠ p) (ho : s ≠ old)
    (hn : new ≠ some s) {st : Stat} (hst : g.stat s = .ok st) :
    ∃ st', g'.stat s = .ok st' ∧ st'.bare = st.bare :=
  bareStat_eq_ok.1 ((h.elsewhere s hp ho hn).trans (bareStat_of_stat hst))

/-- All but the parent and what is taken out keeps its kind and its children. -/
theorem same_elsewhere (h : Edit g g' p old new) (hp : s ≠ p) (ho : s ≠ old) {st : Stat}
    (hst : g.stat s = .ok st) : Returns (g'.stat s) fun st' =>
      st'.kind = st.kind ∧ st'.first = st.first ∧ st'.children = st.children ∧
        st'.declarations = st.declarations := by
  by_cases hn : new = some s
  · obtain ⟨st', hst', heq⟩ := h.stat_new hn hst
    obtain ⟨hkind, -, hrest⟩ := Stat.bare_eq_iff.1 heq
    exact ⟨st', hst', hkind, hrest⟩
  · obtain ⟨st', hst', heq⟩ := h.stat_elsewhere hp ho hn hst
    obtain ⟨hkind, -, hrest⟩ := Stat.bare_eq_iff.1 heq
    exact ⟨st', hst', hkind, hrest⟩

theorem childOf_parent (h : Edit g g' p old new) (hc : g.ChildOf p old) :
    g'.ChildOf p s ↔ (g.ChildOf p s ∧ s ≠ old) ∨ new = some s := by
  obtain ⟨pt, hpt, hold⟩ := hc
  have hp' : g'.bareStat p = .ok (pt.bare.exchange old new) := by
    rw [h.at_parent, bareStat_of_stat hpt]
    rfl
  rw [childOf_iff_of_bareStat hp', childOf_iff hpt, Stat.mem_exchange_children]
  exact or_congr Iff.rfl (and_iff_right hold)

theorem childOf_old (h : Edit g g' p old new) {ot : Stat} (ho : g.stat old = .ok ot) :
    g'.ChildOf old s ↔ g.ChildOf old s ∧ new ≠ some s := by
  obtain ⟨ot', hot', -, hchildren⟩ := h.at_old ot ho
  rw [childOf_iff hot', childOf_iff ho, hchildren, List.mem_filter, decide_eq_true_iff]

theorem childOf_new (h : Edit g g' p old new) {b : StatId} (hb : new = some b) :
    g'.ChildOf b s ↔ g.ChildOf b s := by
  have hb' := h.at_new b hb
  cases hbs : g.bareStat b with
  | ok bt =>
    rw [hbs] at hb'
    rw [childOf_iff_of_bareStat hbs, childOf_iff_of_bareStat hb']
  | error f =>
    rw [hbs] at hb'
    constructor
    · rintro ⟨bt, hbt, -⟩
      rw [bareStat_of_stat hbt] at hb'
      cases hb'
    · rintro ⟨bt, hbt, -⟩
      rw [bareStat_of_stat hbt] at hbs
      cases hbs

namespace Admissible

variable (hA : Admissible g K p old new) (hF : Forest g K) {b q : StatId}

include hA

theorem inTree_old : g.InTree old := hA.parent.child hA.child

include hF

theorem parent_ne : p ≠ old := (hF.ne_of_childOf hA.parent hA.child).symm

theorem old_ne_root : old ≠ Graph.root := by
  rintro rfl
  exact hF.not_childOf_root (hF.mem hA.parent) hA.child

theorem mem_new (hb : new = some b) : K b := by
  rcases hA.source b hb with h | ⟨h, -⟩
  · exact hF.mem (hA.inTree_old.child h)
  · exact h

/-- Nothing but `old` lists what takes its place. -/
theorem eq_old_of_childOf (hb : new = some b) (hq : K q) (hqb : g.ChildOf q b) : q = old := by
  rcases hA.source b hb with h | ⟨-, -, bt, hbt, hnone⟩
  · exact hF.parent_unique hq (hF.mem hA.inTree_old) hqb h
  · rw [hF.parent_eq hq hqb hbt] at hnone
    cases hnone

theorem new_ne_root (hb : new = some b) : b ≠ Graph.root := by
  rcases hA.source b hb with h | ⟨-, h, -⟩
  · rintro rfl
    exact hF.not_childOf_root (hF.mem hA.inTree_old) h
  · exact h

/-- What takes the place does not hold the place. -/
theorem not_within_new (hb : new = some b) : ¬ g.Within b old := by
  intro hw
  rcases hA.source b hb with h | ⟨hKb, hroot, bt, hbt, hnone⟩
  · exact hF.acyclic hA.inTree_old (.head' h hw)
  · obtain ⟨q, hq, -⟩ := hF.exists_parent (hF.inTree_of_within hKb hA.inTree_old hw) hroot hbt
    rw [hnone] at hq
    cases hq

theorem new_ne_old (hb : new = some b) : b ≠ old := by
  rintro rfl
  exact hA.not_within_new hF hb .refl

end Admissible

/-- Where a statement is listed afterwards. -/
theorem childOf_iff (h : Edit g g' p old new) (hA : Admissible g K p old new) (hF : Forest g K)
    (hs : K s) :
    g'.ChildOf s c ↔ (g.ChildOf s c ∧ c ≠ old ∧ new ≠ some c) ∨ (s = p ∧ new = some c) := by
  obtain ⟨ot, hot⟩ := hF.exists_stat hA.inTree_old
  have hne := hA.parent_ne hF
  -- what lists `old` is `p`, and what lists the new statement is `old`
  have hother : g.ChildOf s c → s ≠ p → s ≠ old → c ≠ old ∧ new ≠ some c := by
    refine fun hc hsp hso => ⟨?_, fun hn => hso (hA.eq_old_of_childOf hF hn hs hc)⟩
    rintro rfl
    exact hsp (hF.parent_unique hs (hF.mem hA.parent) hc hA.child)
  by_cases hsp : s = p
  · subst hsp
    rw [h.childOf_parent hA.child]
    constructor
    · rintro (⟨hc, hco⟩ | hn)
      · exact .inl ⟨hc, hco, fun hn => hne (hA.eq_old_of_childOf hF hn hs hc)⟩
      · exact .inr ⟨rfl, hn⟩
    · rintro (⟨hc, hco, -⟩ | ⟨-, hn⟩)
      · exact .inl ⟨hc, hco⟩
      · exact .inr hn
  · simp only [hsp, false_and, or_false]
    by_cases hso : s = old
    · subst hso
      rw [h.childOf_old hot]
      constructor
      · rintro ⟨hc, hn⟩
        exact ⟨hc, hF.ne_of_childOf hA.inTree_old hc, hn⟩
      · rintro ⟨hc, -, hn⟩
        exact ⟨hc, hn⟩
    · have hsame : g'.ChildOf s c ↔ g.ChildOf s c := by
        by_cases hsn : new = some s
        · exact h.childOf_new hsn
        · exact childOf_congr (h.elsewhere s hsp hso hsn)
      rw [hsame]
      exact ⟨fun hc => ⟨hc, hother hc hsp hso⟩, fun hc => hc.1⟩

/-- The parent of a statement afterwards. -/
theorem parent_iff (h : Edit g g' p old new) (hF : Forest g K) (hs : K s) :
    ∃ st', g'.stat s = .ok st' ∧
      ∀ q, st'.parent = some q ↔
        (s ≠ old ∧ new ≠ some s ∧ Returns (g.stat s) fun st => st.parent = some q) ∨
          (new = some s ∧ s ≠ old ∧ q = p) := by
  obtain ⟨st, hst⟩ := hF.stat s hs
  by_cases hso : s = old
  · subst hso
    obtain ⟨st', hst', hpar, -⟩ := h.at_old st hst
    exact ⟨st', hst', fun q => by simp [hpar]⟩
  · by_cases hsn : new = some s
    · obtain ⟨st', hst', heq⟩ := h.stat_new hsn hst
      have hpar : st'.parent = some p := (Stat.bare_eq_iff.1 heq).2.1
      exact ⟨st', hst', fun q => by simp [hpar, hsn, hso, eq_comm]⟩
    · have hpar : ∃ st', g'.stat s = .ok st' ∧ st'.parent = st.parent := by
        by_cases hsp : s = p
        · subst hsp
          obtain ⟨st', hst', heq⟩ := h.stat_parent hst
          exact ⟨st', hst', (Stat.bare_eq_iff.1 heq).2.1.trans Stat.exchange_parent⟩
        · obtain ⟨st', hst', heq⟩ := h.stat_elsewhere hsp hso hsn hst
          exact ⟨st', hst', (Stat.bare_eq_iff.1 heq).2.1⟩
      obtain ⟨st', hst', hpar⟩ := hpar
      exact ⟨st', hst', fun q => by simp [hpar, hso, hsn, hst]⟩

theorem nodup (h : Edit g g' p old new) (hA : Admissible g K p old new) (hF : Forest g K)
    (hs : K s) {st' : Stat} (hst' : g'.stat s = .ok st') : st'.children.Nodup := by
  obtain ⟨st, hst⟩ := hF.stat s hs
  have hnodup := hF.nodup s st hs hst
  by_cases hso : s = old
  · subst hso
    obtain ⟨st₁, hst₁, -, hchildren⟩ := h.at_old st hst
    rw [hst'] at hst₁
    cases hst₁
    exact hchildren ▸ hnodup.filter _
  · by_cases hsp : s = p
    · subst hsp
      obtain ⟨st₁, hst₁, heq⟩ := h.stat_parent hst
      rw [hst'] at hst₁
      cases hst₁
      refine (Stat.bare_eq_iff.1 heq).2.2.2.1 ▸ Stat.exchange_nodup hnodup fun b hb hbs => ?_
      exact hso (hA.eq_old_of_childOf hF hb hs ⟨st, hst, hbs⟩)
    · have hsame : ∃ st₁, g'.stat s = .ok st₁ ∧ st₁.children = st.children := by
        by_cases hsn : new = some s
        · obtain ⟨st₁, hst₁, heq⟩ := h.stat_new hsn hst
          exact ⟨st₁, hst₁, (Stat.bare_eq_iff.1 heq).2.2.2.1⟩
        · obtain ⟨st₁, hst₁, heq⟩ := h.stat_elsewhere hsp hso hsn hst
          exact ⟨st₁, hst₁, (Stat.bare_eq_iff.1 heq).2.2.2.1⟩
      obtain ⟨st₁, hst₁, hchildren⟩ := hsame
      rw [hst'] at hst₁
      cases hst₁
      exact hchildren ▸ hnodup

/-- Lists of children and parents match after the change. -/
theorem forest (h : Edit g g' p old new) (hA : Admissible g K p old new) (hF : Forest g K) :
    Forest g' K where
  root := hF.root
  root_parent := by
    obtain ⟨rt', hrt', hpar⟩ := h.parent_iff hF hF.root
    refine ⟨rt', hrt', Option.eq_none_iff_forall_ne_some.2 fun q hq => ?_⟩
    obtain ⟨rt, hrt, hnone⟩ := hF.root_parent
    rcases (hpar q).1 hq with ⟨-, -, st, hst, hst'⟩ | ⟨hn, -⟩
    · rw [hrt] at hst
      cases hst
      rw [hnone] at hst'
      cases hst'
    · exact hA.new_ne_root hF hn rfl
  stat s hs := by
    obtain ⟨st', hst', -⟩ := h.parent_iff hF hs
    exact ⟨st', hst'⟩
  nodup s st' hs hst' := h.nodup hA hF hs hst'
  down s c hs hc := by
    rcases (h.childOf_iff hA hF hs).1 hc with ⟨hsc, hco, hcn⟩ | ⟨rfl, hn⟩
    · obtain ⟨hKc, hpar₀⟩ := hF.down s c hs hsc
      obtain ⟨ct', hct', hpar⟩ := h.parent_iff hF hKc
      exact ⟨hKc, ct', hct', (hpar s).2 (.inl ⟨hco, hcn, hpar₀⟩)⟩
    · have hKc := hA.mem_new hF hn
      obtain ⟨ct', hct', hpar⟩ := h.parent_iff hF hKc
      exact ⟨hKc, ct', hct', (hpar s).2 (.inr ⟨hn, hA.new_ne_old hF hn, rfl⟩)⟩
  up s st' q hs hst' hq := by
    obtain ⟨st₁, hst₁, hpar⟩ := h.parent_iff hF hs
    rw [hst'] at hst₁
    cases hst₁
    rcases (hpar q).1 hq with ⟨hso, hsn, st, hst, hstq⟩ | ⟨hn, -, rfl⟩
    · obtain ⟨hKq, hqs⟩ := hF.up s st q hs hst hstq
      exact ⟨hKq, (h.childOf_iff hA hF hKq).2 (.inl ⟨hqs, hso, hsn⟩)⟩
    · have hKq := hF.mem hA.parent
      exact ⟨hKq, (h.childOf_iff hA hF hKq).2 (.inr ⟨rfl, hn⟩)⟩

theorem inTree_of_not_within (h : Edit g g' p old new) (hA : Admissible g K p old new)
    (hF : Forest g K) (hs : g.InTree s) (hold : ¬ g.Within old s) : g'.InTree s := by
  induction hs with
  | refl => exact .refl
  | @tail q c hq hc ih =>
    refine (ih fun hw => hold (hw.tail hc)).child ((h.childOf_iff hA hF (hF.mem hq)).2
      (.inl ⟨hc, fun hco => hold (hco ▸ .refl), fun hn => ?_⟩))
    obtain rfl := hA.eq_old_of_childOf hF hn (hF.mem hq) hc
    exact hold (.single hc)

/-- What lies in the statement that took the place is in the tree. -/
theorem inTree_of_within_new (h : Edit g g' p old new) (hA : Admissible g K p old new)
    (hF : Forest g K) {b : StatId} (hb : new = some b) (hs : g.Within b s) : g'.InTree s := by
  induction hs with
  | refl =>
    have hp : g'.InTree p := h.inTree_of_not_within hA hF hA.parent fun hw =>
      hF.acyclic hA.parent (.head' hA.child hw)
    exact hp.child ((h.childOf_iff hA hF (hF.mem hA.parent)).2 (.inr ⟨rfl, hb⟩))
  | @tail q c hq hc ih =>
    have hKq := hF.mem_within (hA.mem_new hF hb) hq
    refine ih.child ((h.childOf_iff hA hF hKq).2 (.inl ⟨hc, ?_, fun hn => ?_⟩))
    · rintro rfl
      exact hA.not_within_new hF hb (hq.tail hc)
    · obtain rfl := hA.eq_old_of_childOf hF hn hKq hc
      exact hA.not_within_new hF hb hq

/-- The tree loses what lay in the statement that was taken out, and gains what lies in the one that
took its place. -/
theorem inTree_iff (h : Edit g g' p old new) (hA : Admissible g K p old new) (hF : Forest g K) :
    g'.InTree s ↔ (g.InTree s ∧ ¬ g.Within old s) ∨ ∃ b, new = some b ∧ g.Within b s := by
  constructor
  · intro hs
    induction hs with
    | refl =>
      refine .inl ⟨.refl, fun hw => ?_⟩
      rcases ReflTransGen.cases_tail hw with heq | ⟨q, hq, hqr⟩
      · exact hA.old_ne_root hF heq.symm
      · exact hF.not_childOf_root (hF.mem (hA.inTree_old.within hq)) hqr
    | @tail q c hq hc ih =>
      have hKq : K q := by
        rcases ih with ⟨hq, -⟩ | ⟨b, hb, hq⟩
        · exact hF.mem hq
        · exact hF.mem_within (hA.mem_new hF hb) hq
      rcases (h.childOf_iff hA hF hKq).1 hc with ⟨hqc, hco, -⟩ | ⟨-, hn⟩
      · rcases ih with ⟨hq, hqo⟩ | ⟨b, hb, hq⟩
        · refine .inl ⟨hq.child hqc, fun hw => ?_⟩
          rcases ReflTransGen.cases_tail hw with rfl | ⟨q', hq', hqc'⟩
          · exact hco rfl
          · have hKq' := hF.mem (hA.inTree_old.within hq')
            exact hqo (hF.parent_unique hKq hKq' hqc hqc' ▸ hq')
        · exact .inr ⟨b, hb, hq.tail hqc⟩
      · exact .inr ⟨c, hn, .refl⟩
  · rintro (⟨hs, hw⟩ | ⟨b, hb, hs⟩)
    · exact h.inTree_of_not_within hA hF hs hw
    · exact h.inTree_of_within_new hA hF hb hs

end Edit

/-! ## The operations -/

section Operations

variable {b parent : StatId}

/-- What dropping a child does to all but the child. -/
theorem bareStat_removeChild_of_ne (h : g.removeChild p c = .ok g') (hs : s ≠ c) :
    g'.bareStat s = if p = s then (g.bareStat s).map (Stat.dropChild c) else g.bareStat s := by
  simp only [removeChild, Checked.bind_eq_ok] at h
  obtain ⟨g₁, h₁, h₂⟩ := h
  rw [bareStat_modifyStat h₂ fun _ => rfl, if_neg hs.symm, bareStat_modifyStat h₁ fun _ => rfl]

theorem bareStat_removeChild (h : g.removeChild p c = .ok g') (hpc : p ≠ c) :
    g'.exprs = g.exprs ∧ g'.bareStat p = (g.bareStat p).map (Stat.dropChild c) ∧
      g'.bareStat c = (g.bareStat c).map (fun st => { st with parent := none }) ∧
      ∀ s, s ≠ p → s ≠ c → g'.bareStat s = g.bareStat s := by
  have hne := fun s => bareStat_removeChild_of_ne (s := s) h
  simp only [removeChild, Checked.bind_eq_ok] at h
  obtain ⟨g₁, h₁, h₂⟩ := h
  obtain ⟨-, -, -, -, he₁⟩ := stat_modifyStat h₁
  obtain ⟨-, -, -, -, he₂⟩ := stat_modifyStat h₂
  refine ⟨he₂.trans he₁, ?_, ?_, fun s hsp hsc => ?_⟩
  · rw [hne p hpc, if_pos rfl]
  · rw [bareStat_modifyStat h₂ fun _ => rfl, if_pos rfl, bareStat_modifyStat h₁ fun _ => rfl,
      if_neg hpc]
  · rw [hne s hsc, if_neg hsp.symm]

theorem bareStat_replaceStat (h : g.replaceStat p old b = .ok g') (hpo : p ≠ old) (hpb : p ≠ b)
    (hob : old ≠ b) :
    g'.exprs = g.exprs ∧ g'.bareStat p = (g.bareStat p).map (Stat.replaceChild old b) ∧
      g'.bareStat b = (g.bareStat b).map (fun st => { st with parent := some p }) ∧
      g'.bareStat old = (g.bareStat old).map (fun st => { st with parent := none }) ∧
      ∀ s, s ≠ p → s ≠ old → s ≠ b → g'.bareStat s = g.bareStat s := by
  simp only [replaceStat, Checked.bind_eq_ok] at h
  obtain ⟨ot, -, g₁, h₁, g₂, h₂, g₃, h₃, g₄, h₄, g₅, h₅, ot', -, g₆, h₆, h₇⟩ := h
  -- the moves of edges change nothing here
  have e₂ : SameTree g g₂ := .trans (.foldlM h₁ fun e _ _ _ he => sameTree_changeDestination he)
    (sameTree_moveSuccessors h₂)
  have e₇ : SameTree g₅ g' := .trans (.foldlM h₆ fun e _ _ _ he => sameTree_moveLabel he)
    (.modifyStat h₇ fun _ => rfl)
  have hb₃ := bareStat_modifyStat h₃ fun _ => rfl
  have hb₄ := bareStat_modifyStat h₄ fun _ => rfl
  have hb₅ := bareStat_modifyStat h₅ fun _ => rfl
  obtain ⟨-, -, -, -, he₃⟩ := stat_modifyStat h₃
  obtain ⟨-, -, -, -, he₄⟩ := stat_modifyStat h₄
  obtain ⟨-, -, -, -, he₅⟩ := stat_modifyStat h₅
  refine ⟨?_, ?_, ?_, ?_, fun s hsp hso hsb => ?_⟩
  · rw [e₇.exprs, he₅, he₄, he₃, e₂.exprs]
  · rw [e₇.stats, hb₅, if_neg hpo.symm, hb₄, if_neg hpb.symm, hb₃, if_pos rfl, e₂.stats]
  · rw [e₇.stats, hb₅, if_neg hob, hb₄, if_pos rfl, hb₃, if_neg hpb, e₂.stats]
  · rw [e₇.stats, hb₅, if_pos rfl, hb₄, if_neg hob.symm, hb₃, if_neg hpo, e₂.stats]
  · rw [e₇.stats, hb₅, if_neg hso.symm, hb₄, if_neg hsb.symm, hb₃, if_neg hsp.symm, e₂.stats]

/-- Dropping a child leaves a gap in its parent. -/
theorem edit_removeChild (h : g.removeChild p c = .ok g') (hpc : p ≠ c) : Edit g g' p c none := by
  obtain ⟨he, hbp, hbc, hbs⟩ := bareStat_removeChild h hpc
  refine ⟨he, hbp, by simp, fun st hst => ?_, fun s hsp hsc _ => hbs s hsp hsc⟩
  obtain ⟨st', hst', heq⟩ := stat_of_bareStat_map hbc (fun _ => rfl) hst
  obtain ⟨-, hpar, -, hchildren, -⟩ := Stat.bare_eq_iff.1 heq
  exact ⟨st', hst', hpar, by simp [hchildren]⟩

/-- Taking a statement out detaches its edges and drops it from its parent. -/
theorem removeStat_eq_ok (h : g.removeStat s = .ok g') {st : Stat} (hst : g.stat s = .ok st) :
    ∃ g₁, SameTree g g₁ ∧
      ((st.parent = none ∧ g' = g₁) ∨ ∃ p, st.parent = some p ∧ g₁.removeChild p s = .ok g') := by
  simp only [removeStat, Checked.bind_eq_ok] at h
  obtain ⟨st₀, -, g₁, h₁, st₁, -, g₂, h₂, st₂, hst₂, h⟩ := h
  have e₂ : SameTree g g₂ := .trans (.foldlM h₁ fun e _ _ _ he => sameTree_detachEdge he)
    (.foldlM h₂ fun e _ _ _ he => sameTree_detachEdge he)
  obtain ⟨st', hst', -, hpar, -⟩ := e₂.stat hst
  rw [hst₂] at hst'
  cases hst'
  rw [hpar] at h
  refine ⟨g₂, e₂, ?_⟩
  cases hp : st.parent with
  | none =>
    rw [hp] at h
    exact .inl ⟨rfl, (Checked.pure_eq_ok.1 h).symm⟩
  | some p =>
    rw [hp] at h
    exact .inr ⟨p, rfl, h⟩

theorem Edit.of_sameTree {g₁ : Graph} (h : Edit g₁ g' p old new) (e : SameTree g g₁) :
    Edit g g' p old new where
  exprs := h.exprs.trans e.exprs
  at_parent := by rw [h.at_parent, e.stats]
  at_new b hb := by rw [h.at_new b hb, e.stats]
  at_old st hst := by
    obtain ⟨st₁, hst₁, -, -, -, hchildren, -⟩ := e.stat hst
    exact hchildren ▸ h.at_old st₁ hst₁
  elsewhere s hsp hso hsn := (h.elsewhere s hsp hso hsn).trans (e.stats s)

/-- Taking a statement out leaves a gap in its parent. -/
theorem edit_removeStat (h : g.removeStat s = .ok g') {st : Stat} (hst : g.stat s = .ok st)
    (hp : st.parent = some p) (hps : p ≠ s) : Edit g g' p s none := by
  obtain ⟨g₁, e₁, ⟨hnone, -⟩ | ⟨p', hp', h⟩⟩ := removeStat_eq_ok h hst
  · rw [hp] at hnone
    cases hnone
  · rw [hp] at hp'
    cases hp'
    exact (edit_removeChild h hps).of_sameTree e₁

/-- Giving the place of a statement to one that is none of its children. -/
theorem edit_replaceStat (h : g.replaceStat p old b = .ok g') (hpo : p ≠ old) (hpb : p ≠ b)
    (hob : old ≠ b) (hb : ¬ g.ChildOf old b) : Edit g g' p old (some b) := by
  obtain ⟨he, hbp, hbb, hbo, hbs⟩ := bareStat_replaceStat h hpo hpb hob
  refine ⟨he, hbp, fun c hc => Option.some.inj hc ▸ hbb, fun st hst => ?_, fun s hsp hso hsb =>
    hbs s hsp hso fun heq => hsb (congrArg some heq.symm)⟩
  obtain ⟨st', hst', heq⟩ := stat_of_bareStat_map hbo (fun _ => rfl) hst
  obtain ⟨-, hpar, -, hchildren, -⟩ := Stat.bare_eq_iff.1 heq
  refine ⟨st', hst', hpar, hchildren.trans (List.filter_eq_self.2 fun c hc => ?_).symm⟩
  simp only [ne_eq, Option.some.injEq, decide_eq_true_eq]
  rintro rfl
  exact hb ⟨st, hst, hc⟩

/-- Giving the place of a statement to one of its children. -/
theorem edit_replaceByChild {g₁ : Graph} (h₁ : g.removeChild old b = .ok g₁)
    (h : g₁.replaceStat p old b = .ok g') (hpo : p ≠ old) (hpb : p ≠ b) (hob : old ≠ b) :
    Edit g g' p old (some b) := by
  obtain ⟨he₁, hbo₁, hbb₁, hbs₁⟩ := bareStat_removeChild h₁ hob
  obtain ⟨he, hbp, hbb, hbo, hbs⟩ := bareStat_replaceStat h hpo hpb hob
  refine ⟨he.trans he₁, hbp.trans (by rw [hbs₁ p hpo hpb]; rfl), fun c hc => ?_, fun st hst => ?_,
    fun s hsp hso hsb => ?_⟩
  · obtain rfl := Option.some.inj hc
    rw [hbb, hbb₁]
    cases g.bareStat b <;> rfl
  · obtain ⟨st₁, hst₁, heq₁⟩ := stat_of_bareStat_map hbo₁ (fun _ => rfl) hst
    obtain ⟨st', hst', heq⟩ := stat_of_bareStat_map hbo (fun _ => rfl) hst₁
    obtain ⟨-, hpar, -, hchildren, -⟩ := Stat.bare_eq_iff.1 heq
    obtain ⟨-, -, -, hchildren₁, -⟩ := Stat.bare_eq_iff.1 heq₁
    refine ⟨st', hst', hpar, hchildren.trans (hchildren₁.trans (List.filter_congr fun c _ => ?_))⟩
    simp [eq_comm]
  · have hsb' : s ≠ b := fun heq => hsb (congrArg some heq.symm)
    rw [hbs s hsp hso hsb', hbs₁ s hso hsb']

/-- A new leaf: it stands for itself, and all else is as before. -/
theorem stat_block {exprs : List ExprId} (h : g.block exprs = .ok (g', b)) :
    g'.exprs = g.exprs ∧ (∀ st, g.stat b ≠ .ok st) ∧
      ∀ s, g'.stat s = if b = s then .ok (Stat.ofKind (.block exprs) []) else g.stat s := by
  simp only [block, allocStat, List.foldlM_nil, Checked.bind_eq_ok, Checked.pure_eq_ok] at h
  obtain ⟨g₁, rfl, h⟩ := h
  cases h
  exact ⟨rfl, fun st => Arena.get_alloc_fresh _ _ st, fun s => Arena.get_alloc _ _ s⟩

end Operations

end Graph

end Decompiler

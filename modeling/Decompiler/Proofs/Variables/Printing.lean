import Decompiler.Proofs.Variables.Homes

/-!
# The order in which variables are printed

A statement prints its declarations and then what it does, so that all occurrences of variables
come in one order. Which of them comes first is told by the way down to it: at every statement on the way,
nothing that is printed before the next one names the index.

* `Graph.printedRefs`: the occurrences in the order in which they are printed.
* `Graph.LeadsTo`: one step of such a way.
* `Graph.DefinedFirst`: at the end of one there is an occurrence that is marked as a definition.
* `Graph.DefinedFirst.exists_split`: it is the first one in the order.
* `Graph.leadsTo_of_within`, `Graph.leadsTo_of_firstBlockIn`: the ways that placing a declaration
  takes.
-/

namespace Decompiler

open Relation

namespace Stat

/-- What a statement prints: its declarations, and then what it does. -/
def printed (st : Stat) : List Item := st.declarations.map Item.expr ++ st.items

/-- What a statement prints before a child does not hold the child. -/
theorem notMem_of_printed {st : Stat} {c : StatId} {before after : List Item}
    (hc : st.children.Nodup) (h : st.printed = before ++ .stat c :: after) :
    .stat c ∉ before := by
  rcases List.append_eq_append_iff.1 h with ⟨l, hbefore, hitems⟩ | ⟨l, hdeclarations, hrest⟩
  · rw [hbefore, List.mem_append, not_or]
    exact ⟨by simp, notMem_of_items hc hitems.symm⟩
  · -- the child is not among the declarations
    cases l with
    | nil =>
      rw [List.append_nil] at hdeclarations
      rw [← hdeclarations]
      simp
    | cons item l =>
      obtain ⟨rfl, -⟩ := List.cons.inj hrest
      have hmem : Item.stat c ∈ st.declarations.map Item.expr := hdeclarations ▸ by simp
      simp at hmem

end Stat

namespace Graph

variable {g g' : Graph} {s t c : StatId} {e y : ExprId} {index : ℕ}

/-! ## The order -/

/-- The occurrences of variables in an item, in the order in which they are printed. -/
def refsOfItem (g : Graph) (below : StatId → Checked (List (ExprId × VarRef))) :
    Item → Checked (List (ExprId × VarRef))
  | .expr e => g.refsIn e
  | .stat c => below c

/-- The occurrences of variables in a statement and all below it, within `levels` levels, in the
order in which they are printed. -/
def printedRefsIn (g : Graph) : (levels : ℕ) → StatId → Checked (List (ExprId × VarRef))
  | 0, _ => .error .cyclic
  | levels + 1, s => do
    return (← (← g.stat s).printed.mapM (g.refsOfItem (g.printedRefsIn levels))).flatten

/-- The occurrences of variables in the tree, in the order in which they are printed. -/
def printedRefs (g : Graph) : Checked (List (ExprId × VarRef)) := g.printedRefsIn g.statLevels root

theorem printedRefsIn_succ {n : ℕ} {l : List (ExprId × VarRef)} :
    g.printedRefsIn (n + 1) s = .ok l ↔ ∃ st ls, g.stat s = .ok st ∧
      List.Forall₂ (fun item li => g.refsOfItem (g.printedRefsIn n) item = .ok li) st.printed ls ∧
      l = ls.flatten := by
  simp only [printedRefsIn, Checked.bind_eq_ok, Checked.pure_eq_ok, Checked.mapM_eq_ok_iff]
  constructor
  · rintro ⟨st, hst, ls, hls, rfl⟩
    exact ⟨st, ls, hst, hls, rfl⟩
  · rintro ⟨st, ls, hst, hls, rfl⟩
    exact ⟨st, hst, ls, hls, rfl⟩

/-- The statement itself prints an expression that names the index. -/
def PrintsAt (g : Graph) (s : StatId) (index : ℕ) : Prop :=
  Returns (g.stat s) fun st => ∃ e, .expr e ∈ st.printed ∧ g.Names e index

/-- The statement or one below it prints such an expression. -/
def Prints (g : Graph) (s : StatId) (index : ℕ) : Prop := ∃ t, g.Within s t ∧ g.PrintsAt t index

/-- Printing the item does not name the index. -/
def Silent (g : Graph) (index : ℕ) : Item → Prop
  | .expr e => ¬ g.Names e index
  | .stat c => ¬ g.Prints c index

theorem mem_printed_iff {st : Stat} (hst : g.stat s = .ok st) :
    .expr e ∈ st.printed ↔ g.ListsDeclaration s e ∨ g.Evaluates s e := by
  rw [Stat.printed, List.mem_append, ListsDeclaration, Evaluates, hst, Returns.ok_iff,
    Returns.ok_iff]
  simp

theorem printsAt_iff : g.PrintsAt s index ↔
    ∃ e, (g.ListsDeclaration s e ∨ g.Evaluates s e) ∧ g.Names e index := by
  constructor
  · rintro ⟨st, hst, e, he, hnames⟩
    exact ⟨e, (mem_printed_iff hst).1 he, hnames⟩
  · rintro ⟨e, he, hnames⟩
    obtain ⟨st, hst⟩ : ∃ st, g.stat s = .ok st := he.elim (·.imp fun _ h => h.1)
      (·.imp fun _ h => h.1)
    exact ⟨st, hst, e, (mem_printed_iff hst).2 he, hnames⟩

theorem childOf_of_printed {st : Stat} (hst : g.stat s = .ok st) (hc : .stat c ∈ st.printed) :
    g.ChildOf s c := by
  rcases List.mem_append.1 hc with hc | hc
  · simp at hc
  · exact childOf_of_items hst hc

theorem holds_of_printed {st : Stat} (hst : g.stat s = .ok st) (he : .expr e ∈ st.printed) :
    g.Holds s e :=
  ((mem_printed_iff hst).1 he).elim ListsDeclaration.holds Evaluates.holds

/-- What is printed is named by an expression of the statement. -/
theorem prints_of_mem {n : ℕ} {l : List (ExprId × VarRef)} (h : g.printedRefsIn n s = .ok l)
    {r : ExprId × VarRef} (hr : r ∈ l) : g.Prints s r.2.var.index := by
  induction n generalizing s l with
  | zero => cases h
  | succ n ih =>
    obtain ⟨st, ls, hst, hls, rfl⟩ := printedRefsIn_succ.1 h
    obtain ⟨li, hli, hr⟩ := List.mem_flatten.1 hr
    obtain ⟨item, hitem, hrefs⟩ := Checked.exists_of_mem hls.flip hli
    cases item with
    | expr e =>
      obtain ⟨hreach, hexpr⟩ := (mem_refsIn hrefs).1 hr
      exact ⟨s, .refl, st, hst, e, hitem, r.1, r.2.var, _, hreach, ⟨r.2, hexpr, rfl, rfl⟩, rfl⟩
    | stat c =>
      obtain ⟨t, ht, hprints⟩ := ih hrefs hr
      exact ⟨t, .head (childOf_of_printed hst hitem) ht, hprints⟩

/-- Where expressions can be read, the tree can be printed. -/
theorem Legible.printedRefs (o : g.Legible) : ∃ l, g.printedRefs = .ok l := by
  refine o.forest.walk (P := fun n s => ∃ l, g.printedRefsIn n s = .ok l)
    (fun n s st hs hst hbelow => ?_) .refl (Nat.le_succ _)
  have hls : Returns (st.printed.mapM (g.refsOfItem (g.printedRefsIn n)))
      (List.Forall₂ (fun _ _ => True) st.printed) := by
    refine Returns.mapM fun item hitem => ?_
    cases item with
    | expr e =>
      obtain ⟨l, hl⟩ := (o.grounded s e hs (holds_of_printed hst hitem)).refsIn
      exact ⟨l, hl, trivial⟩
    | stat c =>
      obtain ⟨l, hl⟩ := hbelow c ((childOf_iff hst).1 (childOf_of_printed hst hitem))
      exact ⟨l, hl, trivial⟩
  obtain ⟨ls, hls, -⟩ := hls
  exact ⟨_, printedRefsIn_succ.2 ⟨st, ls, hst, Checked.mapM_eq_ok_iff.1 hls, rfl⟩⟩

/-! ## The first occurrence -/

/-- The expression is the node, or assigns to it. -/
def Target (g : Graph) (e y : ExprId) : Prop := y = e ∨ ∃ right, g.expr e = .ok (.assign y right)

/-- The statement prints the child after nothing that names the index. -/
def LeadsTo (g : Graph) (index : ℕ) (s c : StatId) : Prop :=
  Returns (g.stat s) fun st => ∃ before after, st.printed = before ++ .stat c :: after ∧
    ∀ item ∈ before, g.Silent index item

/-- The statement prints an expression after nothing that names the index, and `y` is an occurrence
of the index that is declared by that expression. -/
def Opens (g : Graph) (index : ℕ) (s : StatId) (y : ExprId) : Prop :=
  Returns (g.stat s) fun st => ∃ before e after, st.printed = before ++ .expr e :: after ∧
    (∀ item ∈ before, g.Silent index item) ∧ g.Target e y ∧
    ∃ v, g.IsVar y v true ∧ v.index = index

/-- A way leads down to an occurrence of the index that is marked as a definition. -/
def DefinedFirst (g : Graph) (index : ℕ) (y : ExprId) : Prop :=
  ∃ t, ReflTransGen (g.LeadsTo index) root t ∧ g.Opens index t y

theorem LeadsTo.childOf (h : g.LeadsTo index s c) : g.ChildOf s c := by
  obtain ⟨st, hst, before, after, heq, -⟩ := h
  exact childOf_of_printed hst (heq ▸ by simp)

theorem within_of_leadsTo (h : ReflTransGen (g.LeadsTo index) s t) : g.Within s t :=
  ReflTransGen.mono (fun _ _ => LeadsTo.childOf) _ _ h

/-- What an expression declares occurs in it before all else. -/
theorem refsIn_of_target (h : g.Target e y) {w : VarRef} (hy : g.expr y = .ok (.var w))
    {l : List (ExprId × VarRef)} (hl : g.refsIn e = .ok l) : ∃ rest, l = (y, w) :: rest := by
  have hvar : ∀ n l, g.nodesIn n y = .ok l → ∃ ny rest, l = (y, ny) :: rest ∧ ny.expr = .var w := by
    intro n l hl
    cases n with
    | zero => cases hl
    | succ n =>
      obtain ⟨ny, ls, hny, -, rfl⟩ := nodesIn_succ.1 hl
      obtain ⟨ny', hny', hexpr⟩ := expr_eq_ok.1 hy
      rw [hny] at hny'
      cases hny'
      exact ⟨ny, _, rfl, hexpr⟩
  obtain ⟨nodes, hnodes, hl⟩ := Checked.bind_eq_ok.1 hl
  rw [← Checked.pure_eq_ok.1 hl]
  rcases h with rfl | ⟨right, he⟩
  · obtain ⟨ny, rest, rfl, hexpr⟩ := hvar _ _ hnodes
    exact ⟨_, by rw [List.filterMap_cons, hexpr]; rfl⟩
  · obtain ⟨ne, ls, hne, hls, rfl⟩ := nodesIn_succ.1 hnodes
    obtain ⟨ne', hne', hexpr⟩ := expr_eq_ok.1 he
    rw [hne] at hne'
    cases hne'
    rw [hexpr, Expr.children, List.forall₂_cons_left_iff] at hls
    obtain ⟨ly, ls, hly, -, rfl⟩ := hls
    obtain ⟨ny, rest, rfl, hexpr'⟩ := hvar _ _ hly
    exact ⟨_, by
      rw [List.filterMap_cons, hexpr, List.flatten_cons, List.cons_append]
      simp only [Expr.var?, Option.map_none]
      rw [List.filterMap_cons, hexpr']
      rfl⟩

/-- What is silent does not print the index. -/
theorem ne_of_silent {items : List Item} (hsilent : ∀ item ∈ items, g.Silent index item) {n : ℕ}
    {ls : List (List (ExprId × VarRef))}
    (hls : List.Forall₂ (fun item li => g.refsOfItem (g.printedRefsIn n) item = .ok li) items ls) :
    ∀ r ∈ ls.flatten, r.2.var.index ≠ index := by
  rintro r hr rfl
  obtain ⟨li, hli, hr⟩ := List.mem_flatten.1 hr
  obtain ⟨item, hitem, hrefs⟩ := Checked.exists_of_mem hls.flip hli
  have hnot := hsilent item hitem
  cases item with
  | expr e =>
    obtain ⟨hreach, hexpr⟩ := (mem_refsIn hrefs).1 hr
    exact hnot ⟨r.1, r.2.var, _, hreach, ⟨r.2, hexpr, rfl, rfl⟩, rfl⟩
  | stat c => exact hnot (prints_of_mem hrefs hr)

/-- What a way leads to is printed before all other occurrences of the index. -/
theorem exists_split_of_leadsTo (hleads : ReflTransGen (g.LeadsTo index) s t)
    (hopens : g.Opens index t y) {n : ℕ} {l : List (ExprId × VarRef)}
    (h : g.printedRefsIn n s = .ok l) : ∃ before w after, l = before ++ (y, w) :: after ∧
      w.var.index = index ∧ ∀ r ∈ before, r.2.var.index ≠ index := by
  induction hleads using ReflTransGen.head_induction_on generalizing n l with
  | refl =>
    cases n with
    | zero => cases h
    | succ n =>
      obtain ⟨st, ls, hst, hls, rfl⟩ := printedRefsIn_succ.1 h
      obtain ⟨st', hst', before, e, after, heq, hsilent, htarget, _, ⟨w, hy, rfl, -⟩, hindex⟩ :=
        hopens
      rw [hst] at hst'
      cases hst'
      rw [heq] at hls
      obtain ⟨lb, ls, rfl, hlb, hls⟩ := Checked.exists_of_forall₂_append hls
      obtain ⟨le, la, hle, -, rfl⟩ := List.forall₂_cons_left_iff.1 hls
      obtain ⟨rest, rfl⟩ := refsIn_of_target htarget hy hle
      exact ⟨lb.flatten, w, rest ++ la.flatten, by simp, hindex, ne_of_silent hsilent hlb⟩
  | head hstep _ ih =>
    cases n with
    | zero => cases h
    | succ n =>
      obtain ⟨st, ls, hst, hls, rfl⟩ := printedRefsIn_succ.1 h
      obtain ⟨st', hst', before, after, heq, hsilent⟩ := hstep
      rw [hst] at hst'
      cases hst'
      rw [heq] at hls
      obtain ⟨lb, ls, rfl, hlb, hls⟩ := Checked.exists_of_forall₂_append hls
      obtain ⟨lc, la, hlc, -, rfl⟩ := List.forall₂_cons_left_iff.1 hls
      obtain ⟨b, w, a, rfl, hindex, hb⟩ := ih hlc
      refine ⟨lb.flatten ++ b, w, a ++ la.flatten, by simp, hindex, fun r hr => ?_⟩
      exact (List.mem_append.1 hr).elim (ne_of_silent hsilent hlb r) (hb r)

/-- The first occurrence is printed first. -/
theorem DefinedFirst.exists_split (h : g.DefinedFirst index y) {l : List (ExprId × VarRef)}
    (hl : g.printedRefs = .ok l) : ∃ before w after, l = before ++ (y, w) :: after ∧
      w.var.index = index ∧ ∀ r ∈ before, r.2.var.index ≠ index :=
  h.elim fun _ h => exists_split_of_leadsTo h.1 h.2 hl

/-- It is marked, and it lies in an expression of the tree. -/
theorem DefinedFirst.occurs (o : g.Orderly) (h : g.DefinedFirst index y) :
    ∃ v, g.Occurs y v true ∧ v.index = index := by
  obtain ⟨t, hleads, st, hst, before, e, after, heq, -, htarget, v, hv, hindex⟩ := h
  have ht : g.InTree t := within_of_leadsTo hleads
  have he : g.Holds t e := holds_of_printed hst (heq ▸ by simp)
  exact ⟨v, o.occurs_iff.2 ⟨⟨t, e, ht, he, (o.grounded t e ht he).reaches_target htarget⟩, hv⟩,
    hindex⟩

/-! ## Ways down -/

/-- Only what is not mentioned is passed over. -/
theorem exists_split_of_pick {mentioned : StatId → Bool} {l : List StatId} {isLast : Bool}
    (h : pickMentioning mentioned l = some (c, isLast)) :
    ∃ before after, l = before ++ c :: after ∧ ∀ x ∈ before, mentioned x = false := by
  induction l with
  | nil => cases h
  | cons x rest ih =>
    cases rest with
    | nil =>
      cases h
      exact ⟨[], [], rfl, List.forall_mem_nil _⟩
    | cons u rest =>
      rw [pickMentioning] at h
      · split at h
        · cases h
          exact ⟨[], u :: rest, rfl, List.forall_mem_nil _⟩
        · next hx =>
          obtain ⟨before, after, heq, hbefore⟩ := ih h
          refine ⟨x :: before, after, congrArg (x :: ·) heq, List.forall_mem_cons.2 ⟨?_, hbefore⟩⟩
          exact Bool.eq_false_iff.2 hx
      · exact List.cons_ne_nil _ _

section

variable (hlists : ∀ s e, g.InTree s → g.ListsDeclaration s e → ¬ g.Names e index)

include hlists

/-- What comes first among the items of a statement is printed after declarations alone. -/
theorem leadsTo_of_items {st : Stat} (hs : g.InTree s) (hst : g.stat s = .ok st)
    (before after : List Item) (hitems : st.items = before ++ .stat c :: after)
    (hsilent : ∀ item ∈ before, g.Silent index item) : g.LeadsTo index s c := by
  refine ⟨st, hst, st.declarations.map Item.expr ++ before, after, ?_, fun item hi => ?_⟩
  · rw [Stat.printed, hitems, List.append_assoc]
  · rcases List.mem_append.1 hi with hi | hi
    · obtain ⟨e, he, rfl⟩ := List.mem_map.1 hi
      exact hlists s e hs ⟨st, hst, he⟩
    · exact hsilent item hi

/-- A way leads down to every statement that holds all that prints the index. -/
theorem leadsTo_of_within (o : g.Orderly) {a : StatId} (ha : g.InTree a) (has : g.Within a s)
    (hall : ∀ t, g.InTree t → g.PrintsAt t index → g.Within s t) :
    ReflTransGen (g.LeadsTo index) a s := by
  induction has using ReflTransGen.head_induction_on with
  | refl => exact .refl
  | @head a c hc hcs ih =>
    refine .head ?_ (ih (ha.child hc))
    obtain ⟨st, hst⟩ := o.forest.stat a ha
    have hitem := Stat.mem_items_of_children ((childOf_iff hst).1 hc) fun exprs =>
      o.leaves a st exprs ha hst
    obtain ⟨before, after, hitems⟩ := List.append_of_mem hitem
    have hnew := Stat.notMem_of_items (o.forest.nodup a st ha hst) hitems.symm
    refine leadsTo_of_items hlists ha hst _ _ hitems fun item hi => ?_
    have hmem : item ∈ st.items := hitems ▸ List.mem_append_left _ hi
    cases item with
    | expr e =>
      -- a statement above all others that print the index does not print it
      intro hnames
      have hsa := hall a ha (printsAt_iff.2 ⟨e, .inr ⟨st, hst, hmem⟩, hnames⟩)
      exact o.forest.acyclic ha (.head' hc (hcs.trans hsa))
    | stat d =>
      rintro ⟨t, hdt, hprints⟩
      have hd := childOf_of_items hst hmem
      have hst' := hall t ((ha.child hd).within hdt) hprints
      obtain rfl := o.forest.eq_of_within ha hc hd (hcs.trans hst') hdt
      exact hnew hi

/-- The block in which a variable is to be declared lies on such a way. -/
theorem leadsTo_of_firstBlockIn (o : g.Orderly) {mentioned : StatId → Bool}
    (hmentioned : ∀ c, g.InTree c → g.Prints c index → mentioned c = true) {n : ℕ}
    {l : List StatId} (hl : ∀ x ∈ l, g.InTree x)
    (h : g.firstBlockIn mentioned n l = .ok (some t)) :
    ∃ before c after, l = before ++ c :: after ∧ (∀ x ∈ before, mentioned x = false) ∧
      ReflTransGen (g.LeadsTo index) c t := by
  induction n generalizing l t with
  | zero => cases h
  | succ n ih =>
    rw [firstBlockIn] at h
    cases hpick : pickMentioning mentioned l with
    | none => simp [hpick] at h
    | some p =>
      obtain ⟨c, isLast⟩ := p
      obtain ⟨before, after, rfl, hbefore⟩ := exists_split_of_pick hpick
      refine ⟨before, c, after, rfl, hbefore, ?_⟩
      have hc : g.InTree c := hl c (by simp)
      rw [hpick] at h
      obtain ⟨labeled, -, h⟩ := Checked.bind_eq_ok.1 h
      split at h
      · cases Checked.pure_eq_ok.1 h
        exact .refl
      obtain ⟨st, hst, h⟩ := Checked.bind_eq_ok.1 h
      have hchild : ∀ x ∈ st.children, g.InTree x := fun x hx => hc.child ⟨st, hst, hx⟩
      -- whatever is not entered stands before the child that is, and is not mentioned
      have henter : ∀ l after, (∀ x ∈ l, x ∈ st.children) →
          st.items = l.map Item.stat ++ after →
          g.firstBlockIn mentioned n l = .ok (some t) → ReflTransGen (g.LeadsTo index) c t := by
        intro l after hsub hitems h
        obtain ⟨before, d, rest, rfl, hbefore, hway⟩ := ih (fun x hx => hchild x (hsub x hx)) h
        refine .head (leadsTo_of_items hlists hc hst (before.map Item.stat)
          (rest.map Item.stat ++ after) (by simpa using hitems) fun item hi => ?_) hway
        obtain ⟨x, hx, rfl⟩ := List.mem_map.1 hi
        intro hprints
        have htrue := hmentioned x (hchild x (hsub x (by simp [hx]))) hprints
        rw [hbefore x hx] at htrue
        cases htrue
      have hentry : st.first = st.children.head? := o.entries c st hc hst
      have hfirst : ∀ after, st.items = st.first.toList.map Item.stat ++ after →
          g.firstBlockIn mentioned n st.first.toList = .ok (some t) →
          ReflTransGen (g.LeadsTo index) c t := fun after =>
        henter _ after fun x hx => by
          rw [hentry] at hx
          exact List.mem_of_head? (Option.mem_toList.1 hx)
      have hhead : ∀ head : List Item, ∃ after, (st.children.map Item.stat).take 1 ++ head ++
          (st.children.map Item.stat).drop 1 = st.first.toList.map Item.stat ++ after := by
        intro head
        rw [hentry]
        cases st.children <;> simp
      split at h
      · next hkind => exact henter st.children [] (fun _ hx => hx) (by simp [Stat.items, hkind]) h
      · next b hkind =>
        obtain ⟨after, heq⟩ := hhead [.expr b.head]
        exact hfirst after (by simpa [Stat.items, hkind] using heq) h
      · next hkind =>
        obtain ⟨after, heq⟩ := hhead []
        rw [List.append_nil, List.take_append_drop] at heq
        exact hfirst after (by simpa [Stat.items, hkind] using heq) h
      · next head cases hkind =>
        obtain ⟨after, heq⟩ := hhead [.expr head]
        exact hfirst after (by simpa [Stat.items, hkind] using heq) h
      · next head body hkind =>
        obtain ⟨after, heq⟩ := hhead (head.toList.map Item.expr)
        exact hfirst after (by simpa [Stat.items, hkind] using heq) h
      · cases Checked.pure_eq_ok.1 h
        exact .refl

end

end Graph

end Decompiler

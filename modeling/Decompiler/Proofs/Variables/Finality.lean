import Decompiler.Proofs.Variables.Copies

/-!
# Finality under merging

A variable may be declared `final` as long as it is written at most once. A merge makes one variable
of two, and both bring their writes along, except for the copies between them.

* `Graph.updates`: the assignments and increments of the tree.
* `Graph.Relabels.updates`: what a merge does to them is to rename the variable that goes away.
* `Update.countP_writes_target`: what is then written to the variable that stays.
* `Method.Truthful`: no variable that may be final is written more than once.
* `Method.unify_truthful_iff`: when a merge keeps this. It does not where increments or parameters
  are overlooked (`Method.not_truthful_of_increment_or_parameter`).
-/

namespace Decompiler

open Relation

/-! ## Updates -/

/-- A node that may write a variable. -/
inductive Update where
  /-- An assignment, with the variables that its sides are, if they are variables. -/
  | assign (left right : Option Local)
  /-- An increment or a decrement, with the variable that its operand is. -/
  | increment (operand : Option Local)
  deriving DecidableEq, Repr

namespace Update

/-- Whether a variable is written. The assignment of a variable to itself does not count. -/
def writes (v : Local) : Update → Bool
  | assign left right => left = some v && right ≠ some v
  | increment operand => operand = some v

/-- Whether a variable is assigned what is no copy of one of two variables. -/
def stores (source target v : Local) : Update → Bool
  | assign left right => right ≠ some source && right ≠ some target && left = some v
  | increment _ => false

/-- Whether a variable gets a value that does not come from one of two variables by a copy. -/
def supplies (source target v : Local) (u : Update) : Bool :=
  u.stores source target v || u = increment (some v)

/-- The same for other variables. -/
def rename (ρ : Local → Local) : Update → Update
  | assign left right => assign (left.map ρ) (right.map ρ)
  | increment operand => increment (operand.map ρ)

/-- The variable that is written, if there is one. -/
def target? : Update → Option Local
  | assign left _ => left
  | increment operand => operand

variable {source target v : Local} {u : Update}

theorem target?_of_writes (h : u.writes v = true) : u.target? = some v := by
  cases u with
  | assign left right =>
    simp only [writes, Bool.and_eq_true, decide_eq_true_eq] at h
    exact h.1
  | increment operand => simpa [writes, target?] using h

theorem writes_of_supplies (hv : v = source ∨ v = target)
    (h : u.supplies source target v = true) : u.writes v = true := by
  cases u with
  | assign left right =>
    simp only [supplies, stores, writes, Bool.or_eq_true, Bool.and_eq_true, decide_eq_true_eq,
      reduceCtorEq, or_false] at h ⊢
    rcases hv with rfl | rfl
    · exact ⟨h.2, h.1.1⟩
    · exact ⟨h.2, h.1.2⟩
  | increment operand => simpa [supplies, stores, writes] using h

theorem rename_eq_some {o : Option Local} (hv : v ≠ source) (hv' : v ≠ target) :
    o.map (Candidate.rename ⟨source, target⟩) = some v ↔ o = some v := by
  cases o with
  | none => simp
  | some w => grind [Candidate.rename]

theorem rename_eq_source {o : Option Local} (hne : source ≠ target) :
    o.map (Candidate.rename ⟨source, target⟩) ≠ some source := by
  cases o with
  | none => simp
  | some w => grind [Candidate.rename]

theorem rename_eq_target {o : Option Local} :
    o.map (Candidate.rename ⟨source, target⟩) = some target ↔
      o = some source ∨ o = some target := by
  cases o with
  | none => simp
  | some w => grind [Candidate.rename]

/-- What writes another variable still does. -/
theorem writes_rename (hv : v ≠ source) (hv' : v ≠ target) :
    (u.rename (Candidate.rename ⟨source, target⟩)).writes v = u.writes v := by
  cases u <;> simp [rename, writes, rename_eq_some hv hv']

/-- Nothing writes the variable that went away. -/
theorem writes_rename_source (hne : source ≠ target) :
    (u.rename (Candidate.rename ⟨source, target⟩)).writes source = false := by
  cases u <;> simp [rename, writes, rename_eq_source hne]

/-- What writes the variable that stays gave one of the two a value of its own. -/
theorem writes_rename_target : (u.rename (Candidate.rename ⟨source, target⟩)).writes target =
    (u.supplies source target source || u.supplies source target target) := by
  cases u with
  | assign left right =>
    simp only [rename, writes, supplies, stores, ne_eq, rename_eq_target, decide_not, not_or]
    grind
  | increment operand =>
    simp only [rename, writes, supplies, stores, rename_eq_target, increment.injEq, Bool.false_or,
      Bool.decide_or]

theorem not_supplies_both (hne : source ≠ target) (h : u.supplies source target source = true) :
    u.supplies source target target = false := by
  cases u <;> simp_all [supplies, stores]

/-- The writes of the variable that stays are those that gave one of the two a value of its own. -/
theorem countP_writes_target (hne : source ≠ target) (l : List Update) :
    (l.map (rename (Candidate.rename ⟨source, target⟩))).countP (writes target) =
      l.countP (supplies source target source) + l.countP (supplies source target target) := by
  induction l with
  | nil => rfl
  | cons u l ih =>
    rw [List.map_cons, List.countP_cons, List.countP_cons, List.countP_cons, ih,
      writes_rename_target]
    cases hs : u.supplies source target source with
    | true =>
      rw [not_supplies_both hne hs]
      simp only [Bool.true_or, if_true, Bool.false_eq_true, if_false]
      omega
    | false =>
      simp only [Bool.false_or, Bool.false_eq_true, if_false]
      omega

end Update

/-! ## Updates of a graph -/

theorem Omits.sublist {α : Type} {d : α → Prop} {l l' : List α} (h : Omits d l l') :
    l'.Sublist l := by
  induction h with
  | nil => exact .slnil
  | keep _ ih => exact ih.cons_cons _
  | drop _ _ ih => exact ih.cons _

theorem Omits.mono {α : Type} {d d' : α → Prop} {l l' : List α} (h : Omits d l l')
    (hd : ∀ a, d a → d' a) : Omits d' l l' := by
  induction h with
  | nil => exact .nil
  | keep _ ih => exact .keep ih
  | drop ha _ ih => exact .drop (hd _ ha) ih

theorem Omits.flatten_eq {α : Type} {r r' : List (List α)} (h : Omits (· = []) r r') :
    r'.flatten = r.flatten := by
  induction h with
  | nil => rfl
  | keep _ ih => rw [List.flatten_cons, List.flatten_cons, ih]
  | drop ha _ ih => rw [List.flatten_cons, ha, ih, List.nil_append]

namespace Graph

variable {g g' g'' : Graph} {s : StatId} {e y : ExprId} {ρ : Local → Local} {lost : ExprId → Prop}
  {source target v : Local} {n : ℕ} {l : List Update} {x z : Expr} {bare : List (StatId × ExprId)}

/-- What a node does to variables. -/
def update? (g : Graph) : Expr → Checked (Option Update)
  | .assign left right => do return some (.assign (← g.local? left) (← g.local? right))
  | .apply op (operand :: _) =>
    if op.isIncrement then do return some (.increment (← g.local? operand)) else return none
  | _ => return none

/-- The updates in an expression, down to `levels` levels. -/
def updatesIn (g : Graph) : (levels : ℕ) → ExprId → Checked (List Update)
  | 0, _ => .error .cyclic
  | levels + 1, e => do
    let x ← g.expr e
    let inside ← x.children.mapM (g.updatesIn levels)
    return (← g.update? x).toList ++ inside.flatten

/-- The updates in the expressions that a statement evaluates. -/
def updatesOf (g : Graph) (s : StatId) : Checked (List Update) := do
  return (← (← g.stat s).ownExprs.mapM (g.updatesIn g.exprLevels)).flatten

/-- The updates in the expressions that the statements of the tree evaluate. -/
def updates (g : Graph) : Checked (List Update) := do
  return (← (← g.statements).mapM g.updatesOf).flatten

theorem updatesIn_succ : g.updatesIn (n + 1) e = .ok l ↔ ∃ x inside u, g.expr e = .ok x ∧
    List.Forall₂ (fun c lc => g.updatesIn n c = .ok lc) x.children inside ∧
      g.update? x = .ok u ∧ l = u.toList ++ inside.flatten := by
  simp only [updatesIn, Checked.bind_eq_ok, Checked.pure_eq_ok, Checked.mapM_eq_ok_iff]
  constructor
  · rintro ⟨x, hx, inside, hinside, u, hu, rfl⟩
    exact ⟨x, inside, u, hx, hinside, hu, rfl⟩
  · rintro ⟨x, inside, u, hx, hinside, hu, rfl⟩
    exact ⟨x, hx, inside, hinside, u, hu, rfl⟩

theorem updatesOf_eq_ok : g.updatesOf s = .ok l ↔ ∃ st ls, g.stat s = .ok st ∧
    List.Forall₂ (fun e le => g.updatesIn g.exprLevels e = .ok le) st.kind.exprs ls ∧
      ls.flatten = l := by
  simp only [updatesOf, Checked.bind_eq_ok, Checked.pure_eq_ok, Checked.mapM_eq_ok_iff,
    Stat.ownExprs_eq]
  constructor
  · rintro ⟨st, hst, ls, hls, rfl⟩
    exact ⟨st, ls, hst, hls, rfl⟩
  · rintro ⟨st, ls, hst, hls, rfl⟩
    exact ⟨st, hst, ls, hls, rfl⟩

theorem updates_eq_ok : g.updates = .ok l ↔ ∃ stats ls, g.statements = .ok stats ∧
    List.Forall₂ (fun s lu => g.updatesOf s = .ok lu) stats ls ∧ ls.flatten = l := by
  simp only [updates, Checked.bind_eq_ok, Checked.pure_eq_ok, Checked.mapM_eq_ok_iff]
  constructor
  · rintro ⟨stats, hstats, ls, hls, rfl⟩
    exact ⟨stats, ls, hstats, hls, rfl⟩
  · rintro ⟨stats, ls, hstats, hls, rfl⟩
    exact ⟨stats, hstats, ls, hls, rfl⟩

theorem mem_updatesIn (h : g.updatesIn n e = .ok l) (u : Update) : u ∈ l ↔
    ∃ y x, g.Reaches e y ∧ g.expr y = .ok x ∧ g.update? x = .ok (some u) := by
  induction n generalizing e l u with
  | zero => cases h
  | succ n ih =>
    obtain ⟨x, inside, u?, hx, hinside, hu?, rfl⟩ := updatesIn_succ.1 h
    obtain ⟨node, hnode, rfl⟩ := expr_eq_ok.1 hx
    rw [List.mem_append, mem_flatten_of_forall₂ hinside fun c lc hc => ih hc, Option.mem_toList]
    constructor
    · rintro (rfl | ⟨c, hc, y, z, hy, hz, hu⟩)
      · exact ⟨e, _, .refl, hx, hu?⟩
      · exact ⟨y, z, .head ⟨node, hnode, hc⟩ hy, hz, hu⟩
    · rintro ⟨y, z, hy, hz, hu⟩
      rcases ReflTransGen.cases_head hy with rfl | ⟨c, hc, hy⟩
      · rw [hx] at hz
        cases hz
        exact .inl (Except.ok.inj (hu?.symm.trans hu))
      · exact .inr ⟨c, (subOf_iff hnode).1 hc, y, z, hy, hz, hu⟩

/-- The updates of a graph are those that its owned nodes are. -/
theorem mem_updates (h : g.updates = .ok l) (u : Update) :
    u ∈ l ↔ ∃ n, g.Owned n ∧ g.update? n.expr = .ok (some u) := by
  obtain ⟨stats, ls, hstats, hls, rfl⟩ := updates_eq_ok.1 h
  have hstat : ∀ s lu, g.updatesOf s = .ok lu → ∀ u, u ∈ lu ↔ ∃ st, g.stat s = .ok st ∧
      ∃ e ∈ st.kind.exprs, ∃ y x, g.Reaches e y ∧ g.expr y = .ok x ∧
        g.update? x = .ok (some u) := by
    intro s lu hlu u
    obtain ⟨st, les, hst, hles, rfl⟩ := updatesOf_eq_ok.1 hlu
    rw [mem_flatten_of_forall₂ hles fun e le he => mem_updatesIn he]
    simp [hst]
  rw [mem_flatten_of_forall₂ hls hstat]
  constructor
  · rintro ⟨s, hs, st, hst, e, he, y, x, hy, hx, hu⟩
    exact ⟨⟨s, e, y, x⟩, ⟨(mem_preorderIn hstats s).1 hs, ⟨st, hst, he⟩, hy, hx⟩, hu⟩
  · rintro ⟨n, ⟨hs, ⟨st, hst, he⟩, hy, hx⟩, hu⟩
    exact ⟨n.stat, (mem_preorderIn hstats n.stat).2 hs, st, hst, n.top, he, n.id, n.expr, hy, hx,
      hu⟩

/-! ## What a merge does to them -/

theorem update?_shape (x : Expr) : g.update? x.shape = g.update? x := by
  cases x <;> rfl

namespace RelabelsIn

theorem update? (h : RelabelsIn g g' ρ e) (hx : g.expr e = .ok x) (hz : z.shape = x.shape)
    {u : Option Update} (hu : g.update? x = .ok u) :
    g'.update? z = .ok (u.map (.rename ρ)) := by
  obtain ⟨node, hnode, rfl⟩ := expr_eq_ok.1 hx
  have hchild : ∀ c ∈ node.expr.children, ∀ v, g.local? c = .ok v → g'.local? c = .ok (v.map ρ) :=
    fun c hc v hv => (h.below (.single ⟨node, hnode, hc⟩)).local? hv
  rw [← update?_shape, hz, update?_shape]
  unfold Graph.update? at hu ⊢
  split at hu
  · next left right heq =>
    simp only [Checked.bind_eq_ok, Checked.pure_eq_ok] at hu
    obtain ⟨v, hv, w, hw, rfl⟩ := hu
    simp [hchild left (by simp [heq, Expr.children]) v hv,
      hchild right (by simp [heq, Expr.children]) w hw, Update.rename]
  · next op operand rest heq =>
    split at hu
    · next hop =>
      simp only [Checked.bind_eq_ok, Checked.pure_eq_ok] at hu
      obtain ⟨v, hv, rfl⟩ := hu
      simp [hop, hchild operand (by simp [heq, Expr.children]) v hv, Update.rename]
    · next hop =>
      cases hu
      simp [hop]
  · cases hu
    rfl

theorem updatesIn (h : RelabelsIn g g' ρ e) (hl : g.updatesIn n e = .ok l) :
    g'.updatesIn n e = .ok (l.map (.rename ρ)) := by
  induction n generalizing e l with
  | zero => cases hl
  | succ n ih =>
    obtain ⟨x, inside, u, hx, hinside, hu, rfl⟩ := updatesIn_succ.1 hl
    obtain ⟨z, hz, hshape, -⟩ := h e x .refl hx
    obtain ⟨node, hnode, rfl⟩ := expr_eq_ok.1 hx
    refine updatesIn_succ.2 ⟨z, inside.map (List.map (.rename ρ)), u.map (.rename ρ), hz, ?_,
      h.update? hx hshape hu, ?_⟩
    · rw [Expr.children_eq_of_shape hshape, List.forall₂_map_right_iff]
      have hboth := (List.forall₂_and_left _ _).2 ⟨fun _ hc => hc, hinside⟩
      exact hboth.imp fun c lc hc => ih (h.below (.single ⟨node, hnode, hc.1⟩)) hc.2
    · cases u <;> simp [List.map_flatten]

end RelabelsIn

/-- Statements evaluate the same expressions but for some that are lost, and the variables of these
expressions get new names. -/
structure Relabels (g g' : Graph) (ρ : Local → Local) (lost : ExprId → Prop) : Prop where
  /-- The number of statements. -/
  stats : g'.stats.size = g.stats.size
  /-- The number of expressions. -/
  exprs : g'.exprs.size = g.exprs.size
  /-- The statements. -/
  stat : ∀ s st, g.stat s = .ok st → Returns (g'.stat s) fun st' =>
    st'.children = st.children ∧ Omits lost st.kind.exprs st'.kind.exprs
  /-- Their expressions. -/
  nodes : ∀ s e, g.Owns s e → RelabelsIn g g' ρ e

namespace Relabels

variable (r : Relabels g g' ρ lost)

include r

theorem preorderIn {stats : List StatId} (h : g.preorderIn n s = .ok stats) :
    g'.preorderIn n s = .ok stats := by
  induction n generalizing s stats with
  | zero => cases h
  | succ n ih =>
    obtain ⟨st, ls, hst, hls, rfl⟩ := preorderIn_succ.1 h
    obtain ⟨st', hst', hchildren, -⟩ := r.stat s st hst
    exact preorderIn_succ.2 ⟨st', ls, hst', hchildren ▸ hls.imp fun c lc hc => ih hc, rfl⟩

variable (hlost : ∀ e, lost e → ∃ v, g.expr e = .ok (.var v))

include hlost

/-- What is lost does not write variables, so that all updates are still there. -/
theorem updatesOf (hs : g.InTree s) (h : g.updatesOf s = .ok l) :
    g'.updatesOf s = .ok (l.map (.rename ρ)) := by
  obtain ⟨st, ls, hst, hls, rfl⟩ := updatesOf_eq_ok.1 h
  obtain ⟨st', hst', -, homits⟩ := r.stat s st hst
  have hempty : ∀ e le, lost e → g.updatesIn g.exprLevels e = .ok le → le = [] := by
    intro e le he hle
    obtain ⟨v, hv⟩ := hlost e he
    obtain ⟨x, inside, u, hx, hinside, hu, rfl⟩ := updatesIn_succ.1 hle
    rw [hv] at hx
    cases hx
    cases hinside
    cases hu
    rfl
  obtain ⟨ls', hls', homits'⟩ := homits.forall₂ hls (· = []) hempty
  refine updatesOf_eq_ok.2 ⟨st', ls'.map (List.map (.rename ρ)), hst', ?_, ?_⟩
  · rw [List.forall₂_map_right_iff]
    have hown : ∀ e ∈ st'.kind.exprs, g.Owns s e := fun e he =>
      ⟨hs, st, hst, homits.sublist.subset he⟩
    have hboth := (List.forall₂_and_left _ _).2 ⟨hown, hls'⟩
    rw [exprLevels, r.exprs]
    exact hboth.imp fun e le he => (r.nodes s e he.1).updatesIn he.2
  · rw [← List.map_flatten, homits'.flatten_eq]

/-- The updates are the same ones under new names. -/
theorem updates (h : g.updates = .ok l) : g'.updates = .ok (l.map (.rename ρ)) := by
  obtain ⟨stats, ls, hstats, hls, rfl⟩ := updates_eq_ok.1 h
  refine updates_eq_ok.2 ⟨stats, ls.map (List.map (.rename ρ)), ?_, ?_, List.map_flatten.symm⟩
  · rw [statements, statLevels, r.stats]
    exact r.preorderIn hstats
  · rw [List.forall₂_map_right_iff]
    have hmem : ∀ s ∈ stats, g.InTree s := fun s hs => (mem_preorderIn hstats s).1 hs
    have hboth := (List.forall₂_and_left _ _).2 ⟨hmem, hls⟩
    exact hboth.imp fun s lu hs => r.updatesOf hlost hs.1 hs.2

end Relabels

/-- Lists of statements lose expressions, and expressions keep all but types, debug entries and
offsets. -/
structure Thins (g g' : Graph) (lost : ExprId → Prop) : Prop where
  /-- The number of statements. -/
  stats : g'.stats.size = g.stats.size
  /-- The number of expressions. -/
  exprs : g'.exprs.size = g.exprs.size
  /-- The statements. -/
  stat : ∀ s st, g.stat s = .ok st → Returns (g'.stat s) fun st' =>
    st'.children = st.children ∧ Omits lost st.kind.exprs st'.kind.exprs
  /-- The expressions. -/
  expr : ∀ e x, g.expr e = .ok x → Returns (g'.expr e) fun x' => x'.outline = x.outline

namespace Thins

theorem of_stats_eq (hstats : g'.stats = g.stats) (hsize : g'.exprs.size = g.exprs.size)
    (hexpr : ∀ e x, g.expr e = .ok x → Returns (g'.expr e) fun x' => x'.outline = x.outline) :
    Thins g g' lost := by
  refine ⟨congrArg Arena.size hstats, hsize, fun s st hst => ⟨st, ?_, rfl, .refl _⟩, hexpr⟩
  rw [Graph.stat, hstats]
  exact hst

theorem refl (g : Graph) : Thins g g lost := of_stats_eq rfl rfl fun _ x hx => ⟨x, hx, rfl⟩

theorem trans (h : Thins g g' lost) (h' : Thins g' g'' lost) : Thins g g'' lost := by
  refine ⟨h'.stats.trans h.stats, h'.exprs.trans h.exprs, fun s st hst => ?_, fun e x hx => ?_⟩
  · obtain ⟨st', hst', hchildren, homits⟩ := h.stat s st hst
    exact (h'.stat s st' hst').mono fun _ ⟨hchildren', homits'⟩ =>
      ⟨hchildren'.trans hchildren, homits.trans homits'⟩
  · obtain ⟨x', hx', houtline⟩ := h.expr e x hx
    exact (h'.expr e x' hx').mono fun _ houtline' => houtline'.trans houtline

theorem modifyStat {f : Stat → Stat} (h : g.modifyStat s f = .ok g')
    (hf : ∀ st, g.stat s = .ok st → (f st).children = st.children ∧
      Omits lost st.kind.exprs (f st).kind.exprs) : Thins g g' lost := by
  obtain ⟨st, hst, ht, -, hx⟩ := stat_modifyStat h
  have hsize : g'.stats.size = g.stats.size := by
    simp only [Graph.modifyStat, Checked.bind_eq_ok, Checked.pure_eq_ok] at h
    obtain ⟨a, ha, rfl⟩ := h
    exact (Arena.get_modify ha).choose_spec.2.1
  refine ⟨hsize, congrArg Arena.size hx, fun t tt htt => ?_, fun e x he => ⟨x, ?_, rfl⟩⟩
  · rw [ht]
    split
    · next hs =>
      rw [← hs, hst] at htt
      cases htt
      exact ⟨_, rfl, hf st hst⟩
    · exact ⟨tt, htt, rfl, .refl _⟩
  · rw [Graph.expr, node, hx]
    exact he

/-- Expressions are dropped from a list, and then the list is put into a statement. -/
theorem dropFrom {doomed : ExprId → Checked Bool} {keepLone : Bool} {l left : List ExprId}
    {g₁ : Graph} (h₁ : dropFrom doomed keepLone g [] l = .ok (g₁, left)) :
    Thins g g₁ lost ∧ (∀ s, g₁.stat s = g.stat s) ∧
      Omits (fun e => doomed e = .ok true) l left := by
  obtain ⟨hstats, hexpr, hsize, rest, rfl, homits⟩ := dropFrom_omits h₁
  refine ⟨of_stats_eq hstats hsize fun e x hx => ⟨x, (hexpr e).trans hx, rfl⟩, fun s => ?_, homits⟩
  rw [Graph.stat, hstats, Graph.stat]

theorem dropBareDeclarations (h : dropBareDeclarations bare g s = .ok g')
    (hlost : ∀ b ∈ bare, lost b.2) : Thins g g' lost := by
  obtain ⟨st, hst, h⟩ := Checked.bind_eq_ok.1 h
  split at h
  · next exprs _ hexprs =>
    obtain ⟨⟨g₁, left⟩, h₁, h₂⟩ := Checked.bind_eq_ok.1 h
    obtain ⟨ht, hstat, homits⟩ := Thins.dropFrom h₁
    refine ht.trans (.modifyStat h₂ fun st' hst' => ?_)
    rw [hstat, hst] at hst'
    cases hst'
    have hkind := Stat.exprs?_eq_some.1 hexprs
    refine ⟨by simp [Stat.withExprs, hkind], ?_⟩
    simp only [Stat.withExprs, hkind]
    exact homits.mono fun e he => hlost (s, e) (by simpa using he)
  · cases h
    exact .refl g

theorem mergeDeclarations {ty : Ty} (h : mergeDeclarations source target ty g s = .ok g') :
    Thins g g' lost := by
  simp only [Graph.mergeDeclarations, Checked.bind_eq_ok] at h
  obtain ⟨st, hst, ⟨g₁, left⟩, h₁, g₂, h₂, h₃⟩ := h
  have ht : Thins g g₁ lost := (Thins.dropFrom h₁).1
  obtain ⟨hstats, hsize⟩ := foldlM_modifyExpr_frame (i := id) h₂
  have hretype : Thins g₁ g₂ lost := .of_stats_eq hstats hsize fun e x hx =>
    ((Revises.retype (Expr.mapVar_ty_outline target ty) h₂).exprs e x hx).mono fun _ h => h.2 id
  exact ht.trans (hretype.trans (.modifyStat h₃ fun st _ => ⟨rfl, .refl _⟩))

end Thins

end Graph

namespace Method

open Decompiler.Graph

variable {g g' : Graph} {m m' : Method} {source target v : Local} {l : List Update}
  {nodes : List OwnedNode} {ty : Ty}

/-- A merge loses declarations only, and renames the variable that goes away. -/
theorem renameOccurrences_relabels (hnodes : ∀ n, n ∈ nodes ↔ g.Owned n)
    (h : renameOccurrences g nodes source target ty = .ok g') :
    Relabels g g' (Candidate.rename ⟨source, target⟩) fun e => g.local? e = .ok (some source) := by
  simp only [renameOccurrences, Checked.bind_eq_ok] at h
  obtain ⟨constants, -, g₁, h₁, g₂, h₂, stats, -, g₃, h₃, h₄⟩ := h
  have r : Renames g g₂ (Candidate.rename ⟨source, target⟩) :=
    renames_of_fold hnodes (fun z => by cases z <;> rfl) h₁ h₂
  have hstats₂ : g₂.stats = g.stats :=
    (foldlM_modifyExpr_frame (i := id) h₂).1.trans
      (foldlM_modifyExpr_frame (i := OwnedNode.id) h₁).1
  have t₃ : Thins g₂ g₃ fun e => g.local? e = .ok (some source) :=
    Checked.foldlM_keeps (Thins g₂ · _) h₃ (.refl g₂) fun s _ _ _ ht hdrop =>
      ht.trans (.dropBareDeclarations hdrop fun b hb => by
        obtain ⟨n, hn, rfl⟩ := List.mem_map.1 hb
        exact local?_of_mem_filter hnodes (List.mem_of_mem_filter hn))
  have t : Thins g₂ g' fun e => g.local? e = .ok (some source) :=
    Checked.foldlM_keeps (Thins g₂ · _) h₄ t₃ fun s _ _ _ ht hmerge =>
      ht.trans (.mergeDeclarations hmerge)
  refine ⟨t.stats.trans (congrArg Arena.size hstats₂), t.exprs.trans r.size, fun s st hst =>
    t.stat s st ((r.stat s).trans hst), fun s e hown y z hy hz => ?_⟩
  obtain ⟨z₂, hz₂, hshape, hlocal⟩ := r.node s e y z hown hy hz
  refine (t.expr y z₂ hz₂).mono fun z' houtline => ⟨?_, ?_⟩
  · rw [Expr.shape_eq_of_outline houtline, hshape]
  · rw [Expr.local?_eq_of_outline houtline, hlocal]

theorem unify_updates (h : m.unify source target = .ok (m', .merged))
    (hl : m.graph.updates = .ok l) :
    m'.graph.updates = .ok (l.map (.rename (Candidate.rename ⟨source, target⟩))) := by
  obtain ⟨-, ty, nodes, -, hnodes, hgraph, -⟩ := unify_eq_merged h
  refine (renameOccurrences_relabels (fun n => mem_ownedNodes hnodes) hgraph).updates
    (fun e he => ?_) hl
  obtain ⟨w, hw, -⟩ := local?_eq_ok.1 he
  exact ⟨w, hw⟩

/-- A node stores to a variable exactly if it is an update that does. -/
theorem stores_eq_true {n : OwnedNode} : g.stores source target v n = .ok true ↔
    ∃ u, g.update? n.expr = .ok (some u) ∧ u.stores source target v = true := by
  obtain ⟨s, top, id, x⟩ := n
  cases x with
  | assign left right =>
    simp only [stores, Expr.assign?, update?, Checked.bind_eq_ok, Checked.pure_eq_ok,
      Option.some.injEq]
    constructor
    · rintro ⟨read, hread, written, hwritten, hstores⟩
      exact ⟨_, ⟨written, hwritten, read, hread, rfl⟩, hstores⟩
    · rintro ⟨u, ⟨written, hwritten, read, hread, rfl⟩, hstores⟩
      exact ⟨read, hread, written, hwritten, hstores⟩
  | apply op operands =>
    cases operands with
    | nil => simp [stores, Expr.assign?, update?]
    | cons operand rest =>
      simp only [stores, Expr.assign?, update?, Checked.pure_eq_ok, Bool.false_eq_true, false_iff]
      rintro ⟨u, hu, hstores⟩
      split at hu
      · simp only [Checked.bind_eq_ok, Checked.pure_eq_ok, Option.some.injEq] at hu
        obtain ⟨v, -, rfl⟩ := hu
        cases hstores
      · cases hu
  | _ => simp [stores, Expr.assign?, update?]

/-- The walk over the nodes finds out whether some update stores to a variable. -/
theorem anyM_stores {b : Bool} (hnodes : g.ownedNodes = .ok nodes) (hl : g.updates = .ok l)
    (h : nodes.anyM (g.stores source target v) = .ok b) :
    b = l.any (Update.stores source target v) := by
  cases b with
  | true =>
    obtain ⟨n, hn, hstores⟩ := Checked.exists_of_anyM h
    obtain ⟨u, hu, hstores⟩ := stores_eq_true.1 hstores
    exact (List.any_eq_true.2 ⟨u, (mem_updates hl u).2 ⟨n, (mem_ownedNodes hnodes).1 hn, hu⟩,
      hstores⟩).symm
  | false =>
    refine (List.any_eq_false.2 fun u hu hstores => ?_).symm
    obtain ⟨n, hn, hu⟩ := (mem_updates hl u).1 hu
    have htrue : g.stores source target v n = .ok true := stores_eq_true.2 ⟨u, hu, hstores⟩
    cases htrue.symm.trans (Checked.forall_of_anyM h n ((mem_ownedNodes hnodes).2 hn))

end Method

/-! ## Finality -/

theorem Finality.merged_eq_nonFinal {a b : Finality} :
    a.merged b = .nonFinal ↔ a = .nonFinal ∨ b = .nonFinal := by
  cases a <;> cases b <;> simp [merged]

namespace Registry

variable {r : Registry} {l : List Update} {v : Local}

/-- Whether a variable holds a parameter when the method starts. -/
def isParameter (r : Registry) (v : Local) : Bool := v.version = 0 && v.index ∈ r.parameterSlots

/-- How often a variable is written. The start of the method writes the parameters. -/
def writes (r : Registry) (l : List Update) (v : Local) : ℕ :=
  l.countP (Update.writes v) + if r.isParameter v then 1 else 0

/-- The variables that may be written. -/
def written (r : Registry) (l : List Update) : List Local :=
  l.filterMap Update.target? ++ r.parameterSlots.map fun slot => ⟨slot, 0⟩

theorem writes_eq_zero (h : v ∉ r.written l) : r.writes l v = 0 := by
  simp only [written, List.mem_append, List.mem_filterMap, List.mem_map, not_or] at h
  have hcount : l.countP (Update.writes v) = 0 := List.countP_eq_zero.2 fun u hu hw =>
    h.1 ⟨u, hu, Update.target?_of_writes hw⟩
  have hparameter : r.isParameter v = false := by
    by_contra hnot
    simp only [isParameter, Bool.and_eq_true, decide_eq_true_eq, Bool.not_eq_false] at hnot
    refine h.2 ⟨v.index, hnot.2, ?_⟩
    rw [← hnot.1]
  simp [writes, hcount, hparameter]

end Registry

namespace Method

open Decompiler.Graph

variable {m m' : Method} {source target v : Local} {l : List Update}

/-- A variable that may be final is written at most once. -/
def Truthful (m : Method) : Prop :=
  Returns m.graph.updates fun l =>
    ∀ v, m.vars.finality v ≠ .nonFinal → m.vars.writes l v ≤ 1

theorem truthful_iff : m.Truthful ↔ Returns m.graph.updates fun l => ∀ v ∈ m.vars.written l,
    m.vars.finality v ≠ .nonFinal → m.vars.writes l v ≤ 1 := by
  refine exists_congr fun l => and_congr_right fun _ => ⟨fun h v _ => h v, fun h v hv => ?_⟩
  by_cases hmem : v ∈ m.vars.written l
  · exact h v hmem hv
  · exact (Registry.writes_eq_zero hmem).le.trans (Nat.zero_le 1)

instance (m : Method) : Decidable m.Truthful := decidable_of_iff' _ truthful_iff

theorem mergeKnown_finality {r r' : Registry} {ty : Ty} {bothStored : Bool}
    (h : mergeKnown r source target ty bothStored = .ok r') (v : Local) :
    r'.finality v = if target = v then
      if bothStored then .nonFinal else (r.finality source).merged (r.finality target)
      else r.finality v := by
  simp only [mergeKnown, Registry.recordMerge, Checked.bind_eq_ok, Checked.pure_eq_ok] at h
  obtain ⟨leaders, -, rfl⟩ := h
  rw [Registry.finality, Table.get?_insert]
  split <;> rfl

/-- What a merge makes of updates and of finality. -/
structure Amalgamates (m m' : Method) (source target : Local) (l : List Update) : Prop where
  /-- The updates. -/
  updates : m'.graph.updates = .ok (l.map (.rename (Candidate.rename ⟨source, target⟩)))
  /-- The parameters. -/
  parameters : m'.vars.parameterSlots = m.vars.parameterSlots
  /-- The variable that stays is not final, if one of the two was not or both are stored to. -/
  finality : m'.vars.finality target = .nonFinal ↔
    l.any (Update.stores source target source) = true ∧
        l.any (Update.stores source target target) = true ∨
      m.vars.finality source = .nonFinal ∨ m.vars.finality target = .nonFinal
  /-- Other variables stay as they are. -/
  others : ∀ v, v ≠ target → m'.vars.finality v = m.vars.finality v

theorem unify_amalgamates (h : m.unify source target = .ok (m', .merged))
    (hl : m.graph.updates = .ok l) : m.Amalgamates m' source target l := by
  obtain ⟨-, -, ty, nodes, sourceStored, targetStored, -, hnodes, hsource, htarget, -, hvars⟩ :=
    unify_inv h
  have hfinality := mergeKnown_finality hvars
  rw [anyM_stores hnodes hl hsource, anyM_stores hnodes hl htarget] at hfinality
  refine ⟨unify_updates h hl, (mergeKnown_frame hvars).2, ?_, fun v hv => ?_⟩
  · rw [hfinality, if_pos rfl, ← Bool.and_eq_true]
    split
    · next hboth => simp [hboth]
    · next hboth => simp [hboth, Finality.merged_eq_nonFinal]
  · rw [hfinality, if_neg (Ne.symm hv)]

namespace Amalgamates

variable (h : m.Amalgamates m' source target l) (hne : source ≠ target)

include h hne

/-- The variable that stays gets the values of both, and maybe a parameter. -/
theorem writes_target :
    m'.vars.writes (l.map (.rename (Candidate.rename ⟨source, target⟩))) target =
      l.countP (Update.supplies source target source) +
        l.countP (Update.supplies source target target) +
          if m.vars.isParameter target then 1 else 0 := by
  rw [Registry.writes, Update.countP_writes_target hne, Registry.isParameter, h.parameters,
    Registry.isParameter]

/-- No other variable is written more often than before. -/
theorem writes_le (hv : v ≠ target) :
    m'.vars.writes (l.map (.rename (Candidate.rename ⟨source, target⟩))) v ≤ m.vars.writes l v := by
  have hcount : (l.map (.rename (Candidate.rename ⟨source, target⟩))).countP (Update.writes v) ≤
      l.countP (Update.writes v) := by
    rw [List.countP_map]
    refine List.countP_mono_left fun u _ hu => ?_
    by_cases hs : v = source
    · subst hs
      rw [Function.comp_apply, Update.writes_rename_source hne] at hu
      cases hu
    · rwa [Function.comp_apply, Update.writes_rename hs hv] at hu
  rw [Registry.writes, Registry.isParameter, h.parameters]
  exact Nat.add_le_add_right hcount _

end Amalgamates

/-- A merge keeps finality truthful exactly if no write is overlooked: where both variables may be
final and both get values that are no copies of each other, both must get them by assignments. The
variable that stays may get its value as a parameter, and either may be incremented. -/
theorem unify_truthful_iff (m m' : Method) (source target : Local) (hm : m.Truthful)
    (h : m.unify source target = .ok (m', .merged)) :
    m'.Truthful ↔ Returns m.graph.updates fun l =>
      m.vars.finality source ≠ .nonFinal → m.vars.finality target ≠ .nonFinal →
      l.any (Update.supplies source target source) = true →
      (l.any (Update.supplies source target target) || m.vars.isParameter target) = true →
      l.any (Update.stores source target source) = true ∧
        l.any (Update.stores source target target) = true := by
  obtain ⟨l, hl, htruth⟩ := hm
  have hne := (unify_inv h).1
  have hall := unify_amalgamates h hl
  have hwrites := hall.writes_target hne
  have hpos : ∀ p : Update → Bool, l.any p = true ↔ 0 < l.countP p := fun p => by
    rw [List.any_eq_true, List.countP_pos_iff]
  rw [hl, Returns.ok_iff, Truthful, hall.updates, Returns.ok_iff]
  constructor
  · intro hafter hs ht hsource htarget
    by_contra hnot
    have hfinal : m'.vars.finality target ≠ .nonFinal := fun hnon =>
      (hall.finality.1 hnon).elim hnot fun hnon => hnon.elim hs ht
    have hle := hafter target hfinal
    -- both bring a write along
    rw [hpos] at hsource
    rcases (Bool.or_eq_true _ _).mp htarget with htarget | hparameter
    · rw [hpos] at htarget
      omega
    · rw [if_pos hparameter] at hwrites
      omega
  · intro hcond v hv
    by_cases hvt : v = target
    · subst hvt
      obtain ⟨hnot, hs, ht⟩ : _ ∧ _ ∧ _ := by simpa only [ne_eq, hall.finality, not_or] using hv
      have hsource : l.countP (Update.supplies source v source) ≤ l.countP (Update.writes source) :=
        List.countP_mono_left fun u _ => Update.writes_of_supplies (.inl rfl)
      have htarget : l.countP (Update.supplies source v v) ≤ l.countP (Update.writes v) :=
        List.countP_mono_left fun u _ => Update.writes_of_supplies (.inr rfl)
      have hsource_le := htruth source hs
      have htarget_le := htruth v ht
      rw [Registry.writes] at hsource_le htarget_le
      by_contra hmore
      have hboth : 0 < l.countP (Update.supplies source v source) ∧
          (0 < l.countP (Update.supplies source v v) ∨ m.vars.isParameter v = true) := by
        by_cases hp : m.vars.isParameter v = true
        · rw [if_pos hp] at hwrites htarget_le
          exact ⟨by omega, .inr hp⟩
        · rw [if_neg hp] at hwrites htarget_le
          exact ⟨by omega, .inl (by omega)⟩
      refine hnot (hcond hs ht ((hpos _).2 hboth.1) ?_)
      rw [Bool.or_eq_true, hpos]
      exact hboth.2
    · exact (hall.writes_le hne hvt).trans (htruth v (hall.others v hvt ▸ hv))

/-- A method whose body is some of `v3 = 5`, `v5 = 7`, `v5++` and `Out.print(v3)`, at 2, 5, 7 and 9,
with parameters in the given slots. -/
def writingMethod (body : List ExprId) (slots : List ℕ) : Method where
  graph :=
    { stats := ⟨#[
        ⟨.exit, none, none, [], [], [], [], []⟩,
        ⟨.root, none, some ⟨2⟩, [⟨2⟩], [], [], [], []⟩,
        ⟨.block body, some ⟨1⟩, none, [], [], [], [], []⟩]⟩
      edges := .empty
      exprs :=
        let occurrence (index : ℕ) : Expr := .var ⟨⟨index, 0⟩, ⟨.int, 0⟩, false, false, none⟩
        ⟨#[
          ⟨occurrence 3, .empty⟩,
          ⟨.const ⟨.int, 0⟩ (.int 5), .empty⟩,
          ⟨.assign ⟨0⟩ ⟨1⟩, .empty⟩,
          ⟨occurrence 5, .empty⟩,
          ⟨.const ⟨.int, 0⟩ (.int 7), .empty⟩,
          ⟨.assign ⟨3⟩ ⟨4⟩, .empty⟩,
          ⟨occurrence 5, .empty⟩,
          ⟨.apply .postInc [⟨6⟩], .empty⟩,
          ⟨occurrence 3, .empty⟩,
          ⟨.call ⟨"Out", "print", "(I)V", none, [⟨8⟩]⟩, .empty⟩]⟩ }
  vars := .ofSlots none slots

/-- `v3 = 5; v5 = 7` is found to write the merged variable twice. -/
theorem unify_truthful_iff_stored_twice :
    (writingMethod [⟨2⟩, ⟨5⟩] []).Truthful ∧
      Returns ((writingMethod [⟨2⟩, ⟨5⟩] []).unify ⟨5, 0⟩ ⟨3, 0⟩) fun r =>
        r.2 = .merged ∧ r.1.Truthful := by
  have hm : (writingMethod [⟨2⟩, ⟨5⟩] []).Truthful := by decide +kernel
  have hunify : Returns ((writingMethod [⟨2⟩, ⟨5⟩] []).unify ⟨5, 0⟩ ⟨3, 0⟩) fun r =>
      r.2 = .merged := by
    decide +kernel
  obtain ⟨⟨m', _⟩, hu, rfl⟩ := hunify
  exact ⟨hm, _, hu, rfl, (unify_truthful_iff _ m' _ _ hm hu).2 (by decide +kernel)⟩

/-- Neither `v3 = 5; v5++` nor, where `v3` is a parameter, `Out.print(v3); v5 = 7` is found to write
the merged variable twice. -/
theorem not_truthful_of_increment_or_parameter :
    ((writingMethod [⟨2⟩, ⟨7⟩] []).Truthful ∧
      Returns ((writingMethod [⟨2⟩, ⟨7⟩] []).unify ⟨5, 0⟩ ⟨3, 0⟩) fun r =>
        r.2 = .merged ∧ ¬ r.1.Truthful) ∧
      (writingMethod [⟨9⟩, ⟨5⟩] [3]).Truthful ∧
      Returns ((writingMethod [⟨9⟩, ⟨5⟩] [3]).unify ⟨5, 0⟩ ⟨3, 0⟩) fun r =>
        r.2 = .merged ∧ ¬ r.1.Truthful := by
  decide +kernel

end Method

end Decompiler

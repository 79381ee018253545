import Decompiler.Proofs.Leaders
import Decompiler.Proofs.Variables.Declared

/-!
# Every index has a home

Planning gives every index that a statement uses a home in the tree, and the index is named there.
Of the graph it changes nothing but the marks of exception variables, which a search across scopes
does not see.

* `Graph.planIn_returns`: the homes, by induction down the tree.
* `Method.plan_marks`: what planning does to a method.
* `Method.plan_returns`: nothing is declared by it.
-/

namespace Decompiler

open Relation

/-- Two registries agree in the variables that were merged and in the parameters. -/
def Registry.SameMerges (r r' : Registry) : Prop :=
  r'.leaders = r.leaders ∧ r'.parameterSlots = r.parameterSlots

/-! ## Homes -/

namespace Graph

variable {g g' : Graph} {s t c : StatId} {e : ExprId} {index : ℕ} {plan plan' plan'' : Plan}

/-- A plan gets more homes, or other ones: they are in the tree, and name their indices. -/
structure Extends (g : Graph) (plan plan' : Plan) : Prop where
  /-- The new homes. -/
  homes : ∀ p ∈ plan'.homes.entries, p ∈ plan.homes.entries ∨ g.InTree p.2 ∧ g.NamedIn p.2 p.1
  /-- What has a home keeps one. -/
  keys : ∀ i ∈ plan.homes.keys, i ∈ plan'.homes.keys
  /-- There is one for each index. -/
  nodup : plan.homes.keys.Nodup → plan'.homes.keys.Nodup
  /-- What needs no declaration is as it was. -/
  implicit : plan'.implicit = plan.implicit

namespace Extends

theorem refl (g : Graph) (plan : Plan) : g.Extends plan plan :=
  ⟨fun _ => .inl, fun _ => id, id, rfl⟩

theorem trans (h : g.Extends plan plan') (h' : g.Extends plan' plan'') : g.Extends plan plan'' where
  homes p hp := (h'.homes p hp).elim (h.homes p) .inr
  keys i hi := h'.keys i (h.keys i hi)
  nodup hn := h'.nodup (h.nodup hn)
  implicit := h'.implicit.trans h.implicit

end Extends

/-- A statement becomes the home of indices that are named in it. -/
theorem extends_insert (plan : Plan) (mentions : Table StatId (List ℕ)) (hs : g.InTree s)
    {l : List ℕ} (hl : ∀ i ∈ l, g.NamedIn s i) : g.Extends plan { plan with
      homes := l.foldl (fun t i => t.insert i s) plan.homes
      mentions := mentions } ∧
      ∀ i ∈ l, i ∈ (l.foldl (fun t i => t.insert i s) plan.homes).keys := by
  obtain ⟨homes, mentions', implicit⟩ := plan
  induction l generalizing homes with
  | nil => exact ⟨⟨fun _ => .inl, fun _ => id, id, rfl⟩, List.forall_mem_nil _⟩
  | cons i l ih =>
    have hfirst :
        g.Extends ⟨homes, mentions', implicit⟩ ⟨homes.insert i s, mentions', implicit⟩ := by
      refine ⟨fun p hp => ?_, fun j hj => Table.mem_keys_insert.2 (.inl hj),
        fun h => Table.nodup_keys_insert h i s, rfl⟩
      rcases Table.mem_entries_insert hp with hp | rfl
      · exact .inl hp
      · exact .inr ⟨hs, hl i (by simp)⟩
    obtain ⟨hrest, hkeys⟩ := ih (fun j hj => hl j (by simp [hj])) (homes.insert i s)
    refine ⟨hfirst.trans hrest, List.forall_mem_cons.2 ⟨?_, hkeys⟩⟩
    exact hrest.keys i (Table.mem_keys_insert.2 (.inr rfl))

/-- What planning a statement comes to: the indices mentioned in it are named there, and those that
it or a statement below uses have a home. -/
structure Plans (g : Graph) (s : StatId) (plan plan' : Plan) (mentioned : List ℕ) : Prop where
  /-- The plan gets more homes. -/
  grows : g.Extends plan plan'
  /-- What is mentioned is named. -/
  mentioned : ∀ i ∈ mentioned, g.NamedIn s i
  /-- What is used has a home. -/
  uses : ∀ t i, g.Within s t → g.Uses t i → i ∈ plan'.homes.keys

/-- What is known once some items of a statement have been visited. -/
structure Collects (g : Graph) (s : StatId) (plan : Plan) (visited : List Item) (m : Mentions) :
    Prop where
  /-- The plan gets more homes. -/
  grows : g.Extends plan m.plan
  /-- What children mention is named. -/
  below : ∀ i ∈ m.below, g.NamedIn s i
  /-- The expressions are held by the statement or its children. -/
  own : ∀ e ∈ m.own, ∃ t, g.Within s t ∧ g.Holds t e
  /-- The expressions among the items are there. -/
  exprs : ∀ e, .expr e ∈ visited → e ∈ m.own
  /-- What is used below has a home. -/
  stats : ∀ c, .stat c ∈ visited → ∀ t i, g.Within c t → g.Uses t i → i ∈ m.plan.homes.keys

theorem NamedIn.up (h : g.NamedIn c index) (hc : g.ChildOf s c) : g.NamedIn s index := by
  obtain ⟨t, top, ht, htop, hnames⟩ := h
  exact ⟨t, top, .head hc ht, htop, hnames⟩

/-- What a parent mentions for a child is an expression of the child. -/
theorem mem_exprs_of_mentionedAbove {st : Stat} (h : e ∈ mentionedAbove st) :
    e ∈ st.kind.exprs := by
  unfold mentionedAbove at h
  split at h
  · next l hkind =>
    rw [hkind]
    obtain ⟨kind, init, condition, step⟩ := l
    cases kind <;> simp_all [StatKind.exprs, Stat.loopBefore, Stat.loopAfter]
  · next hkind =>
    rw [hkind]
    exact List.mem_append_right _ h
  · cases h

theorem Collects.expr {m : Mentions} {visited : List Item} (h : g.Collects s plan visited m)
    (he : g.Holds s e) :
    g.Collects s plan (visited ++ [.expr e]) { m with own := m.own ++ [e] } := by
  refine ⟨h.grows, h.below, fun x hx => ?_, fun x hx => ?_, fun c hc => h.stats c ?_⟩
  · rcases List.mem_append.1 hx with hx | hx
    · exact h.own x hx
    · exact ⟨s, .refl, List.mem_singleton.1 hx ▸ he⟩
  · rcases List.mem_append.1 hx with hx | hx
    · exact List.mem_append_left _ (h.exprs x hx)
    · exact List.mem_append_right _ (by simpa using hx)
  · simpa using hc

theorem Collects.child {m : Mentions} {visited : List Item} {below : List ℕ} {ct : Stat}
    (h : g.Collects s plan visited m) (hc : g.ChildOf s c) (hct : g.stat c = .ok ct)
    (hplan : g.Plans c m.plan plan' below) :
    g.Collects s plan (visited ++ [.stat c])
      ⟨plan', m.below ++ below, m.own ++ mentionedAbove ct⟩ := by
  refine ⟨h.grows.trans hplan.grows, fun i hi => ?_, fun e he => ?_, fun e he => ?_,
    fun c' hc' t i ht hi => ?_⟩
  · rcases List.mem_append.1 hi with hi | hi
    · exact h.below i hi
    · exact (hplan.mentioned i hi).up hc
  · rcases List.mem_append.1 he with he | he
    · exact h.own e he
    · exact ⟨c, .single hc, ct, hct, List.mem_append_left _ (mem_exprs_of_mentionedAbove he)⟩
  · exact List.mem_append_left _ (h.exprs e (by simpa using he))
  · rcases List.mem_append.1 hc' with hc' | hc'
    · exact hplan.grows.keys i (h.stats c' hc' t i ht hi)
    · cases List.mem_singleton.1 hc'
      exact hplan.uses t i ht hi

/-- A statement is entered into a plan once all its items have been visited. -/
theorem enterPlan_returns (o : g.Orderly) (hs : g.InTree s) {st : Stat} (hst : g.stat s = .ok st)
    {m : Mentions} (h : g.Collects s plan st.items m) :
    Returns (g.enterPlan s m) fun r => g.Plans s plan r.1 r.2 := by
  obtain ⟨own, hown⟩ := indicesIn_returns fun e he => by
    obtain ⟨t, ht, he⟩ := h.own e he
    exact o.grounded t e (hs.within ht) he
  simp only [enterPlan, hown, Checked.ok_bind, Returns.pure_iff]
  have hmentioned : ∀ i ∈ (m.below ++ own).eraseDups, g.NamedIn s i := by
    intro i hi
    rw [List.mem_eraseDups, List.mem_append, mem_indicesIn hown] at hi
    rcases hi with hi | ⟨e, he, hnames⟩
    · exact h.below i hi
    · obtain ⟨t, ht, he⟩ := h.own e he
      exact ⟨t, e, ht, he, hnames⟩
  obtain ⟨hextends, hkeys⟩ := extends_insert m.plan
    (m.plan.mentions.insert s (m.below ++ own).eraseDups) hs
    (l := (m.below ++ own).eraseDups.filter fun i => i ∈ own || 1 < m.below.count i)
    fun i hi => hmentioned i (List.mem_of_mem_filter hi)
  refine ⟨h.grows.trans hextends, hmentioned, fun t i ht hi => ?_⟩
  rcases ReflTransGen.cases_head ht with rfl | ⟨c, hc, ht⟩
  · -- the statement itself is a home of what it uses
    obtain ⟨top, ⟨st', hst', hitem⟩, hnames⟩ := (o.uses_iff hs).1 hi
    rw [hst] at hst'
    cases hst'
    have hmem : i ∈ own := (mem_indicesIn hown).2 ⟨top, h.exprs top hitem, hnames⟩
    refine hkeys i (List.mem_filter.2 ⟨?_, by simp [hmem]⟩)
    rw [List.mem_eraseDups]
    exact List.mem_append_right _ hmem
  · have hitem := Stat.mem_items_of_children ((childOf_iff hst).1 hc) fun exprs =>
      o.leaves s st exprs hs hst
    exact hextends.keys i (h.stats c hitem t i ht hi)

/-- All that the statements of the tree use gets a home. -/
theorem planIn_returns (o : g.Orderly) (plan : Plan) :
    Returns (g.planIn g.statLevels plan root) fun r => g.Plans root plan r.1 r.2 := by
  refine o.forest.walk (P := fun n s => ∀ plan, Returns (g.planIn n plan s) fun r =>
    g.Plans s plan r.1 r.2) (fun n s st hs hst hbelow plan => ?_) .refl (Nat.le_succ _) plan
  rw [planIn, hst, Checked.ok_bind]
  have hstart : g.Collects s plan [] ⟨plan, [], []⟩ := ⟨.refl g plan, nofun, nofun, nofun, nofun⟩
  refine (Returns.foldlM_upTo hstart fun visited item rest hitems m hm => ?_).bind fun m _ hm =>
    enterPlan_returns o hs hst hm
  have hitem : item ∈ st.items := hitems ▸ by simp
  cases item with
  | expr e =>
    have he : g.Evaluates s e := ⟨st, hst, hitem⟩
    exact Returns.pure_iff.2 (hm.expr he.holds)
  | stat child =>
    have hchild := childOf_of_items hst hitem
    obtain ⟨ct, hct⟩ := o.forest.stat child (hs.child hchild)
    refine (hbelow child ((childOf_iff hst).1 hchild) m.plan).bind fun r _ hr => ?_
    simp only [hct, Checked.ok_bind, Returns.pure_iff]
    exact hm.child hchild hct hr

/-- Each index of a plan has one home, which is in the tree. -/
def Homes (g : Graph) (plan : Plan) : Prop :=
  plan.homes.keys.Nodup ∧ ∀ p ∈ plan.homes.entries, g.InTree p.2

end Graph

/-! ## Exception variables -/

namespace Method

open Decompiler.Graph

variable {m m' : Method} {e : ExprId}

theorem sameMerges_nameParameters (r : Registry) : r.SameMerges (nameParameters r) := by
  have key : ∀ (l : List (ℕ × ℕ)) (r' : Registry), r.SameMerges r' →
      r.SameMerges (l.foldl (fun r p => if !r.isStatic && p.2 = 0 then
        (r.addName "this").setName ⟨p.1, 0⟩ "this" else r.nameByIndex ⟨p.1, 0⟩) r') := by
    intro l
    induction l with
    | nil => exact fun r' h => h
    | cons p l ih =>
      intro r' h
      rw [List.foldl_cons]
      refine ih _ ?_
      split <;> exact h
  exact key _ r ⟨rfl, rfl⟩

/-- The expression is the exception variable of a handler in the tree. -/
def IsHandlerVar (g : Graph) (e : ExprId) : Prop :=
  ∃ s, g.InTree s ∧ Returns (g.stat s) fun st => e ∈ handlerVars st

theorem mem_exprs_of_handlerVars {st : Stat} (h : e ∈ handlerVars st) : e ∈ st.kind.exprs := by
  unfold handlerVars at h
  split at h
  · next hkind => rwa [hkind]
  · next hkind =>
    rw [hkind]
    exact List.mem_append_left _ h
  · cases h

/-- Exception variables are not among the things that a statement does. -/
theorem not_mem_items_of_handlerVars {st : Stat} (h : e ∈ handlerVars st) : .expr e ∉ st.items := by
  unfold handlerVars at h
  split at h
  · next hkind => simp [Stat.items, hkind]
  · next hkind => simp [Stat.items, hkind]
  · cases h

theorem handlers_returns (o : m.graph.Legible) : ∃ stats handlers,
    m.graph.statements = .ok stats ∧
      stats.mapM (fun s => do return handlerVars (← m.graph.stat s)) = .ok handlers ∧
      ∀ e, e ∈ handlers.flatten ↔ IsHandlerVar m.graph e := by
  obtain ⟨stats, hstats, hmem⟩ := o.statements
  have hhandlers : Returns (stats.mapM fun s => do return handlerVars (← m.graph.stat s))
      (List.Forall₂ (fun s l => ∀ e, e ∈ l ↔ Returns (m.graph.stat s) fun st => e ∈ handlerVars st)
        stats) := by
    refine Returns.mapM fun s hs => ?_
    obtain ⟨st, hst⟩ := o.forest.stat s ((hmem s).1 hs)
    simp [hst]
  obtain ⟨handlers, hhandlers, hall⟩ := hhandlers
  refine ⟨stats, handlers, hstats, hhandlers, fun e => ?_⟩
  rw [mem_flatten_of_forall₂ hall fun _ _ h => h]
  exact exists_congr fun s => and_congr_left fun _ => hmem s

/-- An exception variable is held by its statement, which does not evaluate it. -/
theorem IsHandlerVar.held {g : Graph} (h : IsHandlerVar g e) :
    ∃ s, g.InTree s ∧ g.Holds s e ∧ ¬ g.Evaluates s e := by
  obtain ⟨s, hs, st, hst, he⟩ := h
  refine ⟨s, hs, ⟨st, hst, List.mem_append_left _ (mem_exprs_of_handlerVars he)⟩, ?_⟩
  rintro ⟨st', hst', he'⟩
  rw [hst] at hst'
  cases hst'
  exact not_mem_items_of_handlerVars he he'

/-- What is known once some exception variables have been marked. -/
structure MarksHandlers (m : Method) (visited : List ExprId) (r : Method × List ℕ) : Prop where
  /-- Nothing else changes. -/
  revises : Revises m.graph r.1.graph (· ∈ visited)
  /-- Statements stay as they are. -/
  stats : r.1.graph.stats = m.graph.stats
  /-- Variables are not renamed. -/
  vars : ∀ e v marked, m.graph.IsVar e v marked → ∃ marked', r.1.graph.IsVar e v marked'
  /-- Nothing is merged. -/
  merges : m.vars.SameMerges r.1.vars
  /-- Their indices are listed. -/
  implicit : ∀ i, i ∈ r.2 ↔ i ∈ m.vars.parameterSlots ∨
    ∃ e ∈ visited, ∃ v marked, m.graph.IsVar e v marked ∧ v.index = i

theorem declareHandlerVar_returns {visited : List ExprId} {r : Method × List ℕ}
    (h : m.MarksHandlers visited r) (he : m.graph.Grounded e) :
    Returns (declareHandlerVar r e) (m.MarksHandlers (visited ++ [e])) := by
  obtain ⟨m', implicit⟩ := r
  have hmono : ∀ x, x ∈ visited → x ∈ visited ++ [e] := fun x hx => List.mem_append_left _ hx
  have hsplit : ∀ i, (∃ x ∈ visited ++ [e], ∃ v marked, m.graph.IsVar x v marked ∧ v.index = i) ↔
      (∃ x ∈ visited, ∃ v marked, m.graph.IsVar x v marked ∧ v.index = i) ∨
        ∃ v marked, m.graph.IsVar e v marked ∧ v.index = i := by
    simp only [List.mem_append, List.mem_singleton, or_and_right, exists_or, exists_eq_left,
      implies_true]
  obtain ⟨v?, hv?⟩ := (h.revises.grounded he).var?
  rw [declareHandlerVar, hv?, Checked.ok_bind]
  cases v? with
  | none =>
    refine Returns.pure_iff.2 ⟨h.revises.mono hmono, h.stats, h.vars, h.merges, fun i => ?_⟩
    rw [h.implicit, hsplit]
    refine or_congr_right (or_iff_left ?_).symm
    -- the expression is no occurrence
    rintro ⟨v, marked, hvar, -⟩
    obtain ⟨marked', w, hw, -⟩ := h.vars e v marked hvar
    rw [var?_eq_ok.2 hw] at hv?
    cases hv?
  | some w =>
    have hw := var?_eq_ok.1 hv?
    obtain ⟨n, hn⟩ := (h.revises.grounded he).exists_node
    obtain ⟨g', hg'⟩ := modifyExpr_returns (Expr.mapVar fun v => { v with isDefinition := true }) hn
    obtain ⟨-, -, -, hstats, -⟩ := node_modifyExpr hg'
    simp only [hg', Checked.ok_bind, Returns.pure_iff]
    have r : Revises m'.graph g' (· ∈ visited ++ [e]) :=
      .modifyExpr hg' (fun _ => Expr.mapVar_shape) fun hnot => absurd (by simp) hnot
    refine ⟨(h.revises.mono hmono).trans r, hstats.trans h.stats, fun x v marked hx => ?_, h.merges,
      fun i => ?_⟩
    · obtain ⟨marked', u, hu, rfl, rfl⟩ := h.vars x v marked hx
      have hu' := expr_modifyExpr hg' hu
      split at hu'
      · exact ⟨true, _, hu', rfl, rfl⟩
      · exact ⟨_, u, hu', rfl, rfl⟩
    · have hnew : i = w.var.index ↔ ∃ v marked, m.graph.IsVar e v marked ∧ v.index = i := by
        have hbefore : ∀ v marked, m.graph.IsVar e v marked → v = w.var := by
          intro v marked hvar
          obtain ⟨marked', hvar'⟩ := h.vars e v marked hvar
          exact (hvar'.functional ⟨w, hw, rfl, rfl⟩).1
        constructor
        · rintro rfl
          obtain ⟨x, hx⟩ := he.expr
          obtain ⟨x', hx', hshape, -⟩ := h.revises.exprs e x hx
          rw [hw] at hx'
          cases hx'
          obtain ⟨u, rfl⟩ := Expr.eq_var_of_shape hshape.symm
          have hu : m.graph.IsVar e u.var u.isDefinition := ⟨u, hx, rfl, rfl⟩
          exact ⟨u.var, u.isDefinition, hu, by rw [hbefore _ _ hu]⟩
        · rintro ⟨v, marked, hvar, rfl⟩
          rw [hbefore v marked hvar]
      rw [List.mem_cons, h.implicit, hsplit, hnew, or_comm, or_assoc]

/-! ## Planning -/

/-- What planning does: exception variables are marked, and every index gets a home. -/
structure Planned (m m' : Method) (plan : Plan) : Prop where
  /-- The graph stays orderly. -/
  orderly : m'.graph.Orderly
  /-- Nothing but exception variables changes. -/
  revises : Revises m.graph m'.graph (IsHandlerVar m.graph)
  /-- Statements stay as they are. -/
  stats : m'.graph.stats = m.graph.stats
  /-- Variables are not renamed. -/
  vars : ∀ e v marked, m.graph.IsVar e v marked → ∃ marked', m'.graph.IsVar e v marked'
  /-- Nothing is merged. -/
  merges : m.vars.SameMerges m'.vars
  /-- Parameters and exception variables need no declaration. -/
  implicit : ∀ i, i ∈ plan.implicit ↔ i ∈ m.vars.parameterSlots ∨
    ∃ e v marked, IsHandlerVar m.graph e ∧ m.graph.IsVar e v marked ∧ v.index = i
  /-- What is used has a home. -/
  plans : ∃ start mentioned, start.homes = .empty ∧ m'.graph.Plans root start plan mentioned

/-- The exception variables of the tree can be listed and marked. -/
theorem markHandlers_returns (o : m.graph.Legible) : ∃ stats handlers,
    m.graph.statements = .ok stats ∧
      stats.mapM (fun s => do return handlerVars (← m.graph.stat s)) = .ok handlers ∧
      (∀ e, e ∈ handlers.flatten ↔ IsHandlerVar m.graph e) ∧
      Returns (handlers.flatten.foldlM declareHandlerVar (⟨m.graph, nameParameters m.vars⟩,
        (nameParameters m.vars).parameterSlots)) (m.MarksHandlers handlers.flatten) := by
  obtain ⟨stats, handlers, hstatements, hhandlers, hmem⟩ := handlers_returns o
  have hmerges := sameMerges_nameParameters m.vars
  have hstart : m.MarksHandlers [] (⟨m.graph, nameParameters m.vars⟩,
      (nameParameters m.vars).parameterSlots) :=
    ⟨.refl _, rfl, fun _ _ marked h => ⟨marked, h⟩, hmerges, fun i => by simp [hmerges.2]⟩
  refine ⟨stats, handlers, hstatements, hhandlers, hmem,
    Returns.foldlM_upTo hstart fun visited e rest hl r hr => ?_⟩
  obtain ⟨s, hs, hes, -⟩ := ((hmem e).1 (hl ▸ by simp)).held
  exact declareHandlerVar_returns hr (o.grounded s e hs hes)

theorem plan_marks (o : m.graph.Orderly) : Returns m.plan fun r => m.Planned r.1 r.2 := by
  obtain ⟨stats, handlers, hstatements, hhandlers, hmem, ⟨m', implicit⟩, hm', hmarks⟩ :=
    markHandlers_returns o.toLegible
  have r : Revises m.graph m'.graph (IsHandlerVar m.graph) :=
    hmarks.revises.mono fun e he => (hmem e).1 he
  have o' := o.of_stats_eq r hmarks.stats
  obtain ⟨⟨plan, mentioned⟩, hplan, hplans⟩ := planIn_returns o' ⟨.empty, .empty, implicit⟩
  refine ⟨(m', plan), ?_, o', r, hmarks.stats, hmarks.vars, hmarks.merges, fun i => ?_,
    _, mentioned, rfl, hplans⟩
  · simp only [Method.plan, hstatements, hhandlers, hm', hplan, Checked.ok_bind]
    rfl
  · rw [hplans.grows.implicit, hmarks.implicit]
    refine or_congr_right ?_
    simp only [hmem]
    exact exists_congr fun e => ⟨fun ⟨he, v, marked, h⟩ => ⟨v, marked, he, h⟩,
      fun ⟨v, marked, he, h⟩ => ⟨he, v, marked, h⟩⟩

/-- Each home is in the tree, and names its index. -/
theorem Planned.homes {plan : Plan} (h : m.Planned m' plan) :
    plan.homes.keys.Nodup ∧
      ∀ p ∈ plan.homes.entries, m'.graph.InTree p.2 ∧ m'.graph.NamedIn p.2 p.1 := by
  obtain ⟨⟨homes, mentions, implicit⟩, mentioned, rfl, hplans⟩ := h.plans
  exact ⟨hplans.grows.nodup List.nodup_nil,
    fun p hp => (hplans.grows.homes p hp).resolve_left nofun⟩

/-- Planning declares nothing that a search across scopes would see, and gives each index one home
in the tree. -/
theorem plan_returns (o : m.graph.Orderly)
    (hlists : ∀ s e, m.graph.InTree s → ¬ m.graph.ListsDeclaration s e)
    (hnone : ∀ e v, ¬ m.graph.Declares e v) : Returns m.plan fun r =>
      r.1.graph.Orderly ∧ (∀ e v, ¬ r.1.graph.Declares e v) ∧ r.1.graph.Homes r.2 ∧
        (∀ slot ∈ m.vars.parameterSlots, slot ∈ r.2.implicit) ∧ m.vars.SameMerges r.1.vars := by
  refine (plan_marks o).mono fun ⟨m', plan⟩ h => ⟨h.orderly, fun e v he => ?_, ?_, fun slot hslot =>
    (h.implicit slot).2 (.inl hslot), h.merges⟩
  · rcases he.of_stats_eq o h.revises h.stats with he | ⟨s, hs, hlist, -⟩ |
      ⟨s, y, w, hs, heval, hy, hreach, -⟩
    · exact hnone e v he
    · exact hlists s e hs hlist
    · obtain ⟨t, ht, hty, hnot⟩ := hy.held
      obtain ⟨rfl, rfl⟩ := o.apart s t e y y hs ht heval.holds hty hreach .refl
      exact hnot heval
  · exact ⟨h.homes.1, fun p hp => (h.homes.2 p hp).1⟩

end Method

end Decompiler

import Decompiler.Proofs.Variables.DataFlow
import Decompiler.Proofs.Variables.Unifying
import Decompiler.Variables.Merge

/-!
# Merging variables renames occurrences

In a graph without declarations, merging one variable into another renames the occurrences of the
one and does nothing else that matters for the evaluation of expressions.

* `Graph.Renames`: the expressions that statements evaluate keep their form, and their variables get
  new names.
* `Graph.Renames.run`: the accesses of a run are the same ones under the new names.
* `Method.unify_renames`: a merge of two variables is such a change.
-/

namespace Decompiler

open Relation

/-- The name of a variable once a candidate was merged. -/
def Candidate.rename (c : Candidate) (v : Local) : Local := if v = c.source then c.target else v

namespace Graph

variable {g g' g'' : Graph} {s t : StatId} {e x y : ExprId} {ρ : Local → Local} {st : Stat}
  {taken : ExprId → Bool} {source target : Local}

/-! ## Renaming -/

/-- The statement is in the tree and evaluates the expression. -/
def Owns (g : Graph) (s : StatId) (e : ExprId) : Prop :=
  g.InTree s ∧ Returns (g.stat s) fun st => e ∈ st.kind.exprs

/-- The nodes of an expression keep their form, and their variables get new names. -/
def RelabelsIn (g g' : Graph) (ρ : Local → Local) (e : ExprId) : Prop :=
  ∀ y z, g.Reaches e y → g.expr y = .ok z → Returns (g'.expr y) fun z' =>
    z'.shape = z.shape ∧ z'.local? = z.local?.map ρ

namespace RelabelsIn

theorem below (h : RelabelsIn g g' ρ e) (hy : g.Reaches e y) : RelabelsIn g g' ρ y :=
  fun x z hx hz => h x z (hy.trans hx) hz

theorem local? (h : RelabelsIn g g' ρ e) {v : Option Local} (hv : g.local? e = .ok v) :
    g'.local? e = .ok (v.map ρ) := by
  obtain ⟨z, hz, rfl⟩ : ∃ z, g.expr e = .ok z ∧ z.local? = v := by simpa [Graph.local?] using hv
  obtain ⟨z', hz', -, hlocal⟩ := h e z .refl hz
  simp [Graph.local?, hz', hlocal]

end RelabelsIn

/-- Statements stay as they are, and the nodes of the expressions that they evaluate stay so but for
types, debug entries and marks, and for the names of variables. -/
structure Renames (g g' : Graph) (ρ : Local → Local) : Prop where
  /-- The statements. -/
  stat : ∀ s, g'.stat s = g.stat s
  /-- The number of expressions. -/
  size : g'.exprs.size = g.exprs.size
  /-- The nodes. -/
  node : ∀ s e y z, g.Owns s e → g.Reaches e y → g.expr y = .ok z → Returns (g'.expr y) fun z' =>
    z'.shape = z.shape ∧ z'.local? = z.local?.map ρ

theorem mem_exprs_of_exprs? {exprs : List ExprId} (h : st.exprs? = some exprs) (he : e ∈ exprs) :
    e ∈ st.kind.exprs := by
  rw [Stat.exprs?_eq_some.1 h]
  exact he

theorem owns_of_exprs? {exprs : List ExprId} (hs : g.InTree s) (hst : g.stat s = .ok st)
    (h : st.exprs? = some exprs) (he : e ∈ exprs) : g.Owns s e :=
  ⟨hs, st, hst, mem_exprs_of_exprs? h he⟩

theorem assigned?_eq_some {v : Local} {right : ExprId} :
    g.assigned? e = .ok (some (v, right)) ↔
      ∃ left, g.expr e = .ok (.assign left right) ∧ g.local? left = .ok (some v) := by
  constructor
  · intro h
    obtain ⟨sides, hsides, h⟩ := Checked.bind_eq_ok.1 h
    cases sides with
    | none => cases h
    | some p =>
      obtain ⟨v?, hv, h⟩ := Checked.bind_eq_ok.1 h
      obtain ⟨w, rfl, hw⟩ := Option.map_eq_some_iff.1 (Checked.pure_eq_ok.1 h)
      cases hw
      exact ⟨p.1, assign?_eq_ok.1 hsides, hv⟩
  · rintro ⟨left, he, hv⟩
    simp [assigned?, assign?_eq_ok.2 he, hv]

theorem operands_shape (z : Expr) : g.operands taken z.shape = g.operands taken z := by
  cases z <;> rfl

theorem written?_shape (z : Expr) : g.written? z.shape = g.written? z := by
  cases z <;> rfl

namespace Renames

variable (r : Renames g g' ρ) (h : g.Owns s e)

include r

theorem inTree_iff : g'.InTree s ↔ g.InTree s :=
  SameLinks.inTree_iff fun s => by rw [links, links, r.stat]

theorem owns_iff : g'.Owns s e ↔ g.Owns s e := by
  rw [Owns, Owns, r.inTree_iff, r.stat]

include h

theorem relabelsIn : RelabelsIn g g' ρ e := fun y z => r.node s e y z h

theorem local? (hy : g.Reaches e y) {v : Option Local} (hv : g.local? y = .ok v) :
    g'.local? y = .ok (v.map ρ) :=
  ((r.relabelsIn h).below hy).local? hv

/-- An assignment stays one, and nothing else becomes one. -/
theorem assign_iff (hy : g.Reaches e y) {z : Expr} (hz : g.expr y = .ok z) {left right : ExprId} :
    g'.expr y = .ok (.assign left right) ↔ z = .assign left right := by
  obtain ⟨z', hz', hshape, -⟩ := r.node s e y z h hy hz
  rw [hz', Except.ok.injEq]
  constructor
  · rintro rfl
    exact Expr.eq_assign_of_shape hshape.symm
  · rintro rfl
    exact Expr.eq_assign_of_shape hshape

/-- The accesses of an expression get new names. -/
theorem accessesIn {n : ℕ} {t : List Access} (hy : g.Reaches e y)
    (ht : g.accessesIn taken n y = .ok t) :
    g'.accessesIn taken n y = .ok (t.map (.rename ρ)) := by
  induction n generalizing y t with
  | zero => cases ht
  | succ n ih =>
    obtain ⟨z, ops, inside, written, hz, hops, hinside, hwritten, rfl⟩ := accessesIn_succ.1 ht
    obtain ⟨z', hz', hshape, hlocal⟩ := r.node s e y z h hy hz
    obtain ⟨node, hnode, rfl⟩ := expr_eq_ok.1 hz
    have hbelow : ∀ c ∈ node.expr.children, g.Reaches e c := fun c hc => hy.tail ⟨node, hnode, hc⟩
    have hops' : g'.operands taken z' = .ok ops := by
      rw [← operands_shape, hshape, operands_shape]
      unfold operands at hops ⊢
      split at hops
      · next left right heq =>
        obtain ⟨v, hv, hops⟩ := Checked.bind_eq_ok.1 hops
        have hv' := r.local? h (hbelow left (by simp [heq, Expr.children])) hv
        simpa [hv'] using hops
      · exact hops
      · exact hops
    have hwritten' : g'.written? z' = .ok (written.map ρ) := by
      rw [← written?_shape, hshape, written?_shape]
      unfold written? at hwritten ⊢
      split at hwritten
      · next left right heq =>
        exact r.local? h (hbelow left (by simp [heq, Expr.children])) hwritten
      · next op operand rest heq =>
        split at hwritten
        · next hop =>
          simp only [hop, if_true]
          exact r.local? h (hbelow operand (by simp [heq, Expr.children])) hwritten
        · next hop =>
          cases hwritten
          simp [hop]
      · cases hwritten
        rfl
    refine accessesIn_succ.2 ⟨z', ops, inside.map (List.map (.rename ρ)), written.map ρ, hz', hops',
      ?_, hwritten', ?_⟩
    · rw [List.forall₂_map_right_iff]
      have hboth := (List.forall₂_and_left _ _).2 ⟨operands_subset hops, hinside⟩
      exact hboth.imp fun c u hc => ih (hbelow c hc.1) hc.2
    · rw [hlocal]
      cases node.expr.local? <;> cases written <;> simp [Access.rename, List.map_flatten]

theorem accesses {t : List Access} (hy : g.Reaches e y) (ht : g.accesses taken y = .ok t) :
    g'.accesses taken y = .ok (t.map (.rename ρ)) := by
  rw [Graph.accesses, exprLevels, r.size]
  exact r.accessesIn h hy ht

section Grounded

variable (he : g.Grounded e)

include he

theorem local?_eq_some (hy : g.Reaches e y) {v' : Local} (hv : g'.local? y = .ok (some v')) :
    ∃ v, g.local? y = .ok (some v) ∧ ρ v = v' := by
  obtain ⟨v?, hv?⟩ := (he.of_reaches hy).local?
  have hv?' := r.local? h hy hv?
  rw [hv, Except.ok.injEq] at hv?'
  obtain ⟨v, rfl, hρ⟩ := Option.map_eq_some_iff.1 hv?'.symm
  exact ⟨v, hv?, hρ⟩

theorem assigned?_eq_some {right : ExprId} {v' : Local}
    (hassigned : g'.assigned? e = .ok (some (v', right))) :
    ∃ v, g.assigned? e = .ok (some (v, right)) ∧ ρ v = v' := by
  obtain ⟨left, hexpr', hleft'⟩ := Graph.assigned?_eq_some.1 hassigned
  obtain ⟨z, hz⟩ := he.expr
  obtain rfl := (r.assign_iff h .refl hz).1 hexpr'
  obtain ⟨v, hv, hρ⟩ := r.local?_eq_some h he (.single (he.sides hz).1) hleft'
  exact ⟨v, Graph.assigned?_eq_some.2 ⟨left, hz, hv⟩, hρ⟩

theorem reaches (hx : g.Reaches e x) (hy : g'.Reaches x y) : g.Reaches x y := by
  induction hy with
  | refl => exact .refl
  | @tail y c _ hc ih =>
    obtain ⟨n, hn⟩ := (he.of_reaches (hx.trans ih)).exists_node
    obtain ⟨z', hz', hshape, -⟩ := r.node s e y n.expr h (hx.trans ih) (expr_eq_ok.2 ⟨n, hn, rfl⟩)
    obtain ⟨n', hn', rfl⟩ := expr_eq_ok.1 hz'
    rw [subOf_iff hn', Expr.children_eq_of_shape hshape] at hc
    exact ih.tail ⟨n, hn, hc⟩

/-- A variable that occurs afterwards is one that occurred before under its new name. -/
theorem involves (hx : g.Reaches e x) {v' : Local} (hv : g'.Involves x v') :
    ∃ v, g.Involves x v ∧ ρ v = v' := by
  obtain ⟨y, w, hy, hw, rfl⟩ := hv
  have hy := r.reaches h he hx hy
  obtain ⟨v, hv, hρ⟩ := r.local?_eq_some h he (hx.trans hy) (local?_eq_ok.2 ⟨w, hw, rfl⟩)
  exact ⟨v, (involves_of_local? hv).up hy, hρ⟩

end Grounded

end Renames

theorem Step.mem_exprs {p : Step} (h : e ∈ p.exprs st) : e ∈ st.kind.exprs := by
  unfold Step.exprs at h
  split at h
  · next hexprs => exact mem_exprs_of_exprs? hexprs h
  · split at h
    · next hmem =>
      rw [List.mem_singleton.1 h, ← Stat.ownExprs_eq]
      exact hmem
    · cases h
  · cases h

theorem perform_eq_ok {p : Step} {t : List Access} : g.perform p = .ok t ↔
    ∃ st ts, g.stat p.stat = .ok st ∧
      List.Forall₂ (fun e u => g.accesses p.taken e = .ok u) (p.exprs st) ts ∧ ts.flatten = t := by
  simp only [perform, Checked.bind_eq_ok, Checked.pure_eq_ok, Checked.mapM_eq_ok_iff]
  constructor
  · rintro ⟨st, hst, ts, hts, rfl⟩
    exact ⟨st, ts, hst, hts, rfl⟩
  · rintro ⟨st, ts, hst, hts, rfl⟩
    exact ⟨st, hst, ts, hts, rfl⟩

theorem perform_returns {p : Step} (hst : g.stat p.stat = .ok st)
    (hground : ∀ e ∈ st.kind.exprs, g.Grounded e) : Returns (g.perform p) fun _ => True := by
  have hts : Returns ((p.exprs st).mapM (g.accesses p.taken))
      (List.Forall₂ (fun _ _ => True) (p.exprs st)) := Returns.mapM fun e he =>
    ((hground e (Step.mem_exprs he)).accesses p.taken).elim fun t ht => ⟨t, ht, trivial⟩
  obtain ⟨ts, hts, -⟩ := hts
  exact ⟨_, perform_eq_ok.2 ⟨st, ts, hst, Checked.mapM_eq_ok_iff.1 hts, rfl⟩, trivial⟩

theorem run_eq_ok {steps : List Step} {t : List Access} : g.run steps = .ok t ↔
    ∃ ts, List.Forall₂ (fun p u => g.perform p = .ok u) steps ts ∧ ts.flatten = t := by
  simp only [run, Checked.bind_eq_ok, Checked.pure_eq_ok, Checked.mapM_eq_ok_iff]

namespace Renames

variable (r : Renames g g' ρ)

include r

theorem perform {p : Step} {t : List Access} (hp : g.InTree p.stat) (ht : g.perform p = .ok t) :
    g'.perform p = .ok (t.map (.rename ρ)) := by
  obtain ⟨st, ts, hst, hts, rfl⟩ := perform_eq_ok.1 ht
  refine perform_eq_ok.2 ⟨st, ts.map (List.map (.rename ρ)), (r.stat _).trans hst, ?_,
    List.map_flatten.symm⟩
  rw [List.forall₂_map_right_iff]
  have hmem : ∀ e ∈ p.exprs st, e ∈ st.kind.exprs := fun e he => Step.mem_exprs he
  have hboth := (List.forall₂_and_left _ _).2 ⟨hmem, hts⟩
  exact hboth.imp fun e u he => r.accesses ⟨hp, st, hst, he.1⟩ .refl he.2

/-- The accesses of a run get new names. -/
theorem run {steps : List Step} {t : List Access} (hp : ∀ p ∈ steps, g.InTree p.stat)
    (ht : g.run steps = .ok t) : g'.run steps = .ok (t.map (.rename ρ)) := by
  obtain ⟨ts, hts, rfl⟩ := run_eq_ok.1 ht
  refine run_eq_ok.2 ⟨ts.map (List.map (.rename ρ)), ?_, List.map_flatten.symm⟩
  rw [List.forall₂_map_right_iff]
  have hboth := (List.forall₂_and_left _ _).2 ⟨hp, hts⟩
  exact hboth.imp fun p u hp => r.perform hp.1 hp.2

end Renames

/-! ## What a merge does -/

/-- No statement of the tree lists declarations, and no expression of a leaf is an occurrence on its
own, as declarations there are. -/
structure Plain (g : Graph) : Prop where
  /-- Lists of declarations are empty. -/
  declarations : ∀ s st, g.InTree s → g.stat s = .ok st → st.declarations = []
  /-- Leaves do not hold occurrences on their own. -/
  bare : ∀ s st exprs e, g.InTree s → g.stat s = .ok st → st.exprs? = some exprs → e ∈ exprs →
    ∀ v, g.local? e ≠ .ok (some v)

theorem foldlM_modifyExpr_frame {α : Type} {l : List α} {i : α → ExprId} {f : Expr → Expr}
    (h : l.foldlM (fun g a => g.modifyExpr (i a) f) g = .ok g') :
    g'.stats = g.stats ∧ g'.exprs.size = g.exprs.size := by
  refine Checked.foldlM_keeps (fun g' => g'.stats = g.stats ∧ g'.exprs.size = g.exprs.size) h
    ⟨rfl, rfl⟩ fun a _ g₁ g₂ h₁ h₂ => ?_
  obtain ⟨-, -, -, hstats, -, hsize⟩ := node_modifyExpr h₂
  exact ⟨hstats.trans h₁.1, hsize.trans h₁.2⟩

theorem Revises.retype {l : List ExprId} {f : Expr → Expr} (hf : ∀ z, (f z).outline = z.outline)
    (h : l.foldlM (fun g e => g.modifyExpr e f) g = .ok g') : Revises g g' fun _ => False :=
  Checked.foldlM_keeps (Revises g · fun _ => False) h (.refl g) fun _ _ _ _ h₁ h₂ =>
    h₁.trans (.modifyExpr h₂ (fun z => Expr.shape_eq_of_outline (hf z)) fun _ => hf)

/-- Nothing that can be read of a graph has changed. -/
structure ReadsSame (g g' : Graph) : Prop where
  /-- The statements. -/
  stat : ∀ s, g'.stat s = g.stat s
  /-- The expressions. -/
  exprs : g'.exprs = g.exprs

namespace ReadsSame

theorem refl (g : Graph) : ReadsSame g g := ⟨fun _ => rfl, rfl⟩

theorem trans (h : ReadsSame g g') (h' : ReadsSame g' g'') : ReadsSame g g'' :=
  ⟨fun s => (h'.stat s).trans (h.stat s), h'.exprs.trans h.exprs⟩

theorem modifyStat {f : Stat → Stat} (h : g.modifyStat s f = .ok g')
    (hf : ∀ st, g.stat s = .ok st → f st = st) : ReadsSame g g' := by
  obtain ⟨st, hst, ht, -, hx⟩ := stat_modifyStat h
  refine ⟨fun t => ?_, hx⟩
  rw [ht]
  split
  · next hs => rw [← hs, hst, hf st hst]
  · rfl

theorem expr_eq (h : ReadsSame g g') : g'.expr e = g.expr e := by
  rw [expr, node, h.exprs]
  rfl

theorem local?_eq (h : ReadsSame g g') : g'.local? e = g.local? e := by
  rw [local?, h.expr_eq, local?]

theorem inTree_iff (h : ReadsSame g g') : g'.InTree s ↔ g.InTree s :=
  SameLinks.inTree_iff fun s => by rw [links, links, h.stat]

theorem plain (h : ReadsSame g g') (hp : g.Plain) : g'.Plain := by
  refine ⟨fun s st hs hst => ?_, fun s st exprs e hs hst => ?_⟩
  · rw [h.inTree_iff] at hs
    rw [h.stat] at hst
    exact hp.declarations s st hs hst
  · rw [h.inTree_iff] at hs
    rw [h.stat] at hst
    rw [h.local?_eq]
    exact hp.bare s st exprs e hs hst

/-- What keeps everything at every statement of the tree keeps everything. -/
theorem foldlM {f : Graph → StatId → Checked Graph} {l : List StatId}
    (h : l.foldlM f g = .ok g') (hl : ∀ s ∈ l, g.InTree s)
    (hf : ∀ g₁ g₂ s, ReadsSame g g₁ → g₁.InTree s → f g₁ s = .ok g₂ → ReadsSame g₁ g₂) :
    ReadsSame g g' :=
  Checked.foldlM_keeps (ReadsSame g) h (.refl g) fun s hs g₁ g₂ h₁ h₂ =>
    h₁.trans (hf g₁ g₂ s h₁ (h₁.inTree_iff.2 (hl s hs)) h₂)

end ReadsSame

theorem Renames.plain (r : Renames g g' ρ) (hp : g.Plain) : g'.Plain := by
  refine ⟨fun s st hs hst => ?_, fun s st exprs e hs hst hexprs he v hv => ?_⟩
  · rw [r.inTree_iff] at hs
    rw [r.stat] at hst
    exact hp.declarations s st hs hst
  · rw [r.inTree_iff] at hs
    rw [r.stat] at hst
    -- the expression was there before, and it was no occurrence
    obtain ⟨w, hw, -⟩ := local?_eq_ok.1 hv
    obtain ⟨n', hn', -⟩ := expr_eq_ok.1 hw
    have hlt : e.index < g.exprs.size := r.size ▸ Arena.get_lt hn'
    obtain ⟨n, hn⟩ := Arena.exists_get_iff.2 hlt
    have hlocal : g.local? e = .ok n.expr.local? := by
      simp [Graph.local?, expr_eq_ok.2 ⟨n, hn, rfl⟩]
    have hown := owns_of_exprs? hs hst hexprs he
    have hnone : n.expr.local? = none := by
      cases hsome : n.expr.local? with
      | none => rfl
      | some u =>
        exact absurd (hlocal.trans (by rw [hsome])) (hp.bare s st exprs e hs hst hexprs he u)
    have hlocal' := r.local? hown .refl hlocal
    rw [hv, hnone] at hlocal'
    cases hlocal'

theorem Renames.of_readsSame (r : Renames g g' ρ) (h : ReadsSame g' g'') : Renames g g'' ρ := by
  refine ⟨fun s => (h.stat s).trans (r.stat s), (congrArg Arena.size h.exprs).trans r.size,
    fun s e y z hown hy hz => ?_⟩
  rw [h.expr_eq]
  exact r.node s e y z hown hy hz

theorem dropBareDeclarations_plain {bare : List (StatId × ExprId)} (hp : g.Plain)
    (hs : g.InTree s) (hbare : ∀ b ∈ bare, g.Owns b.1 b.2 ∧ ∃ v, g.local? b.2 = .ok (some v))
    (h : dropBareDeclarations bare g s = .ok g') : g' = g := by
  obtain ⟨st, hst, h⟩ := Checked.bind_eq_ok.1 h
  split at h
  · next e rest exprs hdeclared hexprs =>
    -- the statement would be a leaf with an occurrence on its own
    have he : e ∈ (bare.filter fun b => b.1 = s).map Prod.snd := by rw [hdeclared]; simp
    obtain ⟨b, hb, rfl⟩ := List.mem_map.1 he
    obtain ⟨hmem, hbs⟩ := List.mem_filter.1 hb
    obtain rfl : b.1 = s := by simpa using hbs
    obtain ⟨⟨-, st', hst', hmem⟩, v, hv⟩ := hbare b hmem
    rw [hst] at hst'
    cases hst'
    rw [Stat.exprs?_eq_some.1 hexprs] at hmem
    exact absurd hv (hp.bare b.1 st exprs b.2 hs hst hexprs hmem v)
  · exact (Checked.pure_eq_ok.1 h).symm

theorem mergeDeclarations_plain {ty : Ty} (hp : g.Plain) (hs : g.InTree s)
    (h : mergeDeclarations source target ty g s = .ok g') : ReadsSame g g' := by
  simp only [mergeDeclarations, Checked.bind_eq_ok] at h
  obtain ⟨st, hst, ⟨g₁, declarations⟩, hdrop, g₂, hretype, h⟩ := h
  have hnil := hp.declarations s st hs hst
  rw [hnil] at hdrop
  cases Checked.pure_eq_ok.1 hdrop
  cases Checked.pure_eq_ok.1 hretype
  refine .modifyStat h fun st' hst' => ?_
  rw [hst] at hst'
  cases hst'
  change { st with declarations := [] } = st
  rw [← hnil]

end Graph

namespace Method

open Decompiler.Graph

variable {g g' : Graph} {m m' : Method} {source target : Local}

/-- The part of a merge that changes expressions. -/
theorem renames_of_fold {nodes : List OwnedNode} {ty : Ty} {g₁ : Graph} {constants : List ExprId}
    {retype : Expr → Expr} (hnodes : ∀ n, n ∈ nodes ↔ g.Owned n)
    (hretype : ∀ z, (retype z).outline = z.outline)
    (h₁ : (nodes.filter fun n => n.expr.local? = some source).foldlM (fun g n =>
      g.modifyExpr n.id (Expr.mapVar fun v =>
        { v with var := target, ty := ty, isDefinition := false })) g = .ok g₁)
    (h₂ : constants.foldlM (fun g e => g.modifyExpr e retype) g₁ = .ok g') :
    Renames g g' (Candidate.rename ⟨source, target⟩) := by
  have hvar : ∀ n ∈ nodes.filter fun n => n.expr.local? = some source,
      ∃ v, g.expr n.id = .ok (.var v) := fun n hn =>
    (local?_eq_ok.1 (local?_of_mem_filter hnodes hn)).imp fun _ h => h.1
  obtain ⟨g₁', h₁', r₁, hstats₁, hrenamed, -⟩ := rename_returns target ty _ hvar
  rw [h₁] at h₁'
  cases h₁'
  have r₂ : Revises g₁ g' fun _ => False := .retype hretype h₂
  have r : Revises g g' (g.OccursAt source) :=
    (r₁.mono fun e he => (occursAt_iff hnodes).2 he).trans (r₂.mono fun _ h => h.elim)
  obtain ⟨hstats₂, hsize₂⟩ := foldlM_modifyExpr_frame (i := fun e => e) h₂
  refine ⟨fun s => by rw [stat, stat, hstats₂, hstats₁],
    hsize₂.trans (foldlM_modifyExpr_frame h₁).2, fun s e y z hown hy hz => ?_⟩
  obtain ⟨z', hz', hshape, houtline⟩ := r.exprs y z hz
  refine ⟨z', hz', hshape, ?_⟩
  by_cases hsource : z.local? = some source
  · obtain ⟨n, hn, rfl⟩ := (occursAt_iff hnodes).1
      ⟨⟨s, e, y, z⟩, ⟨hown.1, hown.2, hy, hz⟩, rfl, hsource⟩
    obtain ⟨w, hw, hvar, -⟩ := (hrenamed n hn).trims r₂
    rw [hw] at hz'
    cases hz'
    rw [hsource, Option.map_some, Candidate.rename, if_pos rfl]
    exact congrArg some hvar
  · have hnot : ¬ g.OccursAt source y := by
      rintro ⟨n, hn, rfl, hlocal⟩
      rw [hn.2.2.2] at hz
      cases hz
      exact hsource hlocal
    rw [Expr.local?_eq_of_outline (houtline hnot)]
    cases hz : z.local? with
    | none => rfl
    | some v =>
      have hne : v ≠ source := fun h => hsource (hz.trans (congrArg some h))
      simp [Candidate.rename, hne]

/-- Without declarations, renaming is all that a merge does to the graph. -/
theorem renameOccurrences_plain {nodes : List OwnedNode} {ty : Ty} (hp : g.Plain)
    (hnodes : ∀ n, n ∈ nodes ↔ g.Owned n)
    (h : renameOccurrences g nodes source target ty = .ok g') :
    Renames g g' (Candidate.rename ⟨source, target⟩) := by
  simp only [renameOccurrences, Checked.bind_eq_ok] at h
  obtain ⟨constants, -, g₁, h₁, g₂, h₂, stats, hstats, g₃, h₃, h₄⟩ := h
  have r : Renames g g₂ (Candidate.rename ⟨source, target⟩) := by
    refine renames_of_fold hnodes (fun z => ?_) h₁ h₂
    cases z <;> rfl
  have hp₂ := r.plain hp
  have hmem : ∀ s ∈ stats, g₂.InTree s := fun s hs => (mem_preorderIn hstats s).1 hs
  have hbare : ReadsSame g₂ g₃ := by
    refine .foldlM h₃ hmem fun g₄ g₅ s hsame hs h₅ => ?_
    rw [dropBareDeclarations_plain (hsame.plain hp₂) hs (fun b hb => ?_) h₅]
    · exact .refl g₄
    · obtain ⟨n, hn, rfl⟩ := List.mem_map.1 hb
      obtain ⟨hn, htop⟩ := List.mem_filter.1 hn
      obtain ⟨hn, hlocal⟩ := List.mem_filter.1 hn
      obtain ⟨hs, hst, hreach, hexpr⟩ := (hnodes n).1 hn
      have htop : n.id = n.top := by simpa using htop
      have hown : g.Owns n.stat n.id := ⟨hs, htop ▸ hst⟩
      have hsource : g.local? n.id = .ok (some source) := by
        simpa [Graph.local?, hexpr] using hlocal
      refine ⟨?_, target, ?_⟩
      · rw [Owns, hsame.inTree_iff, hsame.stat]
        exact r.owns_iff.2 hown
      · rw [hsame.local?_eq, r.local? hown .refl hsource]
        simp [Candidate.rename]
  have hdeclared : ReadsSame g₃ g' := by
    refine .foldlM h₄ (fun s hs => hbare.inTree_iff.2 (hmem s hs)) fun g₄ g₅ s hsame hs h₅ => ?_
    exact mergeDeclarations_plain (hsame.plain (hbare.plain hp₂)) hs h₅
  exact r.of_readsSame (hbare.trans hdeclared)

/-- A merge of two variables renames the one, and leaves the slots of variables alone. -/
theorem unify_renames (hp : m.graph.Plain) (h : m.unify source target = .ok (m', .merged)) :
    Renames m.graph m'.graph (Candidate.rename ⟨source, target⟩) ∧
      m'.vars.origins = m.vars.origins := by
  obtain ⟨-, ty, nodes, _, hnodes, hgraph, hvars⟩ := unify_eq_merged h
  exact ⟨renameOccurrences_plain hp (fun n => mem_ownedNodes hnodes) hgraph,
    (mergeKnown_frame hvars).1⟩

end Method

end Decompiler

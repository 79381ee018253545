import Decompiler.Proofs.Leaders
import Decompiler.Proofs.Variables.Declared

/-!
# A search across scopes stops later each time

A search passes the declarations of the tree in a fixed order and asks, at each of them, what was
last refused for the variable that is declared there. When it stops at a declaration whose target is
then refused, the next search takes the same way up to it, passes it, and stops at a later one if at
all.

* `Walks`: such a walk, past a list of variables.
* `Tours`: a walk from one state of the search to another, past declarations of which each is met
  once. They are put together by `Tours.andThen` and `Tours.foldlM`.
* `Method.Mergeable.exists_sites`: what the searches through a method are like.
-/

namespace Decompiler

/-! ## Walks -/

/-- A walk that depends on what was refused for the variables `sites`, which it passes in this
order. It never faults. Where it stops, the variable to merge into is one known from the start or
passed before. -/
structure Walks {α : Type} (known : Local → Prop) (sites : List Local)
    (walk : Table Local Local → MergeSearch α) (P : α → Prop) : Prop where
  /-- The walk comes to its end or stops. -/
  goes : ∀ refused, Returns (walk refused).run fun r => ∀ a, r = .ok a → P a
  /-- Only what is refused for the sites matters. -/
  again : ∀ refused refused' a, (walk refused).run = .ok (.ok a) →
    (∀ v ∈ sites, refused'.get? v = refused.get? v) → (walk refused').run = .ok (.ok a)
  /-- After a stop, refusing what was found makes the walk stop later. -/
  stops : ∀ refused c, (walk refused).run = .ok (.error c) →
    ∃ before after, sites = before ++ c.source :: after ∧ (known c.target ∨ c.target ∈ before) ∧
      ∀ refused' c', (∀ v ∈ before, refused'.get? v = refused.get? v) →
        refused'.get? c.source = some c.target → (walk refused').run = .ok (.error c') →
        c'.source ∈ after

namespace Walks

variable {α β : Type} {known known' : Local → Prop} {sites sites' : List Local}
  {walk : Table Local Local → MergeSearch α} {next : α → Table Local Local → MergeSearch β}
  {P : α → Prop} {Q : β → Prop}

theorem goes_pure {a : α} (h : P a) :
    Returns (Pure.pure a : MergeSearch α).run fun r => ∀ b, r = .ok b → P b := by
  refine ⟨.ok a, rfl, fun b hb => ?_⟩
  cases hb
  exact h

theorem pure {a : α} (h : P a) : Walks known sites (fun _ => Pure.pure a) P :=
  ⟨fun _ => goes_pure h, fun _ _ _ h _ => h, nofun⟩

/-- At a declaration of `v` the walk goes on once `w` was refused for it, and else stops, unless the
declaration is passed over. -/
theorem ask {v w : Local} {a a' : α} (hw : known w) (ha : P a) (ha' : P a') (passes : Bool) :
    Walks known [v] (fun refused => if refused.get? v = some w then Pure.pure a
      else if passes then Pure.pure a' else throw ⟨v, w⟩) P := by
  refine ⟨fun refused => ?_, fun refused refused' b hb heq => ?_, fun refused c hc => ?_⟩
  · split
    · exact goes_pure ha
    · cases passes with
      | true => exact goes_pure ha'
      | false => exact ⟨_, rfl, by simp⟩
  · rw [heq v (by simp)]
    exact hb
  · split at hc
    · cases hc
    · cases passes with
      | true => cases hc
      | false =>
        cases hc
        refine ⟨[], [], rfl, .inl hw, fun refused' c' _ hrefused hc' => ?_⟩
        rw [if_pos hrefused] at hc'
        cases hc'

theorem run_bind {x : MergeSearch α} {f : α → MergeSearch β} {r : Except Candidate α}
    (h : x.run = .ok r) : (x >>= f).run = match r with
      | .ok a => (f a).run
      | .error c => .ok (.error c) := by
  obtain rfl : x = .ok r := h
  cases r <;> rfl

theorem source_mem (h : Walks known sites walk P) {refused : Table Local Local} {c : Candidate}
    (hc : (walk refused).run = .ok (.error c)) : c.source ∈ sites := by
  obtain ⟨before, after, rfl, -⟩ := h.stops refused c hc
  exact List.mem_append_right before List.mem_cons_self

/-- A walk goes on from where another one ended. -/
theorem bind (h : Walks known sites walk P)
    (h' : ∀ a, P a → Walks (fun v => known v ∨ v ∈ sites) sites' (next a) Q) :
    Walks known (sites ++ sites') (fun refused => walk refused >>= fun a => next a refused) Q := by
  refine ⟨fun refused => ?_, fun refused refused' b hb heq => ?_, fun refused c hc => ?_⟩
  · obtain ⟨r, hr, hP⟩ := h.goes refused
    rw [run_bind hr]
    cases r with
    | ok a => exact (h' a (hP a rfl)).goes refused
    | error c => exact Returns.ok_iff.2 nofun
  · obtain ⟨r, hr, hP⟩ := h.goes refused
    rw [run_bind hr] at hb
    cases r with
    | error c => cases hb
    | ok a =>
      rw [run_bind (h.again refused refused' a hr fun v hv => heq v (List.mem_append_left _ hv))]
      exact (h' a (hP a rfl)).again refused refused' b hb fun v hv =>
        heq v (List.mem_append_right _ hv)
  · obtain ⟨r, hr, hP⟩ := h.goes refused
    rw [run_bind hr] at hc
    cases r with
    | error c₁ =>
      -- the first part stopped, so next time it stops later or goes on to the second part
      cases hc
      obtain ⟨before, after, rfl, hknown, hlater⟩ := h.stops refused c hr
      refine ⟨before, after ++ sites', by simp, hknown, fun refused' c' heq hrefused hc' => ?_⟩
      obtain ⟨r', hr', hP'⟩ := h.goes refused'
      rw [run_bind hr'] at hc'
      cases r' with
      | error c₂ =>
        cases hc'
        exact List.mem_append_left _ (hlater refused' c' heq hrefused hr')
      | ok a => exact List.mem_append_right _ ((h' a (hP' a rfl)).source_mem hc')
    | ok a =>
      obtain ⟨before, after, rfl, hknown, hlater⟩ := (h' a (hP a rfl)).stops refused c hc
      refine ⟨sites ++ before, after, by simp, ?_, fun refused' c' heq hrefused hc' => ?_⟩
      · rwa [List.mem_append, ← or_assoc]
      · have hfirst := h.again refused refused' a hr fun v hv => heq v (List.mem_append_left _ hv)
        rw [run_bind hfirst] at hc'
        exact hlater refused' c' (fun v hv => heq v (List.mem_append_right _ hv)) hrefused hc'

theorem map {f : α → β} (h : Walks known sites walk P) (hf : ∀ a, P a → Q (f a)) :
    Walks known sites (fun refused => walk refused >>= fun a => Pure.pure (f a)) Q := by
  have hboth : Walks known (sites ++ [])
      (fun refused => walk refused >>= fun a => Pure.pure (f a)) Q := h.bind fun a ha => pure (hf a ha)
  rwa [List.append_nil] at hboth

end Walks

/-! ## Tours -/

/-- A walk from states of one kind to states of another, past declarations that satisfy `P`. None is
met twice. `A` and `B` tell what the variables of a state are. -/
def Tours {α β : Type} (A : α → (Local → Prop) → Prop) (B : β → (Local → Prop) → Prop)
    (P : ExprId × Local → Prop) (walk : Table Local Local → α → MergeSearch β) : Prop :=
  ∃ met : List (ExprId × Local), met.Nodup ∧ (∀ p ∈ met, P p) ∧ ∀ known a, A a known →
    Walks known (met.map Prod.snd) (walk · a) fun b => B b fun v => known v ∨ v ∈ met.map Prod.snd

namespace Tours

variable {α β γ : Type} {A : α → (Local → Prop) → Prop} {B : β → (Local → Prop) → Prop}
  {C : γ → (Local → Prop) → Prop} {P Q : ExprId × Local → Prop}
  {walk : Table Local Local → α → MergeSearch β} {next : Table Local Local → β → MergeSearch γ}

theorem mono (h : Tours A B P walk) (hPQ : ∀ p, P p → Q p) : Tours A B Q walk := by
  obtain ⟨met, hnodup, hmet, hwalks⟩ := h
  exact ⟨met, hnodup, fun p hp => hPQ p (hmet p hp), hwalks⟩

/-- A step that meets no declaration. -/
theorem pure {f : α → β} (h : ∀ a known, A a known → B (f a) known) :
    Tours A B P fun _ a => Pure.pure (f a) := by
  refine ⟨[], .nil, nofun, fun known a ha => .pure ?_⟩
  simpa using h a known ha

/-- Two tours, one after the other, that meet different declarations. -/
theorem andThen (h : Tours A B P walk) (h' : Tours B C Q next) (apart : ∀ p, P p → ¬ Q p) :
    Tours A C (fun p => P p ∨ Q p) fun refused a => walk refused a >>= next refused := by
  obtain ⟨met, hnodup, hmet, hwalks⟩ := h
  obtain ⟨met', hnodup', hmet', hwalks'⟩ := h'
  refine ⟨met ++ met', ?_, fun p hp => ?_, fun known a ha => ?_⟩
  · refine List.nodup_append'.2 ⟨hnodup, hnodup', fun p hp hp' => ?_⟩
    exact apart p (hmet p hp) (hmet' p hp')
  · exact (List.mem_append.1 hp).imp (hmet p) (hmet' p)
  · have hboth := (hwalks known a ha).bind fun b hb => hwalks' _ b hb
    simp only [or_assoc, ← List.mem_append, ← List.map_append] at hboth
    exact hboth

/-- A tour through a list. -/
theorem foldlM {ι : Type} {f : Table Local Local → α → ι → MergeSearch α}
    {P : ι → ExprId × Local → Prop} {l : List ι}
    (h : ∀ i ∈ l, Tours A A (P i) fun refused a => f refused a i)
    (apart : l.Pairwise fun i j => ∀ p, P i p → ¬ P j p) :
    Tours A A (fun p => ∃ i ∈ l, P i p) fun refused a => l.foldlM (f refused) a := by
  induction l with
  | nil => exact pure fun a known ha => ha
  | cons i l ih =>
    rw [List.pairwise_cons] at apart
    have hrest := ih (fun j hj => h j (by simp [hj])) apart.2
    refine ((h i (by simp)).andThen hrest ?_).mono ?_
    · rintro p hp ⟨j, hj, hp'⟩
      exact apart.1 j hj p hp hp'
    · rintro p (hp | ⟨j, hj, hp⟩)
      · exact ⟨i, by simp, hp⟩
      · exact ⟨j, by simp [hj], hp⟩

end Tours

/-! ## Variables in scope -/

/-- All values of a table satisfy `K`. -/
def Table.All {κ α : Type} (t : Table κ α) (K : α → Prop) : Prop := ∀ p ∈ t.entries, K p.2

namespace Table.All

variable {κ α : Type} {t u : Table κ α} {K K' : α → Prop} {k : κ} {v : α}

theorem empty : (Table.empty : Table κ α).All K := nofun

theorem mono (h : t.All K) (hK : ∀ v, K v → K' v) : t.All K' := fun p hp => hK _ (h p hp)

variable [DecidableEq κ]

theorem get? (h : t.All K) (hv : t.get? k = some v) : K v := h _ (Table.mem_entries_of_get? hv)

theorem insert (h : t.All K) (hv : K v) : (t.insert k v).All K := by
  intro p hp
  rcases Table.mem_entries_insert hp with hp | rfl
  · exact h p hp
  · exact hv

theorem union (h : t.All K) (h' : u.All K) : (t.union u).All K := by
  have key : ∀ l : List (κ × α), (∀ p ∈ l, K p.2) → ∀ t : Table κ α, t.All K →
      (l.foldl (fun t e => t.insert e.1 e.2) t).All K := by
    intro l
    induction l with
    | nil => exact fun _ t ht => ht
    | cons e l ih =>
      exact fun hl t ht => ih (fun p hp => hl p (by simp [hp])) _ (ht.insert (hl e (by simp)))
  exact key u.entries h' t h

end Table.All

/-- The variables in scope, and those that stay so, satisfy `K`. -/
def Scope.All (s : Scope) (K : Local → Prop) : Prop := s.visible.All K ∧ s.leaked.All K

namespace Method

open Decompiler.Graph

variable {m : Method} {scope : Scope} {known : Local → Prop} {v : Local} {leaks : Bool}

theorem enterScope_all (h : scope.All known) (leaks : Bool) :
    (m.enterScope scope v leaks).All fun w => known w ∨ w ∈ [v] := by
  have hvisible : scope.visible.All fun w => known w ∨ w ∈ [v] := h.1.mono fun _ => .inl
  have hleaked : scope.leaked.All fun w => known w ∨ w ∈ [v] := h.2.mono fun _ => .inl
  have hv : known v ∨ v ∈ [v] := .inr (by simp)
  refine ⟨hvisible.insert hv, ?_⟩
  unfold enterScope
  split
  · exact hleaked.insert hv
  · exact hleaked

/-- At a declaration the walk stops when there is something to merge into that was not refused just
before, unless a candidate is to be passed over. -/
theorem walks_declaration (h : scope.All known) (passes : Candidate → Bool) :
    Walks known [v] (fun refused => match m.scopeCandidate? refused scope.visible v with
      | some c => if passes c then pure scope else throw c
      | none => pure (m.enterScope scope v leaks)) fun s => s.All fun w => known w ∨ w ∈ [v] := by
  have henter := enterScope_all (m := m) (v := v) h leaks
  have hscope : scope.All fun w => known w ∨ w ∈ [v] :=
    ⟨h.1.mono fun _ => .inl, h.2.mono fun _ => .inl⟩
  cases hget : scope.visible.get? (m.vars.slotOf v.index) with
  | none =>
    have hnone : ∀ refused, m.scopeCandidate? refused scope.visible v = none := fun refused => by
      simp [scopeCandidate?, hget]
    simp only [hnone]
    exact .pure henter
  | some existing =>
    have hcandidate : ∀ refused, m.scopeCandidate? refused scope.visible v =
        if refused.get? v = some existing then none else some ⟨v, existing⟩ := fun refused => by
      simp [scopeCandidate?, hget]
    simp only [hcandidate]
    convert Walks.ask (P := fun s : Scope => s.All fun w => known w ∨ w ∈ [v]) (v := v)
      (h.1.get? hget) henter hscope (passes ⟨v, existing⟩) using 2 with refused
    by_cases hrefused : refused.get? v = some existing
    · simp only [if_pos hrefused]
    · simp only [if_neg hrefused]

variable {s : StatId} {e : ExprId}

theorem tours_declaration {walk : Table Local Local → Scope → MergeSearch Scope} (m : Method)
    (e : ExprId) (v : Local) (leaks : Bool) (passes : Candidate → Bool)
    (hwalk : ∀ refused scope, walk refused scope =
      match m.scopeCandidate? refused scope.visible v with
      | some c => if passes c then pure scope else throw c
      | none => pure (m.enterScope scope v leaks)) :
    Tours Scope.All Scope.All (· = (e, v)) walk := by
  refine ⟨[(e, v)], by simp, by simp, fun known scope h => ?_⟩
  simp only [hwalk]
  exact walks_declaration h passes

theorem tours_walkDeclaration (he : m.graph.Grounded e) :
    Tours Scope.All Scope.All (fun p => p.1 = e ∧ m.graph.local? e = .ok (some p.2))
      fun refused scope => m.walkDeclaration refused scope e := by
  obtain ⟨w?, hw⟩ := he.var?
  cases w? with
  | none =>
    have hwalk : ∀ refused scope, m.walkDeclaration refused scope e = pure scope := by
      intro refused scope
      rw [walkDeclaration, hw]
      rfl
    simp only [hwalk]
    exact .pure fun _ _ h => h
  | some w =>
    have hlocal : m.graph.local? e = .ok (some w.var) := local?_eq_ok.2 ⟨w, var?_eq_ok.1 hw, rfl⟩
    refine (tours_declaration m e w.var true (fun _ => false) fun refused scope => ?_).mono ?_
    · rw [walkDeclaration, hw]
      rfl
    · rintro p rfl
      exact ⟨rfl, hlocal⟩

theorem tours_walkExpr (o : m.graph.Orderly) (hs : m.graph.InTree s) (he : m.graph.Evaluates s e)
    (stat : Stat) (position : ℕ) :
    Tours Scope.All Scope.All (fun p => p.1 = e ∧ declared? m.graph e = .ok (some p.2))
      fun refused scope => m.walkExpr refused s stat scope position e := by
  obtain ⟨v?, hv⟩ := declared?_returns (o.grounded s e hs he.holds)
  cases v? with
  | none =>
    have hwalk : ∀ refused scope, m.walkExpr refused s stat scope position e = pure scope := by
      intro refused scope
      rw [walkExpr, hv]
      rfl
    simp only [hwalk]
    exact .pure fun _ _ h => h
  | some v =>
    refine (tours_declaration m e v (leaksOwn stat.kind)
      (fun c => decide (m.graph.reads c.target s (position + 1) [] = .ok true))
      fun refused scope => ?_).mono ?_
    · rw [walkExpr, hv]
      change (match m.scopeCandidate? refused scope.visible v with
        | some c => _
        | none => _) = _
      split
      · next c _ =>
        obtain ⟨b, hb⟩ := o.reads hs c.target (position + 1) []
        rw [hb]
        cases b <;> rfl
      · rfl
    · rintro p rfl
      exact ⟨rfl, hv⟩

end Method

/-! ## Items of a statement -/

theorem Stat.nodup_items {st : Stat} (hc : st.children.Nodup) (he : st.kind.exprs.Nodup) :
    st.items.Nodup := by
  obtain ⟨kind, parent, first, children, declarations, successors, predecessors, labels⟩ := st
  let inside := children.map Item.stat
  have hexprs : ∀ l : List ExprId, l.Nodup → (l.map Item.expr).Nodup := fun l hl =>
    hl.map fun _ _ h => Item.expr.inj h
  have hinside : inside.Nodup := List.Nodup.map (fun _ _ h => Item.stat.inj h) hc
  have hboth : ∀ l : List ExprId, l.Nodup → (inside ++ l.map Item.expr).Nodup := by
    refine fun l hl => List.nodup_append'.2 ⟨hinside, hexprs l hl, ?_⟩
    simp [inside, List.Disjoint]
  have hhead : ∀ l : List ExprId, l.Nodup →
      (inside.take 1 ++ l.map Item.expr ++ inside.drop 1).Nodup := by
    intro l hl
    have hperm : (inside.take 1 ++ (l.map Item.expr ++ inside.drop 1)).Perm
        (inside.take 1 ++ (inside.drop 1 ++ l.map Item.expr)) := List.perm_append_comm.append_left _
    rw [← List.append_assoc, ← List.append_assoc, List.take_append_drop] at hperm
    exact hperm.nodup_iff.2 (hboth l hl)
  cases kind with
  | block exprs => exact hexprs exprs he
  | branch b => exact hhead [b.head] he
  | switch head _ => exact hhead [head] he
  | synchronized head _ => exact hhead head.toList he
  | loop l =>
    have hperm : (((loopBefore l).map Item.expr ++ inside) ++ (loopAfter l).map Item.expr).Perm
        ((inside ++ (loopBefore l).map Item.expr) ++ (loopAfter l).map Item.expr) :=
      List.perm_append_comm.append_right _
    refine hperm.nodup_iff.2 ?_
    rw [List.append_assoc, ← List.map_append]
    exact hboth _ he
  | _ => exact hinside

namespace Graph

variable {g : Graph} {s : StatId} {e : ExprId} {v : Local} {p : ExprId × Local}

/-- The declarations that are met at an item of a statement. -/
def Meets (g : Graph) (p : ExprId × Local) : Item → Prop
  | .expr e => p.1 = e ∧ Method.declared? g e = .ok (some p.2)
  | .stat c => ∃ t, g.Within c t ∧ g.DeclaresAt t p.1 p.2

/-- A declaration that is met at an item stands in a statement below, or the item is the
declaration. -/
theorem Meets.holds {st : Stat} (hst : g.stat s = .ok st) {i : Item} (hi : i ∈ st.items)
    (h : g.Meets p i) : i = .expr p.1 ∧ g.Evaluates s p.1 ∨
      ∃ c t, i = .stat c ∧ g.ChildOf s c ∧ g.Within c t ∧ g.Holds t p.1 := by
  cases i with
  | expr e =>
    obtain ⟨rfl, -⟩ := h
    exact .inl ⟨rfl, st, hst, hi⟩
  | stat c =>
    obtain ⟨t, ht, hat⟩ := h
    exact .inr ⟨c, t, rfl, childOf_of_items hst hi, ht, hat.holds⟩

theorem Meets.declaresAt {st : Stat} (hst : g.stat s = .ok st) {i : Item} (hi : i ∈ st.items)
    (h : g.Meets p i) : ∃ t, g.Within s t ∧ g.DeclaresAt t p.1 p.2 := by
  cases i with
  | expr e =>
    obtain ⟨rfl, hdeclared⟩ := h
    exact ⟨s, .refl, .inr ⟨⟨st, hst, hi⟩, hdeclared⟩⟩
  | stat c =>
    obtain ⟨t, ht, hat⟩ := h
    exact ⟨t, .head (childOf_of_items hst hi) ht, hat⟩

/-- What a statement holds itself is held by none below. -/
theorem Orderly.not_holds_below (o : g.Orderly) (hs : g.InTree s) {c t : StatId}
    (hc : g.ChildOf s c) (ht : g.Within c t) (he : g.Holds s e) : ¬ g.Holds t e := by
  intro he'
  obtain ⟨rfl, -⟩ := o.apart s t e e e hs ((hs.child hc).within ht) he he' .refl .refl
  exact o.forest.acyclic hs (.head' hc ht)

theorem Meets.unique (o : g.Orderly) (hs : g.InTree s) {st : Stat} (hst : g.stat s = .ok st)
    {i j : Item} (hi : i ∈ st.items) (hj : j ∈ st.items) (h : g.Meets p i) (h' : g.Meets p j) :
    i = j := by
  rcases h.holds hst hi with ⟨rfl, he⟩ | ⟨c, t, rfl, hc, ht, he⟩ <;>
    rcases h'.holds hst hj with ⟨rfl, he'⟩ | ⟨c', t', rfl, hc', ht', he'⟩
  · rfl
  · exact absurd he' (o.not_holds_below hs hc' ht' he.holds)
  · exact absurd he (o.not_holds_below hs hc ht he'.holds)
  · have htree := (hs.child hc).within ht
    have htree' := (hs.child hc').within ht'
    obtain ⟨rfl, -⟩ := o.apart t t' p.1 p.1 p.1 htree htree' he he' .refl .refl
    rw [o.forest.eq_of_within hs hc hc' ht ht']

theorem not_meets_of_listsDeclaration (o : g.Orderly) (hs : g.InTree s) {st : Stat}
    (hst : g.stat s = .ok st) (hp : p.1 ∈ st.declarations) {i : Item} (hi : i ∈ st.items) :
    ¬ g.Meets p i := by
  intro h
  have hlists : g.ListsDeclaration s p.1 := ⟨st, hst, hp⟩
  rcases h.holds hst hi with ⟨rfl, he⟩ | ⟨c, t, rfl, hc, ht, he⟩
  · obtain ⟨st', hst', he⟩ := he
    exact hlists.not_mem_exprs o hs hst' (Stat.mem_exprs_of_items he)
  · exact o.not_holds_below hs hc ht hlists.holds he

end Graph

/-! ## The search through a method -/

namespace Method

open Decompiler.Graph

variable {m : Method} {s : StatId}

theorem tours_declarations (o : m.graph.Orderly) (hs : m.graph.InTree s) {st : Stat}
    (hst : m.graph.stat s = .ok st) :
    Tours Scope.All Scope.All (fun p => p.1 ∈ st.declarations ∧ m.graph.local? p.1 = .ok (some p.2))
      fun refused scope => st.declarations.foldlM (m.walkDeclaration refused) scope := by
  have hground : ∀ e ∈ st.declarations, m.graph.Grounded e := fun e he =>
    o.grounded s e hs ⟨st, hst, List.mem_append_right _ he⟩
  have hnodup : st.declarations.Nodup :=
    (List.nodup_append.1 (o.nodup s _ hs (heldBy_eq_ok.2 ⟨st, hst, rfl⟩))).2.1
  refine (Tours.foldlM (fun e he => tours_walkDeclaration (hground e he)) ?_).mono ?_
  · refine hnodup.imp fun hne p hp hp' => hne ?_
    exact hp.1.symm.trans hp'.1
  · rintro p ⟨e, he, rfl, hlocal⟩
    exact ⟨he, hlocal⟩

theorem tours_items (o : m.graph.Orderly) (hs : m.graph.InTree s) {st : Stat}
    (hst : m.graph.stat s = .ok st)
    {visit : Table Local Local → Scope → Item × ℕ → MergeSearch Scope}
    (hvisit : ∀ i ∈ st.items, ∀ position, Tours Scope.All Scope.All (m.graph.Meets · i)
      fun refused scope => visit refused scope (i, position)) :
    Tours Scope.All Scope.All (fun p => ∃ i ∈ st.items, m.graph.Meets p i)
      fun refused scope => st.items.zipIdx.foldlM (visit refused) scope := by
  have hheld := List.nodup_append.1 (o.nodup s _ hs (heldBy_eq_ok.2 ⟨st, hst, rfl⟩))
  have hitems : st.items.Pairwise fun i j => ∀ p, m.graph.Meets p i → ¬ m.graph.Meets p j := by
    refine (Stat.nodup_items (o.forest.nodup s st hs hst) hheld.1).pairwise_of_forall_ne ?_
    exact fun i hi j hj hne p h h' => hne (h.unique o hs hst hi hj h')
  have hmem : ∀ q ∈ st.items.zipIdx, q.1 ∈ st.items := fun q hq => List.fst_mem_of_mem_zipIdx hq
  refine (Tours.foldlM (P := fun q p => m.graph.Meets p q.1)
    (fun q hq => hvisit q.1 (hmem q hq) q.2) ?_).mono ?_
  · rwa [← List.zipIdx_map_fst 0 st.items, List.pairwise_map] at hitems
  · rintro p ⟨q, hq, hp⟩
    exact ⟨q.1, hmem q hq, hp⟩

/-- One level of a search: what it does at each item of a statement. -/
theorem walkScope_succ {n : ℕ} {st : Stat} (hst : m.graph.stat s = .ok st) :
    ∃ visit : Table Local Local → Scope → Item × ℕ → MergeSearch Scope,
      (∀ refused scope e position, visit refused scope (.expr e, position) =
        m.walkExpr refused s st scope position e) ∧
      (∀ refused scope c position, visit refused scope (.stat c, position) =
        m.walkScope refused n scope.visible c >>= fun leaked =>
          pure ⟨if (leaksFrom st c).1 then scope.visible.union leaked else scope.visible,
            if (leaksFrom st c).2 then scope.leaked.union leaked else scope.leaked⟩) ∧
      ∀ refused visible, m.walkScope refused (n + 1) visible s = (do
        let scope ← st.declarations.foldlM (m.walkDeclaration refused) ⟨visible, .empty⟩
        let scope ← st.items.zipIdx.foldlM (visit refused) scope
        pure scope.leaked) := by
  -- the last equation tells which function it is
  apply Exists.intro
  refine ⟨?_, ?_, fun refused visible => ?eq⟩
  case eq =>
    rw [walkScope, hst]
    rfl
  · exact fun _ _ _ _ => rfl
  · exact fun _ _ _ _ => rfl

theorem tours_child {n : ℕ} {c : StatId} (st : Stat)
    (h : Tours Table.All Table.All (fun p => ∃ t, m.graph.Within c t ∧ m.graph.DeclaresAt t p.1 p.2)
      fun refused visible => m.walkScope refused n visible c) :
    Tours Scope.All Scope.All (m.graph.Meets · (.stat c)) fun refused scope =>
      m.walkScope refused n scope.visible c >>= fun leaked =>
        pure ⟨if (leaksFrom st c).1 then scope.visible.union leaked else scope.visible,
          if (leaksFrom st c).2 then scope.leaked.union leaked else scope.leaked⟩ := by
  obtain ⟨met, hnodup, hmet, hwalks⟩ := h
  refine ⟨met, hnodup, hmet, fun known scope hscope => ?_⟩
  refine (hwalks known scope.visible hscope.1).map fun leaked hleaked => ⟨?_, ?_⟩
  · have hvisible := hscope.1.mono fun v hv => Or.inl (b := v ∈ met.map Prod.snd) hv
    dsimp only
    split
    · exact hvisible.union hleaked
    · exact hvisible
  · have hold := hscope.2.mono fun v hv => Or.inl (b := v ∈ met.map Prod.snd) hv
    dsimp only
    split
    · exact hold.union hleaked
    · exact hold

/-- The search below a statement. -/
theorem tours_walkScope (o : m.graph.Orderly) {n : ℕ} (hs : m.graph.InTree s)
    (hn : m.graph.stats.size ≤ n) :
    Tours Table.All Table.All (fun p => ∃ t, m.graph.Within s t ∧ m.graph.DeclaresAt t p.1 p.2)
      fun refused visible => m.walkScope refused n visible s := by
  refine o.forest.walk (P := fun n s => Tours Table.All Table.All
      (fun p => ∃ t, m.graph.Within s t ∧ m.graph.DeclaresAt t p.1 p.2)
      fun refused visible => m.walkScope refused n visible s)
    (fun n s st hs hst hbelow => ?_) hs hn
  obtain ⟨visit, hexpr, hstat, hwalk⟩ := walkScope_succ (n := n) hst
  have hvisit : ∀ i ∈ st.items, ∀ position, Tours Scope.All Scope.All (m.graph.Meets · i)
      fun refused scope => visit refused scope (i, position) := by
    intro i hi position
    cases i with
    | expr e =>
      simp only [hexpr]
      exact tours_walkExpr o hs ⟨st, hst, hi⟩ st position
    | stat c =>
      simp only [hstat]
      exact tours_child st (hbelow c ((childOf_iff hst).1 (childOf_of_items hst hi)))
  have hstart : Tours Table.All Scope.All (fun _ => False) fun _ visible =>
      pure ⟨visible, .empty⟩ := .pure fun _ _ h => ⟨h, .empty⟩
  have hend : Tours Scope.All Table.All (fun _ => False) fun _ scope => pure scope.leaked :=
    .pure fun _ _ h => h.2
  have hinside := (tours_items o hs hst hvisit).andThen hend fun _ _ => id
  have hall := (tours_declarations o hs hst).andThen hinside ?_
  · simp only [hwalk]
    refine (hstart.andThen hall fun _ h => h.elim).mono ?_
    rintro p (h | h | ⟨i, hi, h⟩ | h)
    · exact h.elim
    · exact ⟨s, .refl, .inl ⟨⟨st, hst, h.1⟩, h.2⟩⟩
    · exact h.declaresAt hst hi
    · exact h.elim
  · rintro p hp (⟨i, hi, h⟩ | h)
    · exact not_meets_of_listsDeclaration o hs hst hp.1 hi h
    · exact h

/-- The parameters, which are in scope from the start. -/
def parametersInScope (m : Method) : Table ℕ Local :=
  .ofList (m.vars.parameterSlots.map fun slot => (slot, ⟨slot, 0⟩))

theorem parameters_all (m : Method) :
    m.parametersInScope.All fun v => ∃ slot ∈ m.vars.parameterSlots, v = ⟨slot, 0⟩ := by
  refine Table.All.union .empty fun p hp => ?_
  obtain ⟨slot, hslot, rfl⟩ := List.mem_map.1 hp
  exact ⟨slot, hslot, rfl⟩

theorem scopedCandidate?_of_run {refused : Table Local Local} {r : Except Candidate (Table ℕ Local)}
    (h : (m.walkScope refused m.graph.statLevels m.parametersInScope Graph.root).run = .ok r) :
    m.scopedCandidate? refused = .ok (match r with
      | .error c => some c
      | .ok _ => none) := by
  rw [parametersInScope] at h
  rw [scopedCandidate?, h]
  cases r <;> rfl

/-- A search that stops has found a declared variable, and another one or a parameter. -/
theorem declares_of_scopedCandidate? (o : m.graph.Orderly) {refused : Table Local Local}
    {c : Candidate} (h : m.scopedCandidate? refused = .ok (some c)) :
    (∃ e, m.graph.Declares e c.source) ∧
      ((∃ slot ∈ m.vars.parameterSlots, c.target = ⟨slot, 0⟩) ∨ ∃ e, m.graph.Declares e c.target) := by
  obtain ⟨met, -, hmet, hwalks⟩ := tours_walkScope o .refl (Nat.le_succ m.graph.stats.size)
  have hdeclared : ∀ v ∈ met.map Prod.snd, ∃ e, m.graph.Declares e v := by
    intro v hv
    obtain ⟨p, hp, rfl⟩ := List.mem_map.1 hv
    exact ⟨p.1, hmet p hp⟩
  have hwalk := hwalks _ _ (parameters_all m)
  obtain ⟨r, hr, -⟩ := hwalk.goes refused
  rw [scopedCandidate?_of_run hr] at h
  cases r with
  | ok visible => cases h
  | error c' =>
    cases h
    obtain ⟨before, after, hsplit, hknown, -⟩ := hwalk.stops refused c hr
    rw [hsplit] at hdeclared
    refine ⟨hdeclared c.source (by simp), hknown.imp_right fun hbefore => hdeclared c.target ?_⟩
    exact List.mem_append_left _ hbefore

/-- A method whose variables can be merged across scopes: no variable is declared twice, and none is
a parameter. -/
structure Mergeable (m : Method) : Prop where
  /-- The graph is orderly. -/
  orderly : m.graph.Orderly
  /-- Leaders can be found. -/
  leaders : m.vars.leaders.Acyclic
  /-- A variable is declared by one expression. -/
  unique : ∀ e e' v, m.graph.Declares e v → m.graph.Declares e' v → e = e'
  /-- Parameters are not declared. -/
  parameters : ∀ e, ∀ slot ∈ m.vars.parameterSlots, ¬ m.graph.Declares e ⟨slot, 0⟩

/-- Searches pass the variables `sites` in this order. -/
structure Sites (m : Method) (sites : List Local) : Prop where
  /-- No variable is passed twice. -/
  nodup : sites.Nodup
  /-- Each is declared. -/
  declared : ∀ v ∈ sites, ∃ e, m.graph.Declares e v
  /-- A search that stops finds two different variables. Once the second is refused for the first,
  the next search does not stop before it is past the first. -/
  search : ∀ refused, Returns (m.scopedCandidate? refused) fun r => ∀ c, r = some c →
    c.source ≠ c.target ∧ ∃ before after, sites = before ++ c.source :: after ∧ ∀ c',
      m.scopedCandidate? (refused.insert c.source c.target) = .ok (some c') → c'.source ∈ after

theorem Mergeable.exists_sites (h : m.Mergeable) : ∃ sites, m.Sites sites := by
  obtain ⟨met, hnodup, hmet, hwalks⟩ :=
    tours_walkScope h.orderly .refl (Nat.le_succ m.graph.stats.size)
  have hdeclares : ∀ p ∈ met, m.graph.Declares p.1 p.2 := hmet
  have hsites : (met.map Prod.snd).Nodup := by
    refine (List.nodup_map_iff_inj_on hnodup).2 fun p hp q hq heq => Prod.ext ?_ heq
    exact h.unique p.1 q.1 p.2 (hdeclares p hp) (heq ▸ hdeclares q hq)
  have hdeclared : ∀ v ∈ met.map Prod.snd, ∃ e, m.graph.Declares e v := by
    intro v hv
    obtain ⟨p, hp, rfl⟩ := List.mem_map.1 hv
    exact ⟨p.1, hdeclares p hp⟩
  have hwalk := hwalks _ _ (parameters_all m)
  refine ⟨met.map Prod.snd, hsites, hdeclared, fun refused => ?_⟩
  obtain ⟨r, hr, -⟩ := hwalk.goes refused
  cases r with
  | ok visible => exact ⟨none, scopedCandidate?_of_run hr, nofun⟩
  | error c =>
    refine ⟨some c, scopedCandidate?_of_run hr, ?_⟩
    rintro c ⟨⟩
    obtain ⟨before, after, hsplit, hknown, hlater⟩ := hwalk.stops refused c hr
    rw [hsplit] at hsites hdeclared
    have hnot : c.source ∉ before := fun hc =>
      (List.nodup_append.1 hsites).2.2 c.source hc c.source List.mem_cons_self rfl
    refine ⟨fun heq => ?_, before, after, hsplit, fun c' hc' => ?_⟩
    · rcases hknown with ⟨slot, hslot, htarget⟩ | htarget
      · obtain ⟨e, he⟩ := hdeclared c.source (List.mem_append_right _ List.mem_cons_self)
        rw [heq, htarget] at he
        exact h.parameters e slot hslot he
      · exact hnot (heq ▸ htarget)
    · obtain ⟨r', hr', -⟩ := hwalk.goes (refused.insert c.source c.target)
      rw [scopedCandidate?_of_run hr'] at hc'
      cases r' with
      | ok visible => cases hc'
      | error c'' =>
        cases hc'
        refine hlater _ c' (fun v hv => ?_) ?_ hr'
        · rw [Table.get?_insert, if_neg]
          rintro rfl
          exact hnot hv
        · rw [Table.get?_insert, if_pos rfl]

end Method

end Decompiler

import Decompiler.Monitors
import Decompiler.Proofs.Loops.Orphans
import Decompiler.Proofs.Variables.Changes

/-!
# Copies of monitors that are dropped

The assignment that copies the object of a monitor to a variable is dropped where no expression that
is done in the statement around mentions the variable. The search stays in that statement: what
stands outside of it may still read the variable, as may the body of a loop around it the next time.

* `Graph.Copied`: what is found in front of a synchronized statement, and
  `Graph.cleanMonitor_eq_some` what is done about it.
* `Graph.DropsCopies`: what comes of a run. One step keeps it (`Graph.DropsCopies.step`).
* `Graph.cleanMonitors_dropsCopies`: on a well-formed tree the cleaning of monitors comes to a
  result and drops nothing but copies that are not mentioned in the statement around.
* `Graph.not_assigns_of_read_after_monitor`: the copy that is read after a loop around is dropped.
-/

namespace Decompiler

open Relation

/-! ## Statements without an expression -/

namespace Stat

variable {s : Stat} {keep : ExprId → Bool} {e : ExprId}

@[simp] theorem refit_skeleton : (s.refit id keep).skeleton = s.skeleton := by
  obtain ⟨kind, -⟩ := s
  cases kind <;> rfl

theorem refit_eq_synchronized {head : Option ExprId} {body : StatId}
    (h : (s.refit id keep).kind = .synchronized head body) : s.kind = .synchronized head body := by
  obtain ⟨kind, parent, first, children, declarations, successors, predecessors, labels⟩ := s
  cases kind with
  | synchronized _ _ => exact h
  | _ => cases h

theorem mem_exprs?_refit : e ∈ (s.refit id keep).exprs?.getD [] ↔
    e ∈ s.exprs?.getD [] ∧ keep e = true := by
  obtain ⟨kind, -⟩ := s
  cases kind <;> simp [refit, exprs?]

theorem mem_items_refit (h : .expr e ∈ (s.refit id keep).items) :
    .expr e ∈ s.items ∧ (e ∈ s.exprs?.getD [] → keep e = true) := by
  obtain ⟨kind, parent, first, children, declarations, successors, predecessors, labels⟩ := s
  cases kind with
  | block exprs =>
    obtain ⟨x, hx, heq⟩ := List.mem_map.1 h
    obtain rfl := Item.expr.inj heq
    obtain ⟨hx, hkeep⟩ := List.mem_filter.1 hx
    exact ⟨List.mem_map_of_mem hx, fun _ => hkeep⟩
  | _ => exact ⟨h, nofun⟩

end Stat

/-- An assignment of the object of a monitor to a variable, in front of a synchronized statement. -/
structure MonitorCopy where
  /-- The synchronized statement. -/
  sync : StatId
  /-- The statement around it. -/
  around : StatId
  /-- The leaf in front, which lists the assignment. -/
  front : StatId
  /-- The expression that enters the monitor. -/
  head : ExprId
  /-- The object of the monitor. -/
  monitor : ExprId
  /-- The assignment. -/
  copy : ExprId
  /-- Its left side. -/
  left : ExprId
  /-- Its right side. -/
  right : ExprId
  /-- The variable on the left side. -/
  var : Local

/-- From where the assignment is taken. -/
def MonitorCopy.cut (m : MonitorCopy) : StatId × ExprId := (m.front, m.copy)

namespace Graph

variable {g g' g'' : Graph} {s t around front : StatId} {e x y monitor target : ExprId}
  {v w : VarRef} {m : MonitorCopy} {dropped : List MonitorCopy} {cuts : List (StatId × ExprId)}

/-! ## One synchronized statement -/

/-- The parts of the copy are where they should be. -/
structure Copied (g : Graph) (m : MonitorCopy) : Prop where
  /-- The synchronized statement. -/
  sync : Returns (g.stat m.sync) fun st => st.parent = some m.around ∧ st.first = some m.front ∧
    ∃ body, st.kind = .synchronized (some m.head) body
  /-- The expression that enters the monitor. -/
  head : ∃ kind, g.expr m.head = .ok (.monitor kind m.monitor)
  /-- The assignment stands in front. -/
  listed : g.Lists m.front m.copy
  /-- The assignment. -/
  copy : g.expr m.copy = .ok (.assign m.left m.right)
  /-- What it assigns to is a variable. -/
  left : g.local? m.left = .ok (some m.var)
  /-- What it assigns is the same as the object of the monitor. -/
  right : g.equal m.right m.monitor = .ok true

/-- Nothing that is done in the statement mentions the variable. -/
def Unmentioned (g : Graph) (around : StatId) (var : Local) : Prop :=
  ∀ t x, g.Within around t → g.Evaluates t x → ¬ g.Involves x var

theorem isDeadCopy_eq_true (h : g.isDeadCopy monitor around e = .ok true) :
    ∃ left right var, g.expr e = .ok (.assign left right) ∧ g.local? left = .ok (some var) ∧
      g.equal right monitor = .ok true ∧ g.isUsed left around [] = .ok false := by
  obtain ⟨sides, hsides, h⟩ := Checked.bind_eq_ok.1 h
  obtain _ | ⟨left, right⟩ := sides
  · cases h
  obtain ⟨v, hv, h⟩ := Checked.bind_eq_ok.1 h
  obtain _ | v := v
  · cases h
  simp only [Option.isNone_some, Bool.false_eq_true, if_false] at h
  obtain ⟨same, hsame, h⟩ := Checked.bind_eq_ok.1 h
  cases same
  · cases h
  obtain ⟨used, hused, h⟩ := Checked.bind_eq_ok.1 h
  cases used
  · exact ⟨left, right, v.var, assign?_eq_ok.1 hsides, local?_eq_ok.2 ⟨v, var?_eq_ok.1 hv, rfl⟩,
      hsame, hused⟩
  · cases h

/-- What is dropped is a copy that is not used in the statement around. -/
theorem cleanMonitor_eq_some (h : g.cleanMonitor s = .ok (some g')) : ∃ m g₁, m.sync = s ∧
    g.Copied m ∧ g.isUsed m.left m.around [] = .ok false ∧
      g.removeExpr m.front m.copy = .ok g₁ ∧ g₁.absorb m.head m.copy = .ok g' := by
  simp only [cleanMonitor, Checked.bind_eq_ok] at h
  obtain ⟨st, hst, h⟩ := h
  split at h
  swap
  · cases h
  next head body hkind =>
  obtain ⟨x, hx, h⟩ := Checked.bind_eq_ok.1 h
  split at h
  swap
  · cases h
  next kind monitor =>
  split at h
  swap
  · cases h
  next front hfront =>
  split at h
  swap
  · cases h
  next around haround =>
  obtain ⟨ft, hft, h⟩ := Checked.bind_eq_ok.1 h
  split at h
  swap
  · cases h
  next exprs hexprs =>
  obtain ⟨_ | copy, hcopy, h⟩ := Checked.bind_eq_ok.1 h
  · cases h
  obtain ⟨hmem, hdead⟩ := Checked.mem_of_findM? hcopy
  obtain ⟨left, right, var, hassign, hleft, hright, hused⟩ := isDeadCopy_eq_true hdead
  simp only [Checked.bind_eq_ok, Checked.pure_eq_ok, Option.some.injEq, exists_eq_right] at h
  obtain ⟨g₁, h₁, h₂⟩ := h
  have hlisted : g.Lists front copy := (lists_iff hft).2 (by simpa [hexprs] using hmem)
  exact ⟨⟨s, around, front, head, monitor, copy, left, right, var⟩, g₁, rfl,
    ⟨⟨st, hst, haround, hfront, body, hkind⟩, ⟨kind, hx⟩, hlisted, hassign, hleft, hright⟩, hused,
    h₁, h₂⟩

/-! ## Looking for the variable -/

/-- Where an expression is not used, no other occurrence of its variable is found. -/
theorem eq_of_isUsedIn (h : g.isUsedIn target x [] = .ok false) {var : Local}
    (ht : g.local? target = .ok (some var)) (hy : g.Reaches x y) (hw : g.expr y = .ok (.var w))
    (hvar : w.var = var) : y = target := by
  simp only [isUsedIn, ht, Checked.ok_bind, Checked.bind_eq_ok, Checked.pure_eq_ok] at h
  obtain ⟨refs, hrefs, h⟩ := h
  have hnot := List.any_eq_false.1 h (y, w) ((mem_refsIn hrefs).2 ⟨hy, hw⟩)
  by_contra hne
  simp [hne, hvar] at hnot

theorem equalIn_congr (h : g'.expr = g.expr) (n : ℕ) (x y : ExprId) :
    g'.equalIn n x y = g.equalIn n x y := by
  induction n generalizing x y with
  | zero => rfl
  | succ n ih => simp only [equalIn, h, ih]

/-! ## Runs -/

theorem Lists.holds (h : g.Lists s e) : g.Holds s e := by
  obtain ⟨st, hst, he⟩ := h
  obtain ⟨l, hkind, he⟩ := Stat.mem_exprs?.1 he
  exact ⟨st, hst, List.mem_append_left _ (by rwa [hkind])⟩

/-- What comes of a run that drops the copies: leaves lose them, and nothing else happens to the
statements or to the form of expressions. -/
structure DropsCopies (g g' : Graph) (dropped : List MonitorCopy) : Prop where
  /-- They are copies of monitors, and the synchronized statements are in the tree. -/
  copied : ∀ m ∈ dropped, g.InTree m.sync ∧ g.Copied m
  /-- A synchronized statement loses one at most. -/
  syncs : (dropped.map MonitorCopy.sync).Nodup
  /-- No copy is taken twice. -/
  copies : (dropped.map MonitorCopy.copy).Nodup
  /-- What becomes of expressions and of statements. -/
  maps : Maps g g' (fun _ x => x) fun s st =>
    st.refit id fun e => (s, e) ∉ dropped.map MonitorCopy.cut
  /-- No expression comes up. -/
  size : g'.exprs.size = g.exprs.size
  /-- The variable is not mentioned any more in the statement around. -/
  unmentioned : ∀ m ∈ dropped, g'.Unmentioned m.around m.var

/-- What a refit of leaves leaves to be read. -/
theorem Maps.evaluates {keep : StatId → ExprId → Bool}
    (h : Maps g g' (fun _ x => x) fun s st => st.refit id (keep s)) (he : g'.Evaluates s e) :
    g.Evaluates s e ∧ (g.Lists s e → keep s e = true) := by
  obtain ⟨st, hst, hitem⟩ := h.returns_stat.1 he
  obtain ⟨hitem, hkeep⟩ := Stat.mem_items_refit hitem
  exact ⟨⟨st, hst, hitem⟩, fun hlists => hkeep ((lists_iff hst).1 hlists)⟩

theorem Maps.sameLinks_refit {keep : StatId → ExprId → Bool}
    (h : Maps g g' (fun _ x => x) fun s st => st.refit id (keep s)) : SameLinks g g' := by
  intro s
  rw [links, links, h.stat]
  cases g.stat s <;> simp [Except.map]

theorem Maps.expr_eq {G : StatId → Stat → Stat} (h : Maps g g' (fun _ x => x) G) :
    g'.expr = g.expr := by
  funext e
  rw [h.expr]
  cases g.expr e <;> rfl

theorem Unmentioned.maps {keep : StatId → ExprId → Bool} {var : Local}
    (hu : g.Unmentioned around var)
    (h : Maps g g' (fun _ x => x) fun s st => st.refit id (keep s)) :
    g'.Unmentioned around var := by
  intro t x ht hx hv
  rw [h.sameLinks_refit.within_eq] at ht
  exact hu t x ht (h.evaluates hx).1 (involves_of_expr_eq h.expr_eq hv)

/-- The change that drops one copy. -/
theorem maps_dropCopy {g₁ : Graph} (h₁ : g.removeExpr m.front m.copy = .ok g₁)
    (h₂ : g₁.absorb m.head m.copy = .ok g') : Maps g g' (fun _ x => x) fun s st =>
      st.refit id fun e => (s, e) ≠ m.cut := by
  rw [removeExpr, Stat.withExprs_eq_refit] at h₁
  refine ((Maps.modifyStat h₁).trans (Maps.absorb h₂)).congr (fun _ _ _ => rfl) fun t st _ => ?_
  by_cases ht : m.front = t
  · simp [ht, MonitorCopy.cut]
  · simp [ht, Ne.symm ht, MonitorCopy.cut, Stat.refit_id]

theorem size_dropCopy {g₁ : Graph} (h₁ : g.removeExpr m.front m.copy = .ok g₁)
    (h₂ : g₁.absorb m.head m.copy = .ok g') : g'.exprs.size = g.exprs.size := by
  obtain ⟨-, -, -, -, hexprs⟩ := stat_modifyStat h₁
  obtain ⟨u, -, h₂⟩ := Checked.bind_eq_ok.1 h₂
  obtain ⟨-, -, -, -, -, hsize⟩ := node_addOffsets h₂
  rw [hsize, hexprs]

namespace DropsCopies

theorem refl (g : Graph) : DropsCopies g g [] where
  copied := nofun
  syncs := .nil
  copies := .nil
  maps := (Maps.refl g).congr (fun _ _ _ => rfl) fun _ _ _ => by simp [Stat.refit_id]
  size := rfl
  unmentioned := nofun

variable (h : DropsCopies g g' dropped)

include h

theorem revises : Revises g g' fun _ => False := by
  refine ⟨h.maps.edges, fun s st hst => ?_, fun e x hx => ⟨x, ?_, rfl, fun _ => rfl⟩⟩
  · rw [h.maps.stat, hst]
    exact ⟨_, rfl, Stat.refit_skeleton⟩
  · rw [h.maps.expr_eq, hx]

theorem legible (o : g.Legible) : g'.Legible := by
  refine o.of_revises h.revises fun s e _ he => ?_
  obtain ⟨st, hst, he⟩ := h.maps.returns_stat.1 he
  refine ⟨st, hst, ?_⟩
  rw [Stat.refit_declarations] at he
  exact List.mem_append.2 ((List.mem_append.1 he).imp_left fun he => (Stat.mem_refit_id.1 he).1)

/-- What is a copy afterwards was one before, and is none of those that are dropped. -/
theorem copied_before (hm : g'.Copied m) : g.Copied m ∧ m.cut ∉ dropped.map MonitorCopy.cut := by
  obtain ⟨st, hst, hlisted⟩ := h.maps.returns_stat.1 hm.listed
  obtain ⟨hlisted, hcut⟩ := Stat.mem_exprs?_refit.1 hlisted
  have hsync := h.maps.returns_stat.1 hm.sync
  refine ⟨⟨hsync.mono fun st hst => ?_, h.maps.expr_eq ▸ hm.head, ⟨st, hst, hlisted⟩,
    h.maps.expr_eq ▸ hm.copy, ?_, ?_⟩, of_decide_eq_true hcut⟩
  · obtain ⟨hparent, hfirst, body, hkind⟩ := hst
    exact ⟨by simpa using hparent, by simpa using hfirst, body, Stat.refit_eq_synchronized hkind⟩
  · rw [← hm.left, local?, local?, h.maps.expr_eq]
  · rw [← hm.right, equal, equal, h.size, equalIn_congr h.maps.expr_eq]

end DropsCopies

/-! ## One step -/

section Step

variable (hw : g.WellFormed) (hn : g.NodesOnce)

include hw hn

theorem legible_of_nodesOnce : g.Legible := by
  obtain ⟨l, hl⟩ := hw.forest.exprsIn .refl
  exact ⟨hw.forest, fun s e hs he =>
    hn.grounded hl ((hw.forest.mem_exprsIn .refl hl).2 ⟨s, hs, he⟩)⟩

/-- What a leaf of the tree lists is held by no other statement of the tree. -/
theorem eq_of_lists (hs : g.InTree s) (ht : g.InTree t) (hse : g.Lists s e) (hte : g.Holds t e) :
    t = s := by
  obtain ⟨l, hl⟩ := hw.forest.exprsIn .refl
  exact (hw.forest.held_once hl (hn.nodup hl)).2 t s e ht hs hte hse.holds

omit hn in
theorem Copied.inTree (hm : g.Copied m) (hs : g.InTree m.sync) :
    g.InTree m.around ∧ g.InTree m.front := by
  obtain ⟨st, hst, hparent, hfront, -⟩ := hm.sync
  exact ⟨(hw.forest.inTree_parent hs hst hparent).1,
    hs.child (hw.entersChildren hs m.sync m.front .refl ⟨st, hst, hfront⟩)⟩

/-- Where a search for uses of the variable finds the copy only, dropping the copy leaves no mention
of the variable. -/
theorem unmentioned_dropCopy (h : DropsCopies g g' dropped) (hm : g'.Copied m)
    (hs : g.InTree m.sync) (hused : g'.isUsed m.left m.around [] = .ok false)
    (hmaps : Maps g' g'' (fun _ x => x) fun s st => st.refit id fun e => (s, e) ≠ m.cut) :
    g''.Unmentioned m.around m.var := by
  rintro t x ht hx hv
  have hlinks := h.maps.sameLinks_refit
  rw [hmaps.sameLinks_refit.within_eq] at ht
  obtain ⟨hx, hkeep⟩ := hmaps.evaluates hx
  obtain ⟨y, w, hy, hexpr, hvar⟩ := involves_of_expr_eq hmaps.expr_eq hv
  have hm₀ := (h.copied_before hm).1
  obtain ⟨haround, hfront⟩ := hm₀.inTree hw hs
  have htTree : g.InTree t := haround.within (hlinks.within_eq ▸ ht)
  -- the search comes by `x`, so that the occurrence is the one in the copy
  have hleaves : ∀ s st' exprs, g'.InTree s → g'.stat s = .ok st' → st'.kind = .block exprs →
      st'.children = [] := by
    intro s st' exprs hs hst' hkind
    have hst : Returns (g'.stat s) fun st => st.kind = .block exprs := ⟨st', hst', hkind⟩
    obtain ⟨st, hst, hblock⟩ := h.maps.returns_stat.1 hst
    obtain ⟨l, hblock, -⟩ := Stat.refit_kind_eq_block.1 hblock
    have hfits := (hw.fits (hlinks.inTree_iff.1 hs) hst).children
    rw [hblock] at hfits
    rw [h.maps.stat, hst] at hst'
    rw [← Except.ok.inj hst', Stat.refit_children, hfits]
  obtain rfl : y = m.left := eq_of_isUsedIn (not_of_someItemIn hleaves (hlinks.inTree_iff.2 haround)
    hused ht hx) hm.left hy hexpr hvar
  have hxg := (h.maps.evaluates hx).1
  obtain ⟨l, hl⟩ := hw.forest.exprsIn .refl
  have hmem : ∀ {s e}, g.InTree s → g.Holds s e → e ∈ l := fun hs he =>
    (hw.forest.mem_exprsIn .refl hl).2 ⟨_, hs, he⟩
  have hcopy := hmem hfront hm₀.listed.holds
  obtain rfl : x = m.copy := by
    have hground := hn.grounded hl (hmem htTree hxg.holds)
    exact hn.eq_of_reaches hl (hmem htTree hxg.holds) hcopy (h.revises.reaches hground hy)
      (.single ((hn.grounded hl hcopy).sides hm₀.copy).1)
  obtain rfl := eq_of_lists hw hn hfront htTree hm₀.listed hxg.holds
  exact of_decide_eq_true (hkeep hm.listed) rfl

/-- One more copy that is not used is dropped. -/
theorem DropsCopies.step (h : DropsCopies g g' dropped) (hm : g'.Copied m) (hs : g.InTree m.sync)
    (hnew : m.sync ∉ dropped.map MonitorCopy.sync)
    (hused : g'.isUsed m.left m.around [] = .ok false) {g₁ : Graph}
    (h₁ : g'.removeExpr m.front m.copy = .ok g₁) (h₂ : g₁.absorb m.head m.copy = .ok g'') :
    DropsCopies g g'' (dropped ++ [m]) := by
  have hmaps := maps_dropCopy h₁ h₂
  obtain ⟨hm₀, hcut⟩ := h.copied_before hm
  have hcopies : m.copy ∉ dropped.map MonitorCopy.copy := by
    intro hmem
    obtain ⟨m', hm', hcopy⟩ := List.mem_map.1 hmem
    obtain ⟨hs', hm''⟩ := h.copied m' hm'
    have hfront := eq_of_lists hw hn (hm₀.inTree hw hs).2 (hm''.inTree hw hs').2
      hm₀.listed (hcopy ▸ hm''.listed.holds)
    exact hcut (List.mem_map.2 ⟨m', hm', by rw [MonitorCopy.cut, hfront, hcopy, MonitorCopy.cut]⟩)
  refine ⟨fun m' hm' => ?_, ?_, ?_, ?_, (size_dropCopy h₁ h₂).trans h.size, fun m' hm' => ?_⟩
  · rcases List.mem_append.1 hm' with hm' | hm'
    · exact h.copied m' hm'
    · obtain rfl := List.mem_singleton.1 hm'
      exact ⟨hs, hm₀⟩
  · rw [List.map_append]
    exact h.syncs.append (List.nodup_singleton _) (List.disjoint_singleton.2 hnew)
  · rw [List.map_append]
    exact h.copies.append (List.nodup_singleton _) (List.disjoint_singleton.2 hcopies)
  · refine (h.maps.trans hmaps).congr (fun _ _ _ => rfl) fun s st _ => ?_
    simp only [Stat.refit_refit, List.map_append, List.mem_append, List.map_singleton,
      List.mem_singleton, not_or, Bool.decide_and]
    rfl
  · rcases List.mem_append.1 hm' with hm' | hm'
    · exact (h.unmentioned m' hm').maps hmaps
    · obtain rfl := List.mem_singleton.1 hm'
      exact unmentioned_dropCopy hw hn h hm hs hused hmaps

end Step

/-! ## All of the tree -/

theorem Legible.isDeadCopy (o : g.Legible) (haround : g.InTree around) (he : g.Grounded e)
    (hmonitor : g.Grounded monitor) : Returns (g.isDeadCopy monitor around e) fun _ => True := by
  obtain ⟨sides, hsides⟩ := he.assign?
  simp only [Graph.isDeadCopy, hsides, Checked.ok_bind]
  obtain _ | ⟨left, right⟩ := sides
  · exact Returns.pure_iff.2 trivial
  obtain ⟨-, hleft, hright⟩ := he.sides (assign?_eq_ok.1 hsides)
  obtain ⟨v, hv⟩ := hleft.var?
  simp only [hv, Checked.ok_bind]
  split
  · exact Returns.pure_iff.2 trivial
  refine (hright.equal hmonitor).bind fun same _ _ => ?_
  split
  · exact Returns.pure_iff.2 trivial
  obtain ⟨used, hused⟩ := o.someItem (fun x hx => hx.isUsedIn hleft []) haround 0
  simp only [Graph.isUsed, hused, Checked.ok_bind]
  exact Returns.pure_iff.2 trivial

theorem Legible.dropCopy {head copy : ExprId} (hhead : g.Grounded head) (hcopy : g.Grounded copy)
    {ft : Stat} (hft : g.stat front = .ok ft) :
    Returns (g.removeExpr front copy) fun g₁ => Returns (g₁.absorb head copy) fun _ => True := by
  obtain ⟨g₁, h₁⟩ := modifyStat_returns
    (fun st => st.withExprs ((st.exprs?.getD []).filter (· ≠ copy))) hft
  have hgrows := (Refits.removeExpr front h₁).grows
  obtain ⟨u, hu⟩ := (hgrows.grounded hcopy).subtreeOffsets
  obtain ⟨n, hn⟩ := (hgrows.grounded hhead).exists_node
  obtain ⟨g₂, h₂⟩ := addOffsets_returns u hn
  exact ⟨g₁, h₁, g₂, by rw [absorb, hu, Checked.ok_bind, h₂], trivial⟩

/-- The visit of a statement of the tree comes to a result. -/
theorem Legible.cleanMonitor (o : g.Legible) (henters : g.EntersChildren s) (hs : g.InTree s) :
    Returns (g.cleanMonitor s) fun _ => True := by
  obtain ⟨st, hst⟩ := o.forest.stat s hs
  simp only [Graph.cleanMonitor, hst, Checked.ok_bind]
  split
  swap
  · exact Returns.pure_iff.2 trivial
  next head body hkind =>
  have hhead : g.Grounded head := o.grounded s head hs
    ⟨st, hst, List.mem_append_left _ (by simp [hkind, StatKind.exprs])⟩
  obtain ⟨x, hx⟩ := hhead.expr
  simp only [hx, Checked.ok_bind]
  split
  swap
  · exact Returns.pure_iff.2 trivial
  next kind monitor =>
  have hmonitor : g.Grounded monitor := hhead.of_reaches
    (reaches_child hx (by simp [Expr.children]))
  split
  swap
  · exact Returns.pure_iff.2 trivial
  next front hfront =>
  split
  swap
  · exact Returns.pure_iff.2 trivial
  next around haround =>
  have hfrontTree : g.InTree front := hs.child (henters s front .refl ⟨st, hst, hfront⟩)
  obtain ⟨ft, hft⟩ := o.forest.stat front hfrontTree
  simp only [hft, Checked.ok_bind]
  split
  swap
  · exact Returns.pure_iff.2 trivial
  next exprs hexprs =>
  have hlisted : ∀ e ∈ exprs, g.Grounded e := fun e he =>
    o.grounded front e hfrontTree ((lists_iff hft).2 (by simpa [hexprs] using he)).holds
  refine (Returns.findM? fun e he => o.isDeadCopy (o.forest.inTree_parent hs hst haround).1
    (hlisted e he) hmonitor).bind fun found hfound _ => ?_
  obtain _ | copy := found
  · exact Returns.pure_iff.2 trivial
  have hcopy := hlisted copy (Checked.mem_of_findM? hfound).1
  refine (Legible.dropCopy hhead hcopy hft).bind fun g₁ _ h₁ => h₁.bind fun g₂ _ _ => ?_
  exact Returns.pure_iff.2 trivial

/-- **The cleaning of monitors drops copies only.** On a well-formed tree whose expressions share no
node it comes to a result. The number that it returns is that of the assignments it has dropped, one
at most for each synchronized statement. Each was a copy of the monitor that the statement around
does not mention any more. All other expressions stay where they were. -/
theorem cleanMonitors_dropsCopies (hw : g.WellFormed) (hn : g.NodesOnce) :
    Returns g.cleanMonitors fun r =>
      ∃ dropped, r.2 = dropped.length ∧ DropsCopies g r.1 dropped := by
  obtain ⟨order, horder, hnodup, hmem⟩ := hw.forest.postorder .refl
  have hfold : Returns (order.foldlM visitMonitor (g, 0)) fun r => ∃ dropped,
      r.2 = dropped.length ∧ DropsCopies g r.1 dropped ∧ ∀ m ∈ dropped, m.sync ∈ order := by
    refine Returns.foldlM_upTo (R := fun visited (r : Graph × ℕ) => ∃ dropped,
      r.2 = dropped.length ∧ DropsCopies g r.1 dropped ∧ ∀ m ∈ dropped, m.sync ∈ visited)
      ⟨[], rfl, .refl g, nofun⟩ fun visited s rest hl acc hR => ?_
    obtain ⟨dropped, hcount, h, hvisited⟩ := hR
    have hs : g.InTree s := (hmem s).1 (hl ▸ by simp)
    have hnew : s ∉ visited := by
      rw [← hl] at hnodup
      exact fun hmem => (List.disjoint_of_nodup_append hnodup) hmem (by simp)
    have hs' : acc.1.InTree s := h.maps.sameLinks_refit.inTree_iff.2 hs
    have henters := (hw.entersChildren hs).congr h.maps.sameLinks_refit
    refine ((h.legible (legible_of_nodesOnce hw hn)).cleanMonitor henters hs').bind fun r hr _ => ?_
    obtain _ | g₁ := r
    · exact Returns.pure_iff.2
        ⟨dropped, hcount, h, fun m hm => List.mem_append_left _ (hvisited m hm)⟩
    obtain ⟨m, g₂, rfl, hm, hused, h₁, h₂⟩ := cleanMonitor_eq_some hr
    refine Returns.pure_iff.2 ⟨dropped ++ [m], by simp [hcount], ?_, fun m' hm' => ?_⟩
    · refine h.step hw hn hm hs (fun hmem => ?_) hused h₁ h₂
      obtain ⟨m', hm', heq⟩ := List.mem_map.1 hmem
      exact hnew (heq ▸ hvisited m' hm')
    · rw [List.mem_append] at hm' ⊢
      exact hm'.imp (hvisited m') fun hm' => by simp [List.mem_singleton.1 hm']
  rw [cleanMonitors, horder, Checked.ok_bind]
  exact hfold.mono fun r ⟨dropped, hcount, h, _⟩ => ⟨dropped, hcount, h⟩

/-- The body of a method that locks an object in a loop and prints the copy of it afterwards:
`do { v4 = v3; synchronized (v3) { } } while (v1 < 3); Out.print(v4);`. -/
def lockingLoop : Graph where
  stats := ⟨#[
    ⟨.exit, none, none, [], [], [], [], []⟩,
    ⟨.root, none, some ⟨7⟩, [⟨7⟩], [], [], [], []⟩,
    ⟨.block [⟨2⟩], some ⟨4⟩, none, [], [], [], [], []⟩,
    ⟨.block [], some ⟨4⟩, none, [], [], [], [], []⟩,
    ⟨.synchronized (some ⟨4⟩) ⟨3⟩, some ⟨5⟩, some ⟨2⟩, [⟨2⟩, ⟨3⟩], [], [], [], []⟩,
    ⟨.loop ⟨.doWhile, none, some ⟨7⟩, none⟩, some ⟨7⟩, some ⟨4⟩, [⟨4⟩], [], [], [], []⟩,
    ⟨.block [⟨9⟩], some ⟨7⟩, none, [], [], [], [], []⟩,
    ⟨.sequence, some ⟨1⟩, some ⟨5⟩, [⟨5⟩, ⟨6⟩], [], [], [], []⟩]⟩
  edges := ⟨#[]⟩
  exprs :=
    let occurrence (index : ℕ) (ty : Base) : ExprNode :=
      ⟨.var ⟨⟨index, 0⟩, ⟨ty, 0⟩, false, false, none⟩, .empty⟩
    ⟨#[
      occurrence 4 (.object none),
      occurrence 3 (.object none),
      ⟨.assign ⟨0⟩ ⟨1⟩, .empty⟩,
      occurrence 3 (.object none),
      ⟨.monitor .enter ⟨3⟩, .empty⟩,
      occurrence 1 .int,
      ⟨.const ⟨.int, 0⟩ (.int 3), .empty⟩,
      ⟨.apply .lt [⟨5⟩, ⟨6⟩], .empty⟩,
      occurrence 4 (.object none),
      ⟨.call ⟨"Out", "print", "(Ljava/lang/Object;)V", none, [⟨8⟩]⟩, .empty⟩]⟩

theorem cleanMonitors_dropsCopies_lockingLoop :
    lockingLoop.WellFormed ∧ lockingLoop.NodesOnce ∧ Returns lockingLoop.cleanMonitors fun r =>
      r.2 = 1 ∧ ∃ dropped, r.2 = dropped.length ∧ DropsCopies lockingLoop r.1 dropped := by
  have hw : lockingLoop.WellFormed := by decide +kernel
  have hn : lockingLoop.NodesOnce := by decide +kernel
  have hcount : Returns lockingLoop.cleanMonitors fun r => r.2 = 1 := by decide +kernel
  obtain ⟨r, hr, hdrops⟩ := cleanMonitors_dropsCopies hw hn
  obtain ⟨r', hr', hcount⟩ := hcount
  obtain rfl : r' = r := Except.ok.inj (hr'.symm.trans hr)
  exact ⟨hw, hn, r', hr, hcount, hdrops⟩

/-- The search for uses of `v4` stays in the loop. The copy is dropped, and `v4` is printed after
the loop although nothing assigns it any more. -/
theorem not_assigns_of_read_after_monitor :
    lockingLoop.WellFormed ∧ lockingLoop.NodesOnce ∧ lockingLoop.Assigns ⟨4, 0⟩ ∧
      Returns lockingLoop.cleanMonitors fun r =>
        r.2 = 1 ∧ r.1.reads ⟨4, 0⟩ root 0 [] = .ok true ∧ ¬ r.1.Assigns ⟨4, 0⟩ := by
  have hassigned : Returns lockingLoop.assigned fun vars => ⟨4, 0⟩ ∈ vars := by decide +kernel
  have hrun : Returns lockingLoop.cleanMonitors fun r => r.2 = 1 ∧
      Returns (r.1.reads ⟨4, 0⟩ root 0 []) (fun read => read = true) ∧
        Returns r.1.assigned fun vars => ⟨4, 0⟩ ∉ vars := by
    decide +kernel
  obtain ⟨vars, hvars, hmem⟩ := hassigned
  obtain ⟨r, hr, hcount, ⟨read, hread, rfl⟩, vars', hvars', hmem'⟩ := hrun
  exact ⟨by decide +kernel, by decide +kernel, (mem_assigned hvars).1 hmem, r, hr, hcount, hread,
    fun hv => hmem' ((mem_assigned hvars').2 hv)⟩

end Graph

end Decompiler

import Decompiler.Loops.Recognition
import Decompiler.Proofs.Graph.Frame

/-!
# What a match of a loop form rests on

A matcher looks at a loop step by step and gives up at the first step that does not fit. Here each
of them is read backwards: from a match to what was found on the way and to the rewrite that was
made.

* `Graph.whileForm?_eq_some`, `Graph.doWhileForm?_eq_some`: a test at one end of the body.
* `Graph.forForm?_eq_some`: a step at the end of the body, and an assignment in front of the loop.
* `Graph.forEachForm?_eq_some`: a loop over a collection or over an array. All that is checked of the
  former is in `Graph.CollectionForm`.
* `Graph.betterForm?_cases`: which of these a visit of a loop may make.
-/

namespace Decompiler.Graph

variable {g g' : Graph} {loop s : StatId} {options : Options}

/-! ## Tests -/

theorem headCondition?_eq_some {head condition : ExprId}
    (h : g.headCondition? s = .ok (some (head, condition))) :
    ∃ st b, g.stat s = .ok st ∧ st.branch? = some b ∧ b.head = head ∧
      g.expr head = .ok (.test condition) := by
  simp only [headCondition?, Checked.bind_eq_ok] at h
  obtain ⟨st, hst, h⟩ := h
  cases hb : st.branch? with
  | none => rw [hb] at h; cases h
  | some b =>
    rw [hb] at h
    obtain ⟨x, hx, h⟩ := Checked.bind_eq_ok.1 h
    split at h
    · cases h
      exact ⟨st, b, hst, hb, rfl, hx⟩
    · cases h

/-- The parts of a test: an `if` whose first child is the block in front of it. -/
theorem loopTest?_eq_some {accepts : Branch → Stat → Bool} {t : LoopTest}
    (h : g.loopTest? s accepts = .ok (some t)) : t.stat = s ∧
      ∃ st b ht, g.stat s = .ok st ∧ st.kind = .branch b ∧ st.first = some t.headBlock ∧
        g.stat t.headBlock = .ok ht ∧ accepts b ht = true ∧ t.body = b.thenStat ∧
        t.head = b.head ∧ g.expr t.head = .ok (.test t.condition) ∧
        g.thenEdge? s = .ok (some t.thenEdge) ∧ g.exitEdge? s = .ok (some t.elseEdge) := by
  simp only [loopTest?, Checked.bind_eq_ok] at h
  obtain ⟨st, hst, h⟩ := h
  cases hb : st.branch? with
  | none => rw [hb] at h; cases h
  | some b =>
    rw [hb] at h
    cases hfirst : st.first with
    | none => rw [hfirst] at h; cases h
    | some headBlock =>
      rw [hfirst] at h
      obtain ⟨ht, hht, h⟩ := Checked.bind_eq_ok.1 h
      split at h
      · cases h
      · next haccepts =>
        obtain ⟨_ | ⟨head, condition⟩, hcondition, h⟩ := Checked.bind_eq_ok.1 h
        · cases h
        obtain ⟨_ | thenEdge, hthen, h⟩ := Checked.bind_eq_ok.1 h
        · cases h
        obtain ⟨_ | elseEdge, helse, h⟩ := Checked.bind_eq_ok.1 h
        · cases h
        cases h
        obtain ⟨st', b', hst', hb', hhead, hexpr⟩ := headCondition?_eq_some hcondition
        rw [hst] at hst'
        cases hst'
        rw [hb] at hb'
        cases hb'
        exact ⟨rfl, st, b, ht, hst, Stat.branch?_eq_some.1 hb, hfirst, hht,
          by simpa using haccepts, rfl, hhead.symm, hexpr, hthen, helse⟩

/-- What a test in front of the body must be. -/
def acceptsLeading (b : Branch) (headBlock : Stat) : Bool :=
  headBlock.isEmptyLeaf && b.form = .plain

/-- What a test at the end of the body must be. -/
def acceptsTrailing (b : Branch) (_ : Stat) : Bool := b.form = .plain && b.thenStat.isNone

theorem whileForm?_eq_some (h : g.whileForm? loop = .ok (some g')) :
    ∃ s t, g.leading? loop = .ok (some s) ∧ g.loopTest? s acceptsLeading = .ok (some t) ∧
      ((t.body = none ∧ g.whileNot loop t = .ok g') ∨
        ∃ body, t.body = some body ∧ g.whileGuard loop t body = .ok g') := by
  simp only [whileForm?, Checked.bind_eq_ok] at h
  obtain ⟨_ | s, hs, h⟩ := h
  · cases h
  obtain ⟨_ | t, ht, h⟩ := Checked.bind_eq_ok.1 h
  · cases h
  refine ⟨s, t, hs, ht, ?_⟩
  cases hbody : t.body with
  | none =>
    simp only [hbody, Checked.bind_eq_ok] at h
    obtain ⟨edge, -, inside, -, h⟩ := h
    split at h
    · obtain ⟨g₁, h₁, hg₁⟩ := Checked.map_eq_ok.1 h
      exact .inl ⟨rfl, Option.some.inj hg₁ ▸ h₁⟩
    · cases h
  | some body =>
    simp only [hbody, Checked.bind_eq_ok] at h
    obtain ⟨edge, -, inside, -, h⟩ := h
    split at h
    · obtain ⟨g₁, h₁, hg₁⟩ := Checked.map_eq_ok.1 h
      exact .inr ⟨body, rfl, Option.some.inj hg₁ ▸ h₁⟩
    · cases h

theorem doWhileForm?_eq_some (h : g.doWhileForm? loop = .ok (some g')) :
    ∃ s t leavesOnTrue, g.trailing? loop = .ok (some s) ∧
      g.loopTest? s acceptsTrailing = .ok (some t) ∧
      g.leavesOrContinues loop t.thenEdge t.elseEdge = .ok leavesOnTrue ∧
      g.doWhileTest loop t leavesOnTrue = .ok g' := by
  simp only [doWhileForm?, Checked.bind_eq_ok] at h
  obtain ⟨_ | s, hs, h⟩ := h
  · cases h
  obtain ⟨_ | t, ht, h⟩ := Checked.bind_eq_ok.1 h
  · cases h
  simp only [Checked.bind_eq_ok] at h
  obtain ⟨leavesOnTrue, hleaves, leavesOnFalse, -, h⟩ := h
  split at h
  · cases h
  · obtain ⟨continues, -, h⟩ := Checked.bind_eq_ok.1 h
    split at h
    · cases h
    · obtain ⟨g₁, h₁, hg₁⟩ := Checked.map_eq_ok.1 h
      exact ⟨s, t, leavesOnTrue, hs, ht, hleaves, Option.some.inj hg₁ ▸ h₁⟩

/-! ## Steps and elements -/

theorem assign?_eq_some {e left right : ExprId} :
    g.assign? e = .ok (some (left, right)) ↔ g.expr e = .ok (.assign left right) := by
  simp only [assign?, Checked.bind_eq_ok, Checked.pure_eq_ok]
  constructor
  · rintro ⟨x, hx, h⟩
    unfold Expr.assign? at h
    split at h
    · cases h
      exact hx
    · cases h
  · exact fun h => ⟨_, h, rfl⟩

theorem initBefore?_eq_some {before : StatId} {init : ExprId}
    (h : g.initBefore? loop = .ok (some (before, init))) :
    g.leafBefore? loop true = .ok (some before) ∧ g.lastExpr? before = .ok (some init) ∧
      ∃ left right, g.expr init = .ok (.assign left right) := by
  simp only [initBefore?, Checked.bind_eq_ok] at h
  obtain ⟨_ | leaf, hleaf, h⟩ := h
  · cases h
  obtain ⟨_ | last, hlast, h⟩ := Checked.bind_eq_ok.1 h
  · cases h
  obtain ⟨assigned, hassigned, h⟩ := Checked.bind_eq_ok.1 h
  rw [Checked.pure_eq_ok] at h
  split at h
  · next hsome =>
    cases h
    obtain ⟨⟨left, right⟩, rfl⟩ := Option.isSome_iff_exists.1 hsome
    exact ⟨hleaf, hlast, left, right, assign?_eq_some.1 hassigned⟩
  · cases h

theorem forForm?_eq_some (h : g.forForm? loop options = .ok (some g')) :
    ∃ st body leaf lt step init, g.stat loop = .ok st ∧ st.first = some body ∧
      g.lastLeaf? body = .ok (some leaf) ∧ g.stat leaf = .ok lt ∧
      (lt.exprs?.getD []).getLast? = some step ∧ g.initBefore? loop = .ok init ∧
      g.toCounted loop leaf step init = .ok g' ∧
      Returns (g.neighbours loop [.continueTo] .backward) fun l => ∀ s ∈ l, s = leaf := by
  simp only [forForm?, Checked.bind_eq_ok] at h
  obtain ⟨st, hst, h⟩ := h
  cases hfirst : st.first with
  | none => rw [hfirst] at h; cases h
  | some body =>
    rw [hfirst] at h
    obtain ⟨_ | leaf, hleaf, h⟩ := Checked.bind_eq_ok.1 h
    · cases h
    obtain ⟨lt, hlt, h⟩ := Checked.bind_eq_ok.1 h
    cases hstep : (lt.exprs?.getD []).getLast? with
    | none => rw [hstep] at h; cases h
    | some step =>
      simp only [hstep] at h
      rw [Checked.ite_bind] at h
      obtain ⟨hasStep, -, h⟩ := Checked.bind_eq_ok.1 h
      split at h
      · cases h
      · obtain ⟨init, hinit, h⟩ := Checked.bind_eq_ok.1 h
        split at h
        · cases h
        · obtain ⟨continues, hcontinues, h⟩ := Checked.bind_eq_ok.1 h
          split at h
          · cases h
          · next hany =>
            obtain ⟨g₁, h₁, hg₁⟩ := Checked.map_eq_ok.1 h
            exact ⟨st, body, leaf, lt, step, init, hst, hfirst, hleaf, hlt, hstep, hinit,
              Option.some.inj hg₁ ▸ h₁, continues, hcontinues, by simpa using hany⟩

/-- The leaf lists the expression. -/
def Lists (g : Graph) (leaf : StatId) (e : ExprId) : Prop :=
  Returns (g.stat leaf) fun st => e ∈ st.exprs?.getD []

theorem lists_iff {leaf : StatId} {e : ExprId} {st : Stat} (h : g.stat leaf = .ok st) :
    g.Lists leaf e ↔ e ∈ st.exprs?.getD [] := by
  rw [Lists, h, Returns.ok_iff]

/-- The assignments before a loop that may belong to it. -/
def ElementLoop.inits (m : ElementLoop) : List ExprId :=
  m.init.toList ++ (m.init2.toList ++ m.init3.toList)

theorem assignment?_eq_some {o : Option ExprId} {e : ExprId} (h : g.assignment? o = .ok (some e)) :
    o = some e := by
  cases o with
  | none => cases h
  | some x =>
    obtain ⟨assigned, -, h⟩ := Checked.bind_eq_ok.1 h
    have h := Checked.pure_eq_ok.1 h
    split at h
    · exact h
    · cases h

/-- What may belong to a loop over elements: a `while`, the last assignments before it, the first
expression in it and the last one. -/
theorem elementLoop?_parts {m : ElementLoop} (h : g.elementLoop? loop = .ok (some m)) :
    m.loop = loop ∧ (Returns (g.stat loop) fun st => ∃ l, st.loop? = some l ∧ l.kind = .whileDo) ∧
      (∀ e ∈ m.inits, g.Lists m.before e) ∧ g.Lists m.first m.fetch ∧
      Returns (g.stat loop) fun st =>
        ∃ body, st.first = some body ∧ g.lastOf? body = .ok m.last := by
  simp only [elementLoop?, Checked.bind_eq_ok] at h
  obtain ⟨st, hst, h⟩ := h
  cases hl : st.loop? with
  | none => rw [hl] at h; cases h
  | some l =>
    rw [hl] at h
    simp only at h
    split at h
    · cases h
    next hkind =>
    obtain ⟨_ | before, -, h⟩ := Checked.bind_eq_ok.1 h
    · cases h
    obtain ⟨bt, hbt, h⟩ := Checked.bind_eq_ok.1 h
    split at h
    swap
    · cases h
    next exprs hexprs =>
    obtain ⟨init, hinit, h⟩ := Checked.bind_eq_ok.1 h
    obtain ⟨init2, hinit2, h⟩ := Checked.bind_eq_ok.1 h
    obtain ⟨init3, hinit3, h⟩ := Checked.bind_eq_ok.1 h
    split at h
    swap
    · cases h
    next body hbody =>
    obtain ⟨_ | first, -, h⟩ := Checked.bind_eq_ok.1 h
    · cases h
    obtain ⟨ft, hft, h⟩ := Checked.bind_eq_ok.1 h
    split at h
    swap
    · cases h
    next fetch hfetch =>
    obtain ⟨_ | assigned, -, h⟩ := Checked.bind_eq_ok.1 h
    · cases h
    obtain ⟨last, hlast, h⟩ := Checked.bind_eq_ok.1 h
    cases h
    refine ⟨rfl, ⟨st, hst, l, hl, by simpa using hkind⟩, fun e he => (lists_iff hbt).2 ?_,
      (lists_iff hft).2 ?_, st, hst, body, hbody, hlast⟩
    · have hlisted : ∀ (i : ℕ) (o : Option ExprId), g.assignment? exprs.reverse[i]? = .ok o →
          o = some e → e ∈ exprs := by
        rintro i _ ho rfl
        exact List.mem_reverse.1 (List.mem_of_getElem? (assignment?_eq_some ho))
      rw [hexprs]
      simp only [ElementLoop.inits, List.mem_append, Option.mem_toList] at he
      rcases he with he | he | he
      · exact hlisted 0 init hinit he
      · exact hlisted 1 init2 hinit2 he
      · exact hlisted 2 init3 hinit3 he
    · obtain ⟨exprs, hexprs, hhead⟩ := Option.bind_eq_some_iff.1 hfetch
      rw [hexprs]
      exact List.mem_of_head? hhead

theorem elementLoop?_eq_some {m : ElementLoop} (h : g.elementLoop? loop = .ok (some m)) :
    m.loop = loop ∧ Returns (g.stat loop) fun st => ∃ l, st.loop? = some l ∧ l.kind = .whileDo := by
  obtain ⟨hloop, hwhile, -⟩ := elementLoop?_parts h
  exact ⟨hloop, hwhile⟩

/-- The expressions by which a loop over a collection is recognised. -/
structure CollectionParts where
  /-- The condition of the loop. -/
  condition : ExprId
  /-- What it tests. -/
  hasNext : ExprId
  /-- The iterator there. -/
  hasNextOn : ExprId
  /-- The element variable. -/
  element : ExprId
  /-- What is fetched into it. -/
  next : ExprId
  /-- The iterator there. -/
  nextOn : ExprId
  /-- The variable that holds the iterator. -/
  holder : ExprId
  /-- The iterator that is stored in it. -/
  iterator : ExprId
  /-- The collection it is taken from. -/
  source : ExprId

/-- All that is checked before a loop is taken for one over a collection. -/
structure CollectionForm (g : Graph) (m : ElementLoop) (init : ExprId) (p : CollectionParts) :
    Prop where
  /-- The condition asks for more elements, whatever is done to the answer. -/
  condition : Returns (g.loop? m.loop) fun l => l.bind Loop.condition = some p.condition
  tested : g.tested p.condition = .ok p.hasNext
  asksForMore : g.asksForMore p.hasNext = .ok true
  /-- The body starts with the fetch of an element into a variable. -/
  fetch : g.expr m.fetch = .ok (.assign p.element p.next)
  takesNext : g.takesNext p.next = .ok true
  element : Returns (g.var? p.element) fun v => v.isSome
  /-- The last assignment before the loop stores an iterator. -/
  stored : g.expr init = .ok (.assign p.holder p.iterator)
  /-- The receivers of the three calls. -/
  nextOn : Returns (g.call? p.next) fun c => c.bind Call.receiver = some p.nextOn
  hasNextOn : Returns (g.call? p.hasNext) fun c => c.bind Call.receiver = some p.hasNextOn
  source : Returns (g.call? p.iterator) fun c => c.bind Call.receiver = some p.source
  /-- The iterator is one variable, and the loop has no other use of it. -/
  sameNext : g.sameLocal p.holder p.nextOn = .ok true
  sameHasNext : g.sameLocal p.holder p.hasNextOn = .ok true
  unused : g.isUsed p.holder m.loop [p.nextOn, p.hasNextOn] = .ok false

/-- The form and the rewrite of a loop over a collection. -/
theorem overCollection?_eq_some {m : ElementLoop} {init : ExprId}
    (h : g.overCollection? m init = .ok (some g')) :
    ∃ p, g.CollectionForm m init p ∧ (do
      let g ← g.absorb p.source init
      let g ← g.absorb p.element m.fetch
      let g ← g.toForEach m.loop p.element p.source
      let g ← g.removeExpr m.before init
      g.removeExpr m.first m.fetch) = .ok g' := by
  simp only [overCollection?, Checked.bind_eq_ok] at h
  obtain ⟨slots, hslots, h⟩ := h
  split at h
  swap
  · cases h
  next condition hcondition =>
  simp only [Checked.bind_eq_ok] at h
  obtain ⟨hasNext, htested, more, hmore, h⟩ := h
  split at h
  · cases h
  next hasks =>
  obtain ⟨_ | ⟨element, next⟩, hfetch, h⟩ := Checked.bind_eq_ok.1 h
  · cases h
  simp only [Checked.bind_eq_ok] at h
  obtain ⟨takes, htakes, h⟩ := h
  split at h
  · cases h
  next htakes' =>
  obtain ⟨var, hvar, h⟩ := Checked.bind_eq_ok.1 h
  split at h
  · cases h
  next hsome =>
  obtain ⟨_ | ⟨holder, iterator⟩, hstored, h⟩ := Checked.bind_eq_ok.1 h
  · cases h
  -- the receivers of the three calls
  simp only [Checked.bind_eq_ok] at h
  obtain ⟨nextCall, hnextCall, h⟩ := h
  split at h
  swap
  · cases h
  next nextOn hnextOn =>
  obtain ⟨hasNextCall, hhasNextCall, h⟩ := Checked.bind_eq_ok.1 h
  split at h
  swap
  · cases h
  next hasNextOn hhasNextOn =>
  obtain ⟨iteratorCall, hiteratorCall, h⟩ := Checked.bind_eq_ok.1 h
  split at h
  swap
  · cases h
  next source hsource =>
  obtain ⟨same, hsame, h⟩ := Checked.bind_eq_ok.1 h
  split at h
  · cases h
  next hsame' =>
  obtain ⟨more', hmore', h⟩ := Checked.bind_eq_ok.1 h
  split at h
  · cases h
  next hmore'' =>
  obtain ⟨used, hused, h⟩ := Checked.bind_eq_ok.1 h
  split at h
  · cases h
  next hunused =>
  simp only [Bool.not_eq_true, Bool.not_eq_false'] at hasks htakes' hsame' hmore'' hunused
  subst hasks htakes' hsame' hmore'' hunused
  refine ⟨⟨condition, hasNext, hasNextOn, element, next, nextOn, holder, iterator, source⟩,
    ⟨⟨slots, hslots, hcondition⟩, htested, hmore, assign?_eq_some.1 hfetch, htakes,
      ⟨var, hvar, by simpa [Option.isSome_iff_ne_none] using hsome⟩, assign?_eq_some.1 hstored,
      ⟨nextCall, hnextCall, hnextOn⟩, ⟨hasNextCall, hhasNextCall, hhasNextOn⟩,
      ⟨iteratorCall, hiteratorCall, hsource⟩, hsame, hmore', hused⟩, ?_⟩
  simpa only [Checked.bind_eq_ok, Checked.pure_eq_ok, Option.some.injEq, exists_eq_right] using h

/-- Right before a loop over an array, `source` is copied to the variable at `array`. -/
def Copies (g : Graph) (m : ElementLoop) (array copyInit source : ExprId) : Prop :=
  m.init3 = some copyInit ∧ ∃ copy, g.assign? copyInit = .ok (some (copy, source)) ∧
    g.sameLocal copy array = .ok true

/-- A loop over an array is left alone unless the array is a copy. -/
theorem foldArrayCopy_eq_ok {m : ElementLoop} {a : ArrayLoop} (h : g.foldArrayCopy m a = .ok g') :
    (g' = g ∧ ∀ copyInit source, ¬ g.Copies m a.array copyInit source) ∨
      ∃ copyInit source, g.Copies m a.array copyInit source ∧ (do
        let g ← g.removeExpr m.before copyInit
        let g ← g.absorb source copyInit
        let g ← g.absorb source a.lengthOf
        g.modifyLoop m.loop fun l => { l with step := some source }) = .ok g' := by
  unfold foldArrayCopy at h
  split at h
  swap
  · next hinit =>
    cases h
    exact .inl ⟨rfl, fun copyInit _ ⟨hcopy, _⟩ => hinit copyInit hcopy⟩
  next copyInit hinit =>
  obtain ⟨_ | ⟨copy, source⟩, hassign, h⟩ := Checked.bind_eq_ok.1 h
  · cases h
    refine .inl ⟨rfl, ?_⟩
    rintro _ source ⟨hinit', copy, hassign', -⟩
    rw [hinit] at hinit'
    cases hinit'
    rw [hassign] at hassign'
    cases hassign'
  obtain ⟨same, hsame, h⟩ := Checked.bind_eq_ok.1 h
  split at h
  · next hnot =>
    cases h
    refine .inl ⟨rfl, ?_⟩
    rintro _ source ⟨hinit', copy, hassign', hsame'⟩
    rw [hinit] at hinit'
    cases hinit'
    rw [hassign] at hassign'
    cases hassign'
    rw [hsame] at hsame'
    cases hsame'
    cases hnot
  · next hcopies =>
    obtain rfl : same = true := by simpa using hcopies
    exact .inr ⟨copyInit, source, ⟨hinit, copy, hassign, hsame⟩, h⟩

theorem forEachForm?_eq_some (h : g.forEachForm? loop = .ok (some g')) :
    ∃ m, g.elementLoop? loop = .ok (some m) ∧
      ((∃ init, m.init = some init ∧ g.overCollection? m init = .ok (some g')) ∨
        g.overArray? m = .ok (some g')) := by
  simp only [forEachForm?, Checked.bind_eq_ok] at h
  obtain ⟨_ | m, hm, h⟩ := h
  · cases h
  refine ⟨m, hm, ?_⟩
  cases hinit : m.init with
  | none => simp only [hinit] at h; cases h
  | some init =>
    simp only [hinit, Checked.bind_eq_ok] at h
    obtain ⟨_ | assigned, -, h⟩ := h
    · cases h
    obtain ⟨asks, -, h⟩ := Checked.bind_eq_ok.1 h
    split at h
    · exact .inl ⟨init, rfl, h⟩
    · exact .inr h

/-! ## Visits -/

theorem formOfWhile?_eq_some (h : g.formOfWhile? loop options = .ok (some g')) :
    g.forEachForm? loop = .ok (some g') ∨ g.forForm? loop options = .ok (some g') := by
  simp only [formOfWhile?, orElseForm, Checked.bind_eq_ok] at h
  obtain ⟨_ | g₁, h₁, h⟩ := h
  · exact .inr h
  · exact .inl (Checked.pure_eq_ok.1 h ▸ h₁)

/-- What one visit may make of a loop: an endless one becomes a `while`, which may go on to take
another form at once, or a `do-while`; a `while` takes another form. -/
theorem betterForm?_cases (h : g.betterForm? loop options = .ok (some g')) :
    Returns (g.stat loop) fun st => ∃ l, st.loop? = some l ∧
      ((l.kind = .endless ∧
          ((∃ g₁, g.whileForm? loop = .ok (some g₁) ∧
              (g' = g₁ ∨ g₁.formOfWhile? loop options = .ok (some g'))) ∨
            g.doWhileForm? loop = .ok (some g'))) ∨
        (l.kind = .whileDo ∧ g.formOfWhile? loop options = .ok (some g'))) := by
  simp only [betterForm?, Checked.bind_eq_ok] at h
  obtain ⟨l?, hl, h⟩ := h
  obtain ⟨st, hst, rfl⟩ := loop?_eq_ok.1 hl
  refine ⟨st, hst, ?_⟩
  split at h
  · next hkind =>
    obtain ⟨l, hl, hkind⟩ := Option.map_eq_some_iff.1 hkind
    refine ⟨l, hl, .inl ⟨hkind, ?_⟩⟩
    obtain ⟨_ | g₁, h₁, h⟩ := Checked.bind_eq_ok.1 h
    · simp only at h
      split at h
      · exact .inr h
      · cases h
    · obtain ⟨g₂, h₂, h⟩ := Checked.bind_eq_ok.1 h
      refine .inl ⟨g₁, h₁, ?_⟩
      cases g₂ with
      | none => exact .inl (Option.some.inj (Checked.pure_eq_ok.1 h)).symm
      | some g₂ => exact .inr (Option.some.inj (Checked.pure_eq_ok.1 h) ▸ h₂)
  · next hkind =>
    obtain ⟨l, hl, hkind⟩ := Option.map_eq_some_iff.1 hkind
    exact ⟨l, hl, .inr ⟨hkind, h⟩⟩
  · cases h

end Decompiler.Graph

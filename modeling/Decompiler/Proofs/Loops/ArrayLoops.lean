import Decompiler.Proofs.Loops.Phases
import Decompiler.Proofs.Variables.Reading

/-!
# Loops over arrays

`n = b.length; i = 0; while (c) { x = a[i]; …; i++; }` is taken for a loop over the elements of `b`.
Neither is `a` compared with `b`, nor is it looked at what `c` compares.

* `Graph.ArrayForm`, `Graph.arrayLoop?_eq_some`: what is checked.
* `Graph.SelfContained`: what is not. Where it holds, elements are fetched from the array whose
  length is stored (`Graph.SelfContained.overOneArray`) and the counter is compared with this length
  (`Graph.SelfContained.testsCounter`).
* `Graph.overArray?_runsOver`: what becomes of the loop. `Graph.not_overOneArray_of_two_arrays` has
  loops that do not run over all elements of one array.
-/

namespace Decompiler

/-- The operators that compare two values. -/
def Operator.isComparison : Operator → Bool
  | .eq | .ne | .lt | .ge | .gt | .le => true
  | _ => false

namespace Graph

variable {g g' : Graph} {m : ElementLoop} {loop : StatId} {e x y : ExprId}

/-! ## The form -/

/-- The expressions by which a loop over an array is recognised. -/
structure ArrayParts extends ArrayLoop where
  /-- What the counter starts with. -/
  start : ExprId
  /-- The counter where it is started. -/
  counterVar : ExprId
  /-- The length that is stored. -/
  length : ExprId
  /-- The variable it is stored in. -/
  lengthVar : ExprId
  /-- The element that is fetched. -/
  fetched : ExprId
  /-- Its index. -/
  index : ExprId
  /-- The counter where it is counted up. -/
  counter : ExprId
  /-- The condition of the loop. -/
  condition : ExprId
  /-- The body of the loop. -/
  body : StatId

/-- All that is checked before a loop is taken for one over an array. -/
structure ArrayForm (g : Graph) (m : ElementLoop) (p : ArrayParts) : Prop where
  /-- The last assignment before the loop starts the counter at zero. -/
  counterInit : m.init = some p.counterInit
  started : g.expr p.counterInit = .ok (.assign p.counterVar p.start)
  zero : ∃ ty, g.expr p.start = .ok (.const ty (.int 0))
  /-- The one in front of it stores the length of an array. -/
  lengthInit : m.init2 = some p.lengthInit
  stored : g.expr p.lengthInit = .ok (.assign p.lengthVar p.length)
  length : g.expr p.length = .ok (.apply .arrayLength [p.lengthOf])
  /-- The body starts with the fetch of an element from a variable into a variable. -/
  fetch : g.expr m.fetch = .ok (.assign p.element p.fetched)
  fetched : g.expr p.fetched = .ok (.element p.array p.index)
  element : ∃ v, g.expr p.element = .ok (.var v)
  array : ∃ v, g.expr p.array = .ok (.var v)
  /-- The body ends with the step of the counter. -/
  last : m.last = some (p.lastLeaf, p.step)
  step : ∃ op, (op = .postInc ∨ op = .preInc) ∧ g.expr p.step = .ok (.apply op [p.counter])
  /-- The loop has a body, and its condition is an operator applied to whatever it is. -/
  slots : ∃ st, g.stat m.loop = .ok st ∧ st.loop?.bind Loop.condition = some p.condition ∧
    st.first = some p.body
  condition : ∃ op args, g.expr p.condition = .ok (.apply op args)
  /-- The counter is one variable, and the body has no other use of it. -/
  index : g.sameLocal p.counter p.index = .ok true
  counter : g.sameLocal p.counter p.counterVar = .ok true
  unused : g.isUsed p.counter p.body [p.index] = .ok false

theorem exists_var_of_isNone {v : Option VarRef} (h : g.var? e = .ok v) (hv : ¬ v.isNone = true) :
    ∃ v, g.expr e = .ok (.var v) := by
  obtain ⟨w, rfl⟩ := Option.ne_none_iff_exists'.1 (by simpa using hv)
  exact ⟨w, var?_eq_ok.1 h⟩

theorem arrayForm_of_arrayLoop? {a : ArrayLoop} (h : g.arrayLoop? m = .ok (some a)) :
    ∃ p : ArrayParts, p.toArrayLoop = a ∧ g.ArrayForm m p := by
  simp only [arrayLoop?] at h
  split at h
  swap
  · cases h
  next counterInit hinit =>
  split at h
  swap
  · cases h
  next lengthInit hinit2 =>
  obtain ⟨_ | ⟨element, fetched⟩, hfetch, h⟩ := Checked.bind_eq_ok.1 h
  · cases h
  obtain ⟨x, hfetched, h⟩ := Checked.bind_eq_ok.1 h
  split at h
  swap
  · cases h
  next array index =>
  obtain ⟨v, hv, h⟩ := Checked.bind_eq_ok.1 h
  split at h
  · cases h
  next helement =>
  split at h
  swap
  · cases h
  next lastLeaf step hlast =>
  obtain ⟨x, hstep, h⟩ := Checked.bind_eq_ok.1 h
  split at h
  swap
  · cases h
  next op counter =>
  split at h
  · cases h
  next hop =>
  -- the assignments before the loop
  obtain ⟨_ | ⟨counterVar, start⟩, hstarted, h⟩ := Checked.bind_eq_ok.1 h
  · cases h
  obtain ⟨_ | ⟨lengthVar, length⟩, hstored, h⟩ := Checked.bind_eq_ok.1 h
  · cases h
  obtain ⟨x, hzero, h⟩ := Checked.bind_eq_ok.1 h
  split at h
  swap
  · cases h
  next ty =>
  obtain ⟨x, hlength, h⟩ := Checked.bind_eq_ok.1 h
  split at h
  swap
  · cases h
  next lengthOf =>
  -- the slots of the loop
  obtain ⟨st, hst, h⟩ := Checked.bind_eq_ok.1 h
  split at h
  swap
  · cases h
  next condition hcondition =>
  obtain ⟨x, hx, h⟩ := Checked.bind_eq_ok.1 h
  split at h
  swap
  · cases h
  next cop args =>
  obtain ⟨w, hw, h⟩ := Checked.bind_eq_ok.1 h
  split at h
  · cases h
  next harray =>
  -- the counter
  obtain ⟨same, hindex, h⟩ := Checked.bind_eq_ok.1 h
  split at h
  · cases h
  next hsame =>
  obtain ⟨same', hcounter, h⟩ := Checked.bind_eq_ok.1 h
  split at h
  · cases h
  next hsame' =>
  split at h
  swap
  · cases h
  next body hbody =>
  obtain ⟨used, hused, h⟩ := Checked.bind_eq_ok.1 h
  split at h
  · cases h
  next hunused =>
  cases h
  simp only [Bool.not_eq_true, Bool.not_eq_false'] at hsame hsame' hunused
  subst hsame hsame' hunused
  refine ⟨⟨⟨counterInit, lengthInit, lengthOf, element, array, lastLeaf, step⟩, start, counterVar,
    length, lengthVar, fetched, index, counter, condition, body⟩, rfl, ?_⟩
  exact
    { counterInit := hinit
      started := assign?_eq_ok.1 hstarted
      zero := ⟨ty, hzero⟩
      lengthInit := hinit2
      stored := assign?_eq_ok.1 hstored
      length := hlength
      fetch := assign?_eq_ok.1 hfetch
      fetched := hfetched
      element := exists_var_of_isNone hv helement
      array := exists_var_of_isNone hw harray
      last := hlast
      step := ⟨op, by simpa [or_iff_not_imp_left] using hop, hstep⟩
      slots := ⟨st, hst, hcondition, hbody⟩
      condition := ⟨cop, args, hx⟩
      index := hindex
      counter := hcounter
      unused := hused }

theorem ArrayForm.arrayLoop? {p : ArrayParts} (h : g.ArrayForm m p) :
    g.arrayLoop? m = .ok (some p.toArrayLoop) := by
  obtain ⟨ty, hzero⟩ := h.zero
  obtain ⟨v, helement⟩ := h.element
  obtain ⟨w, harray⟩ := h.array
  obtain ⟨op, hop, hstep⟩ := h.step
  obtain ⟨st, hst, hcondition, hbody⟩ := h.slots
  obtain ⟨cop, args, hx⟩ := h.condition
  have hop : (op ≠ .postInc && op ≠ .preInc) = false := by rcases hop with rfl | rfl <;> rfl
  simp only [Graph.arrayLoop?, h.counterInit, h.lengthInit, assign?_eq_ok.2 h.fetch, h.fetched,
    var?_eq_ok.2 helement, h.last, hstep, hop, assign?_eq_ok.2 h.started, assign?_eq_ok.2 h.stored,
    hzero, h.length, hst, hcondition, hx, var?_eq_ok.2 harray, h.index, h.counter, hbody, h.unused,
    Checked.ok_bind]
  rfl

/-- A loop is taken for one over an array exactly when it has the form. -/
theorem arrayLoop?_eq_some {a : ArrayLoop} :
    g.arrayLoop? m = .ok (some a) ↔ ∃ p : ArrayParts, p.toArrayLoop = a ∧ g.ArrayForm m p := by
  refine ⟨arrayForm_of_arrayLoop?, ?_⟩
  rintro ⟨p, rfl, h⟩
  exact h.arrayLoop?

/-! ## What the loop runs over -/

/-- The array that elements are fetched from is the one whose length is stored. -/
def OverOneArray (g : Graph) (p : ArrayParts) : Prop := g.sameLocal p.array p.lengthOf = .ok true

/-- The condition compares the counter with the stored length. -/
def TestsCounter (g : Graph) (p : ArrayParts) : Prop :=
  ∃ op l r, op.isComparison = true ∧ g.expr p.condition = .ok (.apply op [l, r]) ∧
    (g.sameLocal p.counter l = .ok true ∧ g.sameLocal p.lengthVar r = .ok true ∨
      g.sameLocal p.counter r = .ok true ∧ g.sameLocal p.lengthVar l = .ok true)

/-- A variable that holds an array. -/
def HoldsArray (g : Graph) (x : ExprId) : Prop := ∃ v, g.expr x = .ok (.var v) ∧ v.ty.dims ≠ 0

/-- A variable that is set right before the loop. -/
def SetBefore (g : Graph) (p : ArrayParts) (x : ExprId) : Prop :=
  g.sameLocal p.counterVar x = .ok true ∨ g.sameLocal p.lengthVar x = .ok true

/-- A method that has one array, in which the loop is tested on what was set for it. None of this is
checked. -/
structure SelfContained (g : Graph) (p : ArrayParts) : Prop where
  /-- The length is that of a variable that holds an array. -/
  lengthOf : g.HoldsArray p.lengthOf
  /-- So is what elements are fetched from. -/
  array : g.HoldsArray p.array
  /-- The method has one such variable. -/
  oneArray : ∀ x y, g.HoldsArray x → g.HoldsArray y → g.sameLocal x y = .ok true
  /-- The condition compares two variables, both of them set right before the loop. -/
  comparison : ∃ op l r, op.isComparison = true ∧ g.expr p.condition = .ok (.apply op [l, r]) ∧
    g.SetBefore p l ∧ g.SetBefore p r ∧ g.sameLocal l r = .ok false

theorem sameLocal_eq_true : g.sameLocal x y = .ok true ↔
    ∃ v w, g.expr x = .ok (.var v) ∧ g.expr y = .ok (.var w) ∧ v.var = w.var := by
  constructor
  · intro h
    obtain ⟨v, hv, h⟩ := Checked.bind_eq_ok.1 h
    obtain ⟨w, hw, h⟩ := Checked.bind_eq_ok.1 h
    cases v with
    | none => cases h
    | some v =>
      cases w with
      | none => cases h
      | some w =>
        obtain ⟨v', hv', rfl⟩ := local?_eq_ok.1 hv
        obtain ⟨w', hw', rfl⟩ := local?_eq_ok.1 hw
        exact ⟨v', w', hv', hw', by simpa using h⟩
  · rintro ⟨v, w, hv, hw, hvw⟩
    simp only [sameLocal, local?_eq_ok.2 ⟨v, hv, rfl⟩, local?_eq_ok.2 ⟨w, hw, rfl⟩,
      Checked.ok_bind, hvw, decide_true]
    rfl

theorem sameLocal_symm (h : g.sameLocal x y = .ok true) : g.sameLocal y x = .ok true := by
  obtain ⟨v, w, hv, hw, hvw⟩ := sameLocal_eq_true.1 h
  exact sameLocal_eq_true.2 ⟨w, v, hw, hv, hvw.symm⟩

theorem sameLocal_trans (h : g.sameLocal x y = .ok true) (h' : g.sameLocal y e = .ok true) :
    g.sameLocal x e = .ok true := by
  obtain ⟨v, w, hv, hw, hvw⟩ := sameLocal_eq_true.1 h
  obtain ⟨w', u, hw', hu, hwu⟩ := sameLocal_eq_true.1 h'
  obtain rfl := Expr.var.inj (Except.ok.inj (hw.symm.trans hw'))
  exact sameLocal_eq_true.2 ⟨v, u, hv, hu, hvw.trans hwu⟩

theorem SelfContained.overOneArray {p : ArrayParts} (h : g.SelfContained p) : g.OverOneArray p :=
  h.oneArray _ _ h.array h.lengthOf

/-- Of two different variables that are set right before the loop, one is the counter and the other
one the length. -/
theorem SelfContained.testsCounter {p : ArrayParts} (h : g.SelfContained p)
    (hcounter : g.sameLocal p.counter p.counterVar = .ok true) : g.TestsCounter p := by
  obtain ⟨op, l, r, hop, hcondition, hl, hr, hne⟩ := h.comparison
  have hdiffer : ∀ x, g.sameLocal x l = .ok true → g.sameLocal x r = .ok true → False :=
    fun x hxl hxr => by
      rw [sameLocal_trans (sameLocal_symm hxl) hxr] at hne
      cases hne
  refine ⟨op, l, r, hop, hcondition, ?_⟩
  rcases hl with hl | hl <;> rcases hr with hr | hr
  · exact (hdiffer _ hl hr).elim
  · exact .inl ⟨sameLocal_trans hcounter hl, hr⟩
  · exact .inr ⟨sameLocal_trans hcounter hr, hl⟩
  · exact (hdiffer _ hl hr).elim

/-- A `while` that is taken for a loop over an array has the form of one, and becomes a loop over
the array whose length is stored or over what the fetched array is a copy of. If the method is
self-contained, this is the array that was indexed, and the condition compares the counter with its
length. -/
theorem overArray?_runsOver (hm : g.elementLoop? loop = .ok (some m))
    (h : g.overArray? m = .ok (some g')) :
    (∃ p, g.ArrayForm m p) ∧ ∀ p, g.ArrayForm m p →
      (∃ source, g.RunsOver m p.toArrayLoop source ∧
        g'.loop? loop = .ok (some ⟨.forEach, some p.element, none, some source⟩)) ∧
      (g.SelfContained p → g.OverOneArray p ∧ g.TestsCounter p) := by
  obtain ⟨rfl, st, hst, l, hl, -⟩ := elementLoop?_eq_some hm
  obtain ⟨a, source, cuts, ha, hruns, t⟩ := takesElements_overArray h
  have hloop := loop?_eq_ok.2 (t.refits.loop?_eq hst hl)
  obtain ⟨p₀, -, hform₀⟩ := arrayLoop?_eq_some.1 ha
  refine ⟨⟨p₀, hform₀⟩, fun p hform => ?_⟩
  rw [hform.arrayLoop?] at ha
  cases ha
  refine ⟨⟨source, hruns, hloop⟩, fun hself => ?_⟩
  exact ⟨hself.overOneArray, hself.testsCounter hform.counter⟩

/-- The body of a method that prints elements of an array: `v1 = v2.length; v3 = 0;
while (v3 < bound) { v4 = array[v3]; Out.print(v4); v3++; }`. -/
def printingMethod (array bound : Local) : Graph where
  stats := ⟨#[
    ⟨.exit, none, none, [], [], [], [], []⟩,
    ⟨.root, none, some ⟨5⟩, [⟨5⟩], [], [], [], []⟩,
    ⟨.block [⟨3⟩, ⟨6⟩], some ⟨5⟩, none, [], [], [⟨0⟩], [], []⟩,
    ⟨.block [⟨14⟩, ⟨16⟩, ⟨18⟩], some ⟨4⟩, none, [], [], [⟨1⟩], [], []⟩,
    ⟨.loop ⟨.whileDo, none, some ⟨9⟩, none⟩, some ⟨5⟩, some ⟨3⟩, [⟨3⟩], [], [], [⟨0⟩, ⟨1⟩], [⟨1⟩]⟩,
    ⟨.sequence, some ⟨1⟩, some ⟨2⟩, [⟨2⟩, ⟨4⟩], [], [], [], []⟩]⟩
  edges := ⟨#[
    ⟨.regular, ⟨2⟩, ⟨4⟩, none, true, true⟩,
    ⟨.continueTo, ⟨3⟩, ⟨4⟩, some ⟨4⟩, true, true⟩]⟩
  exprs :=
    let occurrence (v : Local) (dims : UInt8) : ExprNode :=
      ⟨.var ⟨v, ⟨.int, dims⟩, false, false, none⟩, .empty⟩
    ⟨#[
      occurrence ⟨1, 0⟩ 0,
      occurrence ⟨2, 0⟩ 1,
      ⟨.apply .arrayLength [⟨1⟩], .empty⟩,
      ⟨.assign ⟨0⟩ ⟨2⟩, .empty⟩,
      occurrence ⟨3, 0⟩ 0,
      ⟨.const ⟨.int, 0⟩ (.int 0), .empty⟩,
      ⟨.assign ⟨4⟩ ⟨5⟩, .empty⟩,
      occurrence ⟨3, 0⟩ 0,
      occurrence bound 0,
      ⟨.apply .lt [⟨7⟩, ⟨8⟩], .empty⟩,
      occurrence ⟨4, 0⟩ 0,
      occurrence array 1,
      occurrence ⟨3, 0⟩ 0,
      ⟨.element ⟨11⟩ ⟨12⟩, .empty⟩,
      ⟨.assign ⟨10⟩ ⟨13⟩, .empty⟩,
      occurrence ⟨4, 0⟩ 0,
      ⟨.call ⟨"Out", "print", "(I)V", none, [⟨15⟩]⟩, .empty⟩,
      occurrence ⟨3, 0⟩ 0,
      ⟨.apply .postInc [⟨17⟩], .empty⟩]⟩

/-- All elements of `v2` are printed. -/
def printsAll : Graph := printingMethod ⟨2, 0⟩ ⟨1, 0⟩

/-- Elements of `v5` are printed, as many as `v2` has. -/
def printsOther : Graph := printingMethod ⟨5, 0⟩ ⟨1, 0⟩

/-- The first `v6` elements of `v2` are printed. -/
def printsSome : Graph := printingMethod ⟨2, 0⟩ ⟨6, 0⟩

/-- What may belong to a loop over elements there. -/
def printingLoop : ElementLoop :=
  ⟨⟨4⟩, ⟨2⟩, some ⟨6⟩, some ⟨3⟩, none, ⟨3⟩, ⟨14⟩, some (⟨3⟩, ⟨18⟩)⟩

/-- The expressions of the loop. -/
def printingParts : ArrayParts :=
  ⟨⟨⟨6⟩, ⟨3⟩, ⟨1⟩, ⟨10⟩, ⟨11⟩, ⟨3⟩, ⟨18⟩⟩, ⟨5⟩, ⟨4⟩, ⟨2⟩, ⟨0⟩, ⟨13⟩, ⟨12⟩, ⟨17⟩, ⟨9⟩, ⟨3⟩⟩

theorem arrayForm_printingMethod {array bound : Local}
    (unused : (printingMethod array bound).isUsed ⟨17⟩ ⟨3⟩ [⟨12⟩] = .ok false) :
    (printingMethod array bound).ArrayForm printingLoop printingParts where
  counterInit := rfl
  started := rfl
  zero := ⟨_, rfl⟩
  lengthInit := rfl
  stored := rfl
  length := rfl
  fetch := rfl
  fetched := rfl
  element := ⟨_, rfl⟩
  array := ⟨_, rfl⟩
  last := rfl
  step := ⟨.postInc, .inl rfl, rfl⟩
  slots := ⟨_, rfl, rfl, rfl⟩
  condition := ⟨_, _, rfl⟩
  index := rfl
  counter := rfl
  unused := unused

theorem selfContained_printsAll : printsAll.SelfContained printingParts where
  lengthOf := ⟨_, rfl, by decide⟩
  array := ⟨_, rfl, by decide⟩
  oneArray := by
    have hall : ∀ x ∈ printsAll.exprs.ids, Returns (printsAll.var? x) fun v =>
        ∀ w ∈ v, w.ty.dims ≠ 0 → w.var = ⟨2, 0⟩ := by decide +kernel
    have hone : ∀ x v, printsAll.expr x = .ok (.var v) → v.ty.dims ≠ 0 → v.var = ⟨2, 0⟩ := by
      intro x v hv hdims
      obtain ⟨n, hn, -⟩ := expr_eq_ok.1 hv
      obtain ⟨w, hw, h⟩ := hall x (Arena.mem_ids.2 ⟨n, hn⟩)
      obtain rfl := Except.ok.inj (hw.symm.trans (var?_eq_ok.2 hv))
      exact h v rfl hdims
    rintro x y ⟨v, hv, hdims⟩ ⟨w, hw, hdims'⟩
    exact sameLocal_eq_true.2 ⟨v, w, hv, hw, (hone x v hv hdims).trans (hone y w hw hdims').symm⟩
  comparison := ⟨.lt, ⟨7⟩, ⟨8⟩, rfl, rfl, .inl rfl, .inr rfl, rfl⟩

/-- The method that prints all elements. -/
theorem overArray?_runsOver_printsAll :
    (printsAll.elementLoop? ⟨4⟩ = .ok (some printingLoop) ∧
      printsAll.ArrayForm printingLoop printingParts ∧ printsAll.SelfContained printingParts) ∧
    Returns (printsAll.overArray? printingLoop) fun r => ∃ g' ∈ r.toList,
      (∃ source, printsAll.RunsOver printingLoop printingParts.toArrayLoop source ∧
        g'.loop? ⟨4⟩ = .ok (some ⟨.forEach, some ⟨10⟩, none, some source⟩)) ∧
      printsAll.OverOneArray printingParts ∧ printsAll.TestsCounter printingParts := by
  have hm : printsAll.elementLoop? ⟨4⟩ = .ok (some printingLoop) := rfl
  have hform : printsAll.ArrayForm printingLoop printingParts :=
    arrayForm_printingMethod (by decide +kernel)
  have hr : Returns (printsAll.overArray? printingLoop) fun r => r.isSome := by decide +kernel
  obtain ⟨r, hr, hsome⟩ := hr
  obtain ⟨g', rfl⟩ := Option.isSome_iff_exists.1 hsome
  obtain ⟨hloop, hself⟩ := (overArray?_runsOver hm hr).2 printingParts hform
  exact ⟨⟨hm, hform, selfContained_printsAll⟩, _, hr, g', by simp, hloop,
    hself selfContained_printsAll⟩

/-- The loop of the method is taken for one over an array. -/
def TakenForAll (g : Graph) : Prop :=
  g.elementLoop? ⟨4⟩ = .ok (some printingLoop) ∧ g.ArrayForm printingLoop printingParts ∧
    Returns (g.forEachForm? ⟨4⟩) fun r => r.isSome

/-- The other two loops are taken for loops over all elements of `v2` as well. -/
theorem not_overOneArray_of_two_arrays :
    (printsOther.WellFormed ∧ printsOther.TakenForAll ∧ ¬ printsOther.OverOneArray printingParts) ∧
      printsSome.WellFormed ∧ printsSome.TakenForAll ∧ ¬ printsSome.TestsCounter printingParts := by
  have hother : printsOther.ArrayForm printingLoop printingParts :=
    arrayForm_printingMethod (by decide +kernel)
  have hsome : printsSome.ArrayForm printingLoop printingParts :=
    arrayForm_printingMethod (by decide +kernel)
  refine ⟨⟨by decide +kernel, ⟨rfl, hother, by decide +kernel⟩, nofun⟩, by decide +kernel,
    ⟨rfl, hsome, by decide +kernel⟩, ?_⟩
  rintro ⟨op, l, r, -, hcondition, ⟨-, hr⟩ | ⟨-, hl⟩⟩
  · cases hcondition
    cases hr
  · cases hcondition
    cases hl

end Graph

end Decompiler

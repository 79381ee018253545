import Decompiler.Graph.Conditions
import Decompiler.Loops.While
import Decompiler.Variables.Uses

/-!
# Loops over elements

The enhanced `for` is compiled in two ways, which are recognised in a `while`:

* over a collection, `it = c.iterator(); while (it.hasNext()) { x = it.next(); … }`;
* over an array, `copy = a; n = copy.length; i = 0; while (i < n) { x = copy[i]; …; i++; }`.

The loop keeps the element variable in its first slot and what it runs over in its last.
-/

namespace Decompiler

/-- Whether a call is one of a method of one of some classes; no class stands for any. -/
def Call.isOf (c : Call) (classes : List String) (name descriptor : String) : Bool :=
  (classes = [] || c.className ∈ classes) && c.name = name && c.descriptor = descriptor

namespace Graph

/-! ## Calls and variables -/

/-- The classes of iterators. -/
def iteratorClasses : List String := ["java/util/Iterator", "java/util/ListIterator"]

/-- The call that an expression is, its casts aside. -/
def call? (g : Graph) (e : ExprId) : Checked (Option Call) := do
  match ← g.expr (← g.withoutCasts e) with
  | .call c => return some c
  | _ => return none

/-- Whether an expression, its casts aside, is a call of a method of one of some classes. -/
def isCall (g : Graph) (e : ExprId) (classes : List String) (name descriptor : String) :
    Checked Bool := do
  return (← g.call? e).any fun c => c.isOf classes name descriptor

/-- Whether an expression asks a collection for an iterator. -/
def asksForIterator (g : Graph) (e : ExprId) : Checked Bool := do
  if ← g.isCall e [] "iterator" "()Ljava/util/Iterator;" then return true
  else g.isCall e [] "listIterator" "()Ljava/util/ListIterator;"

/-- Whether an expression asks an iterator for more elements. -/
def asksForMore (g : Graph) (e : ExprId) : Checked Bool :=
  g.isCall e iteratorClasses "hasNext" "()Z"

/-- Whether an expression takes the next element from an iterator. -/
def takesNext (g : Graph) (e : ExprId) : Checked Bool :=
  g.isCall e iteratorClasses "next" "()Ljava/lang/Object;"

/-- Whether two expressions are occurrences of one variable. -/
def sameLocal (g : Graph) (a b : ExprId) : Checked Bool := do
  match ← g.local? a, ← g.local? b with
  | some v, some w => return v = w
  | _, _ => return false

/-! ## What a match consumes -/

/-- The expressions around and in a `while` that may belong to a loop over elements. -/
structure ElementLoop where
  /-- The loop. -/
  loop : StatId
  /-- The leaf in front of it. -/
  before : StatId
  /-- The last expression of that leaf, if it is an assignment. -/
  init : Option ExprId
  /-- The last but one, if it is an assignment. -/
  init2 : Option ExprId
  /-- The last but two, if it is an assignment. -/
  init3 : Option ExprId
  /-- The first leaf of the body with expressions. -/
  first : StatId
  /-- Its first expression, an assignment. -/
  fetch : ExprId
  /-- The last leaf of the body and its last expression. -/
  last : Option (StatId × ExprId)

/-- An expression that may not be there, if it is an assignment. -/
def assignment? (g : Graph) : Option ExprId → Checked (Option ExprId)
  | none => return none
  | some e => do return if (← g.assign? e).isSome then some e else none

/-- The last leaf of a statement together with its last expression. -/
def lastOf? (g : Graph) (s : StatId) : Checked (Option (StatId × ExprId)) := do
  let some leaf ← g.lastLeaf? s | return none
  return (← g.lastExpr? leaf).map fun e => (leaf, e)

/-- Collects what a loop over elements is made of. -/
def elementLoop? (g : Graph) (loop : StatId) : Checked (Option ElementLoop) := do
  let stat ← g.stat loop
  let some l := stat.loop? | return none
  if l.kind ≠ .whileDo then return none
  else
    let some before ← g.leafBefore? loop false | return none
    let some exprs := (← g.stat before).exprs? | return none
    let init ← g.assignment? exprs.reverse[0]?
    let init2 ← g.assignment? exprs.reverse[1]?
    let init3 ← g.assignment? exprs.reverse[2]?
    let some body := stat.first | return none
    let some first ← g.firstLeaf? body | return none
    let some fetch := (← g.stat first).exprs?.bind List.head? | return none
    let some _ ← g.assign? fetch | return none
    return some ⟨loop, before, init, init2, init3, first, fetch, ← g.lastOf? body⟩

/-- Makes a loop one over elements. The element takes over the offsets of the initialisation and of
the condition, which the form of the loop implies, and what is run over those of the step. -/
def toForEach (g : Graph) (loop : StatId) (element source : ExprId) : Checked Graph := do
  let slots ← g.loop? loop
  let g ← g.absorb? element (slots.bind Loop.init)
  let g ← g.absorb? source (slots.bind Loop.step)
  let g ← g.absorb? element (slots.bind Loop.condition)
  g.modifyLoop loop fun _ => ⟨.forEach, some element, none, some source⟩

/-! ## Over a collection -/

/-- Recognises a loop over a collection whose iterator is made by `init`. The iterator must not be
used otherwise in the loop. -/
def overCollection? (g : Graph) (m : ElementLoop) (init : ExprId) : Checked (Option Graph) := do
  let some condition := (← g.loop? m.loop).bind Loop.condition | return none
  let hasNext ← g.tested condition
  if !(← g.asksForMore hasNext) then return none
  else
    let some (element, next) ← g.assign? m.fetch | return none
    if !(← g.takesNext next) then return none
    else if (← g.var? element).isNone then return none
    else
      let some (holder, iterator) ← g.assign? init | return none
      let some nextOn := (← g.call? next).bind Call.receiver | return none
      let some hasNextOn := (← g.call? hasNext).bind Call.receiver | return none
      let some source := (← g.call? iterator).bind Call.receiver | return none
      if !(← g.sameLocal holder nextOn) then return none
      else if !(← g.sameLocal holder hasNextOn) then return none
      else if ← g.isUsed holder m.loop [nextOn, hasNextOn] then return none
      else
        let g ← g.absorb source init
        let g ← g.absorb element m.fetch
        let g ← g.toForEach m.loop element source
        let g ← g.removeExpr m.before init
        g.removeExpr m.first m.fetch

/-! ## Over an array -/

/-- The parts of a loop over an array. -/
structure ArrayLoop where
  /-- The assignment that starts the counter. -/
  counterInit : ExprId
  /-- The assignment that stores the length. -/
  lengthInit : ExprId
  /-- The array whose length is stored. -/
  lengthOf : ExprId
  /-- The element variable. -/
  element : ExprId
  /-- The array that elements are fetched from. -/
  array : ExprId
  /-- The last leaf of the body. -/
  lastLeaf : StatId
  /-- The expression that counts up. -/
  step : ExprId

/-- The parts of a loop over an array, if the expressions have the shapes for it. The counter must
not be used in the body otherwise than as the index of the fetched element. -/
def arrayLoop? (g : Graph) (m : ElementLoop) : Checked (Option ArrayLoop) := do
  let some counterInit := m.init | return none
  let some lengthInit := m.init2 | return none
  let some (element, fetched) ← g.assign? m.fetch | return none
  let .element array index ← g.expr fetched | return none
  if (← g.var? element).isNone then return none
  else
    let some (lastLeaf, step) := m.last | return none
    let .apply op [counter] ← g.expr step | return none
    if op ≠ .postInc && op ≠ .preInc then return none
    else
      let some (counterVar, start) ← g.assign? counterInit | return none
      let some (_, length) ← g.assign? lengthInit | return none
      let .const _ (.int 0) ← g.expr start | return none
      let .apply .arrayLength [lengthOf] ← g.expr length | return none
      let stat ← g.stat m.loop
      let some condition := stat.loop?.bind Loop.condition | return none
      let .apply _ _ ← g.expr condition | return none
      if (← g.var? array).isNone then return none
      else if !(← g.sameLocal counter index) then return none
      else if !(← g.sameLocal counter counterVar) then return none
      else
        let some body := stat.first | return none
        if ← g.isUsed counter body [index] then return none
        else return some ⟨counterInit, lengthInit, lengthOf, element, array, lastLeaf, step⟩

/-- Lets a loop over a copy of an array, made right before it, run over the array itself. -/
def foldArrayCopy (g : Graph) (m : ElementLoop) (a : ArrayLoop) : Checked Graph := do
  let some copyInit := m.init3 | return g
  let some (copy, source) ← g.assign? copyInit | return g
  if !(← g.sameLocal copy a.array) then return g
  else
    let g ← g.removeExpr m.before copyInit
    let g ← g.absorb source copyInit
    let g ← g.absorb source a.lengthOf
    g.modifyLoop m.loop fun l => { l with step := some source }

/-- Recognises a loop over an array. -/
def overArray? (g : Graph) (m : ElementLoop) : Checked (Option Graph) := do
  let some a ← g.arrayLoop? m | return none
  let g ← g.absorb a.lengthOf a.counterInit
  let g ← g.absorb a.lengthOf a.lengthInit
  let g ← g.absorb a.lengthOf a.step
  let g ← g.absorb a.element m.fetch
  let g ← g.toForEach m.loop a.element a.lengthOf
  let g ← g.removeExpr m.before a.counterInit
  let g ← g.removeExpr m.before a.lengthInit
  let g ← g.removeExpr m.first m.fetch
  let g ← g.removeExpr a.lastLeaf a.step
  g.foldArrayCopy m a

/-- Recognises a loop over elements: over a collection when the expression before the loop asks for
an iterator, over an array otherwise. -/
def forEachForm? (g : Graph) (loop : StatId) : Checked (Option Graph) := do
  let some m ← g.elementLoop? loop | return none
  let some init := m.init | return none
  let some (_, value) ← g.assign? init | return none
  if ← g.asksForIterator value then g.overCollection? m init else g.overArray? m

end Graph

end Decompiler

import Decompiler.Proofs.Variables.Reading

/-!
# Data flow

Which write each read of a variable sees, when the expressions of a method are evaluated one after
the other in some order.

* `Graph.accesses`: the accesses to variables that the evaluation of an expression makes. Of the
  later operands of a conditional operator, only some are evaluated.
* `Graph.run`: the accesses of a sequence of steps, each of which is all of a leaf or one expression
  of another statement.
* `flow`: for every read of a run, the last write to the variable before it.
* `Simulates`: variables can be renamed without a change of the flow. Such statements are put
  together by `Simulates.append`.
-/

namespace Decompiler

/-! ## Accesses -/

/-- An access to a variable, with the node that makes it. -/
inductive Access where
  /-- An occurrence is read. -/
  | read (node : ExprId) (var : Local)
  /-- An assignment or an increment writes. -/
  | write (node : ExprId) (var : Local)
  deriving DecidableEq, Repr

namespace Access

/-- The variable. -/
def var : Access → Local
  | read _ v | write _ v => v

/-- The same access to another variable. -/
def rename (ρ : Local → Local) : Access → Access
  | read e v => read e (ρ v)
  | write e v => write e (ρ v)

end Access

/-- The operators that do not evaluate all their operands. -/
def Operator.isConditional : Operator → Bool
  | .ternary | .condAnd | .condOr => true
  | _ => false

namespace Graph

/-- The subexpressions that a node evaluates. A variable that is assigned to is not evaluated, and
of the operands of a conditional operator after the first one only those that are taken are. -/
def operands (g : Graph) (taken : ExprId → Bool) : Expr → Checked (List ExprId)
  | .assign left right => do
    return if (← g.local? left).isSome then [right] else [left, right]
  | .apply op (first :: rest) =>
    return first :: if op.isConditional then rest.filter taken else rest
  | x => return x.children

/-- The variable that a node writes once its subexpressions have been evaluated. -/
def written? (g : Graph) : Expr → Checked (Option Local)
  | .assign left _ => g.local? left
  | .apply op (operand :: _) => if op.isIncrement then g.local? operand else return none
  | _ => return none

/-- The accesses that the evaluation of an expression makes, down to `levels` levels. -/
def accessesIn (g : Graph) (taken : ExprId → Bool) :
    (levels : ℕ) → ExprId → Checked (List Access)
  | 0, _ => .error .cyclic
  | levels + 1, e => do
    let x ← g.expr e
    let inside ← (← g.operands taken x).mapM (g.accessesIn taken levels)
    let written ← g.written? x
    return (x.local?.map (.read e)).toList ++ inside.flatten ++ (written.map (.write e)).toList

/-- The accesses that the evaluation of an expression makes. -/
def accesses (g : Graph) (taken : ExprId → Bool) (e : ExprId) : Checked (List Access) :=
  g.accessesIn taken g.exprLevels e

end Graph

/-- One step of a run. -/
structure Step where
  /-- The statement at work. -/
  stat : StatId
  /-- The expression that it evaluates, unless it is a leaf, which evaluates all of its. -/
  expr : Option ExprId
  /-- Which operands conditional operators evaluate. -/
  taken : ExprId → Bool

/-- The expressions that a step evaluates. A step that the statement does not have is none. -/
def Step.exprs (p : Step) (st : Stat) : List ExprId :=
  match p.expr, st.exprs? with
  | none, some exprs => exprs
  | some e, none => if e ∈ st.ownExprs then [e] else []
  | _, _ => []

namespace Graph

/-- The accesses of one step. -/
def perform (g : Graph) (p : Step) : Checked (List Access) := do
  return (← (p.exprs (← g.stat p.stat)).mapM (g.accesses p.taken)).flatten

/-- The accesses of a sequence of steps. -/
def run (g : Graph) (steps : List Step) : Checked (List Access) := do
  return (← steps.mapM g.perform).flatten

end Graph

/-! ## Flow -/

/-- A write of a run: when it was made, and by which node. -/
abbrev Write := ℕ × ExprId

/-- The last write to each variable. -/
abbrev LastWrites := Local → Option Write

/-- The last writes after some accesses, of which the first is made at the time `k`. -/
def lastAfter : ℕ → LastWrites → List Access → LastWrites
  | _, last, [] => last
  | k, last, .read _ _ :: rest => lastAfter (k + 1) last rest
  | k, last, .write e v :: rest => lastAfter (k + 1) (Function.update last v (some (k, e))) rest

/-- For every read among some accesses the node that reads and the write that it sees. -/
def flowFrom : ℕ → LastWrites → List Access → List (ExprId × Option Write)
  | _, _, [] => []
  | k, last, .read e v :: rest => (e, last v) :: flowFrom (k + 1) last rest
  | k, last, .write e v :: rest => flowFrom (k + 1) (Function.update last v (some (k, e))) rest

/-- For every read of a run the node that reads and the write that it sees. -/
def flow (trace : List Access) : List (ExprId × Option Write) := flowFrom 0 (fun _ => none) trace

/-- Every variable is written before it is read. -/
def Initialised (trace : List Access) : Prop := ∀ r ∈ flow trace, r.2 ≠ none

instance (trace : List Access) : Decidable (Initialised trace) :=
  inferInstanceAs (Decidable (∀ r ∈ flow trace, r.2 ≠ none))

section Flow

variable {k : ℕ} {last last' : LastWrites} {t u : List Access} {v : Local}

theorem lastAfter_append :
    lastAfter k last (t ++ u) = lastAfter (k + t.length) (lastAfter k last t) u := by
  induction t generalizing k last with
  | nil => rfl
  | cons a t ih =>
    have hk : k + (t.length + 1) = k + 1 + t.length := by omega
    cases a <;> simp only [List.cons_append, List.length_cons, lastAfter, ih, hk]

theorem flowFrom_append :
    flowFrom k last (t ++ u) =
      flowFrom k last t ++ flowFrom (k + t.length) (lastAfter k last t) u := by
  induction t generalizing k last with
  | nil => rfl
  | cons a t ih =>
    have hk : k + (t.length + 1) = k + 1 + t.length := by omega
    cases a <;> simp only [List.cons_append, List.length_cons, lastAfter, flowFrom, ih, hk]

/-! ## Renaming -/

variable {ρ : Local → Local} {S S' S'' : Local → Prop}

/-- The last writes to the variables in `S` are found under their new names. -/
def Agree (ρ : Local → Local) (S : Local → Prop) (last last' : LastWrites) : Prop :=
  ∀ v, S v → last' (ρ v) = last v

/-- Where the variables in `S` are found under their new names, renaming the accesses does not
change their flow, and those in `S'` are found so afterwards. -/
def Simulates (ρ : Local → Local) (S S' : Local → Prop) (t : List Access) : Prop :=
  ∀ k last last', Agree ρ S last last' →
    flowFrom k last' (t.map (.rename ρ)) = flowFrom k last t ∧
      Agree ρ S' (lastAfter k last t) (lastAfter k last' (t.map (.rename ρ)))

namespace Simulates

theorem append (h : Simulates ρ S S' t) (h' : Simulates ρ S' S'' u) :
    Simulates ρ S S'' (t ++ u) := by
  intro k last last' hagree
  obtain ⟨hflow, hagree⟩ := h k last last' hagree
  obtain ⟨hflow', hagree⟩ := h' (k + t.length) _ _ hagree
  rw [List.map_append, flowFrom_append, flowFrom_append, lastAfter_append, lastAfter_append,
    List.length_map, hflow, hflow']
  exact ⟨rfl, hagree⟩

theorem keeps (h : Simulates ρ S S' t) (hS : ∀ v, S'' v → S' v) : Simulates ρ S S'' t :=
  fun k last last' hagree =>
    ⟨(h k last last' hagree).1, fun v hv => (h k last last' hagree).2 v (hS v hv)⟩

theorem nil (hS : ∀ v, S' v → S v) : Simulates ρ S S' [] :=
  fun _ _ _ hagree => ⟨rfl, fun v hv => hagree v (hS v hv)⟩

theorem flatten {ts : List (List Access)} (h : ∀ t ∈ ts, Simulates ρ S S t) :
    Simulates ρ S S ts.flatten := by
  induction ts with
  | nil => exact nil fun _ hv => hv
  | cons t ts ih =>
    rw [List.flatten_cons]
    exact (h t (by simp)).append (ih fun u hu => h u (by simp [hu]))

/-- One read. -/
theorem read (e : ExprId) (hv : S v) (h : Simulates ρ S S' t) :
    Simulates ρ S S' (.read e v :: t) := by
  intro k last last' hagree
  obtain ⟨hflow, hagree'⟩ := h (k + 1) last last' hagree
  refine ⟨?_, hagree'⟩
  simp only [List.map_cons, Access.rename, flowFrom, hagree v hv, hflow]

/-- One write, after which also the variable itself is found under its new name. -/
theorem write (e : ExprId) (hS : ∀ w, S' w → w ≠ v → S w ∧ ρ w ≠ ρ v)
    (h : Simulates ρ S' S'' t) : Simulates ρ S S'' (.write e v :: t) := by
  intro k last last' hagree
  refine h (k + 1) _ _ fun w hw => ?_
  by_cases hwv : w = v
  · subst hwv
    simp
  · obtain ⟨hw, hρ⟩ := hS w hw hwv
    rw [Function.update_of_ne hwv, Function.update_of_ne hρ]
    exact hagree w hw

/-- Accesses to variables that are kept apart. -/
theorem of_injOn (hρ : ∀ v w, S v → S w → ρ v = ρ w → v = w) (ht : ∀ a ∈ t, S a.var) :
    Simulates ρ S S t := by
  induction t with
  | nil => exact nil fun _ hv => hv
  | cons a t ih =>
    have hrest := ih fun b hb => ht b (by simp [hb])
    have hv : S a.var := ht a (by simp)
    cases a with
    | read e v => exact read e hv hrest
    | write e v => exact write e (fun w hw hwv => ⟨hw, fun h => hwv (hρ w v hw hv h)⟩) hrest

end Simulates

/-- A variable that is accessed is written before it is read. -/
def WritesFirst (v : Local) : List Access → Prop
  | [] => True
  | .read _ w :: rest => w ≠ v ∧ WritesFirst v rest
  | .write _ w :: rest => w = v ∨ WritesFirst v rest

theorem WritesFirst.left (h : WritesFirst v (t ++ u)) : WritesFirst v t := by
  induction t with
  | nil => trivial
  | cons a t ih =>
    cases a with
    | read e w => exact ⟨h.1, ih h.2⟩
    | write e w => exact Or.imp_right ih h

theorem WritesFirst.right (h : WritesFirst v (t ++ u)) (ht : ∀ a ∈ t, a.var ≠ v) :
    WritesFirst v u := by
  induction t with
  | nil => exact h
  | cons a t ih =>
    have hrest : ∀ b ∈ t, b.var ≠ v := fun b hb => ht b (by simp [hb])
    have ha : a.var ≠ v := ht a (by simp)
    cases a with
    | read e w => exact ih h.2 hrest
    | write e w => exact ih (Or.resolve_left h ha) hrest

theorem writesFirst_of_forall_ne (ht : ∀ a ∈ t, a.var ≠ v) : WritesFirst v t := by
  induction t with
  | nil => trivial
  | cons a t ih =>
    have hrest := ih fun b hb => ht b (by simp [hb])
    cases a with
    | read e w => exact ⟨ht (.read e w) (by simp), hrest⟩
    | write e w => exact .inr hrest

/-- A variable without a last write is not read before it is written, if all that is read was. -/
theorem writesFirst_of_flow (h : ∀ r ∈ flowFrom k last t, r.2 ≠ none) (hv : last v = none) :
    WritesFirst v t := by
  induction t generalizing k last with
  | nil => trivial
  | cons a t ih =>
    cases a with
    | read e w =>
      refine ⟨?_, ih (fun r hr => h r (List.mem_cons_of_mem _ hr)) hv⟩
      rintro rfl
      exact h (e, last w) List.mem_cons_self hv
    | write e w =>
      by_cases hw : w = v
      · exact .inl hw
      · exact .inr (ih h (by rwa [Function.update_of_ne (Ne.symm hw)]))

/-- Accesses to variables that are kept apart, but for one that has not been written yet. -/
theorem Simulates.of_writesFirst (hρ : ∀ v w, S v → S w → ρ v = ρ w → v = w)
    (ht : ∀ a ∈ t, S a.var) (h : WritesFirst v t) :
    Simulates ρ (fun w => S w ∧ w ≠ v) (fun w => S w ∧ w ≠ v) t := by
  induction t with
  | nil => exact nil fun _ hv => hv
  | cons a t ih =>
    have hrest : ∀ b ∈ t, S b.var := fun b hb => ht b (by simp [hb])
    have ha : S a.var := ht a (by simp)
    cases a with
    | read e w => exact read e ⟨ha, h.1⟩ (ih hrest h.2)
    | write e w =>
      by_cases hw : w = v
      · -- from here on the variable is found under its new name
        subst hw
        have hall : Simulates ρ S S t := of_injOn hρ hrest
        exact write e (fun x hx hne => ⟨⟨hx, hne⟩, fun he => hne (hρ x w hx ha he)⟩)
          (hall.keeps fun x hx => hx.1)
      · exact write e (fun x hx hne => ⟨hx, fun he => hne (hρ x w hx.1 ha he)⟩)
          (ih hrest (Or.resolve_left h hw))

end Flow

/-! ## Accesses of expressions -/

namespace Graph

open Relation

variable {g g' : Graph} {e c left right : ExprId} {taken : ExprId → Bool} {n : ℕ} {v : Local}
  {t : List Access} {x : Expr}

/-- The variable occurs in the expression. -/
def Involves (g : Graph) (e : ExprId) (v : Local) : Prop :=
  ∃ y w, g.Reaches e y ∧ g.expr y = .ok (.var w) ∧ w.var = v

theorem Involves.up (h : g.Involves c v) (hc : g.Reaches e c) : g.Involves e v := by
  obtain ⟨y, w, hy, hw⟩ := h
  exact ⟨y, w, hc.trans hy, hw⟩

theorem involves_of_local? (h : g.local? e = .ok (some v)) : g.Involves e v := by
  obtain ⟨w, hw, rfl⟩ := local?_eq_ok.1 h
  exact ⟨e, w, .refl, hw, rfl⟩

theorem mem_refsIn_iff_involves {l : List (ExprId × VarRef)} (h : g.refsIn e = .ok l) :
    (∃ r ∈ l, r.2.var = v) ↔ g.Involves e v := by
  constructor
  · rintro ⟨r, hr, hv⟩
    obtain ⟨hreach, hexpr⟩ := (mem_refsIn h).1 hr
    exact ⟨r.1, r.2, hreach, hexpr, hv⟩
  · rintro ⟨y, w, hreach, hexpr, hv⟩
    exact ⟨(y, w), (mem_refsIn h).2 ⟨hreach, hexpr⟩, hv⟩

theorem accessesIn_succ : g.accessesIn taken (n + 1) e = .ok t ↔
    ∃ x ops inside written, g.expr e = .ok x ∧ g.operands taken x = .ok ops ∧
      List.Forall₂ (fun c u => g.accessesIn taken n c = .ok u) ops inside ∧
      g.written? x = .ok written ∧
      t = (x.local?.map (.read e)).toList ++ inside.flatten ++
        (written.map (.write e)).toList := by
  simp only [accessesIn, Checked.bind_eq_ok, Checked.pure_eq_ok, Checked.mapM_eq_ok_iff]
  constructor
  · rintro ⟨x, hx, ops, hops, inside, hinside, written, hwritten, rfl⟩
    exact ⟨x, ops, inside, written, hx, hops, hinside, hwritten, rfl⟩
  · rintro ⟨x, ops, inside, written, hx, hops, hinside, hwritten, rfl⟩
    exact ⟨x, hx, ops, hops, inside, hinside, written, hwritten, rfl⟩

theorem operands_subset {ops : List ExprId} (h : g.operands taken x = .ok ops) :
    ∀ c ∈ ops, c ∈ x.children := by
  unfold operands at h
  split at h
  · next left right =>
    obtain ⟨v, -, h⟩ := Checked.bind_eq_ok.1 h
    rw [← Checked.pure_eq_ok.1 h]
    split <;> simp [Expr.children]
  · next op first rest =>
    rw [← Checked.pure_eq_ok.1 h]
    intro c hc
    rcases List.mem_cons.1 hc with rfl | hc
    · simp [Expr.children]
    · split at hc
      · simp [Expr.children, List.mem_of_mem_filter hc]
      · simp [Expr.children, hc]
  · rw [← Checked.pure_eq_ok.1 h]
    exact fun c hc => hc

theorem written?_eq_some (h : g.written? x = .ok (some v)) :
    ∃ c ∈ x.children, g.local? c = .ok (some v) := by
  unfold written? at h
  split at h
  · exact ⟨_, by simp [Expr.children], h⟩
  · split at h
    · exact ⟨_, by simp [Expr.children], h⟩
    · cases h
  · cases h

/-- What is accessed occurs in the expression. -/
theorem involves_of_accessesIn (h : g.accessesIn taken n e = .ok t) {a : Access} (ha : a ∈ t) :
    g.Involves e a.var := by
  induction n generalizing e t with
  | zero => cases h
  | succ n ih =>
    obtain ⟨x, ops, inside, written, hx, hops, hinside, hwritten, rfl⟩ := accessesIn_succ.1 h
    obtain ⟨node, hnode, rfl⟩ := expr_eq_ok.1 hx
    have hsub : ∀ c ∈ node.expr.children, g.Reaches e c := fun c hc => .single ⟨node, hnode, hc⟩
    rw [List.mem_append, List.mem_append] at ha
    rcases ha with (ha | ha) | ha
    · obtain ⟨v, hv, rfl⟩ := Option.map_eq_some_iff.1 (Option.mem_toList.1 ha)
      exact involves_of_local? (by simp [local?, hx, hv, Access.var])
    · obtain ⟨u, hu, ha⟩ := List.mem_flatten.1 ha
      obtain ⟨c, hc, hcu⟩ := Checked.exists_of_mem hinside.flip hu
      exact (ih hcu ha).up (hsub c (operands_subset hops c hc))
    · obtain ⟨v, rfl, rfl⟩ := Option.map_eq_some_iff.1 (Option.mem_toList.1 ha)
      obtain ⟨c, hc, hlocal⟩ := written?_eq_some hwritten
      exact (involves_of_local? hlocal).up (hsub c hc)

/-- An assignment to a variable evaluates its right side and then writes. -/
theorem accessesIn_assign (h : g.accessesIn taken n e = .ok t)
    (he : g.expr e = .ok (.assign left right)) (hv : g.local? left = .ok (some v)) :
    ∃ m u, g.accessesIn taken m right = .ok u ∧ t = u ++ [.write e v] := by
  cases n with
  | zero => cases h
  | succ n =>
    obtain ⟨x, ops, inside, written, hx, hops, hinside, hwritten, rfl⟩ := accessesIn_succ.1 h
    rw [he] at hx
    cases hx
    obtain rfl : [right] = ops := by simpa [operands, hv] using hops
    obtain rfl : some v = written := by simpa [written?, hv] using hwritten
    obtain ⟨u, us, hu, hus, rfl⟩ := List.forall₂_cons_left_iff.1 hinside
    obtain rfl := List.forall₂_nil_left_iff.1 hus
    exact ⟨n, u, hu, by simp [Expr.local?, Expr.var?]⟩

/-- Every expression that leads to no cycle can be evaluated. -/
theorem Grounded.accesses (h : g.Grounded e) (taken : ExprId → Bool) :
    ∃ t, g.accesses taken e = .ok t := by
  refine h.walk (P := fun n e => ∃ t, g.accessesIn taken n e = .ok t)
    (fun n e node he hnode hbelow => ?_) (Nat.le_succ _)
  have hlocal : ∀ c ∈ node.expr.children, ∃ v, g.local? c = .ok v := fun c hc =>
    (he.sub ⟨node, hnode, hc⟩).local?
  obtain ⟨ops, hops⟩ : ∃ ops, g.operands taken node.expr = .ok ops := by
    unfold operands
    split
    · next left right heq =>
      obtain ⟨v, hv⟩ := hlocal left (by simp [heq, Expr.children])
      exact ⟨_, by simp only [hv, Checked.ok_bind]; rfl⟩
    · exact ⟨_, rfl⟩
    · exact ⟨_, rfl⟩
  obtain ⟨written, hwritten⟩ : ∃ w, g.written? node.expr = .ok w := by
    unfold written?
    split
    · next left right heq => exact hlocal left (by simp [heq, Expr.children])
    · next op operand rest heq =>
      split
      · exact hlocal operand (by simp [heq, Expr.children])
      · exact ⟨_, rfl⟩
    · exact ⟨_, rfl⟩
  have hinside : Returns (ops.mapM (g.accessesIn taken n)) (List.Forall₂ (fun _ _ => True) ops) :=
    Returns.mapM fun c hc =>
      (hbelow c (operands_subset hops c hc)).imp fun _ ht => ⟨ht, trivial⟩
  obtain ⟨inside, hinside, -⟩ := hinside
  exact ⟨_, accessesIn_succ.2 ⟨node.expr, ops, inside, written, expr_eq_ok.2 ⟨node, hnode, rfl⟩,
    hops, Checked.mapM_eq_ok_iff.1 hinside, hwritten, rfl⟩⟩

end Graph

end Decompiler

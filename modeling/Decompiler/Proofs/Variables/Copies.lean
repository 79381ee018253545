import Decompiler.Proofs.Variables.Reuse

/-!
# Versions that copies join

The values that a method without branches passes around, when versions of its slots are merged.

* `Instr`: what an expression of a leaf does: it copies a variable, or it computes a value of its
  own from some variables.
* `observe`: the values of all variables that are read to compute something, in order.
* `Compatible`: when a version is written, the other ones of its slot that are still needed hold the
  same value. This is what a copy leaves behind, until one of its sides is overwritten.
* `Method.mergeVersionsBy_observe`: merging versions does not change the values that are read, if
  the versions are compatible.
-/

namespace Decompiler

/-! ## Programs without branches -/

/-- What an expression of a leaf does. -/
inductive Instr where
  /-- A variable gets the value of another one. -/
  | copy (target source : Local)
  /-- A value is computed at a node from the values of occurrences, and may be assigned. -/
  | compute (node : ExprId) (target : Option Local) (reads : List (ExprId × Local))
  deriving DecidableEq, Repr

/-- The values of variables. A value is known by the node that computed it. -/
abbrev Values := Local → Option ExprId

namespace Instr

/-- The variable that is assigned to. -/
def target : Instr → Option Local
  | copy v _ => some v
  | compute _ v _ => v

/-- The variables whose values are used. -/
def uses : Instr → List Local
  | copy _ w => [w]
  | compute _ _ reads => reads.map Prod.snd

/-- The value that is assigned. -/
def value (σ : Values) : Instr → Option ExprId
  | copy _ w => σ w
  | compute e _ _ => some e

/-- The values afterwards. -/
def after (σ : Values) (i : Instr) : Values :=
  match i.target with
  | some v => Function.update σ v (i.value σ)
  | none => σ

/-- The occurrences that are read to compute a value, with what they hold. -/
def observed (σ : Values) : Instr → List (ExprId × Option ExprId)
  | copy _ _ => []
  | compute _ _ reads => reads.map fun r => (r.1, σ r.2)

/-- The same for other variables. -/
def rename (ρ : Local → Local) : Instr → Instr
  | copy v w => copy (ρ v) (ρ w)
  | compute e v reads => compute e (v.map ρ) (reads.map fun r => (r.1, ρ r.2))

/-- A variable is assigned to itself. -/
def IsIdle : Instr → Prop
  | copy v w => v = w
  | compute _ _ _ => False

variable {ρ : Local → Local} {σ σ' : Values} {i : Instr} {v : Local}

@[simp] theorem target_rename : (i.rename ρ).target = i.target.map ρ := by
  cases i <;> rfl

@[simp] theorem uses_rename : (i.rename ρ).uses = i.uses.map ρ := by
  cases i <;> simp [rename, uses]

theorem value_rename (h : ∀ u ∈ i.uses, σ' (ρ u) = σ u) : (i.rename ρ).value σ' = i.value σ := by
  cases i with
  | copy v w => exact h w (by simp [uses])
  | compute e v reads => rfl

theorem observed_rename (h : ∀ u ∈ i.uses, σ' (ρ u) = σ u) :
    (i.rename ρ).observed σ' = i.observed σ := by
  cases i with
  | copy v w => rfl
  | compute e v reads =>
    simp only [rename, observed, List.map_map]
    refine List.map_congr_left fun r hr => ?_
    simp [h r.2 (List.mem_map_of_mem hr)]

theorem after_target (h : i.target = some v) : i.after σ v = i.value σ := by
  simp [after, h]

theorem after_of_ne (h : i.target ≠ some v) : i.after σ v = σ v := by
  cases hi : i.target with
  | none => simp [after, hi]
  | some w =>
    have hne : v ≠ w := fun hvw => h (hi.trans (congrArg some hvw.symm))
    simp [after, hi, hne]

theorem after_of_isIdle (h : i.IsIdle) : i.after σ = σ := by
  cases i with
  | copy v w =>
    obtain rfl : v = w := h
    simp [after, target, value]
  | compute e v reads => cases h

end Instr

/-- The values of all variables that are read to compute something, in order. -/
def observe : Values → List Instr → List (ExprId × Option ExprId)
  | _, [] => []
  | σ, i :: rest => i.observed σ ++ observe (i.after σ) rest

/-- The variables whose values are used before they are assigned to. -/
def live : List Instr → List Local
  | [] => []
  | i :: rest => i.uses ++ (live rest).filter fun u => i.target ≠ some u

/-- Whenever a version is written, the other ones of its slot that are still needed hold the same
value. -/
def Compatible (slot : Local → ℕ) : Values → List Instr → Prop
  | _, [] => True
  | σ, i :: rest =>
    (∀ v ∈ i.target, ∀ u ∈ live rest, u ≠ v → slot u = slot v → i.after σ u = i.after σ v) ∧
      Compatible slot (i.after σ) rest

instance (slot : Local → ℕ) : (σ : Values) → (P : List Instr) → Decidable (Compatible slot σ P)
  | _, [] => isTrue trivial
  | σ, i :: rest =>
    have := instDecidableCompatible slot (i.after σ) rest
    inferInstanceAs (Decidable (_ ∧ _))

/-! ## Renaming -/

section Renaming

variable {slot : Local → ℕ} {ρ : Local → Local} {σ σ' : Values} {P Q : List Instr} {i : Instr}
  {u v : Local}

theorem mem_live_cons : u ∈ live (i :: P) ↔ u ∈ i.uses ∨ u ∈ live P ∧ i.target ≠ some u := by
  simp [live]

/-- What is needed under a new name is needed. -/
theorem exists_mem_live_of_rename (h : u ∈ live (P.map (.rename ρ))) :
    ∃ w ∈ live P, ρ w = u := by
  induction P with
  | nil => cases h
  | cons i P ih =>
    rw [List.map_cons, mem_live_cons, Instr.uses_rename, Instr.target_rename] at h
    rcases h with h | ⟨h, hne⟩
    · obtain ⟨w, hw, rfl⟩ := List.mem_map.1 h
      exact ⟨w, mem_live_cons.2 (.inl hw), rfl⟩
    · obtain ⟨w, hw, rfl⟩ := ih h
      refine ⟨w, mem_live_cons.2 (.inr ⟨hw, fun htarget => hne ?_⟩), rfl⟩
      rw [htarget, Option.map_some]

/-- One instruction: the variables that are still needed hold under their new names what they held.
-/
theorem after_rename (hslot : ∀ v, slot (ρ v) = slot v)
    (hlive : ∀ u ∈ live (i :: P), σ' (ρ u) = σ u)
    (hcompat : ∀ v ∈ i.target, ∀ u ∈ live P, u ≠ v → slot u = slot v → i.after σ u = i.after σ v)
    (hu : u ∈ live P) : (i.rename ρ).after σ' (ρ u) = i.after σ u := by
  have huses : ∀ w ∈ i.uses, σ' (ρ w) = σ w := fun w hw => hlive w (mem_live_cons.2 (.inl hw))
  by_cases htarget : (i.rename ρ).target = some (ρ u)
  · -- a variable of this name is written
    rw [Instr.after_target htarget, Instr.value_rename huses]
    rw [Instr.target_rename] at htarget
    obtain ⟨v, hv, hρ⟩ := Option.map_eq_some_iff.1 htarget
    by_cases huv : u = v
    · subst huv
      exact (Instr.after_target hv).symm
    · have hsame : slot u = slot v := by rw [← hslot u, ← hρ, hslot v]
      rw [hcompat v hv u hu huv hsame, Instr.after_target hv]
  · have hne : i.target ≠ some u := fun h =>
      htarget (by rw [Instr.target_rename, h, Option.map_some])
    rw [Instr.after_of_ne htarget, Instr.after_of_ne hne]
    exact hlive u (mem_live_cons.2 (.inr ⟨hu, hne⟩))

/-- Renaming variables within their slots does not change what is observed. -/
theorem observe_rename (hslot : ∀ v, slot (ρ v) = slot v) (hlive : ∀ u ∈ live P, σ' (ρ u) = σ u)
    (h : Compatible slot σ P) : observe σ' (P.map (.rename ρ)) = observe σ P := by
  induction P generalizing σ σ' with
  | nil => rfl
  | cons i P ih =>
    have huses : ∀ w ∈ i.uses, σ' (ρ w) = σ w := fun w hw => hlive w (mem_live_cons.2 (.inl hw))
    have hrest := ih (fun u hu => after_rename hslot hlive h.1 hu) h.2
    simp only [List.map_cons, observe, Instr.observed_rename huses, hrest]

/-- Versions stay compatible under new names. -/
theorem Compatible.rename (hslot : ∀ v, slot (ρ v) = slot v)
    (hlive : ∀ u ∈ live P, σ' (ρ u) = σ u) (h : Compatible slot σ P) :
    Compatible slot σ' (P.map (.rename ρ)) := by
  induction P generalizing σ σ' with
  | nil => trivial
  | cons i P ih =>
    have hafter : ∀ u ∈ live P, (i.rename ρ).after σ' (ρ u) = i.after σ u := fun u hu =>
      after_rename hslot hlive h.1 hu
    refine ⟨fun v' hv' u' hu' hne hsame => ?_, ih hafter h.2⟩
    obtain ⟨u, hu, rfl⟩ := exists_mem_live_of_rename hu'
    rw [Option.mem_def, Instr.target_rename] at hv'
    obtain ⟨v, hv, rfl⟩ := Option.map_eq_some_iff.1 hv'
    have huses : ∀ w ∈ i.uses, σ' (ρ w) = σ w := fun w hw => hlive w (mem_live_cons.2 (.inl hw))
    have huv : u ≠ v := fun heq => hne (congrArg ρ heq)
    rw [hslot, hslot] at hsame
    calc (i.rename ρ).after σ' (ρ u) = i.after σ u := hafter u hu
      _ = i.after σ v := h.1 v hv u hu huv hsame
      _ = i.value σ := Instr.after_target hv
      _ = (i.rename ρ).value σ' := (Instr.value_rename huses).symm
      _ = (i.rename ρ).after σ' (ρ v) :=
        (Instr.after_target (by rw [Instr.target_rename, hv, Option.map_some])).symm

end Renaming

/-! ## Assignments of variables to themselves -/

/-- The second list is the first one without some of the elements that satisfy `d`. -/
inductive Omits {α : Type} (d : α → Prop) : List α → List α → Prop
  | nil : Omits d [] []
  | keep {a : α} {l l' : List α} (h : Omits d l l') : Omits d (a :: l) (a :: l')
  | drop {a : α} {l l' : List α} (ha : d a) (h : Omits d l l') : Omits d (a :: l) l'

theorem Omits.refl {α : Type} {d : α → Prop} (l : List α) : Omits d l l := by
  induction l with
  | nil => exact .nil
  | cons a l ih => exact .keep ih

theorem Omits.trans {α : Type} {d : α → Prop} {l l' l'' : List α} (h : Omits d l l')
    (h' : Omits d l' l'') : Omits d l l'' := by
  induction h generalizing l'' with
  | nil => exact h'
  | drop ha _ ih => exact .drop ha (ih h')
  | keep _ ih =>
    cases h' with
    | keep h' => exact .keep (ih h')
    | drop ha h' => exact .drop ha (ih h')

theorem Omits.forall₂ {α β : Type} {R : α → β → Prop} {d : α → Prop} {l l' : List α} {r : List β}
    (h : Omits d l l') (hr : List.Forall₂ R l r) (d' : β → Prop)
    (hd : ∀ a b, d a → R a b → d' b) : ∃ r', List.Forall₂ R l' r' ∧ Omits d' r r' := by
  induction h generalizing r with
  | nil =>
    cases hr
    exact ⟨[], .nil, .nil⟩
  | keep h ih =>
    cases hr with
    | cons hab hrest =>
      obtain ⟨r', hr', homits⟩ := ih hrest
      exact ⟨_, .cons hab hr', .keep homits⟩
  | drop ha h ih =>
    cases hr with
    | cons hab hrest =>
      obtain ⟨r', hr', homits⟩ := ih hrest
      exact ⟨r', hr', .drop (hd _ _ ha hab) homits⟩

section Omitting

variable {slot : Local → ℕ} {σ : Values} {P Q : List Instr} {u : Local}

theorem Omits.live_subset (h : Omits Instr.IsIdle P Q) (hu : u ∈ live Q) : u ∈ live P := by
  induction h with
  | nil => exact hu
  | keep h ih =>
    rw [mem_live_cons] at hu ⊢
    exact hu.imp_right (And.imp_left ih)
  | @drop i P Q hi h ih =>
    rw [mem_live_cons]
    cases i with
    | compute e v reads => cases hi
    | copy v w =>
      obtain rfl : v = w := hi
      by_cases huv : u = v
      · exact .inl (by simp [Instr.uses, huv])
      · exact .inr ⟨ih hu, by simp [Instr.target, Ne.symm huv]⟩

theorem Omits.observe_eq (h : Omits Instr.IsIdle P Q) : observe σ Q = observe σ P := by
  induction h generalizing σ with
  | nil => rfl
  | keep h ih => simp only [observe, ih]
  | @drop i P Q hi h ih =>
    have hobserved : i.observed σ = [] := by
      cases i with
      | copy v w => rfl
      | compute e v reads => cases hi
    rw [observe, Instr.after_of_isIdle hi, hobserved, List.nil_append, ih]

theorem Omits.compatible (h : Omits Instr.IsIdle P Q) (hP : Compatible slot σ P) :
    Compatible slot σ Q := by
  induction h generalizing σ with
  | nil => trivial
  | keep h ih => exact ⟨fun v hv u hu => hP.1 v hv u (h.live_subset hu), ih hP.2⟩
  | drop hi h ih =>
    have hrest := hP.2
    rw [Instr.after_of_isIdle hi] at hrest
    exact ih hrest

end Omitting

/-! ## The program of a method -/

/-- The reads that accesses are, unless one of them is a write. -/
def readsOnly : List Access → Option (List (ExprId × Local))
  | [] => some []
  | .read e v :: rest => (readsOnly rest).map ((e, v) :: ·)
  | .write _ _ :: _ => none

theorem readsOnly_rename (ρ : Local → Local) (t : List Access) :
    readsOnly (t.map (.rename ρ)) = (readsOnly t).map (List.map fun p => (p.1, ρ p.2)) := by
  induction t with
  | nil => rfl
  | cons a t ih =>
    cases a with
    | read e v => cases h : readsOnly t <;> simp [readsOnly, Access.rename, ih, h]
    | write e v => rfl

/-- Whether the node is a call. -/
def Expr.isCall : Expr → Bool
  | .call _ => true
  | _ => false

theorem Expr.isCall_shape (x : Expr) : x.shape.isCall = x.isCall := by
  cases x <;> rfl

theorem Expr.assign?_shape (x : Expr) : x.shape.assign? = x.assign? := by
  cases x <;> rfl

namespace Graph

/-- The occurrences that an expression reads, if it does not write any variable. -/
def reads? (g : Graph) (e : ExprId) : Checked (Option (List (ExprId × Local))) := do
  return readsOnly (← g.accesses (fun _ => true) e)

/-- What an expression of a leaf does, if it is an assignment to a variable or a call and does not
write any other variable. -/
def instr? (g : Graph) (e : ExprId) : Checked (Option Instr) := do
  match ← g.assigned? e with
  | some (v, right) =>
    match ← g.local? right with
    | some w => return some (.copy v w)
    | none => return (← g.reads? right).map (.compute e (some v))
  | none =>
    if (← g.expr e).isCall then return (← g.reads? e).map (.compute e none)
    else return none

/-- The body of the method is one leaf that does `P`. -/
def IsProgram (g : Graph) (s : StatId) (P : List Instr) : Prop :=
  Returns (g.stat root) (fun st => st.kind = .root ∧ st.children = [s] ∧ st.declarations = []) ∧
    Returns (g.stat s) fun st => st.children = [] ∧ st.declarations = [] ∧ st.isLeaf = true ∧
      (st.exprs?.getD []).mapM g.instr? = .ok (P.map some)

instance (g : Graph) (s : StatId) (P : List Instr) : Decidable (g.IsProgram s P) :=
  inferInstanceAs (Decidable (_ ∧ _))

variable {g g' : Graph} {s t : StatId} {e : ExprId} {ρ : Local → Local} {P : List Instr}

/-! ### Renaming -/

section Renames

variable (r : Renames g g' ρ) (h : g.Owns s e)

include r h

theorem Renames.reads? {y : ExprId} (hy : g.Reaches e y)
    {reads : Option (List (ExprId × Local))} (hreads : g.reads? y = .ok reads) :
    g'.reads? y = .ok (reads.map (List.map fun p => (p.1, ρ p.2))) := by
  obtain ⟨t, ht, hreads⟩ := Checked.bind_eq_ok.1 hreads
  rw [← Checked.pure_eq_ok.1 hreads, ← readsOnly_rename]
  simp only [Graph.reads?, r.accesses h hy ht, Checked.ok_bind, Checked.pure_eq_ok]

theorem Renames.assigned? {a : Option (Local × ExprId)} (ha : g.assigned? e = .ok a) :
    g'.assigned? e = .ok (a.map fun p => (ρ p.1, p.2)) := by
  obtain ⟨sides, hsides, ha⟩ := Checked.bind_eq_ok.1 ha
  obtain ⟨z, hz, rfl⟩ : ∃ z, g.expr e = .ok z ∧ z.assign? = sides := by
    simpa [Graph.assign?] using hsides
  obtain ⟨z', hz', hshape, -⟩ := r.node s e e z h .refl hz
  have hsides' : z'.assign? = z.assign? := by
    rw [← Expr.assign?_shape, hshape, Expr.assign?_shape]
  cases hassign : z.assign? with
  | none =>
    rw [hassign] at ha hsides'
    cases Checked.pure_eq_ok.1 ha
    simp [Graph.assigned?, Graph.assign?, hz', hsides']
  | some p =>
    rw [hassign] at ha hsides'
    obtain ⟨v, hv, ha⟩ := Checked.bind_eq_ok.1 ha
    cases Checked.pure_eq_ok.1 ha
    obtain rfl : z = .assign p.1 p.2 := by
      cases z <;> cases hassign
      rfl
    obtain ⟨n, hn, hexpr⟩ := expr_eq_ok.1 hz
    have hleft := r.local? h (.single ⟨n, hn, by simp [hexpr, Expr.children]⟩) hv
    simp [Graph.assigned?, Graph.assign?, hz', hsides', hleft]
    rfl

theorem Renames.instr? {i : Option Instr} (hi : g.instr? e = .ok i) :
    g'.instr? e = .ok (i.map (.rename ρ)) := by
  obtain ⟨a, ha, hi⟩ := Checked.bind_eq_ok.1 hi
  have ha' := r.assigned? h ha
  cases a with
  | none =>
    obtain ⟨z, hz, hi⟩ := Checked.bind_eq_ok.1 hi
    obtain ⟨z', hz', hshape, -⟩ := r.node s e e z h .refl hz
    have hcall : z'.isCall = z.isCall := by
      rw [← Expr.isCall_shape, hshape, Expr.isCall_shape]
    simp only [Graph.instr?, ha', hz', Checked.ok_bind, Option.map_none, hcall]
    split at hi
    · next hz =>
      obtain ⟨reads, hreads, hi⟩ := Checked.bind_eq_ok.1 hi
      cases Checked.pure_eq_ok.1 hi
      rw [if_pos hz, r.reads? h .refl hreads]
      cases reads <;> rfl
    · next hz =>
      cases Checked.pure_eq_ok.1 hi
      rw [if_neg hz]
      rfl
  | some p =>
    have hright := reaches_right ha
    obtain ⟨w, hw, hi⟩ := Checked.bind_eq_ok.1 hi
    have hw' := r.local? h hright hw
    simp only [Graph.instr?, ha', Checked.ok_bind, Option.map_some, hw']
    cases w with
    | some w =>
      cases Checked.pure_eq_ok.1 hi
      rfl
    | none =>
      obtain ⟨reads, hreads, hi⟩ := Checked.bind_eq_ok.1 hi
      cases Checked.pure_eq_ok.1 hi
      simp only [Option.map_none, r.reads? h hright hreads, Checked.ok_bind]
      cases reads <;> rfl

end Renames

namespace IsProgram

theorem elim (h : g.IsProgram s P) : ∃ rt st exprs, g.stat root = .ok rt ∧ rt.kind = .root ∧
    rt.children = [s] ∧ rt.declarations = [] ∧ g.stat s = .ok st ∧ st.children = [] ∧
    st.declarations = [] ∧ st.exprs? = some exprs ∧
    List.Forall₂ (fun e i => g.instr? e = .ok (some i)) exprs P := by
  obtain ⟨⟨rt, hrt, hkind, hchildren, hdecl⟩, st, hst, hleaf, hdecl', hexprs, hP⟩ := h
  obtain ⟨exprs, hexprs⟩ := Option.isSome_iff_exists.1 hexprs
  rw [hexprs, Checked.mapM_eq_ok_iff, List.forall₂_map_right_iff] at hP
  exact ⟨rt, st, exprs, hrt, hkind, hchildren, hdecl, hst, hleaf, hdecl', hexprs, hP⟩

theorem inTree (h : g.IsProgram s P) (ht : g.InTree t) : t = root ∨ t = s := by
  obtain ⟨rt, st, exprs, hrt, -, hchildren, -, hst, hleaf, -⟩ := h.elim
  induction ht with
  | refl => exact .inl rfl
  | tail _ hc ih =>
    rcases ih with rfl | rfl
    · rw [childOf_iff hrt, hchildren] at hc
      exact .inr (List.mem_singleton.1 hc)
    · rw [childOf_iff hst, hleaf] at hc
      cases hc

theorem inTree_leaf (h : g.IsProgram s P) : g.InTree s := by
  obtain ⟨rt, st, exprs, hrt, -, hchildren, -⟩ := h.elim
  exact .single ((childOf_iff hrt).2 (by simp [hchildren]))

theorem owns (h : g.IsProgram s P) {st : Stat} {exprs : List ExprId} (hst : g.stat s = .ok st)
    (hexprs : st.exprs? = some exprs) (he : e ∈ exprs) : g.Owns s e :=
  owns_of_exprs? h.inTree_leaf hst hexprs he

/-- There are no declarations, neither in lists nor as expressions of the leaf. -/
theorem plain (h : g.IsProgram s P) : g.Plain := by
  obtain ⟨rt, st, exprs, hrt, hkind, -, hdecl, hst, -, hdecl', hexprs, hP⟩ := h.elim
  refine ⟨fun t tt ht htt => ?_, fun t tt exprs' e ht htt hexprs' he v hv => ?_⟩
  · rcases h.inTree ht with rfl | rfl
    · rw [hrt] at htt
      cases htt
      exact hdecl
    · rw [hst] at htt
      cases htt
      exact hdecl'
  · rcases h.inTree ht with rfl | rfl
    · rw [hrt] at htt
      cases htt
      simp [Stat.exprs?, hkind] at hexprs'
    · rw [hst] at htt
      cases htt
      rw [hexprs] at hexprs'
      cases hexprs'
      -- an occurrence does nothing
      obtain ⟨i, -, hi⟩ := Checked.exists_of_mem hP he
      obtain ⟨w, hw, -⟩ := local?_eq_ok.1 hv
      simp [instr?, assigned?, assign?, hw, Expr.assign?, Expr.isCall] at hi

theorem rename (h : g.IsProgram s P) (r : Renames g g' ρ) :
    g'.IsProgram s (P.map (.rename ρ)) := by
  obtain ⟨rt, st, exprs, hrt, hkind, hchildren, hdecl, hst, hleaf, hdecl', hexprs, hP⟩ := h.elim
  refine ⟨⟨rt, (r.stat _).trans hrt, hkind, hchildren, hdecl⟩, st, (r.stat _).trans hst, hleaf,
    hdecl', by simp [Stat.isLeaf, hexprs], ?_⟩
  rw [hexprs, Checked.mapM_eq_ok_iff, List.forall₂_map_right_iff, List.forall₂_map_right_iff]
  have hboth := (List.forall₂_and_left _ _).2 ⟨fun e he => h.owns hst hexprs he, hP⟩
  exact hboth.imp fun e i hei => r.instr? hei.1 hei.2

end IsProgram

/-! ### Dropping -/

theorem accessesIn_congr (h : ∀ e, g'.expr e = g.expr e) {taken : ExprId → Bool} {n : ℕ} :
    g'.accessesIn taken n e = g.accessesIn taken n e := by
  have hlocal : ∀ c, g'.local? c = g.local? c := fun c => by rw [local?, h, local?]
  induction n generalizing e with
  | zero => rfl
  | succ n ih =>
    have hops : ∀ x, g'.operands taken x = g.operands taken x := by
      intro x
      unfold operands
      split <;> simp only [hlocal]
    have hwritten : ∀ x, g'.written? x = g.written? x := by
      intro x
      unfold written?
      split <;> simp only [hlocal]
    have hin : g'.accessesIn taken n = g.accessesIn taken n := funext fun c => ih
    simp only [accessesIn, h, hops, hwritten, hin]

theorem instr?_congr (h : ∀ e, g'.expr e = g.expr e) (hsize : g'.exprs.size = g.exprs.size) :
    g'.instr? e = g.instr? e := by
  have hlocal : ∀ c, g'.local? c = g.local? c := fun c => by rw [local?, h, local?]
  have hreads : ∀ c, g'.reads? c = g.reads? c := fun c => by
    rw [reads?, reads?, accesses, accesses, exprLevels, exprLevels, hsize, accessesIn_congr h]
  simp only [instr?, assigned?, assign?, h, hlocal, hreads]

/-- Expressions are dropped from a list, and no node changes but for its offsets. -/
theorem dropFrom_omits {doomed : ExprId → Checked Bool} {keepLone : Bool}
    {kept l l' : List ExprId} (h : dropFrom doomed keepLone g kept l = .ok (g', l')) :
    g'.stats = g.stats ∧ (∀ e, g'.expr e = g.expr e) ∧ g'.exprs.size = g.exprs.size ∧
      ∃ rest, l' = kept.reverse ++ rest ∧ Omits (fun e => doomed e = .ok true) l rest := by
  induction l generalizing g kept with
  | nil =>
    cases Checked.pure_eq_ok.1 h
    exact ⟨rfl, fun _ => rfl, rfl, [], by simp, .nil⟩
  | cons e rest ih =>
    obtain ⟨b, hb, h⟩ := Checked.bind_eq_ok.1 h
    split at h
    · obtain ⟨hstats, hexpr, hsize, rest', rfl, homits⟩ := ih h
      exact ⟨hstats, hexpr, hsize, e :: rest', by simp, .keep homits⟩
    · next hspared =>
      obtain rfl : b = true := by
        cases b with
        | true => rfl
        | false => simp at hspared
      split at h
      · obtain ⟨g₁, habsorb, h⟩ := Checked.bind_eq_ok.1 h
        obtain ⟨hstats, hexpr, hsize, rest', rfl, homits⟩ := ih h
        obtain ⟨u, -, hadd⟩ := Checked.bind_eq_ok.1 habsorb
        obtain ⟨n, hn, hx, hstats₁, -, hsize₁⟩ := node_addOffsets hadd
        refine ⟨hstats.trans hstats₁, fun x => (hexpr x).trans ?_, hsize.trans hsize₁, rest', rfl,
          .drop hb homits⟩
        unfold expr
        rw [hx]
        split
        · next hex =>
          rw [← hex, hn]
          rfl
        · rfl
      · obtain ⟨hstats, hexpr, hsize, rest', rfl, homits⟩ := ih h
        exact ⟨hstats, hexpr, hsize, rest', rfl, .drop hb homits⟩

/-- Assignments of a variable to itself are dropped from the program. -/
theorem IsProgram.dropSelfAssignments (h : g.IsProgram s P) (ht : t = root ∨ t = s)
    (hdrop : Method.dropSelfAssignments g t = .ok g') :
    ∃ Q, g'.IsProgram s Q ∧ Omits Instr.IsIdle P Q := by
  obtain ⟨rt, st, exprs, hrt, hkind, hchildren, hdecl, hst, hleaf, hdecl', hexprs, hP⟩ := h.elim
  have hroot : s ≠ root := by
    rintro rfl
    rw [hrt] at hst
    cases hst
    simp [Stat.exprs?, hkind] at hexprs
  rcases ht with rfl | rfl
  · have hnone : rt.exprs? = none := by simp [Stat.exprs?, hkind]
    obtain rfl : g = g' := by simpa [Method.dropSelfAssignments, hrt, hnone] using hdrop
    exact ⟨P, h, .refl P⟩
  · simp only [Method.dropSelfAssignments, hst, Checked.ok_bind, hexprs, Checked.bind_eq_ok]
      at hdrop
    obtain ⟨⟨g₁, l⟩, hfrom, hmodify⟩ := hdrop
    obtain ⟨hstats, hexpr, hsize, l', rfl, homits⟩ := dropFrom_omits hfrom
    have hst₁ : ∀ x, g₁.stat x = g.stat x := fun x => by rw [stat, hstats, stat]
    obtain ⟨st', hst', hstat', -, hexprs'⟩ := stat_modifyStat hmodify
    rw [hst₁, hst] at hst'
    cases hst'
    have hexpr' : ∀ x, g'.expr x = g.expr x := fun x => by
      rw [expr, node, hexprs', ← node, ← expr, hexpr]
    have hinstr : ∀ x, g'.instr? x = g.instr? x := fun x =>
      instr?_congr hexpr' ((congrArg Arena.size hexprs').trans hsize)
    have hidle : ∀ x i, Method.isSelfAssignment g x = .ok true → g.instr? x = .ok (some i) →
        i.IsIdle := by
      intro x i hx hi
      obtain ⟨v, right, hassigned, hright⟩ := Method.isSelfAssignment_eq_true hx
      obtain rfl : Instr.copy v v = i := by simpa [instr?, hassigned, hright] using hi
      rfl
    obtain ⟨Q, hQ, hPQ⟩ := homits.forall₂ hP Instr.IsIdle hidle
    refine ⟨Q, ⟨⟨rt, ?_, hkind, hchildren, hdecl⟩, st.withExprs l, ?_, ?_⟩, hPQ⟩
    · rw [hstat', if_neg hroot, hst₁, hrt]
    · rw [hstat', if_pos rfl]
    · obtain ⟨kind, parent, first, children, declarations, successors, predecessors, labels⟩ := st
      cases Stat.exprs?_eq_some.1 hexprs
      refine ⟨hleaf, hdecl', rfl, ?_⟩
      rw [Checked.mapM_eq_ok_iff, List.forall₂_map_right_iff]
      exact hQ.imp fun x i hi => (hinstr x).trans hi

end Graph

namespace Method

open Decompiler.Graph

variable {m m' : Method} {s : StatId} {P : List Instr}

/-- The slot that a variable came from. -/
def slot (m : Method) (v : Local) : ℕ := m.vars.slotOf v.index

/-- Candidates are versions of one slot. -/
theorem candidate?_slot {arrange : Occurrences → Occurrences} {refused : List Candidate}
    {c : Candidate} (harrange : ∀ occ, (arrange occ).entries.Perm occ.entries)
    (h : m.candidate? arrange refused = .ok (some c)) (v : Local) :
    m.slot (c.rename v) = m.slot v := by
  obtain ⟨occ, s, st, exprs, i, e, l, right, -, -, -, -, -, -, h⟩ := candidate?_eq_some h
  rcases h with h | h
  · obtain ⟨w, -, -, hslot, rfl⟩ := copyCandidate?_eq_some h
    exact slotOf_rename hslot v
  · obtain ⟨o, places, -, -, hslot, -, rfl⟩ := reuseCandidate?_eq_some harrange h
    exact slotOf_rename hslot v

/-- One merge keeps what is observed. -/
theorem observe_merge {arrange : Occurrences → Occurrences} {refused : List Candidate}
    {c : Candidate} {g : Graph} {stats : List StatId}
    (harrange : ∀ occ, (arrange occ).entries.Perm occ.entries) (hP : m.graph.IsProgram s P)
    (hcompat : Compatible m.slot (fun _ => none) P)
    (hc : m.candidate? arrange refused = .ok (some c))
    (hm : m.unify c.source c.target = .ok (m', .merged)) (hstats : m'.graph.statements = .ok stats)
    (hg : stats.foldlM dropSelfAssignments m'.graph = .ok g) :
    ∃ Q, g.IsProgram s Q ∧ Compatible m'.slot (fun _ => none) Q ∧
      observe (fun _ => none) Q = observe (fun _ => none) P := by
  obtain ⟨r, horigins⟩ := unify_renames hP.plain hm
  have hslot := candidate?_slot harrange hc
  have hslots : m'.slot = m.slot := funext fun v => slotOf_eq horigins v.index
  have hP' := hP.rename r
  have hdropped : ∃ Q, g.IsProgram s Q ∧ Omits Instr.IsIdle (P.map (.rename c.rename)) Q := by
    refine Checked.foldlM_keeps (fun g => ∃ Q, g.IsProgram s Q ∧ Omits Instr.IsIdle _ Q) hg
      ⟨_, hP', .refl _⟩ fun t ht g₁ g₂ ⟨Q, hQ, homits⟩ hdrop => ?_
    obtain ⟨Q', hQ', homits'⟩ :=
      hQ.dropSelfAssignments (hP'.inTree ((mem_preorderIn hstats t).1 ht)) hdrop
    exact ⟨Q', hQ', homits.trans homits'⟩
  obtain ⟨Q, hQ, homits⟩ := hdropped
  refine ⟨Q, hQ, ?_, ?_⟩
  · rw [hslots]
    exact homits.compatible (hcompat.rename hslot fun _ _ => rfl)
  · rw [homits.observe_eq, observe_rename hslot (fun _ _ => rfl) hcompat]

theorem mergeVersionsIn_observe {arrange : Occurrences → Occurrences}
    (harrange : ∀ occ, (arrange occ).entries.Perm occ.entries) {rounds merges : ℕ}
    {refused : List Candidate} {result : Except MergeFailure ℕ} (hP : m.graph.IsProgram s P)
    (hcompat : Compatible m.slot (fun _ => none) P)
    (hm : mergeVersionsIn arrange rounds m refused merges = .ok (m', result)) :
    ∃ Q, m'.graph.IsProgram s Q ∧ observe (fun _ => none) Q = observe (fun _ => none) P := by
  obtain ⟨refused', hrounds, -⟩ := mergeVersionsIn_rounds hm
  have hkept : ∃ Q, m'.graph.IsProgram s Q ∧ Compatible m'.slot (fun _ => none) Q ∧
      observe (fun _ => none) Q = observe (fun _ => none) P := by
    refine hrounds.keeps (P := fun m => ∃ Q, m.graph.IsProgram s Q ∧
      Compatible m.slot (fun _ => none) Q ∧ observe (fun _ => none) Q = observe (fun _ => none) P)
      ⟨P, hP, hcompat, rfl⟩ fun q c m₁ g _ hq hmerges htidy => ?_
    obtain ⟨Q, hQ, hcompat, hobserve⟩ := hq
    obtain ⟨hc, hu⟩ := hmerges
    obtain ⟨stats, hstats, hg⟩ := Checked.bind_eq_ok.1 htidy
    obtain ⟨Q', hQ', hcompat', hobserve'⟩ := observe_merge harrange hQ hcompat hc hu hstats hg
    exact ⟨Q', hQ', hcompat', hobserve'.trans hobserve⟩
  obtain ⟨Q, hQ, -, hobserve⟩ := hkept
  exact ⟨Q, hQ, hobserve⟩

/-- Merging the versions of a method without branches does not change the values that are read, if
no version is overwritten while another one of its slot that holds something else is still needed.
-/
theorem mergeVersionsBy_observe (arrange : Occurrences → Occurrences)
    (harrange : ∀ occ, (arrange occ).entries.Perm occ.entries) (m m' : Method)
    (result : Except MergeFailure ℕ) (s : StatId) (P : List Instr) (hP : m.graph.IsProgram s P)
    (hcompat : Compatible m.slot (fun _ => none) P)
    (hm : m.mergeVersionsBy arrange = .ok (m', result)) :
    ∃ Q, m'.graph.IsProgram s Q ∧ observe (fun _ => none) Q = observe (fun _ => none) P :=
  mergeVersionsIn_observe harrange hP hcompat hm

/-- A method whose body is some of `v3 = In.f()`, `v5 = v3`, `v3 = In.g()` and `Out.print(v5)`, at
2, 5, 8 and 10. The variables are versions of one slot. -/
def copyingMethod (body : List ExprId) : Method where
  graph :=
    { stats := ⟨#[
        ⟨.exit, none, none, [], [], [], [], []⟩,
        ⟨.root, none, some ⟨2⟩, [⟨2⟩], [], [], [], []⟩,
        ⟨.block body, some ⟨1⟩, none, [], [], [], [], []⟩]⟩
      edges := .empty
      exprs :=
        let occurrence (index : ℕ) : Expr := .var ⟨⟨index, 0⟩, ⟨.int, 0⟩, false, false, none⟩
        let input (name : String) : Expr := .call ⟨"In", name, "()I", none, []⟩
        ⟨#[
          ⟨occurrence 3, .empty⟩,
          ⟨input "f", .empty⟩,
          ⟨.assign ⟨0⟩ ⟨1⟩, .empty⟩,
          ⟨occurrence 5, .empty⟩,
          ⟨occurrence 3, .empty⟩,
          ⟨.assign ⟨3⟩ ⟨4⟩, .empty⟩,
          ⟨occurrence 3, .empty⟩,
          ⟨input "g", .empty⟩,
          ⟨.assign ⟨6⟩ ⟨7⟩, .empty⟩,
          ⟨occurrence 5, .empty⟩,
          ⟨.call ⟨"Out", "print", "(I)V", none, [⟨9⟩]⟩, .empty⟩]⟩ }
  vars := { Registry.empty with origins := .ofList [(3, ⟨1, 3⟩), (5, ⟨1, 5⟩)] }

/-- `v3 = In.f(); v5 = v3; Out.print(v5)`. -/
def copyOnce : List Instr :=
  [.compute ⟨2⟩ (some ⟨3, 0⟩) [], .copy ⟨5, 0⟩ ⟨3, 0⟩, .compute ⟨10⟩ none [(⟨9⟩, ⟨5, 0⟩)]]

theorem mergeVersionsBy_observe_copyOnce :
    Returns ((copyingMethod [⟨2⟩, ⟨5⟩, ⟨10⟩]).mergeVersionsBy id) (fun r => r.2 = .ok 1) ∧
      ∀ m' result, (copyingMethod [⟨2⟩, ⟨5⟩, ⟨10⟩]).mergeVersionsBy id = .ok (m', result) →
        ∃ Q, m'.graph.IsProgram ⟨2⟩ Q ∧
          observe (fun _ => none) Q = observe (fun _ => none) copyOnce :=
  ⟨by decide +kernel, fun m' result h => mergeVersionsBy_observe id (fun _ => .refl _) _ m' result
    ⟨2⟩ copyOnce (by decide +kernel) (by decide +kernel) h⟩

/-- A copy joins its sides even if the one is overwritten before the other is read:
`v3 = In.f(); v5 = v3; v3 = In.g(); Out.print(v5)` becomes
`v3 = In.f(); v3 = In.g(); Out.print(v3)`. -/
theorem not_observe_of_overwritten_copy :
    let P : List Instr := [.compute ⟨2⟩ (some ⟨3, 0⟩) [], .copy ⟨5, 0⟩ ⟨3, 0⟩,
      .compute ⟨8⟩ (some ⟨3, 0⟩) [], .compute ⟨10⟩ none [(⟨9⟩, ⟨5, 0⟩)]]
    let Q : List Instr := [.compute ⟨2⟩ (some ⟨3, 0⟩) [], .compute ⟨8⟩ (some ⟨3, 0⟩) [],
      .compute ⟨10⟩ none [(⟨9⟩, ⟨3, 0⟩)]]
    (copyingMethod [⟨2⟩, ⟨5⟩, ⟨8⟩, ⟨10⟩]).graph.IsProgram ⟨2⟩ P ∧
      (∀ r ∈ observe (fun _ => none) P, r.2 ≠ none) ∧
      Returns (copyingMethod [⟨2⟩, ⟨5⟩, ⟨8⟩, ⟨10⟩]).mergeVersions (fun r =>
        r.1.graph.IsProgram ⟨2⟩ Q) ∧
      observe (fun _ => none) Q ≠ observe (fun _ => none) P := by
  decide +kernel

end Method

end Decompiler

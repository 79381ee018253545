import Decompiler.Passes
import Decompiler.Proofs.NamePool
import Decompiler.Proofs.Variables.Effects
import Decompiler.Proofs.Variables.Entries
import Decompiler.Proofs.Variables.Rounds

/-!
# Names of variables

Variables are named on three occasions: the receiver and the parameters, the exception variables of
handlers, and all that needs a declaration. A variable may come up more than once and is then named
anew. What follows, merging and settling debug entries, gives no names.

* `Registry.NamesApart`: no two variables share a name. What names one variable keeps this
  (`Registry.NamesApart.nameByIndex`).
* `Method.namesApart_plan`, `Method.namesApart_declareAll`: so do the three occasions.
* `Method.namesApart_mergeScoped`, `Method.names_settleEntries`: nothing changes afterwards.
* `Method.names_unique`: names of the pool and of the variables are unique.
-/

namespace Decompiler

namespace Registry

/-- No two variables have the same name, and names of variables are in use. -/
structure NamesApart (r : Registry) : Prop where
  /-- Two variables have different names. -/
  apart : ∀ v w name, r.names.get? v = some name → r.names.get? w = some name → v = w
  /-- The pool knows the names. -/
  inUse : ∀ v name, r.names.get? v = some name → name ∈ r.pool.used

variable {r r' : Registry} {v : Local} {name : String}

theorem namesApart_of_unnamed (h : ∀ v, r.names.get? v = none) : r.NamesApart where
  apart v w name hv _ := by simp [h] at hv
  inUse v name hv := by simp [h] at hv

namespace NamesApart

variable (h : r.NamesApart)

include h

theorem congr (hnames : r'.names = r.names) (hpool : r'.pool = r.pool) : r'.NamesApart where
  apart := hnames ▸ h.apart
  inUse := by
    rw [hnames, hpool]
    exact h.inUse

/-- A variable gets a name that no variable has. -/
theorem setName {p : NamePool} (hfree : ∀ w, r.names.get? w ≠ some name) (hname : name ∈ p.used)
    (hstays : ∀ n ∈ r.pool.used, n ∈ p.used) (v : Local) :
    (({ r with pool := p } : Registry).setName v name).NamesApart where
  apart u w n hu hw := by
    simp only [Registry.setName, Table.get?_insert] at hu hw
    split at hu <;> split at hw
    · next hvu hvw => exact hvu.symm.trans hvw
    · exact absurd (Option.some.inj hu ▸ hw) (hfree w)
    · exact absurd (Option.some.inj hw ▸ hu) (hfree u)
    · exact h.apart u w n hu hw
  inUse u n hu := by
    simp only [Registry.setName, Table.get?_insert] at hu
    split at hu
    · exact Option.some.inj hu ▸ hname
    · exact hstays n (h.inUse u n hu)

/-- The name made of an index is lengthened until it is free. -/
theorem nameByIndex (v : Local) : (r.nameByIndex v).NamesApart := by
  let request : NamePool.Request := .freshIndex v.index
  have hanswer : (r.pool.serve request).2 = some (r.pool.freshIndex v.index).2 := rfl
  have hstays : ∀ n ∈ r.pool.used, n ∈ (r.pool.serve request).1.used := fun n hn =>
    NamePool.mem_used_serve.2 (.inl hn)
  exact h.setName (fun w hw => NamePool.notMem_used_of_serve hanswer (h.inUse w _ hw))
    (NamePool.mem_used_serve.2 (.inr (.inr hanswer))) hstays v

end NamesApart

end Registry

namespace Method

open Decompiler.Graph

variable {m m' : Method} {plan : Plan} {s scope target : StatId} {e : ExprId} {index : ℕ}
  {var : Local}

/-! ## Naming what needs no declaration -/

/-- The receiver and the parameters get different names. The receiver comes first, so it can have
its name even where the pool has it already. -/
theorem namesApart_nameParameters {r : Registry} (h : ∀ v, r.names.get? v = none) :
    (nameParameters r).NamesApart := by
  unfold nameParameters
  -- a slot after the first one is that of a parameter
  have key : ∀ (l : List ℕ) (k : ℕ) (r' : Registry), r'.NamesApart →
      ((l.zipIdx (k + 1)).foldl (fun r p => if !r.isStatic && p.2 = 0 then
        (r.addName "this").setName ⟨p.1, 0⟩ "this" else r.nameByIndex ⟨p.1, 0⟩) r').NamesApart := by
    intro l
    induction l with
    | nil => exact fun _ _ h => h
    | cons slot l ih =>
      intro k r' h
      rw [List.zipIdx_cons, List.foldl_cons]
      exact ih (k + 1) _ (by simpa using h.nameByIndex ⟨slot, 0⟩)
  have hunnamed := Registry.namesApart_of_unnamed h
  cases r.parameterSlots with
  | nil => exact hunnamed
  | cons slot rest =>
    rw [List.zipIdx_cons, List.foldl_cons]
    refine key rest 0 _ ?_
    split
    · exact hunnamed.setName (fun w => by simp [h]) (NamePool.mem_used_add.2 (.inr rfl))
        (fun _ hn => NamePool.mem_used_add.2 (.inl hn)) ⟨slot, 0⟩
    · exact hunnamed.nameByIndex ⟨slot, 0⟩

theorem namesApart_declareHandlerVar {acc r : Method × List ℕ} (h : acc.1.vars.NamesApart)
    (hr : declareHandlerVar acc e = .ok r) : r.1.vars.NamesApart := by
  obtain ⟨v?, -, hr⟩ := Checked.bind_eq_ok.1 hr
  cases v? with
  | none => exact Checked.pure_eq_ok.1 hr ▸ h
  | some v =>
    obtain ⟨g', -, hr⟩ := Checked.bind_eq_ok.1 hr
    exact Checked.pure_eq_ok.1 hr ▸ h.nameByIndex v.var

theorem namesApart_plan (hnone : ∀ v, m.vars.names.get? v = none)
    (h : m.plan = .ok (m', plan)) : m'.vars.NamesApart := by
  obtain ⟨stats, -, h⟩ := Checked.bind_eq_ok.1 h
  obtain ⟨handlers, -, h⟩ := Checked.bind_eq_ok.1 h
  obtain ⟨⟨m₁, implicit⟩, hmarks, h⟩ := Checked.bind_eq_ok.1 h
  obtain ⟨_, -, h⟩ := Checked.bind_eq_ok.1 h
  cases Checked.pure_eq_ok.1 h
  exact Checked.foldlM_keeps (fun r : Method × List ℕ => r.1.vars.NamesApart) hmarks
    (namesApart_nameParameters hnone) fun _ _ _ _ hr hstep => namesApart_declareHandlerVar hr hstep

/-! ## Naming what is declared

Placing a declaration changes the graph only. -/

theorem vars_define? (h : m.define? e index scope = .ok (some m')) : m'.vars = m.vars := by
  obtain ⟨assigned, -, h⟩ := Checked.bind_eq_ok.1 h
  cases assigned with
  | none => cases Checked.pure_eq_ok.1 h
  | some sides =>
    obtain ⟨range, -, h⟩ := Checked.bind_eq_ok.1 h
    obtain ⟨v?, -, h⟩ := Checked.bind_eq_ok.1 h
    cases v? with
    | none => cases Checked.pure_eq_ok.1 h
    | some v =>
      simp only at h
      split at h
      · cases Checked.pure_eq_ok.1 h
      · obtain ⟨g', -, h⟩ := Checked.bind_eq_ok.1 h
        cases Checked.pure_eq_ok.1 h
        rfl

theorem vars_defineInList {position : ℕ} {l : List ExprId}
    (h : m.defineInList index scope position l = .ok (.inl m')) : m'.vars = m.vars := by
  induction l generalizing position with
  | nil => cases Checked.pure_eq_ok.1 h
  | cons e rest ih =>
    obtain ⟨m?, hdefine, h⟩ := Checked.bind_eq_ok.1 h
    cases m? with
    | some m₁ =>
      cases Checked.pure_eq_ok.1 h
      exact vars_define? hdefine
    | none =>
      obtain ⟨indices, -, h⟩ := Checked.bind_eq_ok.1 h
      split at h
      · cases Checked.pure_eq_ok.1 h
      · exact ih h

theorem vars_defineInLoop (h : m.defineInLoop index s = .ok (.inl m')) : m'.vars = m.vars := by
  obtain ⟨stat, -, h⟩ := Checked.bind_eq_ok.1 h
  split at h
  · next init condition step _ =>
    -- without a definition in the first slot the answer is a statement
    cases init with
    | none =>
      obtain ⟨_, ⟨⟩, h⟩ := Checked.bind_eq_ok.1 h
      obtain ⟨special, -, h⟩ := Checked.bind_eq_ok.1 h
      cases Checked.pure_eq_ok.1 h
    | some init =>
      obtain ⟨defined, hdefine, h⟩ := Checked.bind_eq_ok.1 h
      cases defined with
      | none =>
        obtain ⟨special, -, h⟩ := Checked.bind_eq_ok.1 h
        cases Checked.pure_eq_ok.1 h
      | some m₁ =>
        cases Checked.pure_eq_ok.1 h
        exact vars_define? hdefine
  · obtain ⟨v?, -, h⟩ := Checked.bind_eq_ok.1 h
    cases v? with
    | none => cases Checked.pure_eq_ok.1 h
    | some v =>
      simp only at h
      split at h
      · obtain ⟨g', -, h⟩ := Checked.bind_eq_ok.1 h
        cases Checked.pure_eq_ok.1 h
        rfl
      · cases Checked.pure_eq_ok.1 h
  · cases Checked.pure_eq_ok.1 h

theorem vars_insertDeclaration {v : VarRef} {position : ℕ}
    (h : m.insertDeclaration v target position = .ok m') : m'.vars = m.vars := by
  obtain ⟨g', -, h⟩ := Checked.bind_eq_ok.1 h
  cases Checked.pure_eq_ok.1 h
  rfl

theorem vars_declareIn {ty : Option Ty} (h : m.declareIn plan var ty s = .ok m') :
    m'.vars = m.vars := by
  obtain ⟨first, -, h⟩ := Checked.bind_eq_ok.1 h
  obtain ⟨stat, -, h⟩ := Checked.bind_eq_ok.1 h
  obtain ⟨r, hr, h⟩ := Checked.bind_eq_ok.1 h
  cases r with
  | inl m₁ =>
    cases Checked.pure_eq_ok.1 h
    exact vars_defineInList hr
  | inr position =>
    simp only at h
    rw [Checked.ite_bind] at h
    obtain ⟨entry, -, h⟩ := Checked.bind_eq_ok.1 h
    exact vars_insertDeclaration h

/-- The variable of a home is named, unless it needs no declaration. -/
theorem namesApart_declare {home : ℕ × StatId} (hm : m.vars.NamesApart)
    (h : declare plan m home = .ok m') : m'.vars.NamesApart := by
  obtain ⟨index, s⟩ := home
  rw [declare] at h
  split at h
  · exact Checked.pure_eq_ok.1 h ▸ hm
  · obtain ⟨first, -, h⟩ := Checked.bind_eq_ok.1 h
    obtain ⟨r, hr, h⟩ := Checked.bind_eq_ok.1 h
    cases r with
    | inl m₁ =>
      cases Checked.pure_eq_ok.1 h
      rw [vars_defineInLoop hr]
      exact hm.nameByIndex _
    | inr t =>
      rw [vars_declareIn h]
      exact hm.nameByIndex _

theorem namesApart_declareAll (hm : m.vars.NamesApart) (h : m.declareAll plan = .ok m') :
    m'.vars.NamesApart :=
  Checked.foldlM_keeps (fun m => m.vars.NamesApart) h hm fun _ _ _ _ hm => namesApart_declare hm

/-! ## After all variables were named -/

theorem namesApart_mergeScoped {r : Except MergeFailure Unit} (hm : m.vars.NamesApart)
    (h : m.mergeScoped = .ok (m', r)) : m'.vars.NamesApart := by
  obtain ⟨refused, hrounds, -⟩ := mergeScopedIn_rounds h
  refine hrounds.keeps (P := fun m => m.vars.NamesApart) hm fun q c m₁ g _ hq hmerges _ => ?_
  obtain ⟨ty, -, -, finality, entries, leaders, hvars, -⟩ := unify_unites hmerges.2
  exact hq.congr (by rw [hvars]) (by rw [hvars])

/-- Names stay as they are where neither a hook nor debug names are wanted. -/
theorem names_settleEntries {types : List (Local × String)}
    (h : m.settleEntries .keepAll false = .ok (m', types)) :
    m'.vars.names.get? = m.vars.names.get? := by
  obtain ⟨infos, -, -, hvars, -⟩ := settleEntries_eq_ok h
  rw [hvars, settled, (Settled.settles_foldl _ _).names]
  funext v
  rw [overlay]
  split
  · simp [Settled.name?, Settled.rename?, Namer.keepAll]
  · rfl

/-- Without debug names and with the hook that leaves names as they are, no two variables have the
same name in the end. -/
theorem settle_apart {r : Except MergeFailure (List (Local × String))}
    (hnone : ∀ v, m.vars.names.get? v = none) (h : m.settle .keepAll false = .ok (m', r))
    (v w : Local) (name : String) (hv : m'.vars.names.get? v = some name)
    (hw : m'.vars.names.get? w = some name) : v = w := by
  obtain ⟨⟨m₁, plan⟩, hplan, h⟩ := Checked.bind_eq_ok.1 h
  obtain ⟨m₂, hdeclare, h⟩ := Checked.bind_eq_ok.1 h
  obtain ⟨⟨m₃, merged⟩, hscoped, h⟩ := Checked.bind_eq_ok.1 h
  have hapart := namesApart_mergeScoped
    (namesApart_declareAll (namesApart_plan hnone hplan) hdeclare) hscoped
  cases merged with
  | error e =>
    cases Checked.pure_eq_ok.1 h
    exact hapart.apart v w name hv hw
  | ok _ =>
    obtain ⟨⟨m₄, types⟩, hentries, h⟩ := Checked.bind_eq_ok.1 h
    cases Checked.pure_eq_ok.1 h
    rw [names_settleEntries hentries] at hv hw
    exact hapart.apart v w name hv hw

/-- **Synthesized names are unique.** Whatever was asked of a pool before, a request for a name is
answered by its proposal, lengthened by as few letters as it takes to differ from all names that the
pool started with, that were added and that were handed out. So no name is handed out twice. If no
variable of a method has a name yet, whatever its pool holds and whatever its tree is, then
afterwards no two variables have the same name, without debug names and with the hook that leaves
names as they are. -/
theorem names_unique :
    (∀ (p : NamePool) (before : List NamePool.Request) (request : NamePool.Request)
      (proposal : String), request.proposal? = some proposal →
        ∃ name, ((p.after before).serve request).2 = some name ∧
          NamePool.IsFirstFree (fun n => n ∈ p.used ∨ .add n ∈ before ∨ n ∈ p.handedOut before)
            proposal name) ∧
    (∀ (p : NamePool) (requests : List NamePool.Request), (p.handedOut requests).Nodup) ∧
    ∀ (m m' : Method) (r : Except MergeFailure (List (Local × String))),
      (∀ v, m.vars.names.get? v = none) → m.settle .keepAll false = .ok (m', r) →
        ∀ v w name, m'.vars.names.get? v = some name → m'.vars.names.get? w = some name → v = w := by
  refine ⟨fun p before request proposal hproposal => ?_, NamePool.nodup_handedOut,
    fun m m' r hnone h => settle_apart hnone h⟩
  simp only [← NamePool.mem_used_after]
  exact NamePool.serve_isFirstFree hproposal

/-- A method with a receiver and a parameter, where other names are in use already:
`try { v3 = 1; print(v3); } catch (v4) { print(v4); }`. -/
def namedInTry : Method where
  graph :=
    { stats := ⟨#[
        ⟨.exit, none, none, [], [], [], [], []⟩,
        ⟨.root, none, some ⟨2⟩, [⟨2⟩], [], [], [], []⟩,
        ⟨.tryCatch [⟨5⟩], some ⟨1⟩, some ⟨3⟩, [⟨3⟩, ⟨4⟩], [], [], [], []⟩,
        ⟨.block [⟨2⟩, ⟨4⟩], some ⟨2⟩, none, [], [], [], [], []⟩,
        ⟨.block [⟨7⟩], some ⟨2⟩, none, [], [], [], [], []⟩]⟩
      edges := .empty
      exprs :=
        let occurrence (index : ℕ) (ty : Base) : Expr :=
          .var ⟨⟨index, 0⟩, ⟨ty, 0⟩, false, false, none⟩
        let print (e : ExprId) : Expr := .call ⟨"Out", "print", "(I)V", none, [e]⟩
        ⟨#[
          ⟨occurrence 3 .int, .empty⟩,
          ⟨.const ⟨.int, 0⟩ (.int 1), .empty⟩,
          ⟨.assign ⟨0⟩ ⟨1⟩, .empty⟩,
          ⟨occurrence 3 .int, .empty⟩,
          ⟨print ⟨3⟩, .empty⟩,
          ⟨occurrence 4 (.object none), .empty⟩,
          ⟨occurrence 4 (.object none), .empty⟩,
          ⟨print ⟨6⟩, .empty⟩]⟩ }
  vars := { Registry.ofSlots (some "Main") [0, 1] with pool := ⟨["this", "var1", "var3", "var3x"]⟩ }

/-- The name of the receiver is added, and two names are handed out for one index. -/
def earlyRequests : List NamePool.Request := [.add "this", .freshIndex 3, .freshIndex 3]

theorem names_unique_namedInTry :
    (NamePool.empty.handedOut earlyRequests = ["var3", "var3x"] ∧
      ((NamePool.empty.after earlyRequests).serve (.fresh "this")).2 = some "thisx" ∧
      NamePool.IsFirstFree (fun n => n ∈ NamePool.empty.used ∨ .add n ∈ earlyRequests ∨
        n ∈ NamePool.empty.handedOut earlyRequests) "this" "thisx") ∧
    namedInTry.graph.WellFormed ∧
    ∃ m' types, namedInTry.settle .keepAll false = .ok (m', .ok types) ∧
      m'.vars.names.entries = [(⟨0, 0⟩, "this"), (⟨1, 0⟩, "var1x"), (⟨4, 0⟩, "var4"),
        (⟨3, 0⟩, "var3xx")] ∧
      ∀ v w name, m'.vars.names.get? v = some name → m'.vars.names.get? w = some name → v = w := by
  have hserve : ((NamePool.empty.after earlyRequests).serve (.fresh "this")).2 = some "thisx" := by
    decide +kernel
  refine ⟨⟨by decide +kernel, hserve, ?_⟩, by decide +kernel, ?_⟩
  · obtain ⟨name, hname, hfirst⟩ := names_unique.1 .empty earlyRequests (.fresh "this") "this" rfl
    obtain rfl : "thisx" = name := Option.some.inj (hserve.symm.trans hname)
    exact hfirst
  · -- the homes happen to be in order, so that there is no sorting to be evaluated
    obtain ⟨⟨m₁, plan⟩, hplan, hsorted, ⟨m', r⟩, hrest, hok, hnames⟩ :
        Returns namedInTry.plan fun p =>
          (p.2.homes.entries.Pairwise fun (a b : ℕ × StatId) => decide (a.1 ≤ b.1)) ∧
          Returns (do
            andThen (← (← p.2.homes.entries.foldlM (declare p.2) p.1).mergeScoped) fun m => do
              let settled ← m.settleEntries .keepAll false
              return (settled.1, Except.ok settled.2)) fun r =>
            r.2.isOk = true ∧ r.1.vars.names.entries = [(⟨0, 0⟩, "this"), (⟨1, 0⟩, "var1x"),
              (⟨4, 0⟩, "var4"), (⟨3, 0⟩, "var3xx")] := by decide +kernel
    have hrun : namedInTry.settle .keepAll false = .ok (m', r) := by
      rw [settle, hplan, Checked.ok_bind, ← hrest]
      simp only [settlePlanned, declareAll, Plan.ascending, List.mergeSort_of_pairwise hsorted]
      rfl
    cases r with
    | error e => cases hok
    | ok types =>
      exact ⟨m', types, hrun, hnames,
        names_unique.2.2 namedInTry m' (.ok types) (fun _ => rfl) hrun⟩

end Method

end Decompiler

import Decompiler.Proofs.Variables.Changes
import Decompiler.Proofs.Variables.Elimination
import Decompiler.Proofs.Variables.Settling

/-!
# Debug entries that are settled

The entry of a variable is elected in one walk over the tree, put under the name that the hook gives
the variable, recorded in the registry, and written to the occurrences in another walk. Both walks
come by the same occurrences, though in another order.

* `VarInfos.elected?_foldl_meet`: a marked occurrence with an entry makes sure that one is elected.
* `Settled.Settles`: what becomes of entries and names. One step (`Settled.settles_settle`) and a
  run (`Settled.settles_foldl`) do this.
* `Graph.expr_carryEntries`: what is written to the occurrences.
* `Method.settleEntries_agrees`: afterwards occurrences and registry agree.
-/

namespace Decompiler

open Decompiler.Graph

/-! ## The election -/

/-- What is known of a variable once an occurrence of it was met. -/
def VarInfo.meet (known : Option VarInfo) (r : VarRef) : VarInfo :=
  match known with
  | none => ⟨r.entry, some r.ty⟩
  | some known =>
    if r.isDefinition && (r.entry.isSome || known.entry.isNone) then ⟨r.entry, some r.ty⟩ else known

namespace VarInfos

variable {i : VarInfos} {v : Local} {r : VarRef}

/-- The entry that is elected for a variable so far. -/
def elected? (i : VarInfos) (v : Local) : Option DebugEntry := (i.infos.get? v).bind VarInfo.entry

/-- What something is known of is in the order. -/
def Listed (i : VarInfos) : Prop := ∀ v, (i.infos.get? v).isSome → v ∈ i.order

theorem get?_meet : (i.meet r).infos.get? v =
    if r.var = v then some (.meet (i.infos.get? v) r) else i.infos.get? v := by
  unfold meet VarInfo.meet
  by_cases hv : r.var = v
  · subst hv
    cases hknown : i.infos.get? r.var with
    | none => simp [add, Table.get?_insert]
    | some known =>
      by_cases hover : (r.isDefinition && (r.entry.isSome || known.entry.isNone)) = true
      · simp [hover, Table.get?_insert]
      · simp [hover, hknown]
  · cases i.infos.get? r.var with
    | none => simp [add, Table.get?_insert, hv]
    | some known =>
      by_cases hover : (r.isDefinition && (r.entry.isSome || known.entry.isNone)) = true
      · simp [hover, Table.get?_insert, hv]
      · simp [hover, hv]

theorem Listed.add (h : i.Listed) (w : Local) (info : VarInfo) : (i.add w info).Listed := by
  intro v hv
  rw [VarInfos.add, Table.get?_insert] at hv
  change v ∈ i.order ++ [w]
  split at hv
  · next hw => simp [hw]
  · exact List.mem_append_left _ (h v hv)

theorem Listed.meet (h : i.Listed) (r : VarRef) : (i.meet r).Listed := by
  cases hknown : i.infos.get? r.var with
  | none =>
    rw [VarInfos.meet, hknown]
    exact h.add _ _
  | some known =>
    have horder : (i.meet r).order = i.order := by
      simp only [VarInfos.meet, hknown]
      split <;> rfl
    intro v hv
    rw [horder]
    refine h v ?_
    rw [get?_meet] at hv
    split at hv
    · next hr => simp [← hr, hknown]
    · exact hv

end VarInfos

/-! ## Settling -/

/-- What a look-up finds once the values that `new` has for some keys were set. -/
def overlay {κ α : Type} [DecidableEq κ] (keys : List κ) (new old : κ → Option α) (k : κ) :
    Option α :=
  if k ∈ keys then (new k).or (old k) else old k

/-- Keys may be set one after another. -/
theorem overlay_cons {κ α : Type} [DecidableEq κ] (k : κ) (keys : List κ) (new old : κ → Option α) :
    overlay (k :: keys) new old = overlay keys new (overlay [k] new old) := by
  funext j
  simp only [overlay, List.mem_cons, List.not_mem_nil, or_false]
  by_cases hj : j = k <;> by_cases hmem : j ∈ keys <;> simp [hj, hmem, ← Option.or_assoc]

theorem overlay_insert {κ α : Type} [DecidableEq κ] {k : κ} {x : α} {new : κ → Option α}
    (t : Table κ α) (h : new k = some x) : (t.insert k x).get? = overlay [k] new t.get? := by
  funext j
  rw [Table.get?_insert, overlay]
  by_cases hj : k = j
  · subst hj
    simp [h]
  · simp [hj, Ne.symm hj]

theorem overlay_none {κ α : Type} [DecidableEq κ] {k : κ} {new : κ → Option α}
    (old : κ → Option α) (h : new k = none) : overlay [k] new old = old := by
  funext j
  rw [overlay]
  by_cases hj : j = k
  · simp [hj, h]
  · simp [hj]

namespace Settled

variable {infos : VarInfos} {renames : Option (Table Local String)} {useDebugNames isStatic : Bool}
  {s s' s'' : Settled} {v : Local} {l l' : List Local}

/-- The name that the hook gives to a variable. -/
def rename? (renames : Option (Table Local String)) (v : Local) : Option String :=
  renames.bind fun t => t.get? v

/-- The entry of a variable, under the name that the hook gives it. The receiver has none. -/
def entryOf? (infos : VarInfos) (renames : Option (Table Local String)) (isStatic : Bool)
    (v : Local) : Option DebugEntry :=
  if !isStatic && v = ⟨0, 0⟩ then none
  else (infos.elected? v).map fun e => ((rename? renames v).map e.renamed).getD e

/-- The name of a variable, if it gets one. -/
def name? (infos : VarInfos) (renames : Option (Table Local String)) (useDebugNames isStatic : Bool)
    (v : Local) : Option String :=
  if !isStatic && v = ⟨0, 0⟩ then none
  else (rename? renames v).or
    (if useDebugNames then (infos.elected? v).map DebugEntry.name else none)

/-- The variables of the list get their entries and names. -/
structure Settles (infos : VarInfos) (renames : Option (Table Local String)) (useDebugNames : Bool)
    (l : List Local) (s s' : Settled) : Prop where
  /-- The method has a receiver as before. -/
  isStatic : s'.vars.isStatic = s.vars.isStatic
  /-- Entries that occurrences are to carry. -/
  entries : s'.entries.get? = overlay l (entryOf? infos renames s.vars.isStatic) s.entries.get?
  /-- Entries of the registry. -/
  debugEntries : s'.vars.debugEntries.get? =
    overlay l (entryOf? infos renames s.vars.isStatic) s.vars.debugEntries.get?
  /-- Names. -/
  names : s'.vars.names.get? =
    overlay l (name? infos renames useDebugNames s.vars.isStatic) s.vars.names.get?

theorem Settles.cons (h : Settles infos renames useDebugNames [v] s s')
    (h' : Settles infos renames useDebugNames l s' s'') :
    Settles infos renames useDebugNames (v :: l) s s'' where
  isStatic := h'.isStatic.trans h.isStatic
  entries := by rw [h'.entries, h.entries, h.isStatic, ← overlay_cons]
  debugEntries := by rw [h'.debugEntries, h.debugEntries, h.isStatic, ← overlay_cons]
  names := by rw [h'.names, h.names, h.isStatic, ← overlay_cons]

theorem settles_settle (s : Settled) (v : Local) :
    Settles infos renames useDebugNames [v] s (s.settle infos renames useDebugNames v) := by
  by_cases hthis : (!s.vars.isStatic && decide (v = ⟨0, 0⟩)) = true
  · have hentry : entryOf? infos renames s.vars.isStatic v = none := if_pos hthis
    have hname : name? infos renames useDebugNames s.vars.isStatic v = none := if_pos hthis
    rw [settle, if_pos hthis]
    exact ⟨rfl, (overlay_none _ hentry).symm, (overlay_none _ hentry).symm,
      (overlay_none _ hname).symm⟩
  · have hentry : entryOf? infos renames s.vars.isStatic v =
        (infos.elected? v).map fun e => ((rename? renames v).map e.renamed).getD e := if_neg hthis
    have hname : name? infos renames useDebugNames s.vars.isStatic v = (rename? renames v).or
        (if useDebugNames then (infos.elected? v).map DebugEntry.name else none) := if_neg hthis
    rw [settle, if_neg hthis]
    rw [rename?] at hentry hname
    rw [VarInfos.elected?] at hentry hname
    cases he : (infos.infos.get? v).bind VarInfo.entry with
    | none =>
      rw [he] at hentry hname
      cases hr : renames.bind fun t => t.get? v with
      | none =>
        rw [hr] at hname
        have hname : name? infos renames useDebugNames s.vars.isStatic v = none := by
          simpa using hname
        exact ⟨rfl, (overlay_none _ hentry).symm, (overlay_none _ hentry).symm,
          (overlay_none _ hname).symm⟩
      | some name =>
        rw [hr] at hname
        exact ⟨rfl, (overlay_none _ hentry).symm, (overlay_none _ hentry).symm,
          overlay_insert _ hname⟩
    | some e =>
      rw [he] at hentry hname
      cases hr : renames.bind fun t => t.get? v with
      | none =>
        rw [hr] at hentry hname
        cases useDebugNames with
        | false =>
          exact ⟨rfl, overlay_insert _ hentry, overlay_insert _ hentry, (overlay_none _ hname).symm⟩
        | true =>
          exact ⟨rfl, overlay_insert _ hentry, overlay_insert _ hentry, overlay_insert _ hname⟩
      | some name =>
        rw [hr] at hentry hname
        exact ⟨rfl, overlay_insert _ hentry, overlay_insert _ hentry, overlay_insert _ hname⟩

/-- All variables of a list are settled. -/
theorem settles_foldl (l : List Local) (s : Settled) : Settles infos renames useDebugNames l s
    (l.foldl (Settled.settle infos renames useDebugNames) s) := by
  induction l generalizing s with
  | nil => exact ⟨rfl, rfl, rfl, rfl⟩
  | cons v l ih => exact (settles_settle s v).cons (ih _)

variable {r : Registry} (h : Settles infos renames useDebugNames l ⟨r, .empty⟩ s)

include h

theorem Settles.registry (v : Local) :
    s.vars.debugEntries.get? v = (s.entries.get? v).or (r.debugEntries.get? v) := by
  rw [h.debugEntries, h.entries, overlay, overlay]
  split <;> simp

/-- What is elected is recorded, but for the receiver. -/
theorem Settles.records (hv : v ∈ l) (he : (infos.elected? v).isSome)
    (hthis : r.isStatic = true ∨ v ≠ ⟨0, 0⟩) : (s.entries.get? v).isSome := by
  have hthis : ¬ (!r.isStatic && decide (v = ⟨0, 0⟩)) = true := by
    rcases hthis with h | h <;> simp [h]
  rw [h.entries, overlay, if_pos hv, entryOf?, if_neg hthis]
  simpa using he

end Settled

/-! ## What occurrences carry -/

/-- An occurrence that carries the entry settled on. -/
def VarRef.carry (entries : Table Local DebugEntry) (v : VarRef) : VarRef :=
  match entries.get? v.var with
  | some entry => { v with entry := some entry }
  | none => v

namespace VarRef

variable {entries : Table Local DebugEntry} {v : VarRef}

theorem carry_carry : (v.carry entries).carry entries = v.carry entries := by
  cases h : entries.get? v.var <;> simp [carry, h]

end VarRef

namespace Graph

variable {g g' : Graph} {entries : Table Local DebugEntry} {e y : ExprId} {x : Expr}

theorem outline_carry : (x.mapVar (.carry entries)).outline = x.outline := by
  cases x with
  | var v => cases h : entries.get? v.var <;> simp [Expr.mapVar, Expr.outline, VarRef.carry, h]
  | _ => rfl

/-- A change of expressions only that keeps outlines is a revision. -/
theorem Maps.revises {F : ExprId → Expr → Expr} {touched : ExprId → Prop}
    (h : Maps g g' F fun _ st => st) (hF : ∀ e x, (F e x).outline = x.outline) :
    Revises g g' touched := by
  refine ⟨h.edges, fun s st hst => ⟨st, ?_, rfl⟩, fun e x hx => ⟨F e x, ?_,
    Expr.shape_eq_of_outline (hF e x), fun _ => hF e x⟩⟩
  · rw [h.stat, hst]
    rfl
  · rw [h.expr, hx]
    rfl

/-- A node is left as it is until the walk comes by an expression above it, and from then on it
carries its entry. -/
structure CarriesBelow (g g' : Graph) (entries : Table Local DebugEntry) (visited : List ExprId) :
    Prop where
  /-- Only entries change. -/
  revises : Revises g g' fun _ => False
  /-- All nodes. -/
  either : ∀ y x, g.expr y = .ok x →
    g'.expr y = .ok x ∨ g'.expr y = .ok (x.mapVar (.carry entries))
  /-- Those the walk has come by. -/
  below : ∀ e ∈ visited, ∀ y x, g.Reaches e y → g.expr y = .ok x →
    g'.expr y = .ok (x.mapVar (.carry entries))

theorem mapVar_carry_idem : (x.mapVar (.carry entries)).mapVar (.carry entries) =
    x.mapVar (.carry entries) := by
  cases x <;> simp [Expr.mapVar, VarRef.carry_carry]

theorem CarriesBelow.step {g₁ : Graph} {visited : List ExprId} {refs : List (ExprId × VarRef)}
    (h : CarriesBelow g g₁ entries visited) (he : g.Grounded e) (hrefs : g₁.refsIn e = .ok refs)
    (hstep : refs.foldlM (fun g v => g.modifyExpr v.1 (Expr.mapVar (.carry entries))) g₁ = .ok g') :
    CarriesBelow g g' entries (visited ++ [e]) := by
  have hmaps := Maps.foldlM_modifyExpr (i := Prod.fst) (fun _ => mapVar_carry_idem) hstep
  have hnext : ∀ {y z}, g₁.expr y = .ok z → g'.expr y = .ok
      (if y ∈ refs.map Prod.fst then z.mapVar (.carry entries) else z) := fun hz => by
    rw [hmaps.expr, hz]
    rfl
  have hstays : ∀ {y} {x : Expr}, g₁.expr y = .ok (x.mapVar (.carry entries)) →
      g'.expr y = .ok (x.mapVar (.carry entries)) := fun hz => by
    rw [hnext hz, mapVar_carry_idem, ite_self]
  refine ⟨h.revises.trans (hmaps.revises fun y x => ?_), fun y x hx => ?_,
    fun e' he' y x hreach hx => ?_⟩
  · split
    · exact outline_carry
    · rfl
  · rcases h.either y x hx with hz | hz
    · rw [hnext hz]
      split
      · exact .inr rfl
      · exact .inl rfl
    · exact .inr (hstays hz)
  · rcases List.mem_append.1 he' with he' | he'
    · exact hstays (h.below e' he' y x hreach hx)
    obtain rfl := List.mem_singleton.1 he'
    rcases h.either y x hx with hz | hz
    · rw [hnext hz]
      cases x with
      | var v =>
        have hmem := (mem_refsIn hrefs (v := (y, v))).2 ⟨(h.revises.reaches_iff he).2 hreach, hz⟩
        rw [if_pos (List.mem_map.2 ⟨_, hmem, rfl⟩)]
      | _ => exact congrArg Except.ok (ite_self _)
    · exact hstays hz

end Graph

namespace Method

variable {m m' : Method} {namer : Namer} {useDebugNames : Bool} {infos : VarInfos}
  {types : List (Local × String)}

/-! ## Agreement -/

/-- Names and entries after all variables were settled. -/
def settled (m : Method) (infos : VarInfos) (namer : Namer) (useDebugNames : Bool) : Settled :=
  infos.order.foldl (Settled.settle infos (namer infos.typeNames) useDebugNames) ⟨m.vars, .empty⟩

theorem settleEntries_eq_ok (h : m.settleEntries namer useDebugNames = .ok (m', types)) :
    ∃ infos, m.varInfos = .ok infos ∧ types = infos.typeNames ∧
      m'.vars = (m.settled infos namer useDebugNames).vars ∧
      ((m.settled infos namer useDebugNames).entries.isEmpty = true ∧ m'.graph = m.graph ∨
        carryEntries m.graph (m.settled infos namer useDebugNames).entries = .ok m'.graph) := by
  obtain ⟨infos, hinfos, h⟩ := Checked.bind_eq_ok.1 h
  refine ⟨infos, hinfos, ?_⟩
  simp only at h
  split at h
  · next hempty =>
    cases Checked.pure_eq_ok.1 h
    exact ⟨rfl, rfl, .inl ⟨hempty, rfl⟩⟩
  · obtain ⟨g', hg', h⟩ := Checked.bind_eq_ok.1 h
    cases Checked.pure_eq_ok.1 h
    exact ⟨rfl, rfl, .inr hg'⟩

end Method

end Decompiler

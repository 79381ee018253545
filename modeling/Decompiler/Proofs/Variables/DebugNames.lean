import Decompiler.Registry
import Decompiler.Proofs.Leaders
import Mathlib.Data.List.Sort
import Mathlib.Tactic.MkIffOfInductiveProp

/-!
# Names from the debug table

Variables take over the names that the debug table has for them, in ascending order. A variable for
which there is none keeps the name it has, with a number behind it if variables before it came to
that name.

* `Registry.names_useDebugNames`: the name every variable ends up with.
* `Registry.useDebugNames_apart_iff`: when a name that was made up meets no other name. A number is
  only given for what came before, and what it makes of a name is not looked at again.
-/

namespace Decompiler

namespace Local

/-! ## The order of variables -/

variable {u v w : Local}

theorem lt_iff : v.lt w = true ↔ v.index < w.index ∨ v.index = w.index ∧ v.version < w.version := by
  simp [lt]

theorem le_iff : v.le w = true ↔ v.index < w.index ∨ v.index = w.index ∧ v.version ≤ w.version := by
  rw [le, Bool.not_eq_true', ← Bool.not_eq_true, lt_iff]
  omega

theorem le_trans (huv : u.le v = true) (hvw : v.le w = true) : u.le w = true := by
  rw [le_iff] at *
  omega

theorem le_total (v w : Local) : (v.le w || w.le v) = true := by
  rw [Bool.or_eq_true, le_iff, le_iff]
  omega

theorem lt_asymm (h : v.lt w = true) : ¬ w.lt v = true := by
  rw [lt_iff] at *
  omega

theorem lt_of_le_of_ne (h : v.le w = true) (hne : v ≠ w) : v.lt w = true := by
  rw [le_iff] at h
  rw [lt_iff]
  have hdiffer : v.index ≠ w.index ∨ v.version ≠ w.version := by
    by_contra hsame
    rw [not_or, not_not, not_not] at hsame
    exact hne (by rw [Local.mk.injEq]; exact hsame)
  omega

theorem lt_or_lt (h : v ≠ w) : v.lt w = true ∨ w.lt v = true := by
  rcases Bool.or_eq_true _ _ ▸ le_total v w with hle | hle
  · exact .inl (lt_of_le_of_ne hle h)
  · exact .inr (lt_of_le_of_ne hle h.symm)

end Local

namespace Registry

variable {r : Registry} {table : DebugTable} {v w : Local} {name : String}

/-! ## The variables that have names -/

theorem mem_named : v ∈ r.named ↔ ∃ name, r.names.get? v = some name := by
  rw [named, List.mem_mergeSort, ← Option.isSome_iff_exists, ← not_iff_not,
    ← Table.get?_eq_none_iff, Option.not_isSome_iff_eq_none]

/-- They are listed in ascending order. -/
theorem pairwise_named (h : r.names.keys.Nodup) : r.named.Pairwise fun v w => v.lt w = true := by
  have hsorted : r.named.Pairwise fun v w => v.le w = true :=
    List.pairwise_mergeSort (fun u v w => @Local.le_trans u v w) Local.le_total r.names.keys
  have hnodup : r.named.Nodup := (List.mergeSort_perm _ _).nodup_iff.2 h
  exact hsorted.imp₂ (fun _ _ hle hne => Local.lt_of_le_of_ne hle hne) hnodup

/-! ## One variable after the other -/

/-- The name that a variable comes with: that of the debug table, if there is one for it. -/
def startName (r : Registry) (table : DebugTable) (v : Local) : String :=
  (r.debugName? table v).getD ((r.names.get? v).getD "")

/-- How many variables before `v` come with the name that `v` comes with. -/
def rank (r : Registry) (table : DebugTable) (v : Local) : ℕ :=
  r.named.countP fun w => w.lt v && r.startName table w = r.startName table v

/-- A name, with the number of those before it unless it stands in the debug table. -/
def numbered (r : Registry) (table : DebugTable) (v : Local) (count : ℕ) : String :=
  if count > 0 ∧ (r.debugName? table v).isNone then r.startName table v ++ toString count
  else r.startName table v

/-- The name that a variable ends up with. -/
def finalName (r : Registry) (table : DebugTable) (v : Local) : String :=
  r.numbered table v (r.rank table v)

theorem debugNames_cons (v : Local) (rest : List Local) (taken : Table String ℕ) :
    r.debugNames table (v :: rest) taken =
      (v, r.numbered table v ((taken.get? (r.startName table v)).getD 0)) ::
        r.debugNames table rest (taken.insert (r.startName table v)
          ((taken.get? (r.startName table v)).getD 0 + 1)) := rfl

/-- Of a list in ascending order, the variables before one are those that come first. -/
theorem rank_eq {before rest : List Local} (hkeys : r.names.keys.Nodup)
    (hnamed : r.named = before ++ v :: rest) :
    r.rank table v = before.countP fun w => r.startName table w = r.startName table v := by
  obtain ⟨-, hrest, hbefore⟩ := List.pairwise_append.1 (hnamed ▸ pairwise_named hkeys)
  have hright : (v :: rest).countP (fun w => w.lt v && r.startName table w = r.startName table v) =
      0 := by
    rw [List.countP_eq_zero, List.forall_mem_cons]
    constructor
    · simp [Local.lt]
    · intro w hw
      simp [Local.lt_asymm (List.rel_of_pairwise_cons hrest hw)]
  rw [rank, hnamed, List.countP_append, hright, Nat.add_zero]
  refine List.countP_congr fun w hw => ?_
  simp [hbefore w hw v List.mem_cons_self]

/-- Names are counted as they come up. -/
theorem debugNames_eq_map {before l : List Local} {taken : Table String ℕ}
    (hkeys : r.names.keys.Nodup) (hnamed : r.named = before ++ l)
    (htaken : ∀ name,
      (taken.get? name).getD 0 = before.countP fun w => r.startName table w = name) :
    r.debugNames table l taken = l.map fun v => (v, r.finalName table v) := by
  induction l generalizing before taken with
  | nil => rfl
  | cons v rest ih =>
    have hcount : (taken.get? (r.startName table v)).getD 0 = r.rank table v := by
      rw [htaken, rank_eq hkeys hnamed]
    have hrest : r.named = (before ++ [v]) ++ rest := by
      rw [hnamed, List.append_assoc, List.singleton_append]
    rw [debugNames_cons, hcount, List.map_cons, finalName, ih hrest]
    intro name
    rw [Table.get?_insert, List.countP_append, List.countP_singleton, ← htaken name]
    split
    · next hname => simp [← hcount, hname]
    · next hname => simp [hname]

/-- Setting one name after the other. -/
theorem get?_foldl_setName (l : List Local) (f : Local → String) (r' : Registry) (v : Local) :
    ((l.map fun v => (v, f v)).foldl (fun r' e => r'.setName e.1 e.2) r').names.get? v =
      if v ∈ l then some (f v) else r'.names.get? v := by
  induction l generalizing r' with
  | nil => simp
  | cons u l ih =>
    rw [List.map_cons, List.foldl_cons, ih, setName, Table.get?_insert]
    by_cases hu : u = v
    · subst hu
      simp
    · simp [hu, Ne.symm hu]

/-- Every variable that has a name ends up with its final name, and no other gets one. -/
theorem names_useDebugNames (hkeys : r.names.keys.Nodup) (htable : r.debugTable = some table)
    (v : Local) : r.useDebugNames.names.get? v =
      (r.names.get? v).map fun _ => r.finalName table v := by
  have hmap : r.debugNames table r.named .empty = r.named.map fun v => (v, r.finalName table v) :=
    debugNames_eq_map hkeys (List.nil_append _).symm fun _ => rfl
  rw [useDebugNames, htable]
  simp only [hmap]
  rw [get?_foldl_setName]
  split
  · next h =>
    obtain ⟨name, hname⟩ := mem_named.1 h
    rw [hname, Option.map_some]
  · next h =>
    have hnone : r.names.get? v = none := by
      rwa [mem_named, ← Option.isSome_iff_exists, Option.not_isSome_iff_eq_none] at h
    rw [hnone, Option.map_none]

/-! ## Names that meet -/

/-- The name of `v` was made up and kept, and `w` comes later and has it from the debug table. -/
@[mk_iff]
structure MetLater (r : Registry) (table : DebugTable) (v w : Local) : Prop where
  /-- The debug table has no name for `v`. -/
  madeUp : r.debugName? table v = none
  /-- The name gets no number. -/
  first : r.rank table v = 0
  /-- `v` comes first. -/
  later : v.lt w = true
  /-- The debug table has the name for `w`. -/
  met : r.debugName? table w = some (r.startName table v)

/-- The name of `v` was made up and given a number, with which it is the name of `w`. -/
@[mk_iff]
structure MetNumbered (r : Registry) (table : DebugTable) (v w : Local) : Prop where
  /-- The debug table has no name for `v`. -/
  madeUp : r.debugName? table v = none
  /-- The name gets a number. -/
  counted : 0 < r.rank table v
  /-- `w` ends up with the same name. -/
  met : r.startName table v ++ toString (r.rank table v) = r.finalName table w

theorem startName_of_debugName (h : r.debugName? table v = some name) :
    r.startName table v = name := by
  rw [startName, h, Option.getD_some]

/-- Names from the debug table get no number. -/
theorem finalName_of_debugName (h : r.debugName? table v = some name) :
    r.finalName table v = name := by
  simp [finalName, numbered, h, startName_of_debugName h]

theorem finalName_of_first (h : r.rank table v = 0) :
    r.finalName table v = r.startName table v := by
  simp [finalName, numbered, h]

theorem finalName_of_counted (hmade : r.debugName? table v = none) (h : 0 < r.rank table v) :
    r.finalName table v = r.startName table v ++ toString (r.rank table v) := by
  simp [finalName, numbered, h, hmade]

/-- Of two variables that come with the same name, the later one is not the first with it. -/
theorem rank_pos (hv : v ∈ r.named) (hlt : v.lt w = true)
    (h : r.startName table v = r.startName table w) : 0 < r.rank table w := by
  rw [rank, List.countP_pos_iff]
  exact ⟨v, hv, by simp [hlt, h]⟩

theorem MetLater.finalName_eq (h : r.MetLater table v w) :
    r.finalName table v = r.finalName table w := by
  rw [finalName_of_first h.first, finalName_of_debugName h.met]

theorem MetNumbered.finalName_eq (h : r.MetNumbered table v w) :
    r.finalName table v = r.finalName table w := by
  rw [finalName_of_counted h.madeUp h.counted, h.met]

/-- A made-up name meets another one in no other way. -/
theorem met_of_finalName_eq (hv : v ∈ r.named) (hw : w ∈ r.named) (hne : v ≠ w)
    (hmade : r.debugName? table v = none) (h : r.finalName table v = r.finalName table w) :
    r.MetLater table v w ∨ r.MetNumbered table v w ∨ r.MetNumbered table w v := by
  rcases Nat.eq_zero_or_pos (r.rank table v) with hfirst | hcounted
  · have hstart : r.startName table v = r.finalName table w := (finalName_of_first hfirst) ▸ h
    cases hdebug : r.debugName? table w with
    | some name =>
      obtain rfl : r.startName table v = name := hstart.trans (finalName_of_debugName hdebug)
      rcases Local.lt_or_lt hne with hlt | hlt
      · exact .inl ⟨hmade, hfirst, hlt, hdebug⟩
      · -- the debug name comes first, so that the made-up one is counted
        have := rank_pos hw hlt (startName_of_debugName hdebug)
        omega
    | none =>
      rcases Nat.eq_zero_or_pos (r.rank table w) with hfirst' | hcounted'
      · -- both come with one name, so that the later one is counted
        have hsame := hstart.trans (finalName_of_first hfirst')
        rcases Local.lt_or_lt hne with hlt | hlt
        · have := rank_pos hv hlt hsame
          omega
        · have := rank_pos hw hlt hsame.symm
          omega
      · exact .inr (.inr ⟨hdebug, hcounted', by rw [← finalName_of_counted hdebug hcounted', h]⟩)
  · exact .inr (.inl ⟨hmade, hcounted, by rw [← finalName_of_counted hmade hcounted, h]⟩)

/-- Where no names meet, a name that is shared comes from the debug table. -/
theorem debugName_of_shared (hv : v ∈ r.named) (hw : w ∈ r.named) (hne : v ≠ w)
    (hapart : ∀ v ∈ r.named, ∀ w ∈ r.named, v ≠ w →
      ¬ r.MetLater table v w ∧ ¬ r.MetNumbered table v w)
    (h : r.finalName table v = r.finalName table w) :
    r.debugName? table v = some (r.finalName table v) := by
  cases hdebug : r.debugName? table v with
  | some name => rw [finalName_of_debugName hdebug]
  | none =>
    rcases met_of_finalName_eq hv hw hne hdebug h with hmet | hmet | hmet
    · exact absurd hmet (hapart v hv w hw hne).1
    · exact absurd hmet (hapart v hv w hw hne).2
    · exact absurd hmet (hapart w hw v hv hne.symm).2

/-- **Names from the debug table and made-up names.** Every variable that had a name ends up with
its final name. Different variables share a name only if both have it from the debug table, exactly
if no made-up name that is kept is the debug name of a later variable, and no made-up name that is
given a number becomes the name of another variable by it. -/
theorem useDebugNames_apart_iff (hkeys : r.names.keys.Nodup) (htable : r.debugTable = some table) :
    (∀ v, r.useDebugNames.names.get? v = (r.names.get? v).map fun _ => r.finalName table v) ∧
    ((∀ v w name, v ≠ w → r.useDebugNames.names.get? v = some name →
        r.useDebugNames.names.get? w = some name →
          r.debugName? table v = some name ∧ r.debugName? table w = some name) ↔
      ∀ v ∈ r.named, ∀ w ∈ r.named, v ≠ w →
        ¬ r.MetLater table v w ∧ ¬ r.MetNumbered table v w) := by
  have hnames := names_useDebugNames hkeys htable
  have hfinal : ∀ v name, r.useDebugNames.names.get? v = some name ↔
      v ∈ r.named ∧ r.finalName table v = name := fun v name => by
    rw [hnames, Option.map_eq_some_iff, mem_named, exists_and_right]
  refine ⟨hnames, fun h v hv w hw hne => ?_, fun h v w name hne hv hw => ?_⟩
  · have hdebug : r.finalName table v = r.finalName table w → r.debugName? table v ≠ none :=
      fun heq => by
        simp [(h v w _ hne ((hfinal v _).2 ⟨hv, rfl⟩) ((hfinal w _).2 ⟨hw, heq.symm⟩)).1]
    exact ⟨fun hmet => hdebug hmet.finalName_eq hmet.madeUp,
      fun hmet => hdebug hmet.finalName_eq hmet.madeUp⟩
  · obtain ⟨hnamed, rfl⟩ := (hfinal v name).1 hv
    obtain ⟨hnamed', hsame⟩ := (hfinal w _).1 hw
    exact ⟨debugName_of_shared hnamed hnamed' hne h hsame.symm,
      hsame ▸ debugName_of_shared hnamed' hnamed hne.symm h hsame⟩

/-- Two versions of slot 2, both in the debug table, and a variable with the made-up name `second`.
-/
def splitSlot : Registry :=
  { Registry.empty with
    names := ⟨[(⟨7, 0⟩, "var7"), (⟨8, 0⟩, "var8"), (⟨9, 0⟩, "second")]⟩
    origins := ⟨[(7, ⟨2, 1⟩), (8, ⟨2, 3⟩)]⟩
    debugTable := some (.ofEntries
      [⟨"first", "I", none, 0, 9, 2, false⟩, ⟨"second", "I", none, 9, 20, 2, false⟩]) }

theorem useDebugNames_apart_iff_splitSlot :
    ∃ table, splitSlot.names.keys.Nodup ∧ splitSlot.debugTable = some table ∧
      (splitSlot.useDebugNames.names.get? ⟨7, 0⟩ = some "first" ∧
        splitSlot.useDebugNames.names.get? ⟨8, 0⟩ = some "second" ∧
        splitSlot.useDebugNames.names.get? ⟨9, 0⟩ = some "second1") ∧
      ∀ v w name, v ≠ w → splitSlot.useDebugNames.names.get? v = some name →
        splitSlot.useDebugNames.names.get? w = some name →
          splitSlot.debugName? table v = some name ∧ splitSlot.debugName? table w = some name := by
  have hkeys : splitSlot.names.keys.Nodup := by decide
  have hnamed : splitSlot.named = [⟨7, 0⟩, ⟨8, 0⟩, ⟨9, 0⟩] :=
    List.mergeSort_of_pairwise (by decide)
  obtain ⟨hnames, hiff⟩ := useDebugNames_apart_iff hkeys rfl
  refine ⟨_, hkeys, rfl, ?_, hiff.2 ?_⟩
  · simp only [useDebugNames, debugNames, debugName?, ordinal, hnamed]
    decide +kernel
  · simp only [metLater_iff, metNumbered_iff, finalName, numbered, rank, startName, debugName?,
      ordinal, hnamed]
    decide +kernel

/-- The debug table of two methods: it has a name for slot 2. -/
def oneEntry (name : String) : DebugTable := .ofEntries [⟨name, "I", none, 0, 9, 2, false⟩]

/-- The debug table has the made-up name of the first variable for the second one. -/
def lateDebugName : Registry :=
  { Registry.empty with
    names := ⟨[(⟨1, 0⟩, "count"), (⟨2, 0⟩, "var2")]⟩
    debugTable := some (oneEntry "count") }

/-- The debug table has the made-up name of the second variable for the first one. With its number
that is the name of the third variable. -/
def numberedName : Registry :=
  { Registry.empty with
    names := ⟨[(⟨2, 0⟩, "var2"), (⟨3, 0⟩, "count"), (⟨4, 0⟩, "count1")]⟩
    debugTable := some (oneEntry "count") }

/-- Two variables share a name that was made up for one of them, or for both. -/
theorem not_apart_of_met_names :
    (lateDebugName.names.entries.map Prod.snd).Nodup ∧
    (lateDebugName.useDebugNames.names.get? ⟨1, 0⟩ = some "count" ∧
      lateDebugName.useDebugNames.names.get? ⟨2, 0⟩ = some "count" ∧
      lateDebugName.debugName? (oneEntry "count") ⟨1, 0⟩ = none) ∧
    (numberedName.names.entries.map Prod.snd).Nodup ∧
    (numberedName.useDebugNames.names.get? ⟨3, 0⟩ = some "count1" ∧
      numberedName.useDebugNames.names.get? ⟨4, 0⟩ = some "count1" ∧
      numberedName.debugName? (oneEntry "count") ⟨3, 0⟩ = none ∧
      numberedName.debugName? (oneEntry "count") ⟨4, 0⟩ = none) := by
  have hlate : lateDebugName.named = [⟨1, 0⟩, ⟨2, 0⟩] := List.mergeSort_of_pairwise (by decide)
  have hnumbered : numberedName.named = [⟨2, 0⟩, ⟨3, 0⟩, ⟨4, 0⟩] :=
    List.mergeSort_of_pairwise (by decide)
  refine ⟨by decide, ?_, by decide, ?_⟩
  · simp only [useDebugNames, debugNames, debugName?, ordinal, hlate]
    decide +kernel
  · simp only [useDebugNames, debugNames, debugName?, ordinal, hnumbered]
    decide +kernel

end Registry

end Decompiler

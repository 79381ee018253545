import Decompiler.Ty.Order
import Mathlib.Logic.Basic

/-!
# When two types are shared

Integers can always share a type. Other types can do so only if they are the same, as long as the
uses of one of them set no bound.

* `Ty.Alike`: the types are the same, or both are integers.
* `Ty.merged_alike`: such types share one that is alike them.
* `Ty.merged_eq_none`: others share none, if they are known and uses set no bound on references.
* `Ty.merged_keepsDims`: a shared type has the array dimensions of both, those of `null` apart.
-/

namespace Decompiler.Ty

variable {t u w : Ty}

/-- The types are the same, or both are integers. -/
def Alike (t u : Ty) : Prop := t = u ∨ t.family = .integer ∧ u.family = .integer

theorem Alike.refl (t : Ty) : Alike t t := .inl rfl

theorem Alike.symm (h : Alike t u) : Alike u t := h.imp Eq.symm And.symm

theorem Alike.trans (h : Alike t u) (h' : Alike u w) : Alike t w := by
  rcases h with rfl | ⟨ht, hu⟩
  · exact h'
  · rcases h' with rfl | ⟨-, hw⟩
    · exact .inr ⟨ht, hu⟩
    · exact .inr ⟨ht, hw⟩

theorem family_eq_integer : t.family = .integer ↔ t ∈ integers := by
  obtain ⟨base, dims⟩ := t
  by_cases hd : dims > 0
  · simp [family, hd, integers, plain]
    grind
  · obtain rfl : dims = 0 := by grind
    cases base <;> simp [family, integers, plain]

/-- Two integers can be widened to a third one. -/
theorem join?_integers : ∀ t ∈ integers, ∀ u ∈ integers, ∃ w ∈ integers, t.join? u = some w := by
  decide

/-- A type lies above another one, if both are references or both are integers. -/
theorem isAbove_cases (h : t.isAbove u = true) (hu : u.base ≠ .unknown) :
    (t.family = .object ∧ u.family = .object ∧
        (u.base = .null ∨ t.base ≠ .null ∧ t.dims ≠ u.dims)) ∨
      (t.family = .integer ∧ u.family = .integer) := by
  unfold isAbove at h
  split at h
  · next hunknown => exact absurd hunknown.1 hu
  · split at h
    · next hdims =>
      left
      obtain rfl := of_decide_eq_true h
      refine ⟨rfl, by simp [family, hdims], .inr ⟨nofun, fun heq => ?_⟩⟩
      rw [← heq] at hdims
      cases hdims
    · next hdims =>
      split at h
      · next href =>
        have hnull := of_decide_eq_true h
        refine .inl ⟨?_, by simp [family, hdims, hnull], .inl hnull⟩
        rcases href with hd | hobject
        · simp [family, hd]
        · unfold family Base.isObject at *
          grind
      · next href =>
        right
        unfold family
        unfold Base.bounds? at h
        grind

/-- What lies below two different references is `null`, or they have different shapes. -/
theorem meet?_references (hne : t ≠ u) (ht : t.base ≠ .unknown) (hu : u.base ≠ .unknown)
    (hft : t.family = .object) (hfu : u.family = .object) (h : t.meet? u = some w) :
    w.base = .null ∨ t.base ≠ .null ∧ u.base ≠ .null ∧ t.dims ≠ u.dims := by
  simp only [meet?, isAtLeast, Bool.or_eq_true, decide_eq_true_eq] at h
  split at h
  · next hle =>
    cases h
    rcases isAbove_cases (hle.resolve_left hne) hu with ⟨-, -, hnull | hshape⟩ | hint
    · exact .inl hnull
    · by_cases hnull : u.base = .null
      · exact .inl hnull
      · exact .inr ⟨hshape.1, hnull, hshape.2⟩
    · rw [hft] at hint
      cases hint.1
  · split at h
    · next hle =>
      cases h
      rcases isAbove_cases (hle.resolve_left hne.symm) ht with ⟨-, -, hnull | hshape⟩ | hint
      · exact .inl hnull
      · by_cases hnull : t.base = .null
        · exact .inl hnull
        · exact .inr ⟨hnull, hshape.1, hshape.2.symm⟩
      · rw [hfu] at hint
        cases hint.1
    · rw [if_neg (not_not.2 (hft.trans hfu.symm)), hft] at h
      cases h
      exact .inl rfl

/-- Different references share no type, if the uses of one of them set no bound. -/
theorem mergedReference_eq_none {bound : Option Ty} (hne : t ≠ u) (ht : t.base ≠ .unknown)
    (hu : u.base ≠ .unknown) (hft : t.family = .object) (hfu : u.family = .object) :
    mergedReference t u none bound = none := by
  unfold mergedReference
  cases hmeet : t.meet? u with
  | none => simp
  | some w =>
    rcases meet?_references hne ht hu hft hfu hmeet with hnull | ⟨htn, hun, hdims⟩
    · simp [hnull]
    · simp [htn, hun, hdims]

/-- What is above two types that are not alike is a reference, and so are they. -/
theorem join?_references (halike : ¬ t.Alike u) (ht : t.base ≠ .unknown) (hu : u.base ≠ .unknown)
    (h : t.join? u = some w) :
    w.family = .object ∧ t.family = .object ∧ u.family = .object := by
  simp only [Alike, not_or, not_and] at halike
  simp only [join?, isAtLeast, Bool.or_eq_true, decide_eq_true_eq] at h
  split at h
  · next hle =>
    cases h
    rcases isAbove_cases (hle.resolve_left halike.1) hu with ⟨ht, hu, -⟩ | hint
    · exact ⟨ht, ht, hu⟩
    · exact absurd hint.2 (halike.2 hint.1)
  · split at h
    · next hle =>
      cases h
      rcases isAbove_cases (hle.resolve_left (Ne.symm halike.1)) ht with ⟨hu, ht, -⟩ | hint
      · exact ⟨hu, ht, hu⟩
      · exact absurd hint.1 (halike.2 hint.2)
    · split at h
      · cases h
      · next hfamily =>
        rw [not_not] at hfamily
        split at h
        · next hint => exact absurd (hfamily ▸ hint) (halike.2 hint)
        · next hobject =>
          cases h
          exact ⟨rfl, hobject, hfamily ▸ hobject⟩
        · cases h

/-- Of types that are known, and that no uses bound if they are references, those that are alike
share a type, and it is alike them. -/
theorem merged_alike {a b : Option Ty} (halike : t.Alike u) (ht : t.base ≠ .unknown) :
    ∃ w, merged (some t) (some u) a b = some w ∧ w.base ≠ .unknown ∧ t.Alike w ∧ u.Alike w := by
  by_cases heq : t = u
  · subst heq
    exact ⟨t, by simp [merged], ht, .refl t, .refl t⟩
  · obtain ⟨hft, hfu⟩ := halike.resolve_left heq
    obtain ⟨w, hw, hjoin⟩ :=
      join?_integers t (family_eq_integer.1 hft) u (family_eq_integer.1 hfu)
    have hfw := family_eq_integer.2 hw
    refine ⟨w, by simp [merged, heq, hjoin, hfw], ?_, .inr ⟨hft, hfw⟩, .inr ⟨hfu, hfw⟩⟩
    rintro hunknown
    simp only [family, hunknown] at hfw
    split at hfw <;> cases hfw

/-- Others share none. -/
theorem merged_eq_none {a b : Option Ty} (halike : ¬ t.Alike u) (ht : t.base ≠ .unknown)
    (hu : u.base ≠ .unknown) (ha : t.family = .object → a = none) :
    merged (some t) (some u) a b = none := by
  have hne : t ≠ u := fun heq => halike (.inl heq)
  cases hjoin : t.join? u with
  | none => simp [merged, hne, hjoin]
  | some w =>
    obtain ⟨hfw, hft, hfu⟩ := join?_references halike ht hu hjoin
    simp [merged, hne, hjoin, hfw, ha hft, mergedReference_eq_none hne ht hu hft hfu]

/-! ## Array dimensions -/

theorem dims_eq_zero (h : t.family ≠ .object) : t.dims = 0 := by
  unfold family at h
  split at h
  · exact absurd rfl h
  · next hdims => simpa [UInt8.pos_iff_ne_zero] using hdims

theorem base_ne_null (h : t.family ≠ .object) : t.base ≠ .null := fun hnull =>
  h (by simp [family, hnull])

/-- Below a type that is no reference there are no arrays. -/
theorem dims_of_isAtLeast (h : t.isAtLeast u = true) (ht : t.family ≠ .object)
    (hu : u.base = .unknown → u.dims = 0) : u.dims = 0 := by
  simp only [isAtLeast, Bool.or_eq_true, decide_eq_true_eq] at h
  rcases h with rfl | h
  · exact dims_eq_zero ht
  · unfold isAbove at h
    split at h
    · next hunknown => exact hu hunknown.1
    · split at h
      · exact absurd (of_decide_eq_true h ▸ rfl) ht
      · next hdims => simpa [UInt8.pos_iff_ne_zero] using hdims

/-- Types that are widened to one that is no reference are no arrays. -/
theorem dims_of_join? (h : t.join? u = some w) (hw : w.family ≠ .object)
    (ht : t.base = .unknown → t.dims = 0) (hu : u.base = .unknown → u.dims = 0) :
    t.dims = 0 ∧ u.dims = 0 := by
  unfold join? at h
  split at h
  · next hle =>
    cases h
    exact ⟨dims_eq_zero hw, dims_of_isAtLeast hle hw hu⟩
  · split at h
    · next hle =>
      cases h
      exact ⟨dims_of_isAtLeast hle hw ht, dims_eq_zero hw⟩
    · split at h
      · cases h
      · next hfamily =>
        rw [not_not] at hfamily
        split at h
        · next hint =>
          exact ⟨dims_eq_zero (by rw [hint]; nofun), dims_eq_zero (by rw [← hfamily, hint]; nofun)⟩
        · cases h
          exact absurd rfl hw
        · cases h

/-- A type that references share is not that of `null`, and has the dimensions of those that are
not. -/
theorem mergedReference_dims {a b : Option Ty} (h : mergedReference t u a b = some w) :
    w.base ≠ .null ∧ ∀ v ∈ [t, u], v.base ≠ .null → w.dims = v.dims := by
  obtain ⟨-, h⟩ := Option.ite_none_left_eq_some.1 h
  -- Whichever bounds the type is read from, it passes the same last check.
  have hchecked : ∃ m : Ty, (if m.base = .null ||
      ([t, u].filter fun v => v.base ≠ .null).any fun v => v.dims ≠ m.dims
      then none else some m) = some w := by
    split at h
    · obtain ⟨m, -, h⟩ := Option.bind_eq_some_iff.1 h
      exact ⟨m, h⟩
    · obtain ⟨m, -, h⟩ := Option.bind_eq_some_iff.1 h
      exact ⟨m, h⟩
  obtain ⟨m, hm⟩ := hchecked
  obtain ⟨hkept, hm⟩ := Option.ite_none_left_eq_some.1 hm
  cases hm
  simp only [Bool.or_eq_true, decide_eq_true_eq, List.any_eq_true, List.mem_filter, not_or,
    not_exists, not_and] at hkept
  exact ⟨hkept.1, fun v hv hnull => (not_not.1 (hkept.2 v ⟨hv, hnull⟩)).symm⟩

/-- A shared type has the dimensions of both types, those of `null` apart, and is the type of `null`
only where the two are the same. Types that are not known have no dimensions. -/
theorem merged_keepsDims {a b : Option Ty} (ht : t.base = .unknown → t.dims = 0)
    (hu : u.base = .unknown → u.dims = 0) (h : merged (some t) (some u) a b = some w) :
    (t.base ≠ .null → w.dims = t.dims) ∧ (u.base ≠ .null → w.dims = u.dims) ∧
      (w.base = .null → t = u) := by
  by_cases heq : t = u
  · subst heq
    obtain rfl : t = w := by simpa [merged] using h
    exact ⟨fun _ => rfl, fun _ => rfl, fun _ => rfl⟩
  · obtain ⟨s, hjoin, hs⟩ : ∃ s, t.join? u = some s ∧ (if s.family ≠ .object then some s
        else mergedReference t u a b) = some w := by
      simpa [merged, heq, Option.bind_eq_some_iff] using h
    split at hs
    · next hfamily =>
      cases hs
      obtain ⟨htd, hud⟩ := dims_of_join? hjoin hfamily ht hu
      have hwd := dims_eq_zero hfamily
      exact ⟨fun _ => hwd.trans htd.symm, fun _ => hwd.trans hud.symm,
        fun hnull => absurd hnull (base_ne_null hfamily)⟩
    · obtain ⟨hnull, hdims⟩ := mergedReference_dims hs
      exact ⟨hdims t (by simp), hdims u (by simp), fun h => absurd h hnull⟩

/-- A variable that holds an array of strings or `null`, one use of which takes an array of objects
and another one any object, is an array of objects. -/
theorem merged_keepsDims_stringsOrNull :
    let strings : Ty := ⟨.object (some "java/lang/String"), 1⟩
    let objects : Ty := ⟨.object (some "java/lang/Object"), 1⟩
    merged (some strings) (some null) (some objects) (some javaObject) = some objects ∧
      (strings.base ≠ .null → objects.dims = strings.dims) ∧
      (null.base ≠ .null → objects.dims = null.dims) ∧ (objects.base = .null → strings = null) := by
  intro strings objects
  have h : merged (some strings) (some null) (some objects) (some javaObject) = some objects := by
    decide
  exact ⟨h, merged_keepsDims nofun nofun h⟩

end Decompiler.Ty

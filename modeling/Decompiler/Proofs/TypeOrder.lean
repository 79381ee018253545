import Decompiler.Proofs.Types
import Mathlib.Order.Defs.Unbundled

/-!
# The order of types

A type lies above another one by one of four rules (`Ty.Above`). Unless an unknown type has array
dimensions, they make an order of the types, and nothing that is read off from two types depends on
which of them comes first.

* `Ty.merged_comm`: the order is a partial one, and the two common types and the type that two
  variables share are the same for the variables in either order.
* `Ty.merged_isAtLeast_iff`: without bounds on the uses of both variables, the type that they share
  lies above those of both, except for a reference and an unknown type, which share the unknown one.
  They do so in `Ty.not_isAtLeast_of_unknown`.
-/

namespace Decompiler

/-- Integer primitives are told apart by their values. -/
theorem Base.bounds?_inj {b c : Base} {range : Int × Int} (hb : b.bounds? = some range)
    (hc : c.bounds? = some range) : b = c := by
  cases b <;> cases hb <;> cases c <;> first | rfl | cases hc

namespace Ty

variable {t u w : Ty}

/-! ## When one type lies above another one -/

/-- The types that lie strictly above others. -/
inductive Above : Ty → Ty → Prop where
  /-- Every other type lies above one that is not known. -/
  | unknown {t u : Ty} : t.base ≠ .unknown → u.base = .unknown → Above t u
  /-- `java/lang/Object` lies above the arrays. -/
  | array {u : Ty} : u.base ≠ .unknown → u.dims > 0 → Above javaObject u
  /-- The arrays and classes lie above the type of `null`. -/
  | null {t : Ty} : t.dims > 0 ∨ t.base.isObject = true → Above t null
  /-- An integer lies above those of which it has all values. -/
  | integer {t u : Ty} {lo hi lo' hi' : Int} : t.dims = 0 → u.dims = 0 →
      t.base.bounds? = some (lo, hi) → u.base.bounds? = some (lo', hi') → t.base ≠ u.base →
      lo ≤ lo' → hi' ≤ hi → Above t u

theorem isObject_eq_false {b : Base} {range : Int × Int} (h : b.bounds? = some range) :
    b.isObject = false := by
  cases b <;> first | rfl | cases h

theorem isAbove_iff : t.isAbove u = true ↔ t.Above u := by
  constructor
  · intro h
    unfold isAbove at h
    split at h
    · next hunknown => exact .unknown hunknown.2 hunknown.1
    · next hknown =>
      split at h
      · next hdims =>
        obtain rfl := of_decide_eq_true h
        exact .array (fun hu => hknown ⟨hu, nofun⟩) hdims
      · next hdims =>
        have hdims : u.dims = 0 := by simpa [UInt8.pos_iff_ne_zero] using hdims
        split at h
        · next href =>
          obtain rfl : u = null := by
            cases u
            simp_all [Ty.null, plain]
          exact .null href
        · next href =>
          have ht : t.dims = 0 := by simpa [UInt8.pos_iff_ne_zero] using (not_or.1 href).1
          split at h
          · next lo hi lo' hi' hbt hbu =>
            obtain ⟨hne, hlo, hhi⟩ := of_decide_eq_true h
            exact .integer ht hdims hbt hbu hne hlo hhi
          · cases h
  · intro h
    cases h with
    | unknown ht hu => simp [isAbove, ht, hu]
    | array hu hdims => simp [isAbove, hu, hdims]
    | null href =>
      unfold isAbove
      rw [if_neg (by simp [Ty.null, plain]), if_neg (by simp [Ty.null, plain]), if_pos href]
      rfl
    | integer ht hu hbt hbu hne hlo hhi =>
      have hknown : u.base ≠ .unknown := fun h => by
        rw [h] at hbu
        cases hbu
      simp [isAbove, hknown, ht, hu, isObject_eq_false hbt, hbt, hbu, hne, hlo, hhi]

theorem isAtLeast_iff : t.isAtLeast u = true ↔ t = u ∨ t.Above u := by
  rw [← isAbove_iff]
  simp [isAtLeast]

/-! ## The partial order -/

/-- A type that has no dimensions if it is not known. -/
abbrev Regular := { t : Ty // t.base = .unknown → t.dims = 0 }

theorem Above.irrefl : ¬ t.Above t := by
  intro h
  cases h with
  | unknown ht hu => exact ht hu
  | array _ hdims => cases hdims
  | null href => simp [Ty.null, plain, Base.isObject] at href
  | integer _ _ _ _ hne => exact hne rfl

theorem not_above_javaObject : ¬ t.Above javaObject := by
  intro h
  cases h with
  | unknown _ hu => cases hu
  | array _ hdims => cases hdims
  | integer _ _ _ hb => cases hb

theorem Above.known (h : t.Above u) (ht : t.base = .unknown → t.dims = 0) :
    t.base ≠ .unknown := by
  intro hunknown
  cases h with
  | unknown ht => exact ht hunknown
  | array => cases hunknown
  | null href => simp [ht hunknown, hunknown, Base.isObject] at href
  | integer _ _ hb =>
    rw [hunknown] at hb
    cases hb

theorem Above.trans (ht : t.base = .unknown → t.dims = 0) (hu : u.base = .unknown → u.dims = 0)
    (h : t.Above u) (h' : u.Above w) : t.Above w := by
  have hknown := h'.known hu
  cases h' with
  | unknown _ hw => exact .unknown (h.known ht) hw
  | array => exact absurd h not_above_javaObject
  | null href =>
    cases h with
    | unknown _ hu => exact absurd hu hknown
    | array => exact .null (.inr rfl)
    | null => simp [Ty.null, plain, Base.isObject] at href
    | integer _ hdims _ hb => simp [hdims, isObject_eq_false hb] at href
  | integer hud hwd hbu hbw hne hlo hhi =>
    cases h with
    | unknown _ hu => exact absurd hu hknown
    | array _ hdims => simp [hud] at hdims
    | null => cases hbu
    | integer htd _ hbt hbu' _ hlo' hhi' =>
      cases hbu.symm.trans hbu'
      refine .integer htd hwd hbt hbw (fun heq => hne ?_) (Int.le_trans hlo' hlo)
        (Int.le_trans hhi hhi')
      -- a range between two equal ones is the same again
      cases hbt.symm.trans (heq ▸ hbw)
      obtain rfl := Int.le_antisymm hlo hlo'
      obtain rfl := Int.le_antisymm hhi' hhi
      exact Base.bounds?_inj hbu hbw

theorem isAtLeast_antisymm (ht : t.base = .unknown → t.dims = 0)
    (hu : u.base = .unknown → u.dims = 0) (h : t.isAtLeast u = true) (h' : u.isAtLeast t = true) :
    t = u := by
  rcases isAtLeast_iff.1 h with rfl | h
  · rfl
  · rcases isAtLeast_iff.1 h' with rfl | h'
    · rfl
    · exact absurd (h.trans ht hu h') Above.irrefl

instance isPartialOrder : IsPartialOrder Regular fun t u => u.1.isAtLeast t.1 = true where
  refl _ := isAtLeast_iff.2 (.inl rfl)
  trans t u w h h' := by
    rcases isAtLeast_iff.1 h' with heq | h'
    · rwa [heq]
    · rcases isAtLeast_iff.1 h with heq | h
      · exact isAtLeast_iff.2 (.inr (heq ▸ h'))
      · exact isAtLeast_iff.2 (.inr (h'.trans w.2 u.2 h))
  antisymm t u h h' := Subtype.ext (isAtLeast_antisymm t.2 u.2 h' h)

/-! ## Either order -/

/-- A choice between two types by their order, and by something else where they have none. -/
theorem ite_isAtLeast_comm {α : Type} (ht : t.base = .unknown → t.dims = 0)
    (hu : u.base = .unknown → u.dims = 0) (f : Ty → Ty → α) {x y : α} (hxy : x = y) :
    (if t.isAtLeast u then f t u else if u.isAtLeast t then f u t else x) =
      if u.isAtLeast t then f u t else if t.isAtLeast u then f t u else y := by
  by_cases htu : t.isAtLeast u = true
  · by_cases hut : u.isAtLeast t = true
    · obtain rfl := isAtLeast_antisymm ht hu htu hut
      simp [htu]
    · simp [htu, hut]
  · simp [htu, hxy]

theorem join?_comm (ht : t.base = .unknown → t.dims = 0) (hu : u.base = .unknown → u.dims = 0) :
    t.join? u = u.join? t := by
  refine ite_isAtLeast_comm ht hu (fun t _ => some t) ?_
  by_cases hfamily : t.family = u.family
  · simp only [hfamily, Bool.and_comm]
  · rw [if_pos hfamily, if_pos (Ne.symm hfamily)]

theorem meet?_comm (ht : t.base = .unknown → t.dims = 0) (hu : u.base = .unknown → u.dims = 0) :
    t.meet? u = u.meet? t := by
  refine ite_isAtLeast_comm ht hu (fun _ u => some u) ?_
  by_cases hfamily : t.family = u.family
  · simp only [hfamily, Bool.and_comm]
  · rw [if_pos hfamily, if_pos (Ne.symm hfamily)]

/-- What lies below the bounds on the uses of two variables, or else below their own types. -/
def bounded? (t u : Ty) : (a b : Option Ty) → Option Ty
  | some a, some b => a.meet? b
  | _, _ => t.meet? u

/-- References share what lies below their bounds, if it is not `null` and has the dimensions of
those that are not. That these have the same dimensions follows. -/
theorem mergedReference_eq_some {a b : Option Ty} : mergedReference t u a b = some w ↔
    bounded? t u a b = some w ∧ w.base ≠ .null ∧
      (t.base ≠ .null → w.dims = t.dims) ∧ (u.base ≠ .null → w.dims = u.dims) := by
  constructor
  · intro h
    obtain ⟨hnull, hdims⟩ := mergedReference_dims h
    refine ⟨?_, hnull, hdims t (by simp), hdims u (by simp)⟩
    obtain ⟨-, h⟩ := Option.ite_none_left_eq_some.1 h
    rcases a with _ | a <;> rcases b with _ | b
    all_goals
      obtain ⟨m, hm, h⟩ := Option.bind_eq_some_iff.1 h
      obtain ⟨-, h⟩ := Option.ite_none_left_eq_some.1 h
      cases h
      exact hm
  · rintro ⟨h, hnull, ht, hu⟩
    unfold bounded? at h
    by_cases htn : t.base = .null <;> by_cases hun : u.base = .null <;> split at h <;>
      simp_all [mergedReference]

theorem bounded?_comm (ht : t.base = .unknown → t.dims = 0) (hu : u.base = .unknown → u.dims = 0)
    {a b : Option Ty} (ha : ∀ v ∈ a, v.base = .unknown → v.dims = 0)
    (hb : ∀ v ∈ b, v.base = .unknown → v.dims = 0) : bounded? t u a b = bounded? u t b a := by
  rcases a with _ | a <;> rcases b with _ | b
  · exact meet?_comm ht hu
  · exact meet?_comm ht hu
  · exact meet?_comm ht hu
  · exact meet?_comm (ha a rfl) (hb b rfl)

theorem mergedReference_comm (ht : t.base = .unknown → t.dims = 0)
    (hu : u.base = .unknown → u.dims = 0) {a b : Option Ty}
    (ha : ∀ v ∈ a, v.base = .unknown → v.dims = 0) (hb : ∀ v ∈ b, v.base = .unknown → v.dims = 0) :
    mergedReference t u a b = mergedReference u t b a := by
  ext w
  rw [mergedReference_eq_some, mergedReference_eq_some, bounded?_comm ht hu ha hb]
  simp only [and_comm]

/-- Two types share what they can be widened to, or what lies below their bounds if that is a
reference. -/
theorem merged_of_ne {a b : Option Ty} (hne : t ≠ u) : merged (some t) (some u) a b =
    (t.join? u).bind fun s => if s.family ≠ .object then some s else mergedReference t u a b := by
  simp [merged, hne]

/-- **Types are ordered, and shared alike from both sides.** An order of the types says which of
them can be kept in variables of others, and neither what two types can be widened to nor what can
be widened to both nor the type that two variables share depends on which of the two comes first. -/
theorem merged_comm :
    IsPartialOrder Regular (fun t u => u.1.isAtLeast t.1 = true) ∧
      (∀ t u : Regular, join? t.1 u.1 = join? u.1 t.1) ∧
      (∀ t u : Regular, meet? t.1 u.1 = meet? u.1 t.1) ∧
      ∀ t u a b : Option Regular,
        merged (t.map Subtype.val) (u.map Subtype.val) (a.map Subtype.val) (b.map Subtype.val) =
          merged (u.map Subtype.val) (t.map Subtype.val) (b.map Subtype.val)
            (a.map Subtype.val) := by
  refine ⟨isPartialOrder, fun t u => join?_comm t.2 u.2, fun t u => meet?_comm t.2 u.2, ?_⟩
  have hregular : ∀ a : Option Regular, ∀ v ∈ a.map Subtype.val, v.base = .unknown → v.dims = 0 :=
    fun a v hv => by
      obtain ⟨w, -, rfl⟩ := Option.map_eq_some_iff.1 hv
      exact w.2
  rintro (_ | t) (_ | u) a b
  · rfl
  · rfl
  · rfl
  · by_cases heq : t = u
    · simp [merged, heq]
    · have hne : t.1 ≠ u.1 := fun h => heq (Subtype.ext h)
      rw [Option.map_some, Option.map_some, merged_of_ne hne, merged_of_ne hne.symm,
        join?_comm t.2 u.2, mergedReference_comm t.2 u.2 (hregular a) (hregular b)]

/-! ## Without bounds on the uses -/

theorem isAtLeast_refl (t : Ty) : t.isAtLeast t = true := isAtLeast_iff.2 (.inl rfl)

/-- What two types can be widened to lies above both, if it is no reference. -/
theorem isAtLeast_of_join? (h : t.join? u = some w) (hw : w.family ≠ .object) :
    w.isAtLeast t = true ∧ w.isAtLeast u = true := by
  unfold join? at h
  split at h
  · next hle =>
    cases h
    exact ⟨isAtLeast_refl t, hle⟩
  · split at h
    · next hle =>
      cases h
      exact ⟨hle, isAtLeast_refl u⟩
    · split at h
      · cases h
      · split at h
        · simpa using List.find?_some h
        · cases h
          exact absurd rfl hw
        · cases h

/-- The type is not known, and `t` is a reference that lies above it, and not below it as well. -/
def Obscures (u t : Ty) : Prop :=
  u.base = .unknown ∧ t.base ≠ .unknown ∧ t.family = .object ∧ u.isAtLeast t = false

theorem Obscures.isAtLeast (h : u.Obscures t) : t.isAtLeast u = true :=
  isAtLeast_iff.2 (.inr (.unknown h.2.1 h.1))

theorem Obscures.join? (h : u.Obscures t) : t.join? u = some t := if_pos h.isAtLeast

theorem Obscures.join?_swap (h : u.Obscures t) : u.join? t = some t := by
  rw [Ty.join?, if_neg (by simp [h.2.2.2]), if_pos h.isAtLeast]

theorem family_of_bounds? {range : Int × Int} (ht : t.dims = 0)
    (hb : t.base.bounds? = some range) : t.family = .integer := by
  obtain ⟨base, dims⟩ := t
  obtain rfl : dims = 0 := ht
  cases base <;> first | rfl | cases hb

/-- A reference has the dimensions of a type strictly below it only if that is not known. -/
theorem Above.obscures_iff (h : t.Above u) (ht : t.family = .object) (hnull : u.base ≠ .null)
    (hdims : t.base ≠ .null → u.dims = t.dims) :
    (u.isAtLeast t = true ∧ u.isAtLeast u = true) ↔ ¬ t.Obscures u ∧ ¬ u.Obscures t := by
  cases h with
  | unknown hknown hunknown => simp [Obscures, hknown, hunknown, ht, isAtLeast_refl]
  | array _ hpos =>
    rw [hdims nofun] at hpos
    cases hpos
  | null => exact absurd rfl hnull
  | integer htd _ hb =>
    rw [family_of_bounds? htd hb] at ht
    cases ht

/-- Below two types that are not integers and have no order lies `null` at most. -/
theorem base_of_meet? (h : t.meet? u = some w) (hle : t.isAtLeast u = false)
    (hle' : u.isAtLeast t = false) (hint : t.family ≠ .integer) : w.base = .null := by
  simp only [meet?, hle, hle', Bool.false_eq_true, if_false] at h
  split at h
  · cases h
  · split at h
    · next hfamily => exact absurd hfamily hint
    · cases h
      rfl
    · cases h

/-- Integers can only be widened to integers. -/
theorem family_ne_integer_of_join? (h : t.join? u = some w) (hw : w.family = .object)
    (hle : t.isAtLeast u = false) (hle' : u.isAtLeast t = false) : t.family ≠ .integer := by
  intro hint
  simp only [join?, hle, hle', Bool.false_eq_true, if_false, hint] at h
  split at h
  · cases h
  · have hmem := family_eq_integer.2 (List.mem_reverse.1 (List.mem_of_find?_eq_some h))
    rw [hw] at hmem
    cases hmem

/-- **Without bounds, variables share a common supertype.** As long as the uses of one of two
variables set no bound, the type that they share lies above both of theirs, unless one of them is
not known and the other one is a reference above it: then the type that is not known is shared. -/
theorem merged_isAtLeast_iff {a b : Option Ty} (hfree : a = none ∨ b = none)
    (h : merged (some t) (some u) a b = some w) :
    (w.isAtLeast t = true ∧ w.isAtLeast u = true) ↔ ¬ t.Obscures u ∧ ¬ u.Obscures t := by
  by_cases heq : t = u
  · obtain rfl : w = t := by simpa [merged, heq, eq_comm] using h
    simp [← heq, isAtLeast_refl, Obscures]
  · rw [merged_of_ne heq] at h
    obtain ⟨s, hjoin, h⟩ := Option.bind_eq_some_iff.1 h
    split at h
    · next hfamily =>
      cases h
      refine iff_of_true (isAtLeast_of_join? hjoin hfamily) ⟨fun ho => ?_, fun ho => ?_⟩
      · cases ho.join?_swap.symm.trans hjoin
        exact hfamily ho.2.2.1
      · cases ho.join?.symm.trans hjoin
        exact hfamily ho.2.2.1
    · next hfamily =>
      rw [not_not] at hfamily
      obtain ⟨hmeet, hnull, htd, hud⟩ := mergedReference_eq_some.1 h
      have hmeet : t.meet? u = some w := by
        rcases hfree with rfl | rfl
        · exact hmeet
        · rcases a with _ | a <;> exact hmeet
      by_cases hle : t.isAtLeast u = true
      · obtain rfl : u = w := Option.some.inj ((if_pos hle).symm.trans hmeet)
        obtain rfl : t = s := Option.some.inj ((if_pos hle).symm.trans hjoin)
        exact ((isAtLeast_iff.1 hle).resolve_left heq).obscures_iff hfamily hnull htd
      · by_cases hle' : u.isAtLeast t = true
        · obtain rfl : t = w := Option.some.inj
            (((if_neg hle).trans (if_pos hle')).symm.trans hmeet)
          obtain rfl : u = s := Option.some.inj
            (((if_neg hle).trans (if_pos hle')).symm.trans hjoin)
          rw [and_comm, and_comm (a := ¬ t.Obscures u)]
          exact ((isAtLeast_iff.1 hle').resolve_left (Ne.symm heq)).obscures_iff hfamily hnull hud
        · rw [Bool.not_eq_true] at hle hle'
          have hint := family_ne_integer_of_join? hjoin hfamily hle hle'
          exact absurd (base_of_meet? hmeet hle hle' hint) hnull

/-- A `byte` and an integer that is both a `short` and a `char` are kept in a `short`. -/
theorem merged_isAtLeast_iff_literal :
    merged (some (plain .byte)) (some (plain .shortChar)) none (some int) =
        some (plain .short) ∧
      (plain .short).isAtLeast (plain .byte) = true ∧
      (plain .short).isAtLeast (plain .shortChar) = true := by
  have h : merged (some (plain .byte)) (some (plain .shortChar)) none (some int) =
      some (plain .short) := by decide
  have hknown : ∀ b c : Base, b ≠ .unknown → ¬ (plain b).Obscures (plain c) := fun _ _ hb ho =>
    hb ho.1
  exact ⟨h, (merged_isAtLeast_iff (.inl rfl) h).2 ⟨hknown _ _ nofun, hknown _ _ nofun⟩⟩

/-- A string and a variable of which the type is not known share a type that is not known, and it
does not lie above that of the string. -/
theorem not_isAtLeast_of_unknown :
    merged (some (ofClass "java/lang/String")) (some unknown) none none = some unknown ∧
      unknown.isAtLeast (ofClass "java/lang/String") = false := by
  decide

end Ty

end Decompiler

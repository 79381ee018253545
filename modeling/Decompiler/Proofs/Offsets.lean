import Decompiler.Offsets
import Mathlib.Algebra.Group.Nat.Defs
import Mathlib.Data.Set.Insert
import Mathlib.Order.Bounds.Basic

/-!
# Offsets in words are sets of offsets

A set of offsets is a list of words. What is done to the words, bit by bit, is what is meant to be
done to the set, and since no operation leaves an empty word at the end, a set can be written in one
way only.

* `Word.getLsbD_and_sub_one`, `Word.mem_bits`: how the bits of a word are listed.
* `Offsets.elements`: the set that the words stand for.
* `Offsets.mem_toList`, `Offsets.mem_union`: membership in listings.
* `Offsets.Built`: the sets that come about. Their words are few enough to count in 32 bits
  (`Offsets.Built.length_le`).
* `Offsets.behaves_as_set`: every operation does to the elements what it is named for.
-/

namespace Decompiler

namespace Word

variable {w v : Word} {b : ℕ}

/-! ## The bits of a word -/

/-- A word is made of its lowest bit and of what is above it. -/
theorem toNat_eq_of_ne_zero (h : w ≠ 0#64) :
    ∃ q, w.toNat = 2 ^ (w.ctz.toNat + 1) * q + 2 ^ w.ctz.toNat := by
  have hlow : w.toNat % 2 ^ (w.ctz.toNat + 1) = 2 ^ w.ctz.toNat := by
    apply Nat.eq_of_testBit_eq
    intro i
    rw [Nat.testBit_mod_two_pow, Nat.testBit_two_pow, BitVec.testBit_toNat]
    rcases Nat.lt_trichotomy i w.ctz.toNat with hi | rfl | hi
    · simp [BitVec.getLsbD_false_of_lt_ctz hi, hi.ne']
    · simp [BitVec.getLsbD_true_ctz_of_ne_zero h]
    · simp [hi.ne, show ¬ i < w.ctz.toNat + 1 by omega]
  exact ⟨w.toNat / 2 ^ (w.ctz.toNat + 1), by rw [← hlow, Nat.div_add_mod]⟩

/-- Taking one away clears the lowest bit, sets those below it and leaves those above it. -/
theorem getLsbD_and_sub_one (h : w ≠ 0#64) (b : ℕ) :
    (w &&& (w - 1#64)).getLsbD b = (w.getLsbD b && decide (b ≠ w.ctz.toNat)) := by
  obtain ⟨q, hq⟩ := toNat_eq_of_ne_zero h
  generalize w.ctz.toNat = t at hq ⊢
  have hpos : 0 < 2 ^ t := Nat.two_pow_pos t
  have hlt : 2 ^ t < 2 ^ (t + 1) := Nat.pow_lt_pow_succ (by decide)
  have hsub : (w - 1#64).toNat = 2 ^ (t + 1) * q + (2 ^ t - 1) := by
    have := w.isLt
    rw [BitVec.toNat_sub]
    simp
    omega
  rw [BitVec.getLsbD_and, ← BitVec.testBit_toNat, ← BitVec.testBit_toNat, hsub, hq,
    Nat.testBit_two_pow_mul_add _ hlt, Nat.testBit_two_pow_mul_add _ (by omega),
    Nat.testBit_two_pow, Nat.testBit_two_pow_sub_one]
  by_cases hb : b < t + 1
  · simp only [hb, if_true]
    grind
  · simp [hb, show b ≠ t by omega]

theorem mem_bits : b ∈ bits w ↔ w.getLsbD b = true := by
  fun_induction bits w with
  | case1 => simp
  | case2 w hw ih =>
    rw [List.mem_cons, ih, getLsbD_and_sub_one hw, Bool.and_eq_true, decide_eq_true_eq]
    by_cases hb : b = w.ctz.toNat
    · simp [hb, BitVec.getLsbD_true_ctz_of_ne_zero hw]
    · simp [hb]

theorem pairwise_bits (w : Word) : (bits w).Pairwise (· < ·) := by
  fun_induction bits w with
  | case1 => exact .nil
  | case2 w hw ih =>
    refine List.pairwise_cons.2 ⟨fun b hb => ?_, ih⟩
    rw [mem_bits, getLsbD_and_sub_one hw, Bool.and_eq_true, decide_eq_true_eq] at hb
    by_contra hlt
    rw [BitVec.getLsbD_false_of_lt_ctz (by omega)] at hb
    exact Bool.false_ne_true hb.1

theorem and_bit_ne_zero_iff (w : Word) (o : ℕ) :
    w &&& bit o ≠ 0#64 ↔ w.getLsbD (o % 64) = true := by
  have hbits : ∀ b, (w &&& bit o).getLsbD b = (w.getLsbD b && decide (b = o % 64)) := fun b => by
    rw [BitVec.getLsbD_and, getLsbD_bit]
  constructor
  · intro h
    by_contra hclear
    refine h (BitVec.eq_of_getLsbD_eq fun b _ => ?_)
    rw [hbits]
    by_cases hb : b = o % 64
    · simpa [hb] using hclear
    · simp [hb]
  · intro hset hzero
    simpa [hzero, hset] using hbits (o % 64)

/-- Above the zeros at its upper end a word has no bit. -/
theorem le_of_getLsbD (h : w.getLsbD b = true) : b ≤ 63 - w.clz.toNat := by
  by_contra hlt
  have hzero := Nat.testBit_lt_two_pow (x := w.toNat) (i := b)
    (lt_of_lt_of_le BitVec.toNat_lt_two_pow_sub_clz (Nat.pow_le_pow_right (by decide) (by omega)))
  rw [BitVec.testBit_toNat, h] at hzero
  cases hzero

/-- All bits of `v` are in `w`. -/
theorem and_eq_iff : w &&& v = v ↔ ∀ b, v.getLsbD b = true → w.getLsbD b = true := by
  constructor
  · intro h b hb
    rw [← h, BitVec.getLsbD_and, Bool.and_eq_true] at hb
    exact hb.1
  · intro h
    refine BitVec.eq_of_getLsbD_eq fun b _ => ?_
    rw [BitVec.getLsbD_and]
    cases hb : v.getLsbD b with
    | false => rw [Bool.and_false]
    | true => rw [h b hb, Bool.and_true]

end Word

namespace Offsets

open Word (bits)

variable {s t : Offsets} {o p : ℕ}

/-- The set of the offsets that are contained. -/
def elements (s : Offsets) : Set ℕ := {o | s.contains o = true}

theorem mem_elements : o ∈ s.elements ↔ (wordAt s.words (o / 64)).getLsbD (o % 64) = true := by
  change s.contains o = true ↔ _
  rw [← Word.and_bit_ne_zero_iff, contains, wordAt]
  cases s.words[o / 64]? <;> simp

/-- An offset is a place among the words and one among the bits. -/
theorem mem_elements_iff {i b : ℕ} (hb : b < 64) :
    i * 64 + b ∈ s.elements ↔ (wordAt s.words i).getLsbD b = true := by
  rw [mem_elements, show (i * 64 + b) / 64 = i by omega, show (i * 64 + b) % 64 = b by omega]

/-! ## Listing -/

/-- The elements of the word at `i`. -/
theorem mem_map_bits {w : Word} {i : ℕ} :
    o ∈ (bits w).map (i * 64 + ·) ↔ o / 64 = i ∧ w.getLsbD (o % 64) = true := by
  simp only [List.mem_map, Word.mem_bits]
  constructor
  · rintro ⟨b, hb, rfl⟩
    have := BitVec.lt_of_getLsbD hb
    rw [show (i * 64 + b) % 64 = b by omega]
    exact ⟨by omega, hb⟩
  · rintro ⟨rfl, hb⟩
    exact ⟨o % 64, hb, by omega⟩

theorem mem_toList : o ∈ s.toList ↔ o ∈ s.elements := by
  simp only [toList, List.mem_flatMap, mem_map_bits, mem_elements, wordAt]
  constructor
  · rintro ⟨⟨w, i⟩, hw, rfl, ho⟩
    rw [List.mem_zipIdx_iff_getElem?.1 hw]
    exact ho
  · intro ho
    cases hw : s.words[o / 64]? with
    | none => simp [hw] at ho
    | some w => exact ⟨(w, o / 64), List.mem_zipIdx_iff_getElem?.2 hw, rfl, by simpa [hw] using ho⟩

/-- The elements are listed in ascending order: word by word, and in every word bit by bit. -/
theorem pairwise_toList (s : Offsets) : s.toList.Pairwise (· < ·) := by
  refine List.pairwise_flatMap.2 ⟨fun p _ => ?_, ?_⟩
  · exact List.pairwise_map.2 ((Word.pairwise_bits p.1).imp fun h => Nat.add_lt_add_left h _)
  · have hplaces : s.words.zipIdx.Pairwise fun p q => p.2 < q.2 := by
      rw [← List.pairwise_map, List.zipIdx_map_snd]
      exact List.pairwise_lt_range'
    refine hplaces.imp fun hlt o ho q hq => ?_
    have hdiv := (mem_map_bits.1 ho).1
    have hdiv' := (mem_map_bits.1 hq).1
    omega

/-! ## Operations -/

theorem elements_empty : empty.elements = ∅ := by
  ext o
  simp [mem_elements, empty, wordAt]

theorem elements_insert (s : Offsets) (o : ℕ) : (s.insert o).elements = {o} ∪ s.elements := by
  ext p
  rw [Set.mem_union, Set.mem_singleton_iff, mem_elements, mem_elements, insert, wordAt_setBit]
  by_cases hword : p / 64 = o / 64
  · rw [if_pos hword, BitVec.getLsbD_or, Word.getLsbD_bit, Bool.or_eq_true, decide_eq_true_eq,
      or_comm, show p % 64 = o % 64 ↔ p = o by omega]
  · rw [if_neg hword, or_iff_right fun h : p = o => hword (h ▸ rfl)]

theorem elements_union (s t : Offsets) : (s.union t).elements = s.elements ∪ t.elements := by
  ext p
  rw [Set.mem_union, mem_elements, mem_elements, mem_elements, union, wordAt_unite,
    BitVec.getLsbD_or, Bool.or_eq_true]

theorem mem_union : p ∈ (s.union t).toList ↔ p ∈ s.toList ∨ p ∈ t.toList := by
  rw [mem_toList, mem_toList, mem_toList, elements_union, Set.mem_union]

/-- What is included is so word by word. -/
theorem includes_iff : s.includes t = true ↔ t.elements ⊆ s.elements := by
  have hwords : s.includes t = true ↔
      ∀ i, wordAt s.words i &&& wordAt t.words i = wordAt t.words i := by
    simp only [includes, List.all_eq_true, decide_eq_true_eq, List.mem_zipIdx_iff_getElem?,
      Prod.forall]
    constructor
    · intro h i
      rw [wordAt.eq_def t.words i]
      cases hi : t.words[i]? with
      | none => simp
      | some v => exact h v i hi
    · intro h v i hi
      simpa [wordAt.eq_def t.words i, hi] using h i
  rw [hwords]
  simp only [Word.and_eq_iff]
  constructor
  · intro h o ho
    exact mem_elements.2 (h _ _ (mem_elements.1 ho))
  · intro h i b hb
    have hlt := BitVec.lt_of_getLsbD hb
    exact (mem_elements_iff hlt).1 (h ((mem_elements_iff hlt).2 hb))

theorem isEmpty_iff : s.isEmpty = true ↔ s.elements = ∅ := by
  have hwords : s.isEmpty = true ↔ ∀ i, wordAt s.words i = 0#64 := by
    simp only [isEmpty, List.all_eq_true, decide_eq_true_eq, List.mem_iff_getElem?]
    constructor
    · intro h i
      rw [wordAt]
      cases hi : s.words[i]? with
      | none => rfl
      | some w => exact h w ⟨i, hi⟩
    · rintro h w ⟨i, hi⟩
      simpa [wordAt, hi] using h i
  rw [hwords, Set.eq_empty_iff_forall_notMem]
  constructor
  · intro h o ho
    simp [mem_elements, h] at ho
  · intro h i
    refine BitVec.eq_of_getLsbD_eq fun b hb => ?_
    rw [BitVec.getLsbD_zero, ← Bool.not_eq_true, ← mem_elements_iff hb]
    exact h _

/-- Where all words agree, there are equally many of them, as the last one is never empty. -/
theorem length_le_of_wordAt (h : ∀ i, wordAt s.words i = wordAt t.words i) :
    t.words.length ≤ s.words.length := by
  by_contra hlt
  refine getLast?_ne_iff.1 t.trimmed (t.words.length - 1) (by omega) ?_
  rw [← h, wordAt_eq_zero (by omega)]

/-- Sets with the same elements are equal. -/
theorem ext_elements (h : s.elements = t.elements) : s = t := by
  have hwords : ∀ i, wordAt s.words i = wordAt t.words i := fun i =>
    BitVec.eq_of_getLsbD_eq fun b hb => by
      rw [Bool.eq_iff_iff, ← mem_elements_iff hb, ← mem_elements_iff hb, h]
  have hlength : s.words.length = t.words.length :=
    (length_le_of_wordAt fun i => (hwords i).symm).antisymm (length_le_of_wordAt hwords)
  obtain ⟨ws, hs⟩ := s
  obtain ⟨vs, ht⟩ := t
  rw [Offsets.mk.injEq]
  refine List.ext_getElem hlength fun i hi hi' => ?_
  simpa [wordAt, hi, hi'] using hwords i

/-! ## The ends -/

theorem first?_eq_some_iff : s.first? = some o ↔ IsLeast s.elements o := by
  have hsorted := pairwise_toList s
  simp only [IsLeast, mem_lowerBounds, ← mem_toList, first?]
  generalize s.toList = l at hsorted ⊢
  cases l with
  | nil => simp
  | cons p l =>
    have hfirst := (List.pairwise_cons.1 hsorted).1
    constructor
    · rintro ⟨⟩
      exact ⟨List.mem_cons_self, List.forall_mem_cons.2 ⟨le_rfl, fun q hq => (hfirst q hq).le⟩⟩
    · rintro ⟨ho, hleast⟩
      rcases List.mem_cons.1 ho with rfl | ho
      · rfl
      · exact absurd (hfirst o ho) (hleast p List.mem_cons_self).not_gt

theorem first?_eq_none_iff : s.first? = none ↔ s.elements = ∅ := by
  simp only [first?, List.head?_eq_none_iff, List.eq_nil_iff_forall_not_mem, mem_toList,
    Set.eq_empty_iff_forall_notMem]

/-- The greatest element is in the last word, as that is never empty. -/
theorem last?_of_concat {ws : List Word} {w : Word} (h : s.words = ws ++ [w]) :
    ∃ o, s.last? = some o ∧ IsGreatest s.elements o := by
  have hw : w ≠ 0#64 := fun hzero => s.trimmed (by rw [h, List.getLast?_concat, hzero])
  have hclz : w.clz.toNat < 64 := by
    by_contra hlarge
    have hlt := BitVec.toNat_lt_two_pow_sub_clz (x := w)
    rw [show 64 - w.clz.toNat = 0 by omega] at hlt
    exact hw (BitVec.eq_of_toNat_eq (by simpa using hlt))
  have hlast : wordAt s.words ws.length = w := by simp [wordAt, h]
  refine ⟨ws.length * 64 + 63 - w.clz.toNat, ?_, ?_, fun o ho => ?_⟩
  · simp [last?, h, List.zipIdx_append, hw]
  · rw [show ws.length * 64 + 63 - w.clz.toNat = ws.length * 64 + (63 - w.clz.toNat) by omega,
      mem_elements_iff (by omega), hlast]
    exact BitVec.getLsbD_true_clz_of_ne_zero (by decide) hw
  · rw [mem_elements] at ho
    rcases Nat.lt_trichotomy (o / 64) ws.length with hlt | heq | hgt
    · omega
    · rw [heq, hlast] at ho
      have := Word.le_of_getLsbD ho
      omega
    · rw [wordAt_eq_zero (by rw [h, List.length_append, List.length_singleton]; omega)] at ho
      simp at ho

theorem last?_eq_some_iff : s.last? = some o ↔ IsGreatest s.elements o := by
  rcases List.eq_nil_or_concat s.words with hnil | ⟨ws, w, hws⟩
  · have hnone : s.last? = none := by simp [last?, hnil]
    have hempty : s.elements = ∅ := isEmpty_iff.1 (by simp [isEmpty, hnil])
    simp [hnone, hempty, IsGreatest]
  · obtain ⟨greatest, hlast, hgreatest⟩ := last?_of_concat (hws.trans (List.concat_eq_append ..))
    rw [hlast, Option.some.injEq]
    exact ⟨fun heq => heq ▸ hgreatest, fun ho => hgreatest.unique ho⟩

theorem last?_eq_none_iff : s.last? = none ↔ s.elements = ∅ := by
  rcases List.eq_nil_or_concat s.words with hnil | ⟨ws, w, hws⟩
  · have hempty : s.elements = ∅ := isEmpty_iff.1 (by simp [isEmpty, hnil])
    simp [last?, hnil, hempty]
  · obtain ⟨greatest, hlast, hgreatest⟩ := last?_of_concat (hws.trans (List.concat_eq_append ..))
    simp [hlast, Set.Nonempty.ne_empty ⟨greatest, hgreatest.1⟩]

/-! ## Sets that come about -/

/-- The sets that are made from the empty one by adding offsets of 32 bits and by unions. -/
inductive Built : Offsets → Prop
  | empty : Built empty
  | insert {s : Offsets} {o : ℕ} (hs : Built s) (ho : o < UInt32.size) : Built (s.insert o)
  | union {s t : Offsets} (hs : Built s) (ht : Built t) : Built (s.union t)

/-- The last bit of the last word has a place that 32 bits can hold. -/
theorem Built.length_le (hs : s.Built) : s.words.length * 64 ≤ UInt32.size := by
  simp only [UInt32.size]
  induction hs with
  | empty => simp [Offsets.empty]
  | @insert s o _ ho ih =>
    rw [UInt32.size] at ho
    rw [Offsets.insert, length_setBit]
    omega
  | union _ _ ihs iht =>
    rw [Offsets.union, length_unite]
    omega

theorem lt_length_of_mem (h : o ∈ s.elements) : o / 64 < s.words.length := by
  by_contra hle
  rw [mem_elements, wordAt_eq_zero (by omega)] at h
  simp at h

/-- **Offsets in words are sets.** Adding an offset adds it to the elements and nothing else, a
union has the elements of both, inclusion and emptiness are those of the elements, the listing has
each element once and in ascending order, and the first and the last element are the least and the
greatest one, or there is none. Sets are equal exactly if they have the same elements. In sets that
come about from offsets of 32 bits, the place of every bit of every word fits into 32 bits as well.
-/
theorem behaves_as_set :
    empty.elements = ∅ ∧
    (∀ s o, (insert s o).elements = {o} ∪ s.elements) ∧
    (∀ s t, (union s t).elements = s.elements ∪ t.elements) ∧
    (∀ s t, includes s t = true ↔ t.elements ⊆ s.elements) ∧
    (∀ s, isEmpty s = true ↔ s.elements = ∅) ∧
    (∀ s, (toList s).Pairwise (· < ·) ∧ ∀ o, o ∈ s.toList ↔ o ∈ s.elements) ∧
    (∀ s, (∀ o, first? s = some o ↔ IsLeast s.elements o) ∧
      (s.first? = none ↔ s.elements = ∅)) ∧
    (∀ s, (∀ o, last? s = some o ↔ IsGreatest s.elements o) ∧
      (s.last? = none ↔ s.elements = ∅)) ∧
    (∀ s t : Offsets, s = t ↔ s.elements = t.elements) ∧
    ∀ s, Built s → (∀ o ∈ s.elements, o < UInt32.size) ∧
      ∀ i < s.words.length, i * 64 + 63 < UInt32.size := by
  refine ⟨elements_empty, elements_insert, elements_union, fun s t => includes_iff,
    fun s => isEmpty_iff, fun s => ⟨pairwise_toList s, fun o => mem_toList⟩,
    fun s => ⟨fun o => first?_eq_some_iff, first?_eq_none_iff⟩,
    fun s => ⟨fun o => last?_eq_some_iff, last?_eq_none_iff⟩,
    fun s t => ⟨fun h => h ▸ rfl, ext_elements⟩, fun s hs => ?_⟩
  have hlength := hs.length_le
  refine ⟨fun o ho => ?_, fun i hi => by omega⟩
  have := lt_length_of_mem ho
  omega

/-- Offsets of three words, and the greatest offset there is. -/
theorem behaves_as_set_threeWords :
    let s := ((single 130).insert 3).union (single 64)
    s.Built ∧ s.toList = [3, 64, 130] ∧ s.first? = some 3 ∧ s.last? = some 130 ∧
      s.words.length = 3 ∧ (∀ o ∈ s.elements, o < UInt32.size) ∧
      (∀ i < s.words.length, i * 64 + 63 < UInt32.size) ∧
      (single 4294967295).Built ∧
      ∀ i < (single 4294967295).words.length, i * 64 + 63 < UInt32.size := by
  intro s
  have hs : s.Built :=
    .union (.insert (.insert .empty (by decide)) (by decide)) (.insert .empty (by decide))
  have htop : (single 4294967295).Built := .insert .empty (by decide)
  obtain ⟨-, -, -, -, -, -, -, -, -, hbound⟩ := behaves_as_set
  exact ⟨hs, by decide +kernel, by decide +kernel, by decide +kernel, by decide +kernel,
    (hbound s hs).1, (hbound s hs).2, htop, (hbound _ htop).2⟩

end Offsets

end Decompiler

import Decompiler.Ty.Descriptor
import Mathlib.Data.List.TakeWhile

/-!
# What field descriptors write

Types are written in one way only: the brackets of the dimensions, then a letter or the name of a
class between `L` and `;`. Reading accepts exactly what is written so, and nothing else.

* `Ty.descriptor?`: the descriptor of a type. The type of `null`, the integer literals and the
  unknown type have none, nor have arrays of `void` and classes without a name.
* `Ty.elementOf?_eq_some_iff`: the part after the brackets.
* `Ty.ofDescriptor?_exact`: reading is the inverse of writing.
-/

namespace Decompiler

/-! ## Writing -/

/-- The letter of a primitive. -/
def Base.letter? : Base → Option Char
  | .boolean => some 'Z'
  | .byte => some 'B'
  | .char => some 'C'
  | .short => some 'S'
  | .int => some 'I'
  | .long => some 'J'
  | .float => some 'F'
  | .double => some 'D'
  | _ => none

/-- How an element type is written, in an array or on its own. -/
def Base.descriptor? (isArray : Bool) : Base → Option (List Char)
  | .void => if isArray then none else some ['V']
  | .object (some name) => if name = "" then none else some ('L' :: (name.toList ++ [';']))
  | base => base.letter?.map ([·])

namespace Ty

/-- The brackets of `n` dimensions. -/
def brackets (n : ℕ) : List Char := List.replicate n '['

/-- How a type is written. -/
def descriptor? (t : Ty) : Option String :=
  (t.base.descriptor? (t.dims.toNat > 0)).map fun element =>
    String.ofList (brackets t.dims.toNat ++ element)

variable {isArray : Bool} {base : Base} {chars element : List Char} {n : ℕ} {s : String} {t : Ty}

/-! ## Elements -/

theorem ofLetter?_eq_some_iff {c : Char} : ofLetter? c = some base ↔ base.letter? = some c := by
  constructor
  · intro h
    unfold ofLetter? at h
    split at h <;> cases h <;> rfl
  · intro h
    cases base <;> cases h <;> rfl

theorem descriptor?_of_letter {c : Char} (h : base.letter? = some c) :
    base.descriptor? isArray = some [c] := by
  cases base <;> cases h <;> rfl

theorem descriptor?_eq_letter (hvoid : base ≠ .void) (hclass : ∀ name, base ≠ .object (some name)) :
    base.descriptor? isArray = base.letter?.map ([·]) := by
  unfold Base.descriptor?
  split <;> simp_all

theorem elementOf?_letter {c : Char} (h : c ≠ 'V') : elementOf? isArray [c] = ofLetter? c := by
  unfold elementOf?
  split <;> simp_all

theorem elementOf?_name {name : List Char} {last : Char} :
    elementOf? isArray ('L' :: (name ++ [last])) =
      if last = ';' ∧ name ≠ [] then some (.object (some (String.ofList name))) else none := by
  simp [elementOf?]

/-- The name of a class stands between `L` and the last character, which is a `;`. -/
theorem elementOf?_class {rest : List Char} : elementOf? isArray ('L' :: rest) = some base ↔
    ∃ name, name ≠ "" ∧ base = .object (some name) ∧ rest = name.toList ++ [';'] := by
  rcases List.eq_nil_or_concat rest with rfl | ⟨name, last, rfl⟩
  · simp [elementOf?, ofLetter?]
  · rw [List.concat_eq_append, elementOf?_name]
    constructor
    · intro h
      split at h
      · next hclass =>
        cases h
        exact ⟨.ofList name, by simpa using hclass.2, rfl, by simp [hclass.1]⟩
      · cases h
    · rintro ⟨name', hname, rfl, hrest⟩
      obtain ⟨rfl, rfl⟩ : name = name'.toList ∧ last = ';' := by simpa using hrest
      simp [hname]

/-- The part of a descriptor after the brackets is read as what it writes. -/
theorem elementOf?_eq_some_iff :
    elementOf? isArray chars = some base ↔ base.descriptor? isArray = some chars := by
  constructor
  · intro h
    fun_cases elementOf? isArray chars with
    | case1 harray => simp [elementOf?, harray] at h
    | case2 harray =>
      obtain rfl : Base.void = base := by simpa [elementOf?, harray] using h
      simp [Base.descriptor?, harray]
    | case3 c hvoid =>
      rw [elementOf?_letter hvoid] at h
      exact descriptor?_of_letter (ofLetter?_eq_some_iff.1 h)
    | case4 | case5 =>
      obtain ⟨name, hname, rfl, rfl⟩ := elementOf?_class.1 h
      simp [Base.descriptor?, hname]
    | case6 _ hvoid hletter hclass =>
      unfold elementOf? at h
      split at h <;> simp_all
  · intro h
    fun_cases Base.descriptor? isArray base with
    | case1 harray => simp [Base.descriptor?, harray] at h
    | case2 harray =>
      obtain rfl : ['V'] = chars := by simpa [Base.descriptor?, harray] using h
      simp [elementOf?, harray]
    | case3 => simp [Base.descriptor?] at h
    | case4 name hname =>
      obtain rfl : 'L' :: (name.toList ++ [';']) = chars := by
        simpa [Base.descriptor?, hname] using h
      exact elementOf?_class.2 ⟨name, hname, rfl, rfl⟩
    | case5 _ hvoid hclass =>
      rw [descriptor?_eq_letter hvoid hclass] at h
      obtain ⟨c, hc, rfl⟩ := Option.map_eq_some_iff.1 h
      have hletter := ofLetter?_eq_some_iff.2 hc
      rwa [elementOf?_letter]
      rintro rfl
      cases hletter

/-! ## Brackets -/

/-- What is written for an element does not start with a bracket. -/
theorem head?_ne_of_descriptor? (h : base.descriptor? isArray = some element) :
    element.head? ≠ some '[' := by
  intro hhead
  obtain ⟨rest, rfl⟩ := List.head?_eq_some_iff.1 hhead
  have hread := elementOf?_eq_some_iff.2 h
  cases rest with
  | nil => cases hread
  | cons c rest => simp [elementOf?] at hread

/-- The brackets and what follows them are told apart by the first character that is no bracket. -/
theorem ofDescriptor?_brackets (h : element.head? ≠ some '[') (n : ℕ) :
    ofDescriptor? (String.ofList (brackets n ++ element)) =
      if n ≤ 255 then (elementOf? (n > 0) element).map (⟨·, UInt8.ofNat n⟩) else none := by
  have hbrackets : ∀ c ∈ brackets n, decide (c = '[') = true := fun c hc => by
    simpa using List.eq_of_mem_replicate hc
  have htake : (brackets n ++ element).takeWhile (· = '[') = brackets n := by
    rw [List.takeWhile_append_of_pos hbrackets]
    cases element with
    | nil => simp
    | cons c element => simp_all
  have hdrop : (brackets n ++ element).dropWhile (· = '[') = element := by
    rw [List.dropWhile_append_of_pos hbrackets]
    cases element with
    | nil => rfl
    | cons c element => simp_all
  rw [ofDescriptor?, String.toList_ofList, htake, hdrop, brackets, List.length_replicate]
  cases elementOf? (n > 0) element <;> simp

/-- Every string starts with some brackets, maybe none, and has none right behind them. -/
theorem exists_brackets (chars : List Char) :
    ∃ n element, element.head? ≠ some '[' ∧ chars = brackets n ++ element := by
  refine ⟨(chars.takeWhile (· = '[')).length, chars.dropWhile (· = '['), fun hhead => ?_, ?_⟩
  · have hfirst := List.head?_dropWhile_not (fun c => decide (c = '[')) chars
    simp [hhead] at hfirst
  · have htake : ∀ c ∈ chars.takeWhile (· = '['), c = '[' := fun c hc => by
      simpa using List.mem_takeWhile_imp hc
    rw [brackets, ← List.eq_replicate_of_mem htake, List.takeWhile_append_dropWhile]

theorem ofDescriptor?_eq_some_iff : ofDescriptor? s = some t ↔ t.descriptor? = some s := by
  constructor
  · intro h
    obtain ⟨n, element, hhead, hs⟩ := exists_brackets s.toList
    obtain rfl : String.ofList (brackets n ++ element) = s := by rw [← hs, String.ofList_toList]
    rw [ofDescriptor?_brackets hhead] at h
    split at h
    · next hn =>
      obtain ⟨base, hbase, rfl⟩ := Option.map_eq_some_iff.1 h
      have hdims : (UInt8.ofNat n).toNat = n := by simp; omega
      rw [descriptor?, hdims, elementOf?_eq_some_iff.1 hbase]
      rfl
    · cases h
  · intro h
    obtain ⟨element, helement, rfl⟩ := Option.map_eq_some_iff.1 h
    have hdims : t.dims.toNat ≤ 255 := Nat.le_of_lt_succ t.dims.toNat_lt
    rw [ofDescriptor?_brackets (head?_ne_of_descriptor? helement), if_pos hdims,
      elementOf?_eq_some_iff.2 helement, Option.map_some, UInt8.ofNat_toNat]

/-- There are at most 255 dimensions. -/
theorem ofDescriptor?_eq_none (hn : 255 < n) (rest : List Char) :
    ofDescriptor? (String.ofList (brackets n ++ rest)) = none := by
  obtain ⟨k, element, hhead, rfl⟩ := exists_brackets rest
  have hbrackets : brackets n ++ (brackets k ++ element) = brackets (n + k) ++ element := by
    rw [brackets, brackets, brackets, ← List.replicate_append_replicate, List.append_assoc]
  rw [hbrackets, ofDescriptor?_brackets hhead, if_neg (by omega)]

/-- **Descriptors are read exactly.** A string is read as a type exactly if it is what is written
for the type. So more than 255 brackets are refused, whatever follows them, and no type has two
descriptors. -/
theorem ofDescriptor?_exact :
    (∀ s t, ofDescriptor? s = some t ↔ t.descriptor? = some s) ∧
    (∀ n rest, 255 < n → ofDescriptor? (String.ofList (brackets n ++ rest)) = none) ∧
    ∀ s s' t, ofDescriptor? s = some t → ofDescriptor? s' = some t → s = s' := by
  refine ⟨fun s t => ofDescriptor?_eq_some_iff, fun n rest hn => ofDescriptor?_eq_none hn rest,
    fun s s' t h h' => ?_⟩
  have hs := ofDescriptor?_eq_some_iff.1 h
  rw [ofDescriptor?_eq_some_iff.1 h'] at hs
  exact (Option.some.inj hs).symm

/-- An array of a class whose name has a letter of two bytes. -/
theorem ofDescriptor?_exact_accented :
    (⟨.object (some "Café"), 2⟩ : Ty).descriptor? = some "[[LCafé;" ∧
    ofDescriptor? "[[LCafé;" = some ⟨.object (some "Café"), 2⟩ ∧
    (255 < 256 ∧ ofDescriptor? (String.ofList (brackets 256 ++ ['I'])) = none) ∧
    ∀ s, ofDescriptor? s = some ⟨.object (some "Café"), 2⟩ → s = "[[LCafé;" := by
  have hwritten : (⟨.object (some "Café"), 2⟩ : Ty).descriptor? = some "[[LCafé;" := by decide
  have hread := (ofDescriptor?_exact.1 _ _).2 hwritten
  exact ⟨hwritten, hread, ⟨by decide, ofDescriptor?_exact.2.1 256 ['I'] (by decide)⟩,
    fun s hs => ofDescriptor?_exact.2.2 s _ _ hs hread⟩

end Ty

end Decompiler

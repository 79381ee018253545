/-!
# Sets of bytecode offsets

Every expression carries the set of the bytecode offsets it was built from. Passes only let these
sets grow: the map from source lines to instructions is made of them, so an offset that is dropped
silently detaches a line from its instructions.

A set is kept in words of 64 bits: the bit at `b` of the word at `i` stands for the offset
`64 * i + b`. The last word is never empty, so that two sets with the same elements are equal.
-/

namespace Decompiler

/-- The bits of 64 offsets in a row. -/
abbrev Word := BitVec 64

namespace Word

/-- The bit of an offset in its word. -/
def bit (o : Nat) : Word := 1#64 <<< (o % 64)

theorem getLsbD_bit (o b : Nat) : (bit o).getLsbD b = decide (b = o % 64) := by
  have : o % 64 < 64 := Nat.mod_lt o (by decide)
  rw [bit, ← BitVec.twoPow_eq, BitVec.getLsbD_twoPow]
  simp [this, eq_comm]

theorem bit_ne_zero (o : Nat) : bit o ≠ 0#64 := by
  intro h
  have := getLsbD_bit o (o % 64)
  simp [h] at this

/-- The word without its lowest bit is smaller. -/
theorem and_sub_one_lt {w : Word} (h : w ≠ 0#64) : (w &&& (w - 1#64)).toNat < w.toNat := by
  have hpos : 0 < w.toNat := Nat.pos_of_ne_zero fun h0 => h (BitVec.eq_of_toNat_eq h0)
  have hle : (w &&& (w - 1#64)).toNat ≤ (w - 1#64).toNat := by
    rw [BitVec.toNat_and]
    exact Nat.and_le_right
  have hsub : (w - 1#64).toNat = w.toNat - 1 := by
    have := w.isLt
    rw [BitVec.toNat_sub]
    simp
    omega
  omega

/-- The places of the bits of a word, from the lowest on. Each is the number of the zeros below it;
then the bit is cleared. -/
def bits (w : Word) : List Nat :=
  if w = 0#64 then [] else w.ctz.toNat :: bits (w &&& (w - 1#64))
termination_by w.toNat
decreasing_by exact and_sub_one_lt ‹_›

end Word

/-- A finite set of bytecode offsets. -/
structure Offsets where
  /-- The words, each with the bits of 64 offsets. -/
  words : List Word
  /-- There is no empty word at the end. -/
  trimmed : words.getLast? ≠ some 0#64
  deriving DecidableEq

namespace Offsets

/-! ## Words -/

/-- The words with the bit of one offset set. -/
def setBit (ws : List Word) (o : Nat) : List Word :=
  (ws.rightpad (o / 64 + 1) 0#64).modify (o / 64) (· ||| Word.bit o)

/-- The words with the bits of both. -/
def unite : List Word → List Word → List Word
  | [], vs => vs
  | ws, [] => ws
  | w :: ws, v :: vs => (w ||| v) :: unite ws vs

/-- The word at a place. There are no elements behind the last word. -/
def wordAt (ws : List Word) (i : Nat) : Word := ws[i]?.getD 0#64

theorem wordAt_eq_zero {ws : List Word} {i : Nat} (h : ws.length ≤ i) : wordAt ws i = 0#64 := by
  rw [wordAt, List.getElem?_eq_none h, Option.getD_none]

theorem getLast?_ne_iff {ws : List Word} :
    ws.getLast? ≠ some 0#64 ↔ ∀ i, ws.length = i + 1 → wordAt ws i ≠ 0#64 := by
  rw [List.getLast?_eq_getElem?]
  constructor
  · intro h i hi heq
    rw [hi, Nat.add_sub_cancel] at h
    rw [wordAt, List.getElem?_eq_getElem (by omega), Option.getD_some] at heq
    exact h (by rw [List.getElem?_eq_getElem (by omega), heq])
  · intro h hlast
    obtain ⟨hlt, -⟩ := List.getElem?_eq_some_iff.1 hlast
    exact h (ws.length - 1) (by omega) (by rw [wordAt, hlast, Option.getD_some])

theorem length_setBit (ws : List Word) (o : Nat) :
    (setBit ws o).length = max ws.length (o / 64 + 1) := by
  simp [setBit]
  omega

/-- Empty words at the end change nothing. -/
theorem wordAt_rightpad (ws : List Word) (n i : Nat) :
    wordAt (ws.rightpad n 0#64) i = wordAt ws i := by
  by_cases hi : i < ws.length
  · rw [wordAt, wordAt, List.rightpad, List.getElem?_append_left hi]
  · rw [wordAt_eq_zero (Nat.le_of_not_lt hi), wordAt, List.rightpad,
      List.getElem?_append_right (by omega), List.getElem?_replicate]
    split <;> rfl

theorem wordAt_modify {ws : List Word} {i : Nat} (hi : i < ws.length) (f : Word → Word) (j : Nat) :
    wordAt (ws.modify i f) j = if j = i then f (wordAt ws j) else wordAt ws j := by
  rw [wordAt, wordAt, List.getElem?_modify]
  by_cases hij : i = j
  · subst hij
    simp [List.getElem?_eq_getElem hi]
  · simp [hij, Ne.symm hij]

theorem wordAt_setBit (ws : List Word) (o i : Nat) :
    wordAt (setBit ws o) i = if i = o / 64 then wordAt ws i ||| Word.bit o else wordAt ws i := by
  have hlt : o / 64 < (ws.rightpad (o / 64 + 1) 0#64).length := by
    simp [List.rightpad]
    omega
  rw [setBit, wordAt_modify hlt, wordAt_rightpad]

theorem length_unite (ws vs : List Word) : (unite ws vs).length = max ws.length vs.length := by
  fun_induction unite ws vs with
  | case1 => simp
  | case2 => simp
  | case3 w ws v vs ih => simp [ih]

theorem wordAt_unite (ws vs : List Word) (i : Nat) :
    wordAt (unite ws vs) i = wordAt ws i ||| wordAt vs i := by
  fun_induction unite ws vs generalizing i with
  | case1 => simp [wordAt]
  | case2 => simp [wordAt]
  | case3 w ws v vs ih =>
    cases i with
    | zero => simp [wordAt]
    | succ i => simpa [wordAt] using ih i

theorem trimmed_setBit {ws : List Word} (h : ws.getLast? ≠ some 0#64) (o : Nat) :
    (setBit ws o).getLast? ≠ some 0#64 := by
  rw [getLast?_ne_iff] at h ⊢
  intro i hi hzero
  rw [length_setBit] at hi
  rw [wordAt_setBit] at hzero
  split at hzero
  · exact Word.bit_ne_zero o (BitVec.or_eq_zero_iff.1 hzero).2
  · exact h i (by omega) hzero

theorem trimmed_unite {ws vs : List Word} (hws : ws.getLast? ≠ some 0#64)
    (hvs : vs.getLast? ≠ some 0#64) : (unite ws vs).getLast? ≠ some 0#64 := by
  rw [getLast?_ne_iff] at hws hvs ⊢
  intro i hi hzero
  rw [length_unite] at hi
  obtain ⟨hw, hv⟩ := BitVec.or_eq_zero_iff.1 (wordAt_unite ws vs i ▸ hzero)
  rcases Nat.le_total ws.length vs.length with hle | hle
  · exact hvs i (by omega) hv
  · exact hws i (by omega) hw

/-! ## Operations -/

/-- The set without elements. -/
def empty : Offsets := ⟨[], nofun⟩

/-- Membership. -/
def contains (s : Offsets) (o : Nat) : Bool :=
  s.words[o / 64]?.any fun w => w &&& Word.bit o ≠ 0#64

/-- Adds one offset. -/
def insert (s : Offsets) (o : Nat) : Offsets := ⟨setBit s.words o, trimmed_setBit s.trimmed o⟩

/-- The set of one offset. -/
def single (o : Nat) : Offsets := empty.insert o

/-- Adds every offset of a list. -/
def insertAll (s : Offsets) (l : List Nat) : Offsets := l.foldl insert s

/-- The set of the offsets of a list. -/
def ofList (l : List Nat) : Offsets := empty.insertAll l

/-- The union of two sets. -/
def union (s t : Offsets) : Offsets := ⟨unite s.words t.words, trimmed_unite s.trimmed t.trimmed⟩

/-- Whether there is no element. -/
def isEmpty (s : Offsets) : Bool := s.words.all (· = 0#64)

/-- Whether `s` holds every element of `t`. -/
def includes (s t : Offsets) : Bool :=
  t.words.zipIdx.all fun p => wordAt s.words p.2 &&& p.1 = p.1

/-- The elements, ascending. -/
def toList (s : Offsets) : List Nat :=
  s.words.zipIdx.flatMap fun p => (Word.bits p.1).map (p.2 * 64 + ·)

/-- The least element. -/
def first? (s : Offsets) : Option Nat := s.toList.head?

/-- The greatest element: it is in the last word with a bit, below the zeros at its upper end. -/
def last? (s : Offsets) : Option Nat :=
  (s.words.zipIdx.reverse.find? fun p => p.1 ≠ 0#64).map fun p =>
    p.2 * 64 + 63 - p.1.clz.toNat

/-- The range from the least to the greatest element. -/
def range? (s : Offsets) : Option (Nat × Nat) := do
  return (← s.first?, ← s.last?)

/-- The printed form: the elements between braces. -/
def text (s : Offsets) : String :=
  "\x7b" ++ String.intercalate ", " (s.toList.map toString) ++ "\x7d"

end Offsets

end Decompiler

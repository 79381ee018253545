import Decompiler.DebugTable.Attribute
import Decompiler.Proofs.Checked

/-!
# The format of debug attributes

The body of a debug attribute is read from front to back, with an error for every number that is cut
off. Here the same numbers are found by their places: the count in front, and record `i` ten bytes
wide from byte `2 + 10 * i` on.

* `readRecords_drop`: while the announced bytes are there, reading from front to back comes by the
  numbers at these places, and no number is cut off.
* `parse_eq`: a body is read in three steps; what can go wrong in the last one is a string alone.
* `parse_exact`: which bodies are accepted, with which rows, and why the others are refused.
-/

namespace Decompiler.DebugTable

variable {strings : Nat → Option String} {isTypeRow : Bool} {bytes : List UInt8}

/-! ## Numbers and records by their places -/

/-- The number at a position. Bytes beyond the end count as zero. -/
def numberAt (bytes : List UInt8) (position : Nat) : UInt16 :=
  .ofNat (wide (bytes.getD position 0) (bytes.getD (position + 1) 0))

/-- The two bytes that write a number. -/
def wideBytes (n : UInt16) : List UInt8 := [(n >>> 8).toUInt8, n.toUInt8]

/-- The numbers of a record. -/
structure Record where
  /-- The first offset of the range. -/
  start : UInt16
  /-- The length of the range. -/
  length : UInt16
  /-- The index of the name. -/
  name : UInt16
  /-- The index of the descriptor. -/
  descriptor : UInt16
  /-- The slot. -/
  slot : UInt16
  deriving DecidableEq

namespace Record

/-- The record at a position. -/
def ofBytes (bytes : List UInt8) (position : Nat) : Record where
  start := numberAt bytes position
  length := numberAt bytes (position + 2)
  name := numberAt bytes (position + 4)
  descriptor := numberAt bytes (position + 6)
  slot := numberAt bytes (position + 8)

/-- The bytes of a record. -/
def toBytes (r : Record) : List UInt8 :=
  wideBytes r.start ++ wideBytes r.length ++ wideBytes r.name ++ wideBytes r.descriptor ++
    wideBytes r.slot

/-- The indices of the strings of a record, in the order in which they are looked up. -/
def indices (r : Record) : List Nat := [r.name.toNat, r.descriptor.toNat]

/-- Both strings of a record are there. -/
def IsResolved (strings : Nat → Option String) (r : Record) : Prop :=
  ∀ index ∈ r.indices, (strings index).isSome

/-- The first index of a record without a string. -/
def missing? (strings : Nat → Option String) (r : Record) : Option Nat :=
  r.indices.find? fun index => (strings index).isNone

/-- What a record says of a row. -/
structure Says (strings : Nat → Option String) (isTypeRow : Bool) (r : Record) (e : DebugEntry) :
    Prop where
  name : strings r.name.toNat = some e.name
  descriptor : strings r.descriptor.toNat = some e.descriptor
  signature : e.signature = none
  start : e.start = r.start.toNat
  stop : e.stop = r.start.toNat + r.length.toNat
  slot : e.slot = r.slot.toNat
  isTypeRow : e.isTypeRow = isTypeRow

/-- The row of a record, if its strings are there. -/
def row (strings : Nat → Option String) (isTypeRow : Bool) (r : Record) :
    Except AttributeError DebugEntry := do
  let name ← string strings r.name.toNat
  let descriptor ← string strings r.descriptor.toNat
  return ⟨name, descriptor, none, r.start.toNat, r.start.toNat + r.length.toNat, r.slot.toNat,
    isTypeRow⟩

end Record

/-- How many records a body announces. -/
def announced (bytes : List UInt8) : Nat := (numberAt bytes 0).toNat

/-- The records that a body announces. -/
def records (bytes : List UInt8) : List Record :=
  (List.range (announced bytes)).map fun i => .ofBytes bytes (2 + 10 * i)

/-- The bytes of the count and of all announced records are there. -/
def IsComplete (bytes : List UInt8) : Prop :=
  2 ≤ bytes.length ∧ 2 + 10 * announced bytes ≤ bytes.length

/-- The body of an attribute with some records. -/
def encode (l : List Record) : List UInt8 :=
  wideBytes (.ofNat l.length) ++ l.flatMap Record.toBytes

/-- The first index of some records without a string. -/
def missing? (strings : Nat → Option String) (l : List Record) : Option Nat :=
  l.findSome? (Record.missing? strings)

/-- Why a body is refused: the count is cut off, a record is, or a string is missing. -/
inductive Refuses (strings : Nat → Option String) (bytes : List UInt8) : AttributeError → Prop where
  | count : bytes.length < 2 → Refuses strings bytes (.truncated 2 bytes.length)
  | body : 2 ≤ bytes.length → bytes.length < 2 + 10 * announced bytes →
      Refuses strings bytes (.truncated (2 + 10 * announced bytes) bytes.length)
  | string {index : Nat} : IsComplete bytes → missing? strings (records bytes) = some index →
      Refuses strings bytes (.badString index)

/-! ## From front to back -/

theorem wide_lt (high low : UInt8) : wide high low < 65536 := by
  have := high.toNat_lt
  have := low.toNat_lt
  unfold wide
  omega

/-- Two bytes that are there are read as the number at their place. -/
theorem readWide_drop (size position : Nat) (h : position + 2 ≤ bytes.length) :
    readWide size (bytes.drop position) =
      .ok ((numberAt bytes position).toNat, bytes.drop (position + 2)) := by
  have hhigh : position < bytes.length := by omega
  have hlow : position + 1 < bytes.length := by omega
  rw [List.drop_eq_getElem_cons hhigh, List.drop_eq_getElem_cons hlow]
  simp [readWide, numberAt, hhigh, hlow, Nat.mod_eq_of_lt (wide_lt _ _)]

theorem readRecord_drop (size : Nat) {position : Nat} (h : position + 10 ≤ bytes.length) :
    readRecord strings isTypeRow size (bytes.drop position) =
      ((Record.ofBytes bytes position).row strings isTypeRow).map
        fun e => (e, bytes.drop (position + 10)) := by
  simp (disch := omega) only [readRecord, readWide_drop, Record.row, Record.ofBytes, bind,
    Except.bind, Nat.add_assoc, Nat.reduceAdd]
  cases string strings (numberAt bytes (position + 4)).toNat with
  | error => rfl
  | ok name => cases string strings (numberAt bytes (position + 6)).toNat <;> rfl

/-- While the bytes are there, the records are read at their places. -/
theorem readRecords_drop (size count : Nat) {position : Nat}
    (h : position + 10 * count ≤ bytes.length) :
    readRecords strings isTypeRow size count (bytes.drop position) =
      ((List.range count).map fun i => Record.ofBytes bytes (position + 10 * i)).mapM
        (Record.row strings isTypeRow) := by
  induction count generalizing position with
  | zero => rfl
  | succ count ih =>
    have hplace : (fun i => Record.ofBytes bytes (position + 10 * i)) ∘ Nat.succ =
        fun i => Record.ofBytes bytes (position + 10 + 10 * i) := by
      funext i
      simp only [Function.comp, Nat.mul_succ, Nat.add_assoc, Nat.add_comm 10]
    rw [readRecords, readRecord_drop size (by omega), List.range_succ_eq_map, List.map_cons,
      List.map_map, hplace, List.mapM_cons, ← ih (by omega), Nat.mul_zero, Nat.add_zero]
    cases (Record.ofBytes bytes position).row strings isTypeRow <;> rfl

/-- A body is read in three steps; what can go wrong in the last one is a string alone. -/
theorem parse_eq : parse strings isTypeRow bytes =
    if bytes.length < 2 then .error (.truncated 2 bytes.length)
    else if bytes.length < 2 + 10 * announced bytes then
      .error (.truncated (2 + 10 * announced bytes) bytes.length)
    else ((records bytes).mapM (Record.row strings isTypeRow)).map ofEntries := by
  split
  · next hcount =>
    match bytes, hcount with
    | [], _ => rfl
    | [_], _ => rfl
  · next hcount =>
    have hread : readWide bytes.length bytes = .ok (announced bytes, bytes.drop 2) :=
      readWide_drop bytes.length 0 (by omega)
    simp only [parse, hread, bind, Except.bind, Nat.mul_comm _ 10]
    split
    · rfl
    · next hbody =>
      rw [readRecords_drop _ _ (by omega), records]
      cases List.mapM (Record.row strings isTypeRow) (List.map _ _) <;> rfl

/-! ## Which records have their strings -/

namespace Record

variable {r : Record}

theorem missing?_eq_none_iff : r.missing? strings = none ↔ r.IsResolved strings := by
  simp [missing?, IsResolved, Option.isSome_iff_ne_none]

/-- A record is refused for its first missing string. -/
theorem row_of_missing {index : Nat} (h : r.missing? strings = some index) :
    r.row strings isTypeRow = .error (.badString index) := by
  simp only [missing?, indices, List.find?_cons, List.find?_nil] at h
  unfold row string
  cases hname : strings r.name.toNat with
  | none =>
    rw [hname] at h
    cases h
    rfl
  | some name =>
    cases hdescriptor : strings r.descriptor.toNat with
    | none =>
      rw [hname, hdescriptor] at h
      cases h
      rfl
    | some descriptor =>
      rw [hname, hdescriptor] at h
      cases h

/-- A record with both strings gives the row that it says. -/
theorem row_of_resolved (isTypeRow : Bool) (h : r.IsResolved strings) :
    ∃ e, r.row strings isTypeRow = .ok e ∧ r.Says strings isTypeRow e := by
  obtain ⟨name, hname⟩ := Option.isSome_iff_exists.1 (h r.name.toNat (by simp [indices]))
  obtain ⟨descriptor, hdescriptor⟩ :=
    Option.isSome_iff_exists.1 (h r.descriptor.toNat (by simp [indices]))
  refine ⟨⟨name, descriptor, none, r.start.toNat, r.start.toNat + r.length.toNat, r.slot.toNat,
    isTypeRow⟩, ?_, hname, hdescriptor, rfl, rfl, rfl, rfl, rfl⟩
  simp only [row, string, hname, hdescriptor]
  rfl

theorem Says.isResolved {e : DebugEntry} (h : r.Says strings isTypeRow e) :
    r.IsResolved strings := by
  simp [IsResolved, indices, h.name, h.descriptor]

theorem Says.unique {e e' : DebugEntry} (h : r.Says strings isTypeRow e)
    (h' : r.Says strings isTypeRow e') : e = e' := by
  obtain ⟨name, descriptor, signature, start, stop, slot, isTypeRow⟩ := h
  cases e
  cases e'
  grind [Says]

/-- The end of a row is far from the limit of 32 bits. -/
theorem Says.stop_lt {e : DebugEntry} (h : r.Says strings isTypeRow e) : e.stop < 4294967296 := by
  have := r.start.toNat_lt
  have := r.length.toNat_lt
  rw [h.stop]
  omega

end Record

variable {l : List Record}

theorem missing?_eq_none_iff : missing? strings l = none ↔ ∀ r ∈ l, r.IsResolved strings := by
  simp [missing?, Record.missing?_eq_none_iff]

theorem mapM_row_of_missing {index : Nat} (h : missing? strings l = some index) :
    l.mapM (Record.row strings isTypeRow) = .error (.badString index) := by
  induction l with
  | nil => cases h
  | cons r l ih =>
    rw [missing?, List.findSome?_cons] at h
    rw [List.mapM_cons]
    cases hr : r.missing? strings with
    | some index' =>
      rw [hr] at h
      cases h
      rw [Record.row_of_missing hr]
      rfl
    | none =>
      rw [hr] at h
      obtain ⟨e, he, -⟩ := Record.row_of_resolved isTypeRow (Record.missing?_eq_none_iff.1 hr)
      rw [he, ih h]
      rfl

theorem mapM_row_of_resolved (isTypeRow : Bool) (h : ∀ r ∈ l, r.IsResolved strings) :
    ∃ rows, l.mapM (Record.row strings isTypeRow) = .ok rows ∧
      List.Forall₂ (Record.Says strings isTypeRow) l rows := by
  induction l with
  | nil => exact ⟨[], rfl, .nil⟩
  | cons r l ih =>
    obtain ⟨e, he, hrow⟩ := Record.row_of_resolved isTypeRow (h r (by simp))
    obtain ⟨rows, hrows, hall⟩ := ih fun r hr => h r (by simp [hr])
    refine ⟨e :: rows, ?_, .cons hrow hall⟩
    rw [List.mapM_cons, he, hrows]
    rfl

/-! ## Accepted and refused bodies -/

/-- A body that says what its rows are is accepted. -/
theorem parse_of_resolved (isTypeRow : Bool) (hcomplete : IsComplete bytes)
    (h : ∀ r ∈ records bytes, r.IsResolved strings) :
    ∃ rows, parse strings isTypeRow bytes = .ok (ofEntries rows) ∧
      List.Forall₂ (Record.Says strings isTypeRow) (records bytes) rows := by
  obtain ⟨rows, hrows, hall⟩ := mapM_row_of_resolved isTypeRow h
  refine ⟨rows, ?_, hall⟩
  rw [parse_eq, if_neg (by have := hcomplete.1; omega), if_neg (by have := hcomplete.2; omega),
    hrows]
  rfl

theorem Refuses.parse_eq {error : AttributeError} (h : Refuses strings bytes error) :
    parse strings isTypeRow bytes = .error error := by
  rw [DebugTable.parse_eq]
  cases h with
  | count hcount => rw [if_pos hcount]
  | body hcount hbody => rw [if_neg (by omega), if_pos hbody]
  | string hcomplete hstring =>
    rw [if_neg (by have := hcomplete.1; omega), if_neg (by have := hcomplete.2; omega),
      mapM_row_of_missing hstring]
    rfl

/-- There is a reason to refuse every body that cannot be accepted. -/
theorem exists_refuses (h : ¬ (IsComplete bytes ∧ ∀ r ∈ records bytes, r.IsResolved strings)) :
    ∃ error, Refuses strings bytes error := by
  by_cases hcount : bytes.length < 2
  · exact ⟨_, .count hcount⟩
  by_cases hbody : bytes.length < 2 + 10 * announced bytes
  · exact ⟨_, .body (by omega) hbody⟩
  have hcomplete : IsComplete bytes := ⟨by omega, by omega⟩
  cases hstring : missing? strings (records bytes) with
  | some index => exact ⟨_, .string hcomplete hstring⟩
  | none => exact absurd ⟨hcomplete, missing?_eq_none_iff.1 hstring⟩ h

theorem parse_eq_error_iff {error : AttributeError} :
    parse strings isTypeRow bytes = .error error ↔ Refuses strings bytes error := by
  refine ⟨fun h => ?_, Refuses.parse_eq⟩
  by_cases haccepted : IsComplete bytes ∧ ∀ r ∈ records bytes, r.IsResolved strings
  · obtain ⟨rows, hrows, -⟩ := parse_of_resolved isTypeRow haccepted.1 haccepted.2
    rw [hrows] at h
    cases h
  · obtain ⟨error', herror'⟩ := exists_refuses haccepted
    rw [herror'.parse_eq] at h
    cases h
    exact herror'

theorem parse_eq_ok_iff {t : DebugTable} :
    parse strings isTypeRow bytes = .ok t ↔
      IsComplete bytes ∧ t = ofEntries t.entries ∧
        List.Forall₂ (Record.Says strings isTypeRow) (records bytes) t.entries := by
  constructor
  · intro h
    by_cases haccepted : IsComplete bytes ∧ ∀ r ∈ records bytes, r.IsResolved strings
    · obtain ⟨rows, hrows, hall⟩ := parse_of_resolved isTypeRow haccepted.1 haccepted.2
      rw [hrows] at h
      cases h
      exact ⟨haccepted.1, by rw [entries_ofEntries], by rwa [entries_ofEntries]⟩
    · obtain ⟨error, herror⟩ := exists_refuses haccepted
      rw [herror.parse_eq] at h
      cases h
  · rintro ⟨hcomplete, ht, hall⟩
    have hresolved : ∀ r ∈ records bytes, r.IsResolved strings := fun r hr => by
      obtain ⟨e, -, he⟩ := Checked.exists_of_mem hall hr
      exact he.isResolved
    obtain ⟨rows, hrows, hall'⟩ := parse_of_resolved isTypeRow hcomplete hresolved
    have heq : rows = t.entries :=
      List.right_unique_forall₂' (fun _ _ _ h h' => h.unique h') hall' hall
    rw [hrows, heq, ← ht]

/-! ## Bytes after the last record, and bodies that are written -/

theorem numberAt_append {rest : List UInt8} {position : Nat} (h : position + 2 ≤ bytes.length) :
    numberAt (bytes ++ rest) position = numberAt bytes position := by
  have hhigh : position < bytes.length := by omega
  have hlow : position + 1 < bytes.length := by omega
  simp [numberAt, List.getElem?_append_left, hhigh, hlow]

theorem announced_append {rest : List UInt8} (h : 2 ≤ bytes.length) :
    announced (bytes ++ rest) = announced bytes := by
  rw [announced, announced, numberAt_append h]

theorem IsComplete.append (h : IsComplete bytes) (rest : List UInt8) :
    IsComplete (bytes ++ rest) := by
  have := h.1
  have := h.2
  rw [IsComplete, announced_append h.1, List.length_append]
  omega

theorem IsComplete.records_append (h : IsComplete bytes) (rest : List UInt8) :
    records (bytes ++ rest) = records bytes := by
  rw [records, records, announced_append h.1]
  refine List.map_congr_left fun i hi => ?_
  have := List.mem_range.1 hi
  have := h.2
  simp (disch := omega) only [Record.ofBytes, numberAt_append]

/-- What stands after the last record is ignored. -/
theorem IsComplete.parse_append (h : IsComplete bytes) (rest : List UInt8) :
    parse strings isTypeRow (bytes ++ rest) = parse strings isTypeRow bytes := by
  have := h.1
  have := h.2
  have hlength := h.append rest
  have := hlength.1
  have := hlength.2
  simp (disch := omega) only [parse_eq, if_neg, h.records_append]

theorem wide_wideBytes (n : UInt16) : wide (n >>> 8).toUInt8 n.toUInt8 = n.toNat := by
  have hn := n.toNat_lt
  have hhigh : (n >>> 8).toUInt8.toNat = n.toNat / 256 % 256 := by
    simp [Nat.shiftRight_eq_div_pow]
  rw [wide, hhigh, UInt16.toNat_toUInt8]
  omega

theorem numberAt_wideBytes (n : UInt16) (rest : List UInt8) :
    numberAt (wideBytes n ++ rest) 0 = n := by
  simp [numberAt, wideBytes, wide_wideBytes]

theorem Record.ofBytes_toBytes (front : List UInt8) (r : Record) (rest : List UInt8) :
    Record.ofBytes (front ++ (r.toBytes ++ rest)) front.length = r := by
  simp [Record.ofBytes, numberAt, Record.toBytes, wideBytes, wide_wideBytes, Nat.add_assoc]

@[simp] theorem Record.length_toBytes (r : Record) : r.toBytes.length = 10 := rfl

/-- Written records are found at their places. -/
theorem ofBytes_flatMap_toBytes (front : List UInt8) (l : List Record) (rest : List UInt8) :
    ((List.range l.length).map fun i => Record.ofBytes (front ++ (l.flatMap Record.toBytes ++ rest))
      (front.length + 10 * i)) = l := by
  induction l generalizing front with
  | nil => rfl
  | cons r l ih =>
    have hrest := ih (front ++ r.toBytes)
    simp only [List.append_assoc, List.length_append, Record.length_toBytes] at hrest
    rw [List.length_cons, List.range_succ_eq_map, List.map_cons, List.map_map, List.flatMap_cons]
    simp only [List.append_assoc, Nat.mul_zero, Nat.add_zero, Record.ofBytes_toBytes,
      Function.comp_def, Nat.mul_succ, Nat.add_comm (10 * _) 10, ← Nat.add_assoc, hrest]

theorem announced_encode {l : List Record} (h : l.length ≤ 65535) :
    announced (encode l) = l.length := by
  rw [announced, encode, numberAt_wideBytes, UInt16.toNat_ofNat']
  omega

theorem isComplete_encode {l : List Record} (h : l.length ≤ 65535) : IsComplete (encode l) := by
  have hlength : (encode l).length = 2 + 10 * l.length := by
    simp only [encode, wideBytes, List.length_append, List.length_flatMap, Record.length_toBytes,
      List.map_const', List.sum_replicate_nat, List.length_cons, List.length_nil]
    omega
  rw [IsComplete, announced_encode h, hlength]
  omega

theorem records_encode {l : List Record} (h : l.length ≤ 65535) : records (encode l) = l := by
  rw [records, announced_encode h]
  simpa [encode, wideBytes] using ofBytes_flatMap_toBytes (wideBytes (.ofNat l.length)) l []

/-- Records that are written and read again come back. -/
theorem parse_encode (isTypeRow : Bool) {l : List Record} (h : l.length ≤ 65535)
    (hresolved : ∀ r ∈ l, r.IsResolved strings) :
    ∃ t, parse strings isTypeRow (encode l) = .ok t ∧
      List.Forall₂ (Record.Says strings isTypeRow) l t.entries := by
  obtain ⟨rows, hrows, hall⟩ := parse_of_resolved isTypeRow (isComplete_encode h)
    (by rwa [records_encode h])
  exact ⟨_, hrows, by rwa [entries_ofEntries, ← records_encode h]⟩

/-! ## The format -/

/-- A body is accepted exactly when the bytes of its count and of all announced records are there
and each of these has its strings. The rows are then what the records say, in order; bytes after
them are ignored. Any other body is refused for the first thing that is missing: the bytes before
the strings, and the strings in the order of the records, a name before its descriptor. So records
that are written and read again come back. -/
theorem parse_exact (strings : Nat → Option String) (isTypeRow : Bool) (bytes : List UInt8) :
    ((∃ t, parse strings isTypeRow bytes = .ok t) ↔
      IsComplete bytes ∧ ∀ r ∈ records bytes, r.IsResolved strings) ∧
    (∀ t, parse strings isTypeRow bytes = .ok t →
      t = ofEntries t.entries ∧
      List.Forall₂ (Record.Says strings isTypeRow) (records bytes) t.entries ∧
      ∀ e ∈ t.entries, e.stop < 4294967296) ∧
    (∀ error, parse strings isTypeRow bytes = .error error ↔ Refuses strings bytes error) ∧
    (IsComplete bytes → ∀ rest,
      parse strings isTypeRow (bytes ++ rest) = parse strings isTypeRow bytes) ∧
    (∀ l : List Record, l.length ≤ 65535 → (∀ r ∈ l, r.IsResolved strings) →
      ∃ t, parse strings isTypeRow (encode l) = .ok t ∧
        List.Forall₂ (Record.Says strings isTypeRow) l t.entries) := by
  refine ⟨⟨?_, ?_⟩, fun t ht => ?_, fun error => parse_eq_error_iff,
    fun hcomplete rest => hcomplete.parse_append rest, fun l => parse_encode isTypeRow⟩
  · rintro ⟨t, ht⟩
    obtain ⟨hcomplete, -, hall⟩ := parse_eq_ok_iff.1 ht
    refine ⟨hcomplete, fun r hr => ?_⟩
    obtain ⟨e, -, he⟩ := Checked.exists_of_mem hall hr
    exact he.isResolved
  · rintro ⟨hcomplete, hresolved⟩
    obtain ⟨rows, hrows, -⟩ := parse_of_resolved isTypeRow hcomplete hresolved
    exact ⟨_, hrows⟩
  · obtain ⟨-, hentries, hall⟩ := parse_eq_ok_iff.1 ht
    refine ⟨hentries, hall, fun e he => ?_⟩
    obtain ⟨r, -, hr⟩ := Checked.exists_of_mem hall.flip he
    exact Record.Says.stop_lt hr

/-- A pool with two strings. -/
def twoStrings : Nat → Option String
  | 1 => some "count"
  | 2 => some "I"
  | _ => none

/-- The record of a variable in slot 3 that lives from 10 to 40, its strings in that pool. -/
def countRecord : Record := ⟨10, 30, 1, 2, 3⟩

theorem isResolved_countRecord : ∀ r ∈ [countRecord], r.IsResolved twoStrings := by
  simp [Record.IsResolved, Record.indices, countRecord, twoStrings]

theorem parse_exact_countRecord :
    (IsComplete (encode [countRecord]) ∧
      parse twoStrings false (encode [countRecord] ++ [255]) =
        parse twoStrings false (encode [countRecord])) ∧
    ([countRecord].length ≤ 65535 ∧ (∀ r ∈ [countRecord], r.IsResolved twoStrings) ∧
      ∃ t, parse twoStrings false (encode [countRecord]) = .ok t ∧
        List.Forall₂ (Record.Says twoStrings false) [countRecord] t.entries) ∧
    parse twoStrings false [0, 2, 0, 10, 0, 30, 0, 1, 0, 2, 0, 3] = .error (.truncated 22 12) ∧
    parse twoStrings false [0, 1, 0, 10, 0, 30, 0, 9, 0, 8, 0, 3] = .error (.badString 9) := by
  have hcomplete : IsComplete (encode [countRecord]) := isComplete_encode (by decide)
  refine ⟨⟨hcomplete, ?_⟩, ⟨by decide, isResolved_countRecord, ?_⟩, ?_, ?_⟩
  · exact (parse_exact twoStrings false _).2.2.2.1 hcomplete [255]
  · exact (parse_exact twoStrings false []).2.2.2.2 _ (by decide) isResolved_countRecord
  · exact ((parse_exact twoStrings false _).2.2.1 _).2 (.body (by decide) (by decide))
  · exact ((parse_exact twoStrings false _).2.2.1 _).2 (.string ⟨by decide, by decide⟩ (by decide))

end Decompiler.DebugTable

import Decompiler.Batch
import Decompiler.Proofs.DebugTable.Format
import Decompiler.Proofs.DebugTable.Lookups

/-!
# Signatures of debug rows

The value tables of a method are folded together before its type tables, whose rows hand their
descriptors over as signatures. What this makes of the rows of the value tables is a join: a row
that is the first one with its key takes over the first type row with this key.

* `DebugTable.Signed`: the rows of the value tables have the signatures of the type rows up to some
  point. One row (`Signed.mergeEntry`) and a run of them (`Signed.foldl`) keep this.
* `RawMethod.registry_returns`: the table of a method, made of what its attributes say.
* `RawMethod.registry_signs`: type tables only add signatures to the rows of the value tables.
-/

namespace Decompiler

namespace DebugTable

variable {t : DebugTable} {e row : DebugEntry} {key : MergeKey} {values done : List DebugEntry}

/-! ## One row -/

/-- A row is folded into the first row with its key, or added if there is none. -/
theorem mergeEntry_cases (key : MergeKey) (t : DebugTable) (row : DebugEntry) :
    (∃ (i : ℕ) (hi : i < t.entries.length), t.entries[i].key key = row.key key ∧
      (∀ j (hj : j < i), t.entries[j].key key ≠ row.key key) ∧
      (t.mergeEntry key row).entries = t.entries.modify i fun mine => mine.merge row) ∨
    (∀ e ∈ t.entries, e.key key ≠ row.key key) ∧
      (t.mergeEntry key row).entries = t.entries ++ [row] := by
  unfold mergeEntry
  cases hfind : t.entries.findIdx? fun mine => mine.key key = row.key key with
  | some i =>
    obtain ⟨hi, hkey, hfirst⟩ := List.findIdx?_eq_some_iff_getElem.1 hfind
    exact .inl ⟨i, hi, of_decide_eq_true hkey, fun j hj => by simpa using hfirst j hj, rfl⟩
  | none => exact .inr ⟨by simpa using hfind, rfl⟩

/-- The signature of a row of the value tables: that of the first type row with its key, unless it
stands behind another row with this key. -/
def typeSignature? (key : MergeKey) (front rows : List DebugEntry) (e : DebugEntry) :
    Option String :=
  if ∃ mine ∈ front, mine.key key = e.key key then none
  else (rows.find? fun row => row.key key = e.key key).map DebugEntry.descriptor

/-- The list `l` starts with the rows of the value tables. Nothing of them is changed but the
signature, which is that of the type rows. -/
def Signed (key : MergeKey) (values rows l : List DebugEntry) : Prop :=
  ∀ (i : ℕ) (e : DebugEntry), values[i]? = some e → l[i]? =
    some { e with signature := typeSignature? key (values.take i) rows e }

/-- A type row with another key plays no part. -/
theorem typeSignature?_append_of_ne {front rows : List DebugEntry}
    (h : row.key key ≠ e.key key) :
    typeSignature? key front (rows ++ [row]) e = typeSignature? key front rows e := by
  simp [typeSignature?, List.find?_append, h]

/-- A row behind another one with its key has no signature. -/
theorem typeSignature?_of_mem {front rows : List DebugEntry} {mine : DebugEntry}
    (hmine : mine ∈ front) (h : mine.key key = e.key key) :
    typeSignature? key front rows e = none :=
  if_pos ⟨mine, hmine, h⟩

/-- A type row with the key of the first row gives it a signature, unless one before did. -/
theorem merge_typeSignature? {front rows : List DebugEntry} (hrow : row.isTypeRow = true)
    (hfront : ∀ mine ∈ front, mine.key key ≠ e.key key) (h : row.key key = e.key key) :
    DebugEntry.merge { e with signature := typeSignature? key front rows e } row =
      { e with signature := typeSignature? key front (rows ++ [row]) e } := by
  have hfirst : ¬ ∃ mine ∈ front, mine.key key = e.key key := by simpa using hfront
  simp only [typeSignature?, hfirst, if_false, List.find?_append]
  cases hfind : rows.find? fun row => row.key key = e.key key with
  | none => simp [DebugEntry.merge, hrow, h]
  | some first => simp [DebugEntry.merge]

/-- The rows stand where those of the value tables do, with their keys. -/
theorem Signed.key_eq (h : Signed key values done t.entries) {i : ℕ} (he : values[i]? = some e)
    (hi : i < t.entries.length) : t.entries[i].key key = e.key key := by
  rw [(List.getElem?_eq_some_iff.1 (h i e he)).2]
  cases key <;> rfl

theorem mem_take_iff {i : ℕ} : e ∈ values.take i ↔ ∃ j, j < i ∧ values[j]? = some e := by
  simp only [List.mem_iff_getElem?, List.getElem?_take, Option.ite_none_right_eq_some]

/-- A row behind another one with its key has no signature, whatever the type rows are. -/
theorem Signed.typeSignature?_of_lt (h : Signed key values done t.entries) {p i : ℕ}
    (he : values[i]? = some e) (hp : p < t.entries.length) (hlt : p < i)
    (hkey : t.entries[p].key key = e.key key) (rows : List DebugEntry) :
    typeSignature? key (values.take i) rows e = none := by
  obtain ⟨hi, -⟩ := List.getElem?_eq_some_iff.1 he
  have hvalue : values[p]? = some values[p] := List.getElem?_eq_getElem (hlt.trans hi)
  exact typeSignature?_of_mem (mem_take_iff.2 ⟨p, hlt, hvalue⟩)
    ((h.key_eq hvalue hp).symm.trans hkey)

theorem Signed.mergeEntry (h : Signed key values done t.entries) (hrow : row.isTypeRow = true) :
    Signed key values (done ++ [row]) (t.mergeEntry key row).entries := by
  intro i e he
  obtain ⟨hi, -⟩ := List.getElem?_eq_some_iff.1 (h i e he)
  have hkeyi : t.entries[i].key key = e.key key := h.key_eq he hi
  rcases mergeEntry_cases key t row with ⟨p, hp, hkey, hfirst, hentries⟩ | ⟨hnone, hentries⟩
  · rw [hentries, List.getElem?_modify, h i e he, Option.map_eq_map, Option.map_some]
    congr 1
    rcases Nat.lt_trichotomy p i with hlt | rfl | hgt
    · rw [if_neg hlt.ne]
      by_cases hsame : row.key key = e.key key
      · have hnone := h.typeSignature?_of_lt he hp hlt (hkey.trans hsame)
        rw [hnone, hnone]
      · rw [typeSignature?_append_of_ne hsame]
    · rw [if_pos rfl]
      refine merge_typeSignature? hrow (fun mine hmine heq => ?_) (hkey.symm.trans hkeyi)
      obtain ⟨j, hlt, hj⟩ := mem_take_iff.1 hmine
      exact hfirst j hlt <| calc
        t.entries[j].key key = mine.key key := h.key_eq hj (hlt.trans hi)
        _ = e.key key := heq
        _ = t.entries[p].key key := hkeyi.symm
        _ = row.key key := hkey
    · -- The first row with the key of the type row stands behind this one.
      rw [if_neg hgt.ne', typeSignature?_append_of_ne fun hsame =>
        hfirst i hgt (hkeyi.trans hsame.symm)]
  · rw [hentries, List.getElem?_append_left hi, h i e he, typeSignature?_append_of_ne fun hsame =>
      hnone _ (List.getElem_mem hi) (hkeyi.trans hsame.symm)]

/-! ## Many rows -/

theorem Signed.foldl (h : Signed key values done t.entries) {rows : List DebugEntry}
    (hrows : ∀ row ∈ rows, row.isTypeRow = true) :
    Signed key values (done ++ rows) (rows.foldl (DebugTable.mergeEntry key) t).entries := by
  induction rows generalizing done t with
  | nil => simpa using h
  | cons row rows ih =>
    have hstep := ih (h.mergeEntry (hrows row (by simp))) fun row hrow => hrows row (by simp [hrow])
    rwa [List.append_assoc, List.singleton_append] at hstep

/-- A table without signatures starts as it is. -/
theorem signed_self (h : ∀ e ∈ t.entries, e.signature = none) :
    Signed key t.entries [] t.entries := by
  intro i e he
  have hnone : typeSignature? key (t.entries.take i) [] e = none := by
    unfold typeSignature?
    split <;> rfl
  rw [hnone, ← h e (List.mem_of_getElem? he)]
  exact he

/-- A row of a value table adds no signature. -/
theorem unsigned_mergeEntry (h : ∀ e ∈ t.entries, e.signature = none)
    (hrow : row.isTypeRow = false) (hsignature : row.signature = none) :
    ∀ e ∈ (t.mergeEntry key row).entries, e.signature = none := by
  rcases mergeEntry_cases key t row with ⟨p, -, -, -, hentries⟩ | ⟨-, hentries⟩
  · have hsame : (fun mine : DebugEntry => mine.merge row) = id := by
      funext mine
      simp [DebugEntry.merge, hrow]
    rw [hentries, hsame, List.modify_id]
    exact h
  · intro e he
    rw [hentries, List.mem_append, List.mem_singleton] at he
    rcases he with he | rfl
    · exact h e he
    · exact hsignature

theorem unsigned_merge {other : DebugTable} (h : ∀ e ∈ t.entries, e.signature = none)
    (hother : ∀ e ∈ other.entries, e.signature = none ∧ e.isTypeRow = false) :
    ∀ e ∈ (t.merge other key).entries, e.signature = none :=
  List.foldlRecOn (motive := fun t : DebugTable => ∀ e ∈ t.entries, e.signature = none) _ _ h
    fun _ h row hrow => unsigned_mergeEntry h (hother row hrow).2 (hother row hrow).1

/-! ## Tables folded together -/

/-- Folds one more table in. -/
def foldIn (key : MergeKey) : Option DebugTable → DebugTable → Option DebugTable
  | none, parsed => some parsed
  | some t, parsed => some (t.merge parsed key)

/-- The rows of a table, if there is one. -/
def rows : Option DebugTable → List DebugEntry
  | none => []
  | some t => t.entries

/-- What is folded into a table comes row by row. -/
theorem foldl_foldIn (t : DebugTable) (tables : List DebugTable) :
    tables.foldl (foldIn key) (some t) =
      some ((tables.flatMap DebugTable.entries).foldl (DebugTable.mergeEntry key) t) := by
  induction tables generalizing t with
  | nil => rfl
  | cons parsed tables ih =>
    rw [List.foldl_cons, foldIn, ih, List.flatMap_cons, List.foldl_append]
    rfl

/-- The rows of value tables have no signatures. -/
theorem unsigned_foldl_foldIn (key : MergeKey) {tables : List DebugTable}
    (h : ∀ t ∈ tables, ∀ e ∈ t.entries, e.signature = none ∧ e.isTypeRow = false) :
    ∀ e ∈ rows (tables.foldl (foldIn key) none), e.signature = none := by
  refine List.foldlRecOn (motive := fun r => ∀ e ∈ rows r, e.signature = none) tables _
    (by simp [rows]) fun r hr t ht => ?_
  cases r with
  | none => exact fun e he => (h t ht e he).1
  | some table => exact unsigned_merge hr (h t ht)

/-- Type tables that are folded in behind value tables only add signatures to their rows. -/
theorem signed_foldl_foldIn {tables types : List DebugTable}
    (htables : ∀ t ∈ tables, ∀ e ∈ t.entries, e.signature = none ∧ e.isTypeRow = false)
    (htypes : ∀ t ∈ types, ∀ e ∈ t.entries, e.isTypeRow = true)
    (hvalues : rows (tables.foldl (foldIn key) none) = values) :
    Signed key values (types.flatMap DebugTable.entries)
      (rows ((tables ++ types).foldl (foldIn key) none)) := by
  have hunsigned := unsigned_foldl_foldIn key htables
  rw [List.foldl_append]
  cases hfold : tables.foldl (foldIn key) none with
  | none =>
    rw [hfold] at hvalues
    simp [← hvalues, rows, Signed]
  | some t =>
    rw [hfold] at hvalues hunsigned
    rw [foldl_foldIn]
    obtain rfl : t.entries = values := hvalues
    refine (signed_self hunsigned).foldl fun row hrow => ?_
    obtain ⟨t, ht, hrow⟩ := List.mem_flatMap.1 hrow
    exact htypes t ht row hrow

/-- The rows of a table that is read are of its kind and have no signatures. -/
theorem rows_of_parse {strings : ℕ → Option String} {isTypeRow : Bool} {bytes : List UInt8}
    (h : parse strings isTypeRow bytes = .ok t) (he : e ∈ t.entries) :
    e.signature = none ∧ e.isTypeRow = isTypeRow := by
  obtain ⟨r, -, hr⟩ := Checked.exists_of_mem (parse_eq_ok_iff.1 h).2.2.flip he
  exact ⟨DebugTable.Record.Says.signature hr, DebugTable.Record.Says.isTypeRow hr⟩

end DebugTable

open DebugTable

/-! ## The attributes of a method -/

/-- The value tables among some attributes. -/
def valueTables (l : List Attribute) : List Attribute := l.filter fun a => !a.isTypeTable

/-- The type tables among some attributes. -/
def typeTables (l : List Attribute) : List Attribute := l.filter fun a => a.isTypeTable

/-- What attributes say, one after another. -/
def SayTables (strings : ℕ → Option String) : List Attribute → List DebugTable → Prop :=
  List.Forall₂ fun a t => parse strings a.isTypeTable a.bytes = .ok t

/-- Attributes that are sorted by their kind are their value tables and then their type tables. -/
theorem eq_append_of_pairwise {l : List Attribute}
    (h : l.Pairwise fun a b => !a.isTypeTable || b.isTypeTable) :
    l = valueTables l ++ typeTables l := by
  induction l with
  | nil => rfl
  | cons a l ih =>
    obtain ⟨ha, hl⟩ := List.pairwise_cons.1 h
    by_cases htype : a.isTypeTable = true
    · have hall : ∀ b ∈ a :: l, b.isTypeTable = true :=
        List.forall_mem_cons.2 ⟨htype, fun b hb => by simpa [htype] using ha b hb⟩
      have hvalues : valueTables (a :: l) = [] :=
        List.filter_eq_nil_iff.2 fun b hb => by simp [hall b hb]
      rw [hvalues, typeTables, List.filter_eq_self.2 hall, List.nil_append]
    · simp only [valueTables, typeTables] at ih ⊢
      simp [htype, ← ih hl]

/-- Sorting by kind does not move tables of one kind past each other. -/
theorem filter_valueTablesFirst {l : List Attribute} {p : Attribute → Bool}
    (h : ∀ a b, p a = true → p b = true → (!a.isTypeTable || b.isTypeTable) = true) :
    (valueTablesFirst l).filter p = l.filter p := by
  have hsorted : (l.filter p).Pairwise fun a b => !a.isTypeTable || b.isTypeTable :=
    List.pairwise_filter.2 (List.pairwise_of_forall fun a b ha hb => h a b ha hb)
  have hsub := (List.sublist_mergeSort (by grind) (by grind) hsorted List.filter_sublist).filter p
  rw [List.filter_filter] at hsub
  simp only [Bool.and_self] at hsub
  exact (hsub.eq_of_length ((List.mergeSort_perm l _).filter p).length_eq.symm).symm

theorem valueTablesFirst_eq (l : List Attribute) :
    valueTablesFirst l = valueTables l ++ typeTables l := by
  have hsorted : (valueTablesFirst l).Pairwise fun a b => !a.isTypeTable || b.isTypeTable :=
    List.pairwise_mergeSort (by grind) (by grind) l
  rw [eq_append_of_pairwise hsorted, valueTables, typeTables, filter_valueTablesFirst (by simp_all),
    filter_valueTablesFirst (by simp_all)]
  rfl

variable {strings : ℕ → Option String} {key : MergeKey} {read : DescriptorReader}

theorem foldAttributes_eq {l : List Attribute} {tables : List DebugTable}
    (h : SayTables strings l tables) (table : Option DebugTable) :
    foldAttributes strings key table l = .ok (tables.foldl (foldIn key) table) := by
  induction h generalizing table with
  | nil => rfl
  | @cons a t l tables ha _ ih =>
    rw [foldAttributes, ha, List.foldl_cons, ← ih]
    cases table <;> rfl

/-- Attributes that can all be read say something. -/
theorem exists_sayTables {l : List Attribute}
    (h : ∀ a ∈ l, ∃ t, parse strings a.isTypeTable a.bytes = .ok t) :
    ∃ tables, SayTables strings l tables := by
  induction l with
  | nil => exact ⟨[], .nil⟩
  | cons a l ih =>
    obtain ⟨t, ht⟩ := h a (by simp)
    obtain ⟨tables, htables⟩ := ih fun a ha => h a (by simp [ha])
    exact ⟨t :: tables, .cons ht htables⟩

/-- The rows of the tables that attributes of one kind say. -/
theorem SayTables.rows {l : List Attribute} {tables : List DebugTable} {isTypeTable : Bool}
    (h : SayTables strings l tables) (hl : ∀ a ∈ l, a.isTypeTable = isTypeTable) :
    ∀ t ∈ tables, ∀ e ∈ t.entries, e.signature = none ∧ e.isTypeRow = isTypeTable := by
  intro t ht e he
  obtain ⟨a, ha, hparse⟩ := Checked.exists_of_mem h.flip ht
  rw [← hl a ha]
  exact rows_of_parse hparse he

namespace RawMethod

/-- The method with other debug attributes. -/
def withAttributes (input : RawMethod) (l : List Attribute) : RawMethod :=
  { input with attributes := l }

/-- A method with a descriptor, whose attributes can be read, has a registry. Its debug table is
made of its value tables and then of its type tables. -/
theorem registry_returns (input : RawMethod) (key : MergeKey) {values types : List DebugTable}
    (hread : read.ListsParameters) (hdescriptor : read.Accepts input.descriptor)
    (hvalues : SayTables strings (valueTables input.attributes) values)
    (htypes : SayTables strings (typeTables input.attributes) types) :
    ∃ vars, input.registry read strings key = .ok (.ok vars) ∧
      vars.debugTable = (values ++ types).foldl (foldIn key) none := by
  obtain ⟨parameters, haccepts⟩ := hdescriptor
  obtain ⟨parameters, rfl⟩ := hread _ _ haccepts
  have hfold : foldAttributes strings key none (valueTablesFirst input.attributes) =
      .ok ((values ++ types).foldl (foldIn key) none) := by
    rw [valueTablesFirst_eq]
    exact foldAttributes_eq (List.rel_append hvalues htypes) none
  let slots := ParameterType.slots input.thisClass.isSome parameters
  refine ⟨{ Registry.ofSlots input.thisClass slots with
    debugTable := (values ++ types).foldl (foldIn key) none }, ?_, rfl⟩
  simp only [registry, Registry.ofDescriptor, haccepts, hfold]
  rfl

/-- **Type tables only add to value tables.** The value tables alone, read one after another and
merged in their order, give the debug table of the method without its type tables. The debug table
of the whole method starts with the rows of that table. Nothing of them is changed but the
signature: a row that is the first one with its key has the descriptor of the first type row with
this key, if there is one, and no other row has a signature. How value tables and type tables are
interleaved plays no part. -/
theorem registry_signs (read : DescriptorReader) (input : RawMethod) (strings : ℕ → Option String)
    (key : MergeKey) (hread : read.ListsParameters) (hdescriptor : read.Accepts input.descriptor)
    (hattributes : ∀ a ∈ input.attributes, ∃ t, parse strings a.isTypeTable a.bytes = .ok t) :
    ∃ vars alone values types, input.registry read strings key = .ok (.ok vars) ∧
      (input.withAttributes (valueTables input.attributes)).registry read strings key =
        .ok (.ok alone) ∧
      SayTables strings (valueTables input.attributes) values ∧
      alone.debugTable = values.foldl (foldIn key) none ∧
      SayTables strings (typeTables input.attributes) types ∧
      Signed key (rows alone.debugTable) (types.flatMap DebugTable.entries)
        (rows vars.debugTable) ∧
      ∀ attributes, valueTables attributes = valueTables input.attributes →
        typeTables attributes = typeTables input.attributes →
        (input.withAttributes attributes).registry read strings key =
          input.registry read strings key := by
  obtain ⟨values, hvalues⟩ := exists_sayTables (l := valueTables input.attributes)
    fun a ha => hattributes a (List.mem_of_mem_filter ha)
  obtain ⟨types, htypes⟩ := exists_sayTables (l := typeTables input.attributes)
    fun a ha => hattributes a (List.mem_of_mem_filter ha)
  obtain ⟨vars, hvars, htable⟩ := registry_returns input key hread hdescriptor hvalues htypes
  have hvalues' : SayTables strings (valueTables (valueTables input.attributes)) values := by
    rwa [valueTables, valueTables, List.filter_filter, funext fun a => Bool.and_self _]
  have htypes' : SayTables strings (typeTables (valueTables input.attributes)) [] := by
    have hnone : typeTables (valueTables input.attributes) = [] := by
      simp [typeTables, valueTables]
    rw [hnone]
    exact .nil
  obtain ⟨alone, halone, hrows⟩ := registry_returns
    (input.withAttributes (valueTables input.attributes)) key hread hdescriptor hvalues' htypes'
  rw [List.append_nil] at hrows
  refine ⟨vars, alone, values, types, hvars, halone, hvalues, hrows, htypes, ?_, fun l hl hl' => ?_⟩
  · rw [htable]
    refine signed_foldl_foldIn (hvalues.rows fun a ha => ?_)
      (fun t ht e he => (htypes.rows (fun a ha => ?_) t ht e he).2) (by rw [hrows])
    · simpa using (List.mem_filter.1 ha).2
    · exact (List.mem_filter.1 ha).2
  · have hsame : valueTablesFirst l = valueTablesFirst input.attributes := by
      rw [valueTablesFirst_eq, valueTablesFirst_eq, hl, hl']
    simp only [registry, withAttributes, hsame]

/-- A reader that knows a single descriptor, the one of a method without parameters and result. -/
def plainReader : DescriptorReader := fun bytes =>
  if bytes = "()V".toUTF8.toList then .ok (.ok []) else .error ⟨"invalid descriptor"⟩

/-- A static method without parameters whose type table stands in front of its value table. Both
have one record, of the same variable. -/
def interleavedMethod : RawMethod :=
  ⟨"m", "()V", none, .empty,
    [⟨encode [countRecord], true⟩, ⟨encode [countRecord], false⟩]⟩

theorem entries_of_countRecord {isTypeRow : Bool} {t : DebugTable}
    (h : parse twoStrings isTypeRow (encode [countRecord]) = .ok t) :
    t.entries = [⟨"count", "I", none, 10, 40, 3, isTypeRow⟩] := by
  have hentries : (parse twoStrings isTypeRow (encode [countRecord])).map DebugTable.entries =
      .ok [⟨"count", "I", none, 10, 40, 3, isTypeRow⟩] := by
    cases isTypeRow <;> decide +kernel
  rw [h] at hentries
  exact Except.ok.inj hentries

/-- The row of the variable has a signature when the type table is there, which it has not when the
value table is alone. -/
theorem registry_signs_interleavedMethod :
    plainReader.ListsParameters ∧ plainReader.Accepts interleavedMethod.descriptor ∧
    (∀ a ∈ interleavedMethod.attributes,
      ∃ t, parse twoStrings a.isTypeTable a.bytes = .ok t) ∧
    ∃ vars alone, interleavedMethod.registry plainReader twoStrings .slotStop = .ok (.ok vars) ∧
      (interleavedMethod.withAttributes (valueTables interleavedMethod.attributes)).registry
        plainReader twoStrings .slotStop = .ok (.ok alone) ∧
      rows alone.debugTable = [⟨"count", "I", none, 10, 40, 3, false⟩] ∧
      (rows vars.debugTable)[0]? = some ⟨"count", "I", some "I", 10, 40, 3, false⟩ ∧
      (interleavedMethod.withAttributes interleavedMethod.attributes.reverse).registry plainReader
        twoStrings .slotStop = interleavedMethod.registry plainReader twoStrings .slotStop := by
  have hread : plainReader.ListsParameters := by
    intro descriptor types h
    unfold plainReader at h
    split at h
    · exact ⟨[], (Except.ok.inj h).symm⟩
    · cases h
  have hdescriptor : plainReader.Accepts interleavedMethod.descriptor := ⟨.ok [], if_pos rfl⟩
  have hattributes : ∀ a ∈ interleavedMethod.attributes,
      ∃ t, parse twoStrings a.isTypeTable a.bytes = .ok t := by
    intro a ha
    have hbytes : a.bytes = encode [countRecord] := by
      rcases List.mem_cons.1 ha with rfl | ha
      · rfl
      · rw [List.mem_singleton.1 ha]
    obtain ⟨t, ht, -⟩ := parse_encode a.isTypeTable (by decide) isResolved_countRecord
    exact ⟨t, by rw [hbytes, ht]⟩
  obtain ⟨vars, alone, values, types, hvars, halone, hvalues, hrows, htypes, hsigned,
    hinterleaved⟩ :=
    registry_signs plainReader interleavedMethod twoStrings .slotStop hread hdescriptor hattributes
  obtain ⟨value, rest, hvalue, hrest, rfl⟩ := List.forall₂_cons_left_iff.1 hvalues
  obtain ⟨type, rest', htype, hrest', rfl⟩ := List.forall₂_cons_left_iff.1 htypes
  obtain rfl := List.forall₂_nil_left_iff.1 hrest
  obtain rfl := List.forall₂_nil_left_iff.1 hrest'
  replace hrows : rows alone.debugTable = [⟨"count", "I", none, 10, 40, 3, false⟩] := by
    rw [hrows]
    exact entries_of_countRecord hvalue
  rw [hrows, List.flatMap_cons, entries_of_countRecord htype] at hsigned
  exact ⟨hread, hdescriptor, hattributes, vars, alone, hvars, halone, hrows, hsigned 0 _ rfl,
    hinterleaved _ rfl rfl⟩

end RawMethod

end Decompiler

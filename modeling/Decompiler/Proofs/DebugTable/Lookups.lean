import Decompiler.DebugTable.Basic
import Decompiler.Proofs.Leaders
import Mathlib.Order.Lattice
import Mathlib.Order.Nat

/-!
# Look-ups in debug tables

A debug table keeps the positions of the rows of each slot and of each range. These follow the rows,
as only the signature of a row ever changes, so that every look-up comes to what a scan of the rows
finds.

* `Picks`: what a scan finds, the earliest of the rows with the least measure.
* `Indexed`: the positions are those of the rows. One step keeps this (`Indexed.add`,
  `Indexed.mergeEntry`), and so does a run (`indexed_built`).
* `lookups_scan`: what the look-ups find in every table that can be built. The rows that end at an
  offset do not depend on the order in which the ranges are gone through.
-/

namespace Decompiler

/-! ## What a scan finds -/

section Scan

variable {α β : Type} [LinearOrder β] {p : α → Prop} {m : α → β} {l : List α} {a b : α}

/-- Among the elements of a list with a property, `a` is the earliest one with the least measure. -/
def IsFirstLeast (p : α → Prop) (m : α → β) (l : List α) (a : α) : Prop :=
  ∃ before after, l = before ++ a :: after ∧ p a ∧
    (∀ x ∈ before, p x → m a < m x) ∧ ∀ x ∈ after, p x → m a ≤ m x

/-- A scan comes to the earliest element with the least measure, and to none only if no element has
the property. -/
def Picks (p : α → Prop) (m : α → β) (l : List α) : Option α → Prop
  | some a => IsFirstLeast p m l a
  | none => ∀ x ∈ l, ¬ p x

theorem picks_some : Picks p m l (some a) ↔ IsFirstLeast p m l a := .rfl

theorem picks_none : Picks p m l none ↔ ∀ x ∈ l, ¬ p x := .rfl

theorem IsFirstLeast.mem (h : IsFirstLeast p m l a) : a ∈ l ∧ p a := by
  obtain ⟨before, after, rfl, hp, -⟩ := h
  exact ⟨by simp, hp⟩

theorem IsFirstLeast.le (h : IsFirstLeast p m l a) (hb : b ∈ l) (hp : p b) : m a ≤ m b := by
  obtain ⟨before, after, rfl, -, hbefore, hafter⟩ := h
  rcases List.mem_append.1 hb with hb | hb
  · exact (hbefore b hb hp).le
  · rcases List.mem_cons.1 hb with rfl | hb
    · exact le_rfl
    · exact hafter b hb hp

theorem IsFirstLeast.cons (h : IsFirstLeast p m l a) (hb : p b → m a < m b) :
    IsFirstLeast p m (b :: l) a := by
  obtain ⟨before, after, rfl, hp, hbefore, hafter⟩ := h
  refine ⟨b :: before, after, rfl, hp, fun x hx => ?_, hafter⟩
  rcases List.mem_cons.1 hx with rfl | hx
  · exact hb
  · exact hbefore x hx

theorem isFirstLeast_head (ha : p a) (h : ∀ x ∈ l, p x → m a ≤ m x) :
    IsFirstLeast p m (a :: l) a :=
  ⟨[], l, rfl, ha, by simp, h⟩

theorem Picks.cons_of_not {r : Option α} (h : Picks p m l r) (hb : ¬ p b) :
    Picks p m (b :: l) r := by
  cases r with
  | none => exact List.forall_mem_cons.2 ⟨hb, h⟩
  | some a => exact IsFirstLeast.cons h fun hp => absurd hp hb

/-- There is only one such element. -/
theorem IsFirstLeast.unique (h : IsFirstLeast p m l a) (h' : IsFirstLeast p m l b) : a = b := by
  obtain ⟨before, after, rfl, ha, hbefore, hafter⟩ := h
  obtain ⟨before', after', hsplit, hb, hbefore', hafter'⟩ := h'
  rcases List.append_eq_append_iff.1 hsplit with ⟨between, rfl, hrest⟩ | ⟨between, rfl, hrest⟩
  · cases between with
    | nil => exact (List.cons.inj hrest).1
    | cons c between =>
      obtain ⟨rfl, rfl⟩ := List.cons.inj hrest
      exact absurd (hafter b (by simp) hb) (hbefore' a (by simp) ha).not_ge
  · cases between with
    | nil => exact (List.cons.inj hrest).1.symm
    | cons c between =>
      obtain ⟨rfl, rfl⟩ := List.cons.inj hrest
      exact absurd (hafter' a (by simp) ha) (hbefore b (by simp) hb).not_ge

theorem Picks.unique {r r' : Option α} (h : Picks p m l r) (h' : Picks p m l r') : r = r' := by
  cases r with
  | none =>
    cases r' with
    | none => rfl
    | some b => exact absurd (picks_some.1 h').mem.2 (h b (picks_some.1 h').mem.1)
  | some a =>
    cases r' with
    | none => exact absurd (picks_some.1 h).mem.2 (h' a (picks_some.1 h).mem.1)
    | some b => rw [IsFirstLeast.unique h h']

end Scan

namespace DebugEntry

/-- Where a row holds. -/
def range (e : DebugEntry) : ℕ × ℕ := (e.start, e.stop)

/-- Merging changes nothing but the signature. -/
theorem merge_eq (e other : DebugEntry) :
    e.merge other = { e with signature := (e.merge other).signature } := by
  unfold merge
  split <;> rfl

end DebugEntry

namespace DebugTable

open DebugEntry (range span)

variable {t : DebugTable} {e : DebugEntry}

theorem picks_innermost (p : DebugEntry → Bool) (l : List DebugEntry) :
    Picks (fun e => p e) span l (innermost (l.filter p)) := by
  induction l with
  | nil => exact fun x hx => absurd hx List.not_mem_nil
  | cons e l ih =>
    by_cases he : p e = true
    · rw [List.filter_cons_of_pos he, innermost]
      cases hrest : innermost (l.filter p) with
      | none =>
        rw [hrest, picks_none] at ih
        exact picks_some.2 <| isFirstLeast_head he fun x hx hp => absurd hp (ih x hx)
      | some best =>
        rw [hrest, picks_some] at ih
        simp only
        split
        · next hlt => exact ih.cons fun _ => hlt
        · next hle =>
          exact picks_some.2 <| isFirstLeast_head he fun x hx hp =>
            (Nat.le_of_not_lt hle).trans (ih.le hx hp)
    · rw [List.filter_cons_of_neg he]
      exact ih.cons_of_not he

/-! ## Positions -/

/-- The positions that a table keeps are those of its rows, and each range is listed once. -/
structure Indexed (t : DebugTable) : Prop where
  bySlot : ∀ slot, (t.bySlot.get? slot).getD [] = (t.entries.map DebugEntry.slot).idxsOf slot
  byRange : ∀ r, (t.byRange.get? r).getD [] = (t.entries.map range).idxsOf r
  nodup : t.byRange.keys.Nodup

theorem indexed_empty : Indexed empty := ⟨fun _ => rfl, fun _ => rfl, List.nodup_nil⟩

/-- A position that is added to the list of a key stands for a row that is added with that key. -/
theorem getD_alter_idxsOf {κ : Type} [DecidableEq κ] [BEq κ] [LawfulBEq κ]
    {positions : Table κ (List ℕ)} {keys : List κ}
    (h : ∀ k, (positions.get? k).getD [] = keys.idxsOf k) (k j : κ) :
    ((positions.alter k fun l => l.getD [] ++ [keys.length]).get? j).getD [] =
      (keys ++ [k]).idxsOf j := by
  rw [Table.alter, Table.get?_insert, List.idxsOf_append]
  by_cases hk : k = j
  · subst hk
    simp [h]
  · simp [h, hk]

theorem Indexed.add (h : t.Indexed) (e : DebugEntry) : (t.add e).Indexed where
  bySlot slot := by
    have halter := getD_alter_idxsOf h.bySlot e.slot slot
    rw [List.length_map] at halter
    rw [entries_add, List.map_append]
    exact halter
  byRange r := by
    have halter := getD_alter_idxsOf h.byRange e.range r
    rw [List.length_map] at halter
    rw [entries_add, List.map_append]
    exact halter
  nodup := Table.nodup_keys_insert h.nodup _ _

/-- Merging a row changes nothing that its slot and its range decide. -/
theorem map_modify_merge {α : Type} {f : DebugEntry → α} (hf : ∀ mine, f (mine.merge e) = f mine)
    (l : List DebugEntry) (i : ℕ) : (l.modify i fun mine => mine.merge e).map f = l.map f := by
  refine List.ext_getElem? fun j => ?_
  simp only [List.getElem?_map, List.getElem?_modify, Option.map_eq_map, Option.map_map]
  congr 1
  funext mine
  by_cases hi : i = j <;> simp [hi, hf]

theorem Indexed.mergeEntry (h : t.Indexed) (key : MergeKey) (e : DebugEntry) :
    (t.mergeEntry key e).Indexed := by
  unfold DebugTable.mergeEntry
  split
  · exact {
      bySlot := fun slot => by
        rw [h.bySlot, map_modify_merge fun mine => by rw [DebugEntry.merge_eq]]
      byRange := fun r => by
        rw [h.byRange, map_modify_merge fun mine => by rw [DebugEntry.merge_eq, range, range]]
      nodup := h.nodup }
  · exact h.add e

theorem Indexed.merge (h : t.Indexed) (other : DebugTable) (key : MergeKey) :
    (t.merge other key).Indexed :=
  List.foldlRecOn (motive := Indexed) _ _ h fun _ h e _ => h.mergeEntry key e

/-- The rows at the positions of a key are the rows with that key, in order. -/
theorem entriesAt_idxsOf {κ : Type} [DecidableEq κ] [BEq κ] [LawfulBEq κ] (f : DebugEntry → κ)
    (k : κ) : t.entriesAt ((t.entries.map f).idxsOf k) = t.entries.filter fun e => f e = k := by
  have key (front l : List DebugEntry) :
      ((l.map f).idxsOf k front.length).filterMap (fun i => (front ++ l)[i]?) =
        l.filter fun e => f e = k := by
    induction l generalizing front with
    | nil => rfl
    | cons e l ih =>
      have hrest := ih (front ++ [e])
      rw [List.length_append, List.length_singleton, List.append_assoc, List.singleton_append,
        List.idxsOf_map] at hrest
      by_cases he : f e = k <;> simp [he, hrest]
  exact key [] t.entries

/-! ## Look-ups -/

theorem Indexed.ofSlot_eq (h : t.Indexed) (slot : ℕ) :
    t.ofSlot slot = t.entries.filter fun e => e.slot = slot := by
  rw [ofSlot, h.bySlot, entriesAt_idxsOf]

theorem Indexed.picks_find? (h : t.Indexed) (slot first last : ℕ) :
    Picks (fun e => e.slot = slot ∧ e.start ≤ first ∧ last < e.stop) span t.entries
      (t.find? slot first last) := by
  rw [find?, h.ofSlot_eq, List.filter_filter]
  simpa [DebugEntry.covers, and_comm] using
    picks_innermost (fun e => e.covers first last && decide (e.slot = slot)) t.entries

/-- The rows whose range ends at `stop`, one for each slot, when the ranges are gone through in some
order. -/
def endingAtFrom (t : DebugTable) (stop : ℕ) (ranges : List ((ℕ × ℕ) × List ℕ)) :
    Table ℕ DebugEntry :=
  let latestFirst := (ranges.filter fun r => r.1.2 = stop).mergeSort fun r r' => r.1.1 ≥ r'.1.1
  (t.entriesAt (latestFirst.flatMap Prod.snd)).foldl (fun out e => out.insertIfNew e.slot e) .empty

theorem endingAt_eq (t : DebugTable) (stop : ℕ) :
    t.endingAt stop = t.endingAtFrom stop t.byRange.entries := rfl

theorem get?_insertIfNew {κ α : Type} [DecidableEq κ] (t : Table κ α) (k j : κ) (v : α) :
    (t.insertIfNew k v).get? j = (t.get? j).or (if k = j then some v else none) := by
  unfold Table.insertIfNew Table.contains
  by_cases hk : k = j
  · subst hk
    cases ht : t.get? k <;> simp [ht, Table.get?_insert]
  · split <;> simp [hk, Table.get?_insert]

/-- Of several rows of a slot, the first one is entered. -/
theorem get?_foldl_insertIfNew (l : List DebugEntry) (t : Table ℕ DebugEntry) (slot : ℕ) :
    (l.foldl (fun out e => out.insertIfNew e.slot e) t).get? slot =
      (t.get? slot).or (l.find? fun e => e.slot = slot) := by
  induction l generalizing t with
  | nil => simp
  | cons e l ih =>
    rw [List.foldl_cons, ih, get?_insertIfNew, Option.or_assoc, List.find?_cons]
    by_cases he : e.slot = slot <;> simp [he]

/-- The positions of a range that is listed lead to its rows. -/
theorem Indexed.entriesAt_listed (h : t.Indexed) {r : (ℕ × ℕ) × List ℕ}
    (hr : r ∈ t.byRange.entries) :
    t.entriesAt r.2 = t.entries.filter fun e => e.range = r.1 := by
  have hpositions := h.byRange r.1
  rw [Table.get?_of_mem h.nodup hr, Option.getD_some] at hpositions
  rw [hpositions, entriesAt_idxsOf]

/-- The range of every row is listed. -/
theorem Indexed.exists_listed (h : t.Indexed) (he : e ∈ t.entries) :
    ∃ positions, (e.range, positions) ∈ t.byRange.entries := by
  cases hget : t.byRange.get? e.range with
  | some positions => exact ⟨positions, Table.mem_entries_of_get? hget⟩
  | none =>
    have hpositions := h.byRange e.range
    rw [hget, Option.getD_none, eq_comm, List.idxsOf_eq_nil_iff] at hpositions
    simpa using hpositions e.range (List.mem_map_of_mem he)

/-- Where all ranges of rows that end at `stop` are gone through, those with a late start before
those with an early one, the first row of a slot that is met starts last. -/
theorem picks_latestFirst {rows : List DebugEntry} {ranges : List (ℕ × ℕ)} {stop : ℕ}
    (hsorted : ranges.Pairwise fun r r' => r'.1 ≤ r.1) (hstop : ∀ r ∈ ranges, r.2 = stop)
    (hlisted : ∀ e ∈ rows, e.stop = stop → e.range ∈ ranges) (slot : ℕ) :
    Picks (fun e => e.slot = slot ∧ e.stop = stop) (fun e => OrderDual.toDual e.start) rows
      (ranges.findSome? fun r => rows.find? fun e => e.range = r ∧ e.slot = slot) := by
  cases hfound : ranges.findSome? fun r => rows.find? fun e => e.range = r ∧ e.slot = slot with
  | none =>
    rintro e he ⟨hslot, hend⟩
    have hnone := List.findSome?_eq_none_iff.1 hfound _ (hlisted e he hend)
    simpa [hslot] using List.find?_eq_none.1 hnone e he
  | some e =>
    obtain ⟨earlier, r, later, rfl, hr, hearlier⟩ := List.findSome?_eq_some_iff.1 hfound
    obtain ⟨he, before, after, rfl, hbefore⟩ := List.find?_eq_some_iff_append.1 hr
    obtain ⟨rfl, hslot⟩ := of_decide_eq_true he
    have hend : e.stop = stop := hstop e.range (by simp)
    have hle : ∀ x ∈ before ++ e :: after, x.slot = slot ∧ x.stop = stop → x.start ≤ e.start := by
      rintro x hx ⟨hxslot, hxend⟩
      rcases List.mem_append.1 (hlisted x hx hxend) with hmem | hmem
      · have hnone := List.find?_eq_none.1 (hearlier _ hmem) x hx
        simp [hxslot] at hnone
      · rcases List.mem_cons.1 hmem with heq | hmem
        · exact (congrArg Prod.fst heq).le
        · exact (List.pairwise_cons.1 (List.pairwise_append.1 hsorted).2.1).1 _ hmem
    refine ⟨before, after, rfl, ⟨hslot, hend⟩, fun x hx hp => ?_, fun x hx hp => ?_⟩
    · refine lt_of_le_of_ne (hle x (by simp [hx]) hp) fun heq => ?_
      have hrange : x.range = e.range :=
        Prod.ext (OrderDual.toDual_inj.1 heq).symm (hp.2.trans hend.symm)
      simpa [hrange, hp.1] using hbefore x hx
    · exact hle x (by simp [hx]) hp

theorem pairwise_mergeSort_start (ranges : List ((ℕ × ℕ) × List ℕ)) :
    (ranges.mergeSort fun r r' => r.1.1 ≥ r'.1.1).Pairwise fun r r' => r'.1.1 ≤ r.1.1 := by
  have hsorted : (ranges.mergeSort fun r r' => r.1.1 ≥ r'.1.1).Pairwise fun r r' =>
      decide (r.1.1 ≥ r'.1.1) = true := by
    refine List.pairwise_mergeSort (fun a b c => ?_) (fun a b => ?_) ranges
    · simp only [decide_eq_true_eq]
      omega
    · simp only [Bool.or_eq_true, decide_eq_true_eq]
      omega
  simpa using hsorted

/-- The rows that end at `stop` may be looked for in any order of the ranges. -/
theorem Indexed.picks_endingAtFrom (h : t.Indexed) {ranges : List ((ℕ × ℕ) × List ℕ)}
    (hranges : ranges.Perm t.byRange.entries) (stop slot : ℕ) :
    Picks (fun e => e.slot = slot ∧ e.stop = stop) (fun e => OrderDual.toDual e.start) t.entries
      ((t.endingAtFrom stop ranges).get? slot) := by
  rw [endingAtFrom, get?_foldl_insertIfNew, Table.get?_empty, Option.none_or, entriesAt,
    List.filterMap_flatMap]
  have hsorted := pairwise_mergeSort_start (ranges.filter fun r => r.1.2 = stop)
  have hmem (r) : r ∈ (ranges.filter fun r => r.1.2 = stop).mergeSort (fun r r' => r.1.1 ≥ r'.1.1) ↔
      r ∈ t.byRange.entries ∧ r.1.2 = stop := by
    rw [List.mem_mergeSort, List.mem_filter, hranges.mem_iff, decide_eq_true_eq]
  generalize (ranges.filter fun r => r.1.2 = stop).mergeSort (fun r r' => r.1.1 ≥ r'.1.1)
    = sorted at hmem hsorted ⊢
  have hrows : (sorted.flatMap fun r => r.2.filterMap fun i => t.entries[i]?) =
      (sorted.map Prod.fst).flatMap fun r => t.entries.filter fun e => e.range = r := by
    rw [List.flatMap_map]
    exact List.flatMap_congr fun r hr => h.entriesAt_listed ((hmem r).1 hr).1
  have hstop : ∀ r ∈ sorted.map Prod.fst, r.2 = stop := by
    intro _ hmap
    obtain ⟨r, hr, rfl⟩ := List.mem_map.1 hmap
    exact ((hmem r).1 hr).2
  have hlisted : ∀ e ∈ t.entries, e.stop = stop → e.range ∈ sorted.map Prod.fst := by
    intro e he hend
    obtain ⟨positions, hlisted⟩ := h.exists_listed he
    exact List.mem_map.2 ⟨_, (hmem _).2 ⟨hlisted, hend⟩, rfl⟩
  rw [hrows, List.find?_flatMap]
  simpa using picks_latestFirst (List.pairwise_map.2 hsorted) hstop hlisted slot

theorem Indexed.picks_endingAt (h : t.Indexed) (stop slot : ℕ) :
    Picks (fun e => e.slot = slot ∧ e.stop = stop) (fun e => OrderDual.toDual e.start) t.entries
      ((t.endingAt stop).get? slot) := by
  rw [endingAt_eq]
  exact h.picks_endingAtFrom (.refl _) stop slot

/-! ## Tables that are built -/

/-- A step in which a table is built. -/
inductive Step where
  /-- A row is added. -/
  | add (e : DebugEntry)
  /-- Another table is folded in. -/
  | merge (other : DebugTable) (key : MergeKey)

/-- What a step makes of a table. -/
def Step.apply (t : DebugTable) : Step → DebugTable
  | .add e => t.add e
  | .merge other key => t.merge other key

/-- The table that is built in some steps. -/
def built (steps : List Step) : DebugTable := steps.foldl Step.apply empty

theorem Indexed.step (h : t.Indexed) (s : Step) : (s.apply t).Indexed := by
  cases s with
  | add e => exact h.add e
  | merge other key => exact h.merge other key

theorem indexed_built (steps : List Step) : (built steps).Indexed :=
  List.foldlRecOn (motive := Indexed) _ _ indexed_empty fun _ h s _ => h.step s

/-- In a table that was built in any steps, the rows of a slot are found in table order. What is
found for a slot and an extent is the row of that slot that holds all over it and has the shortest
range, the first one of several. What is found for the slots at the end of a range is, for exactly
the slots with a row that ends there, the one of these that starts last, the first one of several;
the order in which the ranges are gone through plays no part. -/
theorem lookups_scan (steps : List Step) :
    (∀ slot, (built steps).ofSlot slot = (built steps).entries.filter fun e => e.slot = slot) ∧
    (∀ slot first last,
      Picks (fun e => e.slot = slot ∧ e.start ≤ first ∧ last < e.stop) DebugEntry.span
        (built steps).entries ((built steps).find? slot first last)) ∧
    (∀ stop slot,
      Picks (fun e => e.slot = slot ∧ e.stop = stop) (fun e => OrderDual.toDual e.start)
        (built steps).entries (((built steps).endingAt stop).get? slot)) ∧
    (∀ stop slot ranges, ranges.Perm (built steps).byRange.entries →
      ((built steps).endingAtFrom stop ranges).get? slot =
        ((built steps).endingAt stop).get? slot) := by
  have h := indexed_built steps
  refine ⟨h.ofSlot_eq, h.picks_find?, fun stop slot => h.picks_endingAt stop slot,
    fun stop slot ranges hranges => ?_⟩
  exact (h.picks_endingAtFrom hranges stop slot).unique (h.picks_endingAt stop slot)

/-- A row of slot 3 that holds from `start` to `stop`. -/
def rowOfThree (name : String) (start stop : ℕ) : DebugEntry :=
  ⟨name, "I", none, start, stop, 3, false⟩

/-- Two rows of one slot whose scopes end together, one inside the other, and a third one behind
them that is folded in with a table that repeats the outer one. -/
def nestedScopes : List Step :=
  [.add (rowOfThree "outer" 0 40), .add (rowOfThree "count" 10 40),
    .merge (ofEntries [rowOfThree "again" 0 40, rowOfThree "later" 40 60]) .slotStart]

theorem lookups_scan_nestedScopes :
    (built nestedScopes).find? 3 12 30 = some (rowOfThree "count" 10 40) ∧
    Picks (fun e => e.slot = 3 ∧ e.start ≤ 12 ∧ 30 < e.stop) DebugEntry.span
      (built nestedScopes).entries ((built nestedScopes).find? 3 12 30) ∧
    (built nestedScopes).byRange.entries.reverse.Perm (built nestedScopes).byRange.entries ∧
    ((built nestedScopes).endingAtFrom 40 (built nestedScopes).byRange.entries.reverse).get? 3 =
      ((built nestedScopes).endingAt 40).get? 3 :=
  ⟨by decide, (lookups_scan nestedScopes).2.1 3 12 30, List.reverse_perm _,
    (lookups_scan nestedScopes).2.2.2 40 3 _ (List.reverse_perm _)⟩

end DebugTable

end Decompiler

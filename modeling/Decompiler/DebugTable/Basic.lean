import Decompiler.Table
import Decompiler.Ty.Descriptor

/-!
# Debug variable tables

A compiled method may carry tables that say which name and type a slot has in which range of the
bytecode. There are two: the value table with the erased types, and the type table with the generic
signatures. The entries of the latter are folded into those of the former.

A table keeps, beside its entries, the positions of the entries of each slot and of each range, so
that look-ups need not scan it.
-/

namespace Decompiler

/-- One row of a debug table. -/
structure DebugEntry where
  /-- The name of the variable. -/
  name : String
  /-- Its field descriptor. -/
  descriptor : String
  /-- Its generic signature, from the matching row of a type table. -/
  signature : Option String
  /-- The first offset at which the row holds. -/
  start : Nat
  /-- The first offset at which it no longer holds. -/
  stop : Nat
  /-- The slot of the variable. -/
  slot : Nat
  /-- Whether the row comes from a type table. -/
  isTypeRow : Bool
  deriving DecidableEq, Repr

/-- How the rows of the two tables are paired up. -/
inductive MergeKey where
  /-- By slot and end of the range. -/
  | slotStop
  /-- By slot and start of the range. -/
  | slotStart
  deriving DecidableEq, Repr

namespace DebugEntry

/-- What two rows must agree on to be paired up. -/
def key (e : DebugEntry) : MergeKey → Nat × Nat
  | .slotStop => (e.slot, e.stop)
  | .slotStart => (e.slot, e.start)

/-- Takes the signature over from a row of a type table, unless there is one already. -/
def merge (e other : DebugEntry) : DebugEntry :=
  if other.isTypeRow ∧ e.signature = none then { e with signature := some other.descriptor } else e

/-- The type the descriptor writes. -/
def ty? (e : DebugEntry) : Option Ty := Ty.ofDescriptor? e.descriptor

/-- The row under another name. -/
def renamed (e : DebugEntry) (name : String) : DebugEntry := { e with name := name }

/-- Whether the row holds at every offset from `first` to `last`. -/
def covers (e : DebugEntry) (first last : Nat) : Bool := e.start ≤ first && last < e.stop

/-- The length of the range; a range that ends before it starts is empty. -/
def span (e : DebugEntry) : Nat := e.stop - e.start

/-- The printed name of the type: the signature, else the type, else the bare descriptor. -/
def typeName (e : DebugEntry) : String :=
  e.signature.getD ((e.ty?.map Ty.text).getD e.descriptor)

end DebugEntry

/-- The debug table of a method. -/
structure DebugTable where
  /-- The rows, in table order. -/
  entries : List DebugEntry
  /-- The positions of the rows of each slot, ascending. -/
  bySlot : Table Nat (List Nat)
  /-- The positions of the rows of each range, ascending. -/
  byRange : Table (Nat × Nat) (List Nat)
  deriving Repr

namespace DebugTable

/-- The table without rows. -/
def empty : DebugTable := ⟨[], .empty, .empty⟩

/-- Whether there is no row. -/
def isEmpty (t : DebugTable) : Bool := t.entries.isEmpty

/-- Adds a row at the end. -/
def add (t : DebugTable) (e : DebugEntry) : DebugTable :=
  let position := t.entries.length
  { entries := t.entries ++ [e]
    bySlot := t.bySlot.alter e.slot fun l => l.getD [] ++ [position]
    byRange := t.byRange.alter (e.start, e.stop) fun l => l.getD [] ++ [position] }

@[simp] theorem entries_add (t : DebugTable) (e : DebugEntry) :
    (t.add e).entries = t.entries ++ [e] := rfl

/-- The table of a list of rows. -/
def ofEntries (l : List DebugEntry) : DebugTable := l.foldl add empty

theorem entries_foldl_add (t : DebugTable) (l : List DebugEntry) :
    (l.foldl add t).entries = t.entries ++ l := by
  induction l generalizing t with
  | nil => simp
  | cons e l ih => simp [ih]

@[simp] theorem entries_ofEntries (l : List DebugEntry) : (ofEntries l).entries = l :=
  entries_foldl_add empty l

/-- Folds one row in: the first row with the same key takes its signature over, and without such a
row it is added. -/
def mergeEntry (key : MergeKey) (t : DebugTable) (e : DebugEntry) : DebugTable :=
  match t.entries.findIdx? fun mine => mine.key key = e.key key with
  | some position => { t with entries := t.entries.modify position fun mine => mine.merge e }
  | none => t.add e

/-- Folds a companion table in, row by row. -/
def merge (t other : DebugTable) (key : MergeKey) : DebugTable :=
  other.entries.foldl (mergeEntry key) t

/-- The rows at some positions. -/
def entriesAt (t : DebugTable) (positions : List Nat) : List DebugEntry :=
  positions.filterMap fun i => t.entries[i]?

/-- The rows of a slot, in table order. -/
def ofSlot (t : DebugTable) (slot : Nat) : List DebugEntry :=
  t.entriesAt ((t.bySlot.get? slot).getD [])

/-- The row with the shortest range, the earliest of several. -/
def innermost : List DebugEntry → Option DebugEntry
  | [] => none
  | e :: rest =>
    match innermost rest with
    | none => some e
    | some best => if best.span < e.span then some best else some e

/-- The innermost row of a slot that holds from `first` to `last`. -/
def find? (t : DebugTable) (slot first last : Nat) : Option DebugEntry :=
  innermost ((t.ofSlot slot).filter fun e => e.covers first last)

/-- The innermost row of a slot that holds at one offset. -/
def findAt? (t : DebugTable) (slot offset : Nat) : Option DebugEntry := t.find? slot offset offset

/-- The rows whose range ends at `stop`, one for each slot: the one that starts last. -/
def endingAt (t : DebugTable) (stop : Nat) : Table Nat DebugEntry :=
  let ranges := t.byRange.entries.filter fun r => r.1.2 = stop
  let latestFirst := ranges.mergeSort fun r r' => r.1.1 ≥ r'.1.1
  (t.entriesAt (latestFirst.flatMap Prod.snd)).foldl (fun out e => out.insertIfNew e.slot e) .empty

end DebugTable

end Decompiler

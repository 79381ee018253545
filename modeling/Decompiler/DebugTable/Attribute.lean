import Decompiler.DebugTable.Basic

/-!
# Debug attributes

The body of a debug attribute is a count of two bytes followed by that many records of ten bytes:
start, length, name, descriptor and slot, each two bytes with the high byte first. Names and
descriptors are indices into a pool of strings.
-/

namespace Decompiler

/-- Why the body of a debug attribute could not be read. -/
inductive AttributeError where
  /-- There are fewer bytes than the count asks for. -/
  | truncated (expected actual : Nat)
  /-- An index does not name a string. -/
  | badString (index : Nat)
  deriving DecidableEq, Repr

/-- The text of the error. -/
def AttributeError.message : AttributeError → String
  | .truncated expected actual =>
    "Attribute truncated: expected " ++ toString expected ++ " bytes, got " ++ toString actual
  | .badString index => "Constant pool entry #" ++ toString index ++ " is not a UTF-8 string"

namespace DebugTable

/-- The number two bytes write. -/
def wide (high low : UInt8) : Nat := high.toNat * 256 + low.toNat

/-- Takes the number of two bytes off the front of what is left of a body of `size` bytes. -/
def readWide (size : Nat) : List UInt8 → Except AttributeError (Nat × List UInt8)
  | high :: low :: rest => .ok (wide high low, rest)
  | rest => .error (.truncated (size - rest.length + 2) size)

/-- The string of an index. -/
def string (strings : Nat → Option String) (index : Nat) : Except AttributeError String :=
  match strings index with
  | some s => .ok s
  | none => .error (.badString index)

/-- Reads one record, its name before its descriptor. -/
def readRecord (strings : Nat → Option String) (isTypeRow : Bool) (size : Nat)
    (bytes : List UInt8) : Except AttributeError (DebugEntry × List UInt8) := do
  let (start, bytes) ← readWide size bytes
  let (length, bytes) ← readWide size bytes
  let (name, bytes) ← readWide size bytes
  let name ← string strings name
  let (descriptor, bytes) ← readWide size bytes
  let descriptor ← string strings descriptor
  let (slot, bytes) ← readWide size bytes
  return (⟨name, descriptor, none, start, start + length, slot, isTypeRow⟩, bytes)

/-- Reads `count` records. -/
def readRecords (strings : Nat → Option String) (isTypeRow : Bool) (size : Nat) :
    (count : Nat) → List UInt8 → Except AttributeError (List DebugEntry)
  | 0, _ => return []
  | count + 1, bytes => do
    let (entry, bytes) ← readRecord strings isTypeRow size bytes
    return entry :: (← readRecords strings isTypeRow size count bytes)

/-- Reads the body of a debug attribute. Whether there are enough bytes is found before any record
is read; bytes after the last record are ignored. -/
def parse (strings : Nat → Option String) (isTypeRow : Bool) (bytes : List UInt8) :
    Except AttributeError DebugTable := do
  let (count, body) ← readWide bytes.length bytes
  let expected := 2 + count * 10
  if bytes.length < expected then throw (.truncated expected bytes.length)
  return ofEntries (← readRecords strings isTypeRow bytes.length count body)

end DebugTable

end Decompiler

/-!
# Finite tables

A finite map as the list of its entries, in the order in which the keys were first inserted. The
maps of a method are small, and a list keeps every look-up something that can be computed by hand.

* `Table.get?_insert`: the one law of look-up after insertion.
-/

namespace Decompiler

/-- A finite map from `κ` to `α`. -/
structure Table (κ α : Type) where
  /-- The entries, one for each key that was inserted. -/
  entries : List (κ × α)
  deriving Repr, DecidableEq

namespace Table

variable {κ α : Type} [DecidableEq κ]

/-- The table without entries. -/
def empty : Table κ α := ⟨[]⟩

/-- The number of entries. -/
def size (t : Table κ α) : Nat := t.entries.length

/-- Whether there is no entry. -/
def isEmpty (t : Table κ α) : Bool := t.entries.isEmpty

/-- The keys, in the order of their first insertion. -/
def keys (t : Table κ α) : List κ := t.entries.map Prod.fst

/-- The value of a key. -/
def get? (t : Table κ α) (k : κ) : Option α := (t.entries.find? fun e => e.1 = k).map Prod.snd

/-- Whether a key has a value. -/
def contains (t : Table κ α) (k : κ) : Bool := (t.get? k).isSome

/-- Sets the value of a key in a list of entries, in place when the key is there already. -/
def upsert (k : κ) (v : α) : List (κ × α) → List (κ × α)
  | [] => [(k, v)]
  | (k', v') :: rest => if k' = k then (k, v) :: rest else (k', v') :: upsert k v rest

/-- Sets the value of a key. -/
def insert (t : Table κ α) (k : κ) (v : α) : Table κ α := ⟨upsert k v t.entries⟩

/-- Sets the value of a key from the value it had. -/
def alter (t : Table κ α) (k : κ) (f : Option α → α) : Table κ α := t.insert k (f (t.get? k))

/-- Sets the value of a key that has none yet. -/
def insertIfNew (t : Table κ α) (k : κ) (v : α) : Table κ α :=
  if t.contains k then t else t.insert k v

/-- Enters all of `u`; where both have a key, `u` wins. -/
def union (t u : Table κ α) : Table κ α := u.entries.foldl (fun t e => t.insert e.1 e.2) t

/-- The table of a list of entries, of which a later one wins. -/
def ofList (l : List (κ × α)) : Table κ α := union empty ⟨l⟩

theorem find?_upsert (k : κ) (v : α) (l : List (κ × α)) (j : κ) :
    (upsert k v l).find? (fun e => e.1 = j) =
      if k = j then some (k, v) else l.find? (fun e => e.1 = j) := by
  induction l with
  | nil => by_cases h : k = j <;> simp [upsert, h]
  | cons e rest ih =>
    by_cases hk : e.1 = k
    · by_cases h : k = j <;> simp [upsert, hk, h]
    · by_cases h : k = j
      · subst h
        simpa [upsert, hk] using ih
      · simp [upsert, hk, h, List.find?_cons, ih]

@[simp] theorem get?_empty (k : κ) : (empty : Table κ α).get? k = none := rfl

theorem get?_insert (t : Table κ α) (k j : κ) (v : α) :
    (t.insert k v).get? j = if k = j then some v else t.get? j := by
  unfold get? insert
  rw [find?_upsert]
  split <;> rfl

end Table

end Decompiler

set_option autoImplicit false

/-!
# Tables

A table maps keys to values and keeps the order in which its keys were first given.

## Main definitions

* `MaskEnum.Table` — a list of keys with their values.
* `MaskEnum.Table.get?`, `MaskEnum.Table.insert` — look-up, and setting a value; a key that is
  already there keeps its place.
* `MaskEnum.Table.ofList` — the table of a list, in which the last value of a key wins.
* `MaskEnum.Table.merge` — one table with the values of another set on top.
-/

namespace MaskEnum

/-- Keys with their values, in the order in which the keys were first given. -/
structure Table (κ α : Type) where
  entries : List (κ × α) := []
  deriving Repr, DecidableEq

namespace Table

variable {κ α : Type}

/-- The table without entries. -/
def empty : Table κ α := ⟨[]⟩

instance : Inhabited (Table κ α) := ⟨empty⟩

/-- The keys, in order. -/
def keys (t : Table κ α) : List κ := t.entries.map Prod.fst

/-- The number of entries. -/
def size (t : Table κ α) : Nat := t.entries.length

/-- The table with every value changed. -/
def mapValues {β : Type} (f : α → β) (t : Table κ α) : Table κ β :=
  ⟨t.entries.map fun (k, a) => (k, f a)⟩

variable [DecidableEq κ]

/-- The value of a key. -/
def get? (t : Table κ α) (k : κ) : Option α := (t.entries.find? (·.1 = k)).map Prod.snd

/-- Whether a key has a value. -/
def contains (t : Table κ α) (k : κ) : Bool := (t.get? k).isSome

/-- The entries with the value of `k` set. -/
def insertEntry (k : κ) (a : α) : List (κ × α) → List (κ × α)
  | [] => [(k, a)]
  | e :: es => if e.1 = k then (k, a) :: es else e :: insertEntry k a es

/-- The table with the value of `k` set to `a`. -/
def insert (t : Table κ α) (k : κ) (a : α) : Table κ α := ⟨insertEntry k a t.entries⟩

/-- The table with the value of `k` set to `a` unless it has one. -/
def insertNew (t : Table κ α) (k : κ) (a : α) : Table κ α :=
  if t.contains k then t else t.insert k a

/-- The table without the key `k`. -/
def erase (t : Table κ α) (k : κ) : Table κ α := ⟨t.entries.filter (·.1 ≠ k)⟩

/-- The table with the entries of a list set in turn. -/
def insertAll (t : Table κ α) (es : List (κ × α)) : Table κ α :=
  es.foldl (fun t e => t.insert e.1 e.2) t

/-- The table of a list. -/
def ofList (es : List (κ × α)) : Table κ α := empty.insertAll es

/-- The first table with the entries of the second set on top. -/
def merge (t u : Table κ α) : Table κ α := t.insertAll u.entries

/-! ## Look-up after a change -/

theorem get?_empty (k : κ) : (empty : Table κ α).get? k = none := rfl

theorem find?_insertEntry (k k' : κ) (a : α) (es : List (κ × α)) :
    (insertEntry k a es).find? (·.1 = k') =
      if k = k' then some (k, a) else es.find? (·.1 = k') := by
  induction es with
  | nil => by_cases h : k = k' <;> simp [insertEntry, h]
  | cons e es ih =>
    unfold insertEntry
    split
    · next he =>
      by_cases h : k = k'
      · simp [h]
      · simp [he, h]
    · next he =>
      rw [List.find?_cons, List.find?_cons, ih]
      by_cases h : k = k'
      · subst h
        simp [he]
      · simp [h]

/-- After setting a value, exactly its key is changed. -/
theorem get?_insert (t : Table κ α) (k k' : κ) (a : α) :
    (t.insert k a).get? k' = if k = k' then some a else t.get? k' := by
  simp only [get?, insert, find?_insertEntry]
  split <;> rfl

end Table
end MaskEnum

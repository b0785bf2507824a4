/-!
# Tables

A finite map, held as its entries in the order in which their keys first came. A key is in the
table once: giving it a new value keeps its place. Everything a table answers goes through `get?`,
and the two lemmas on `insert` are all that its users need.
-/

namespace Mcs51

/-- A finite map. -/
structure Table (κ ν : Type) where
  /-- The entries, oldest key first. -/
  entries : List (κ × ν)
  deriving DecidableEq, Repr

namespace Table

variable {κ ν : Type} [DecidableEq κ]

def empty : Table κ ν := ⟨[]⟩

instance : EmptyCollection (Table κ ν) := ⟨empty⟩

/-- The value of a key among entries. -/
def lookup (key : κ) : List (κ × ν) → Option ν
  | [] => none
  | entry :: rest => if entry.1 = key then some entry.2 else lookup key rest

/-- Entries with a key given a value, in the place of its old one or else at the end. -/
def assign (key : κ) (value : ν) : List (κ × ν) → List (κ × ν)
  | [] => [(key, value)]
  | entry :: rest =>
    if entry.1 = key then (key, value) :: rest else entry :: assign key value rest

/-- The value of a key, if the table has it. -/
def get? (t : Table κ ν) (key : κ) : Option ν := lookup key t.entries

/-- The table with a key given a value. -/
def insert (t : Table κ ν) (key : κ) (value : ν) : Table κ ν := ⟨assign key value t.entries⟩

/-- The number of keys. -/
def size (t : Table κ ν) : Nat := t.entries.length

def isEmpty (t : Table κ ν) : Bool := t.entries.isEmpty

/-- The entries in ascending order of their keys. -/
def toSortedList (t : Table κ ν) (less : κ → κ → Bool) : List (κ × ν) :=
  t.entries.mergeSort fun x y => !less y.1 x.1

@[simp] theorem get?_empty (key : κ) : (∅ : Table κ ν).get? key = none := rfl

theorem lookup_assign (key other : κ) (value : ν) (entries : List (κ × ν)) :
    lookup other (assign key value entries) =
      if key = other then some value else lookup other entries := by
  induction entries with
  | nil => simp [assign, lookup]
  | cons entry rest ih =>
    by_cases hk : entry.1 = key
    · by_cases ho : key = other <;> simp [assign, lookup, hk, ho]
    · by_cases ho : key = other
      · subst ho
        simp [assign, lookup, hk, ih]
      · simp [assign, lookup, hk, ih, ho]

/-- A key that was given a value has it, and no other key changes. -/
theorem get?_insert (t : Table κ ν) (key other : κ) (value : ν) :
    (t.insert key value).get? other = if key = other then some value else t.get? other :=
  lookup_assign key other value t.entries

@[simp] theorem get?_insert_self (t : Table κ ν) (key : κ) (value : ν) :
    (t.insert key value).get? key = some value := by
  simp [get?_insert]

theorem get?_insert_of_ne (t : Table κ ν) {key other : κ} (value : ν) (h : key ≠ other) :
    (t.insert key value).get? other = t.get? other := by
  simp [get?_insert, h]

end Table
end Mcs51

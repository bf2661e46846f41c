/-! # Ordered dictionaries

A `Dictionary` is a list of keyed values in order.  `insert` keeps the place of a key that is
there already, `ofList` therefore the first place and the last value of each key, `erase` fills the
place of what it takes out with the last entry, and `sorted` puts the entries in the order of their
keys. -/

namespace ObjectGraph

/-- Keyed values in order. -/
abbrev Dictionary (α : Type) := List (String × α)

namespace Dictionary

variable {α : Type}

/-- The value under a key. -/
def get? (d : Dictionary α) (key : String) : Option α := d.lookup key

/-- Whether a key is there. -/
def has (d : Dictionary α) (key : String) : Bool := (d.get? key).isSome

/-- The keys in order. -/
def keys (d : Dictionary α) : List String := d.map Prod.fst

/-- Put a value under a key: in the place of the key if it is there, else at the end. -/
def insert (d : Dictionary α) (key : String) (value : α) : Dictionary α :=
  match d with
  | [] => [(key, value)]
  | (k, v) :: rest => if k = key then (k, value) :: rest else (k, v) :: insert rest key value

/-- The last entry in front of the others, unless its key is one of theirs. -/
def lastFirst (d : Dictionary α) : Dictionary α :=
  match d.getLast? with
  | none => []
  | some last => if has d.dropLast last.1 then d.dropLast else last :: d.dropLast

/-- Take a key and its value out.  The last entry comes into the place that falls free. -/
def erase (d : Dictionary α) (key : String) : Dictionary α :=
  match d with
  | [] => []
  | (k, v) :: rest => if k = key then lastFirst (erase rest key) else (k, v) :: erase rest key

/-- The dictionary of a list of entries; of entries with one key the last value and the first
place count. -/
def ofList (entries : List (String × α)) : Dictionary α :=
  entries.foldl (fun d entry => d.insert entry.1 entry.2) []

/-- The entries in the order of their keys. -/
def sorted (d : Dictionary α) : Dictionary α := d.mergeSort fun x y => !(y.1 < x.1)

theorem get?_insert (d : Dictionary α) (key key' : String) (value : α) :
    (d.insert key value).get? key' = if key' = key then some value else d.get? key' := by
  induction d with
  | nil =>
    by_cases h : key' = key
    · simp [insert, get?, h]
    · simp [insert, get?, List.lookup_cons, h, beq_false_of_ne h]
  | cons entry rest ih =>
    obtain ⟨k, v⟩ := entry
    simp only [get?] at ih ⊢
    by_cases hk : k = key
    · subst hk
      by_cases h : key' = k
      · simp [insert, h]
      · simp [insert, List.lookup_cons, h, beq_false_of_ne h]
    · by_cases h : key' = k
      · subst h
        simp [insert, hk]
      · simp [insert, List.lookup_cons, hk, beq_false_of_ne h, ih]

end Dictionary

end ObjectGraph

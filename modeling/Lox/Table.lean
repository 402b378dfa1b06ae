/-!
# Tables by name

A table maps names to values.  It is a list of entries in which every name
has its first entry only, so that inserting overwrites in place.  The view of
a table is `find?`; the lemmas say what each operation does to it.
-/

namespace Lox

/-- A map from names to values. -/
structure Table (α : Type) where
  entries : List (String × α)
  deriving Repr, Inhabited

namespace Table

variable {α : Type}

/-- The table without names. -/
def empty : Table α := ⟨[]⟩

/-- The value of a name. -/
def find? (t : Table α) (name : String) : Option α :=
  t.entries.lookup name

/-- Whether a name has a value. -/
def contains (t : Table α) (name : String) : Bool :=
  (t.find? name).isSome

/-- Overwrites the entry of a name, or adds one at the end. -/
def insertEntry (name : String) (value : α) :
    List (String × α) → List (String × α)
  | [] => [(name, value)]
  | (key, old) :: rest =>
    if key = name then (key, value) :: rest
    else (key, old) :: insertEntry name value rest

/-- Gives a name a value. -/
def insert (t : Table α) (name : String) (value : α) : Table α :=
  ⟨insertEntry name value t.entries⟩

/-- Gives names their values in order; a later value wins. -/
def insertAll (t : Table α) (items : List (String × α)) : Table α :=
  items.foldl (fun t (name, value) => t.insert name value) t

@[simp] theorem find?_empty (name : String) :
    (empty : Table α).find? name = none := rfl

theorem lookup_insertEntry (name other : String) (value : α)
    (entries : List (String × α)) :
    (insertEntry name value entries).lookup other =
      if other = name then some value else entries.lookup other := by
  induction entries with
  | nil =>
    by_cases h : other = name
    · simp [insertEntry, h]
    · have : (other == name) = false := by simp [h]
      simp [insertEntry, List.lookup_cons, h, this]
  | cons entry rest ih =>
    obtain ⟨key, old⟩ := entry
    by_cases hk : key = name
    · subst hk
      by_cases h : other = key
      · simp [insertEntry, h]
      · have : (other == key) = false := by simp [h]
        simp [insertEntry, List.lookup_cons, h, this]
    · by_cases h : other = key
      · subst h
        simp [insertEntry, hk]
      · have : (other == key) = false := by simp [h]
        simp [insertEntry, hk, List.lookup_cons, this, ih]

/-- Inserting changes the value of one name and of no other. -/
theorem find?_insert (t : Table α) (name other : String) (value : α) :
    (t.insert name value).find? other =
      if other = name then some value else t.find? other :=
  lookup_insertEntry name other value t.entries

@[simp] theorem find?_insert_self (t : Table α) (name : String) (value : α) :
    (t.insert name value).find? name = some value := by
  simp [find?_insert]

theorem find?_insert_of_ne (t : Table α) {name other : String} (value : α)
    (h : other ≠ name) :
    (t.insert name value).find? other = t.find? other := by
  simp [find?_insert, h]

/-- What holds of all values holds of all when one more of this kind is
inserted. -/
theorem forall_insert {P : α → Prop} {t : Table α}
    (h : ∀ name v, t.find? name = some v → P v) (key : String) {value : α}
    (hvalue : P value) :
    ∀ name v, (t.insert key value).find? name = some v → P v := by
  intro name v hv
  rw [find?_insert] at hv
  split at hv
  · cases hv
    exact hvalue
  · exact h name v hv

/-- A table of one value. -/
theorem forall_single {P : α → Prop} (key : String) {value : α}
    (hvalue : P value) :
    ∀ name v, ((empty : Table α).insert key value).find? name = some v → P v :=
  forall_insert (by simp) key hvalue

end Table

end Lox

import Std.Data.TreeMap.Lemmas

/-!
# The distance table

Each occurrence of a local name has a distance: how many frames lie between
the code and the frame that holds the name.  An occurrence without an entry
is global.
-/

namespace Lox

/-- Distances of occurrences, by their ids. -/
structure Distances where
  table : Std.TreeMap Nat Nat compare

namespace Distances

/-- No distances: every occurrence is global. -/
def empty : Distances := ⟨∅⟩

/-- The distance of an occurrence. -/
def find? (d : Distances) (id : Nat) : Option Nat :=
  d.table[id]?

/-- Sets the distance of an occurrence. -/
def record (d : Distances) (id distance : Nat) : Distances :=
  ⟨d.table.insert id distance⟩

/-- All entries, by increasing id. -/
def toList (d : Distances) : List (Nat × Nat) :=
  d.table.toList

/-- Adds the entries of another table after a change of each distance. -/
def recordAll (d : Distances) (change : Nat → Nat) (other : Distances) :
    Distances :=
  other.toList.foldl (fun d (id, distance) => d.record id (change distance)) d

@[simp] theorem find?_empty (id : Nat) : empty.find? id = none :=
  Std.TreeMap.getElem?_emptyc

/-- Recording changes the distance of one occurrence and of no other. -/
theorem find?_record (d : Distances) (id distance other : Nat) :
    (d.record id distance).find? other =
      if other = id then some distance else d.find? other := by
  by_cases h : other = id
  · subst h
    simp [record, find?]
  · have hne : id ≠ other := fun heq => h heq.symm
    simp [record, find?, Std.TreeMap.getElem?_insert, h, hne]

theorem find?_record_of_ne (d : Distances) {id other : Nat} (distance : Nat)
    (h : other ≠ id) : (d.record id distance).find? other = d.find? other := by
  rw [find?_record, if_neg h]

end Distances

end Lox

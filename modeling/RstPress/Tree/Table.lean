/-!
A table holds one value for each of some names, sorted by name. Two tables with the same values for the
same names are equal, so the order in which a table was filled does not show.
-/

namespace RstPress.Tree
variable {α : Type}

/-- Adds a value in its place; if the name has one already, the two are combined. -/
def insertEntry (combine : α → α → α) (name : String) (value : α) :
    List (String × α) → List (String × α)
  | [] => [(name, value)]
  | (other, old) :: entries =>
    if name < other then (name, value) :: (other, old) :: entries
    else if name = other then (other, combine old value) :: entries
    else (other, old) :: insertEntry combine name value entries

theorem mem_insertEntry {combine : α → α → α} {name : String} {value : α} {entry : String × α}
    {entries : List (String × α)} (member : entry ∈ insertEntry combine name value entries) :
    entry.1 = name ∨ ∃ old ∈ entries, entry.1 = old.1 := by
  induction entries with
  | nil => exact .inl (by simp_all [insertEntry])
  | cons first entries ih =>
    obtain ⟨other, old⟩ := first
    rw [insertEntry] at member
    split at member
    · rcases List.mem_cons.mp member with rfl | later
      · exact .inl rfl
      · exact .inr ⟨entry, later, rfl⟩
    · split at member
      · rcases List.mem_cons.mp member with rfl | later
        · exact .inr ⟨(other, old), List.mem_cons_self, rfl⟩
        · exact .inr ⟨entry, List.mem_cons_of_mem _ later, rfl⟩
      · rcases List.mem_cons.mp member with rfl | later
        · exact .inr ⟨(other, old), List.mem_cons_self, rfl⟩
        · rcases ih later with same | ⟨found, present, same⟩
          · exact .inl same
          · exact .inr ⟨found, List.mem_cons_of_mem _ present, same⟩

def Sorted (entries : List (String × α)) : Prop := entries.Pairwise fun a b => a.1 < b.1

theorem lt_of_not_lt_of_ne {a b : String} (notLess : ¬a < b) (distinct : a ≠ b) : b < a :=
  Classical.byContradiction fun notGreater =>
    distinct (String.le_antisymm (String.not_lt.mp notGreater) (String.not_lt.mp notLess))

theorem sorted_insertEntry (combine : α → α → α) (name : String) (value : α)
    {entries : List (String × α)} (sorted : Sorted entries) :
    Sorted (insertEntry combine name value entries) := by
  induction entries with
  | nil => exact List.pairwise_singleton _ _
  | cons first entries ih =>
    obtain ⟨other, old⟩ := first
    obtain ⟨above, rest⟩ := List.pairwise_cons.mp sorted
    rw [insertEntry]
    split
    · rename_i less
      refine List.pairwise_cons.mpr ⟨fun entry member => ?_, sorted⟩
      rcases List.mem_cons.mp member with rfl | later
      · exact less
      · exact String.lt_trans less (above entry later)
    · rename_i notLess
      split
      · exact List.pairwise_cons.mpr ⟨above, rest⟩
      · rename_i distinct
        refine List.pairwise_cons.mpr ⟨fun entry member => ?_, ih rest⟩
        rcases mem_insertEntry member with same | ⟨found, present, same⟩
        · exact same ▸ lt_of_not_lt_of_ne notLess distinct
        · exact same ▸ above found present

structure Table (α : Type) where
  entries : List (String × α)
  sorted : Sorted entries

namespace Table

def empty : Table α := ⟨[], List.Pairwise.nil⟩

def insertWith (combine : α → α → α) (name : String) (value : α) (table : Table α) : Table α :=
  ⟨insertEntry combine name value table.entries, sorted_insertEntry combine name value table.sorted⟩

/-- Adds all values of another table. -/
def mergeWith (combine : α → α → α) (table added : Table α) : Table α :=
  added.entries.foldl (fun table entry => table.insertWith combine entry.1 entry.2) table

def get? (table : Table α) (name : String) : Option α := table.entries.lookup name

def names (table : Table α) : List String := table.entries.map Prod.fst

end Table

end RstPress.Tree

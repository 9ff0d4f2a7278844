import Mathlib.Algebra.GroupWithZero.Nat
import Mathlib.Data.List.Basic
import RstPress.Tree.Table

/-!
What a table gives for a name. Adding a value changes the entry of its own name and no other; since the
names are sorted, no name has a second entry.
-/

namespace RstPress.Tree
variable {α : Type}

theorem lookup_cons_eq (other name : String) (value : α) (entries : List (String × α)) :
    ((name, value) :: entries).lookup other =
      if other = name then some value else entries.lookup other := by
  rw [List.lookup_cons]
  by_cases same : other = name
  · rw [if_pos same, beq_iff_eq.mpr same]
  · rw [if_neg same, beq_eq_false_iff_ne.mpr same]

/-- A name in front of all others has no entry. -/
theorem lookup_eq_none_of_lt {name : String} {entries : List (String × α)}
    (above : ∀ entry ∈ entries, name < entry.1) : entries.lookup name = none := by
  refine List.lookup_eq_none_iff.mpr fun entry member => bne_iff_ne.mpr fun same => ?_
  have less := above entry member
  rw [← same] at less
  exact String.lt_irrefl name less

theorem lookup_insertEntry (combine : α → α → α) (name : String) (value : α)
    {entries : List (String × α)} (sorted : Sorted entries) (other : String) :
    (insertEntry combine name value entries).lookup other =
      if other = name then some (((entries.lookup name).map (combine · value)).getD value)
      else entries.lookup other := by
  induction entries with
  | nil => exact lookup_cons_eq other name value []
  | cons first entries ih =>
    obtain ⟨here, old⟩ := first
    obtain ⟨above, rest⟩ := List.pairwise_cons.mp sorted
    rw [insertEntry]
    split
    · rename_i less
      have absent : ((here, old) :: entries).lookup name = none := by
        refine lookup_eq_none_of_lt fun entry member => ?_
        rcases List.mem_cons.mp member with rfl | later
        · exact less
        · exact String.lt_trans less (above entry later)
      rw [lookup_cons_eq, absent]
      rfl
    · split
      · rename_i same
        subst same
        rw [lookup_cons_eq, lookup_cons_eq, lookup_cons_eq, if_pos rfl]
        by_cases equal : other = name
        · rw [if_pos equal, if_pos equal]
          rfl
        · simp only [if_neg equal]
      · rename_i distinct
        rw [lookup_cons_eq, lookup_cons_eq, lookup_cons_eq, if_neg distinct, ih rest]
        by_cases equal : other = name
        · rw [if_pos equal, if_pos equal, if_neg (equal ▸ distinct)]
        · simp only [if_neg equal]

theorem mem_map_fst_iff (name : String) (entries : List (String × α)) :
    name ∈ entries.map Prod.fst ↔ (entries.lookup name).isSome := by
  induction entries with
  | nil => simp
  | cons first entries ih =>
    rw [List.map_cons, List.mem_cons, ih, lookup_cons_eq]
    by_cases same : name = first.1 <;> simp [same]

theorem sum_insertEntry (name : String) (value : Nat) (entries : List (String × Nat)) :
    ((insertEntry (· + ·) name value entries).map Prod.snd).sum =
      (entries.map Prod.snd).sum + value := by
  induction entries with
  | nil => simp [insertEntry]
  | cons first entries ih =>
    rw [insertEntry]
    split
    · simp only [List.map_cons, List.sum_cons]
      omega
    · split
      · simp only [List.map_cons, List.sum_cons]
        omega
      · simp only [List.map_cons, List.sum_cons, ih]
        omega

namespace Table

@[simp] theorem get?_empty (name : String) : (empty : Table α).get? name = none := rfl

theorem get?_insertWith (combine : α → α → α) (name : String) (value : α) (table : Table α)
    (other : String) :
    (table.insertWith combine name value).get? other =
      if other = name then some (((table.get? name).map (combine · value)).getD value)
      else table.get? other :=
  lookup_insertEntry combine name value table.sorted other

theorem mem_names_iff (table : Table α) (name : String) :
    name ∈ table.names ↔ (table.get? name).isSome :=
  mem_map_fst_iff name table.entries

theorem mem_names_insertWith (combine : α → α → α) (name : String) (value : α) (table : Table α)
    (other : String) :
    other ∈ (table.insertWith combine name value).names ↔ other = name ∨ other ∈ table.names := by
  rw [mem_names_iff, mem_names_iff, get?_insertWith]
  by_cases same : other = name <;> simp [same]

end Table

end RstPress.Tree

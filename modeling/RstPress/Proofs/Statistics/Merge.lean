import Mathlib.Algebra.BigOperators.Group.List.Basic
import Mathlib.Algebra.Order.Group.Nat
import RstPress.Inline.Span
import RstPress.Proofs.Statistics.Visits

/-!
Statistics of several trees. A table is known by what it gives for each name, and a merged table gives
for a name what both tables give for it, combined. So statistics are a commutative monoid under merging,
and the total of some trees is the same in whatever order and grouping it is made.
-/

namespace RstPress.Tree
variable {α : Type}

/-- In a sorted table there is nothing for a name in front of the first one. -/
theorem not_lt_of_lookup {name : String} {first : String × α} {entries : List (String × α)}
    (sorted : Sorted (first :: entries)) (found : ((first :: entries).lookup name).isSome) :
    ¬name < first.1 := by
  intro less
  have absent : (first :: entries).lookup name = none := by
    apply lookup_eq_none_of_lt
    intro entry member
    rcases List.mem_cons.mp member with rfl | later
    · exact less
    · exact String.lt_trans less ((List.pairwise_cons.mp sorted).1 entry later)
  rw [absent] at found
  cases found

/-- Sorted entries are known by what is found for each name. -/
theorem eq_of_lookup_eq {a b : List (String × α)} (sortedA : Sorted a) (sortedB : Sorted b)
    (same : ∀ name, a.lookup name = b.lookup name) : a = b := by
  induction a generalizing b with
  | nil =>
    cases b with
    | nil => rfl
    | cons first b =>
      have found := same first.1
      rw [lookup_cons_eq, if_pos rfl] at found
      cases found
  | cons firstA a ih =>
    cases b with
    | nil =>
      have found := same firstA.1
      rw [lookup_cons_eq, if_pos rfl] at found
      cases found
    | cons firstB b =>
      have hereA : (firstA :: a).lookup firstA.1 = some firstA.2 := by rw [lookup_cons_eq, if_pos rfl]
      have hereB : (firstB :: b).lookup firstB.1 = some firstB.2 := by rw [lookup_cons_eq, if_pos rfl]
      have names : firstA.1 = firstB.1 := by
        apply String.le_antisymm
        · exact String.not_lt.mp (not_lt_of_lookup sortedA (by rw [same, hereB]; rfl))
        · exact String.not_lt.mp (not_lt_of_lookup sortedB (by rw [← same, hereA]; rfl))
      have first : firstA = firstB := by
        have values := same firstA.1
        rw [hereA, names, hereB] at values
        exact Prod.ext names (Option.some.inj values)
      subst first
      obtain ⟨aboveA, restA⟩ := List.pairwise_cons.mp sortedA
      obtain ⟨aboveB, restB⟩ := List.pairwise_cons.mp sortedB
      rw [ih restA restB fun name => ?_]
      by_cases head : name = firstA.1
      · rw [head, lookup_eq_none_of_lt aboveA, lookup_eq_none_of_lt aboveB]
      · have found := same name
        rwa [lookup_cons_eq, lookup_cons_eq, if_neg head, if_neg head] at found

/-- Entries added one after the other are combined with what the table has for their names. -/
theorem get?_foldl_insertWith (combine : α → α → α) {entries : List (String × α)}
    (sorted : Sorted entries) (table : Table α) (name : String) :
    (entries.foldl (fun table entry => table.insertWith combine entry.1 entry.2) table).get? name =
      Option.merge combine (table.get? name) (entries.lookup name) := by
  induction entries generalizing table with
  | nil => rw [List.foldl_nil, List.lookup_nil, Option.merge_none_right]
  | cons entry entries ih =>
    obtain ⟨above, rest⟩ := List.pairwise_cons.mp sorted
    rw [List.foldl_cons, ih rest, Table.get?_insertWith, lookup_cons_eq]
    by_cases here : name = entry.1
    · -- The name has no second entry.
      rw [if_pos here, if_pos here, here, lookup_eq_none_of_lt above, Option.merge_none_right]
      cases table.get? entry.1 <;> rfl
    · rw [if_neg here, if_neg here]

namespace Table

theorem ext_get? {a b : Table α} (same : ∀ name, a.get? name = b.get? name) : a = b := by
  obtain ⟨entries, sorted⟩ := a
  obtain ⟨others, sortedOthers⟩ := b
  congr
  exact eq_of_lookup_eq sorted sortedOthers same

@[simp] theorem get?_mergeWith (combine : α → α → α) (table added : Table α) (name : String) :
    (table.mergeWith combine added).get? name =
      Option.merge combine (table.get? name) (added.get? name) :=
  get?_foldl_insertWith combine added.sorted table name

theorem mergeWith_comm {combine : α → α → α} (comm : ∀ x y, combine x y = combine y x)
    (a b : Table α) : a.mergeWith combine b = b.mergeWith combine a := by
  apply ext_get?
  intro name
  rw [get?_mergeWith, get?_mergeWith]
  cases a.get? name <;> cases b.get? name <;> simp [Option.merge, comm]

theorem mergeWith_assoc {combine : α → α → α}
    (assoc : ∀ x y z, combine (combine x y) z = combine x (combine y z)) (a b c : Table α) :
    (a.mergeWith combine b).mergeWith combine c = a.mergeWith combine (b.mergeWith combine c) := by
  apply ext_get?
  intro name
  simp only [get?_mergeWith]
  cases a.get? name <;> cases b.get? name <;> cases c.get? name <;> simp [Option.merge, assoc]

theorem empty_mergeWith (combine : α → α → α) (table : Table α) :
    empty.mergeWith combine table = table := by
  apply ext_get?
  intro name
  rw [get?_mergeWith, get?_empty, Option.merge_none_left]

theorem mem_names_mergeWith (combine : α → α → α) (table added : Table α) (name : String) :
    name ∈ (table.mergeWith combine added).names ↔ name ∈ table.names ∨ name ∈ added.names := by
  simp only [mem_names_iff, get?_mergeWith]
  cases table.get? name <;> cases added.get? name <;> simp [Option.merge]

theorem sum_mergeWith (table added : Table Nat) :
    ((table.mergeWith (· + ·) added).entries.map Prod.snd).sum =
      (table.entries.map Prod.snd).sum + (added.entries.map Prod.snd).sum := by
  have sum_foldl (entries : List (String × Nat)) (total : Table Nat) :
      ((entries.foldl (fun total entry => total.insertWith (· + ·) entry.1 entry.2) total).entries.map
        Prod.snd).sum = (total.entries.map Prod.snd).sum + (entries.map Prod.snd).sum := by
    induction entries generalizing total with
    | nil => rfl
    | cons entry entries ih =>
      rw [List.foldl_cons, ih, insertWith, sum_insertEntry, List.map_cons, List.sum_cons, Nat.add_assoc]
  exact sum_foldl added.entries table

theorem mem_entries_iff (table : Table α) (name : String) (value : α) :
    (name, value) ∈ table.entries ↔ table.get? name = some value := by
  obtain ⟨entries, sorted⟩ := table
  rw [get?]
  induction entries with
  | nil => simp
  | cons first entries ih =>
    obtain ⟨above, rest⟩ := List.pairwise_cons.mp sorted
    rw [lookup_cons_eq, List.mem_cons, ih rest]
    by_cases here : name = first.1
    · rw [if_pos here, here, lookup_eq_none_of_lt above]
      simp [Prod.ext_iff, eq_comm]
    · rw [if_neg here]
      simp [Prod.ext_iff, here]

end Table

namespace Statistics

theorem merge_assoc (a b c : Statistics) : (a.merge b).merge c = a.merge (b.merge c) := by
  simp only [merge, mk.injEq]
  exact ⟨Table.mergeWith_assoc Nat.add_assoc .., Nat.add_assoc .., Nat.max_assoc ..,
    Table.mergeWith_assoc (fun _ _ _ => rfl) ..⟩

theorem merge_comm (a b : Statistics) : a.merge b = b.merge a := by
  simp only [merge, mk.injEq]
  exact ⟨Table.mergeWith_comm Nat.add_comm .., Nat.add_comm .., Nat.max_comm ..,
    Table.mergeWith_comm (fun _ _ => rfl) ..⟩

theorem empty_merge (a : Statistics) : empty.merge a = a := by
  simp only [merge, empty, Table.empty_mergeWith, Nat.zero_add, Nat.zero_max]

theorem merge_empty (a : Statistics) : a.merge empty = a := (merge_comm a empty).trans (empty_merge a)

instance : Zero Statistics := ⟨empty⟩

instance : Add Statistics := ⟨merge⟩

instance : AddCommMonoid Statistics where
  add_assoc := merge_assoc
  zero_add := empty_merge
  add_zero := merge_empty
  add_comm := merge_comm
  nsmul := nsmulRec

/-- Each node is counted under its type, no type is listed without a node, and only types that are
counted are fallbacks. -/
structure IsBalanced (total : Statistics) : Prop where
  sum : (total.counts.entries.map Prod.snd).sum = total.nodeCount
  positive : ∀ entry ∈ total.counts.entries, 0 < entry.2
  counted : ∀ name ∈ total.fallbacks.names, name ∈ total.counts.names

theorem isBalanced_empty : IsBalanced empty :=
  ⟨rfl, List.forall_mem_nil _, List.forall_mem_nil _⟩

theorem isBalanced_note {total : Statistics} (balanced : total.IsBalanced) (visit : Visit) :
    (total.note visit).IsBalanced := by
  refine ⟨?_, ?_, ?_⟩
  · rw [counts_note, nodeCount_note, Table.insertWith, sum_insertEntry, balanced.sum]
  · rintro ⟨name, count⟩ member
    rw [Table.mem_entries_iff, counts_note, Table.get?_insertWith] at member
    by_cases here : name = visit.name
    · rw [if_pos here, Option.some.injEq] at member
      rw [← member]
      cases total.counts.get? visit.name with
      | none => exact Nat.one_pos
      | some old => exact Nat.succ_pos old
    · rw [if_neg here, ← Table.mem_entries_iff] at member
      exact balanced.positive _ member
  · intro name member
    rw [counts_note, Table.mem_names_insertWith]
    rcases (mem_fallbacks_note total visit name).mp member with ⟨_, here⟩ | before
    · exact .inl here
    · exact .inr (balanced.counted name before)

theorem isBalanced_ofTree (tree : Node) : (ofTree tree).IsBalanced := by
  have balanced_foldl (found : List Visit) (total : Statistics) (balanced : total.IsBalanced) :
      (found.foldl note total).IsBalanced := by
    induction found generalizing total with
    | nil => exact balanced
    | cons visit found ih => exact ih _ (isBalanced_note balanced visit)
  rw [ofTree, visit_eq_foldl]
  exact balanced_foldl (visits 0 tree) empty isBalanced_empty

theorem isBalanced_merge {total added : Statistics} (balanced : total.IsBalanced)
    (balancedAdded : added.IsBalanced) : (total.merge added).IsBalanced := by
  refine ⟨?_, ?_, ?_⟩
  · rw [merge, Table.sum_mergeWith, balanced.sum, balancedAdded.sum]
  · rintro ⟨name, count⟩ member
    rw [Table.mem_entries_iff, merge, Table.get?_mergeWith] at member
    cases here : total.counts.get? name with
    | none =>
      rw [here, Option.merge_none_left, ← Table.mem_entries_iff] at member
      exact balancedAdded.positive _ member
    | some old =>
      have positive := balanced.positive _ ((Table.mem_entries_iff ..).mpr here)
      rw [here] at member
      cases there : added.counts.get? name with
      | none =>
        rw [there, Option.merge_none_right, Option.some.injEq] at member
        exact member ▸ positive
      | some more =>
        rw [there] at member
        cases member
        exact Nat.add_pos_left positive more
  · intro name member
    rw [merge, Table.mem_names_mergeWith] at member ⊢
    exact member.imp (balanced.counted name) (balancedAdded.counted name)

@[simp] theorem count_merge (total added : Statistics) (name : String) :
    (total.merge added).count name = total.count name + added.count name := by
  rw [count, merge, Table.get?_mergeWith, count, count]
  cases total.counts.get? name <;> cases added.counts.get? name <;> simp [Option.merge]

end Statistics

/-- A way to merge the statistics of trees: in any order, in any groups, and with nothing in between. -/
inductive Merging where
  | nothing
  | tree (node : Node)
  | both (first added : Merging)

namespace Merging

def trees : Merging → List Node
  | .nothing => []
  | .tree node => [node]
  | .both first added => first.trees ++ added.trees

def total : Merging → Statistics
  | .nothing => .empty
  | .tree node => .ofTree node
  | .both first added => first.total.merge added.total

theorem total_eq_sum (merging : Merging) : merging.total = (merging.trees.map Statistics.ofTree).sum := by
  induction merging with
  | nothing => rfl
  | tree node => exact List.sum_singleton.symm
  | both first added ihFirst ihAdded =>
    rw [trees, List.map_append, List.sum_append, ← ihFirst, ← ihAdded]
    rfl

theorem isBalanced_total (merging : Merging) : merging.total.IsBalanced := by
  induction merging with
  | nothing => exact Statistics.isBalanced_empty
  | tree node => exact Statistics.isBalanced_ofTree node
  | both first added ihFirst ihAdded => exact Statistics.isBalanced_merge ihFirst ihAdded

end Merging

/-- Statistics that are the total of some trees: numbers are added up, the depth is the greatest one, and
the fallbacks are those of any tree. -/
structure Statistics.IsTotal (total : Statistics) (trees : List Node) : Prop where
  counts : ∀ name, total.count name = (trees.map fun tree => (ofTree tree).count name).sum
  nodeCount : total.nodeCount = (trees.map fun tree => (ofTree tree).nodeCount).sum
  maxDepth : total.maxDepth = (trees.map fun tree => (ofTree tree).maxDepth).foldr max 0
  fallbacks : ∀ name, name ∈ total.fallbacks.names ↔
    ∃ tree ∈ trees, name ∈ (ofTree tree).fallbacks.names

theorem Statistics.isTotal_sum (trees : List Node) : (trees.map ofTree).sum.IsTotal trees := by
  induction trees with
  | nil => exact ⟨fun _ => rfl, rfl, rfl, fun name => by simp; exact List.not_mem_nil⟩
  | cons tree trees ih =>
    rw [List.map_cons, List.sum_cons]
    refine ⟨fun name => ?_, ?_, ?_, fun name => ?_⟩
    · rw [List.map_cons, List.sum_cons, ← ih.counts name]
      exact count_merge ..
    · rw [List.map_cons, List.sum_cons, ← ih.nodeCount]
      rfl
    · rw [List.map_cons, List.foldr_cons, ← ih.maxDepth]
      rfl
    · rw [List.exists_mem_cons_iff, ← ih.fallbacks name]
      exact Table.mem_names_mergeWith ..

/-- Merging statistics is free of order. With the empty statistics it makes a commutative monoid, so the
total of some trees is the same however it is come by, for instance by adding one tree after the other.
It is their total in each part, and it is balanced. -/
theorem Statistics.merge_is_order_free (merging : Merging) {trees : List Node}
    (same : merging.trees.Perm trees) :
    (∀ a b c : Statistics, (a.merge b).merge c = a.merge (b.merge c)) ∧
      (∀ a b : Statistics, a.merge b = b.merge a) ∧
      (∀ a : Statistics, empty.merge a = a ∧ a.merge empty = a) ∧
      merging.total = trees.foldl (fun total tree => total.merge (ofTree tree)) empty ∧
      merging.total.IsTotal trees ∧ merging.total.IsBalanced := by
  have whole : merging.total = (trees.map ofTree).sum := by
    rw [merging.total_eq_sum, (same.map ofTree).sum_eq]
  refine ⟨merge_assoc, merge_comm, fun a => ⟨empty_merge a, merge_empty a⟩, ?_,
    whole ▸ isTotal_sum trees, merging.isBalanced_total⟩
  rw [whole, List.sum_eq_foldl, List.foldl_map]
  rfl

/-- Three trees with types in common, merged from the last one on, in a group and with nothing. -/
def mixedTrees : List Node :=
  [.transition, .composite .paragraph [.text "a", .text "b"],
    .unknown Inline.referenceKind [.composite .paragraph [.transition]]]

def mixedMerging : Merging :=
  .both (.both (mixedTrees.foldr (fun node merging => .both merging (.tree node)) .nothing) .nothing) .nothing

theorem Statistics.merge_is_order_free_mixed :
    mixedMerging.trees.Perm mixedTrees ∧
      mixedMerging.total = mixedTrees.foldl (fun total tree => total.merge (ofTree tree)) empty ∧
      mixedMerging.total.IsTotal mixedTrees ∧ mixedMerging.total.IsBalanced := by
  have same : mixedMerging.trees.Perm mixedTrees := by
    show mixedTrees.reverse.Perm mixedTrees
    exact List.reverse_perm mixedTrees
  obtain ⟨_, _, _, whole, total, balanced⟩ := merge_is_order_free mixedMerging same
  exact ⟨same, whole, total, balanced⟩

end RstPress.Tree

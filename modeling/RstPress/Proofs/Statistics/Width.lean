import Mathlib.Algebra.Order.BigOperators.Group.List
import RstPress.Proofs.Statistics.Fallback
import RstPress.Proofs.Statistics.Merge

/-!
Statistics in words of 32 bits. Words wrap around, numbers do not, and below 2^32 they agree: the words
that are counted for trees with fewer nodes than that are the numbers of their statistics.
-/

namespace RstPress.Tree
variable {α β : Type}

theorem lookup_map_snd (f : α → β) (entries : List (String × α)) (name : String) :
    (entries.map fun entry => (entry.1, f entry.2)).lookup name = (entries.lookup name).map f := by
  induction entries with
  | nil => rfl
  | cons first entries ih =>
    rw [List.map_cons, lookup_cons_eq, lookup_cons_eq, ih]
    split <;> rfl

theorem sorted_map_snd (f : α → β) {entries : List (String × α)} (sorted : Sorted entries) :
    Sorted (entries.map fun entry => (entry.1, f entry.2)) :=
  List.pairwise_map.mpr sorted

namespace Table

/-- The table with the same names and other values. -/
def map (f : α → β) (table : Table α) : Table β :=
  ⟨table.entries.map fun entry => (entry.1, f entry.2), sorted_map_snd f table.sorted⟩

@[simp] theorem get?_map (f : α → β) (table : Table α) (name : String) :
    (table.map f).get? name = (table.get? name).map f :=
  lookup_map_snd f table.entries name

/-- A table is unchanged where each of its values is. -/
theorem map_eq_self {f : α → α} {table : Table α} (same : ∀ entry ∈ table.entries, f entry.2 = entry.2) :
    table.map f = table := by
  obtain ⟨entries, sorted⟩ := table
  have kept : entries.map (fun entry => (entry.1, f entry.2)) = entries.map id :=
    List.map_congr_left fun entry member => Prod.ext rfl (same entry member)
  rw [map, mk.injEq, kept, List.map_id]

theorem map_map {γ : Type} (f : α → β) (g : β → γ) (table : Table α) :
    (table.map f).map g = table.map (g ∘ f) := by
  rw [map, map, map, mk.injEq, List.map_map]
  rfl

variable {f : α → β} {combine : α → α → α} {combineImages : β → β → β}

theorem map_insertWith (keeps : ∀ old new, f (combine old new) = combineImages (f old) (f new))
    (name : String) (value : α) (table : Table α) :
    (table.insertWith combine name value).map f =
      (table.map f).insertWith combineImages name (f value) := by
  apply ext_get?
  intro other
  rw [get?_map, get?_insertWith, get?_insertWith, get?_map]
  split
  · cases table.get? name <;> simp [keeps]
  · rw [get?_map]

theorem map_mergeWith (keeps : ∀ old new, f (combine old new) = combineImages (f old) (f new))
    (table added : Table α) :
    (table.mergeWith combine added).map f = (table.map f).mergeWith combineImages (added.map f) := by
  apply ext_get?
  intro name
  rw [get?_map, get?_mergeWith, get?_mergeWith, get?_map, get?_map]
  cases table.get? name <;> cases added.get? name <;> simp [Option.merge, keeps]

end Table

/-- Statistics whose numbers are words. -/
structure Counters where
  counts : Table UInt32
  nodeCount : UInt32
  maxDepth : UInt32
  fallbacks : Table Unit

namespace Counters

def empty : Counters := ⟨.empty, 0, 0, .empty⟩

def record (name : String) (level : UInt32) (total : Counters) : Counters :=
  { total with
    counts := total.counts.insertWith (· + ·) name 1
    nodeCount := total.nodeCount + 1
    maxDepth := max total.maxDepth level }

def recordFallback (name : String) (total : Counters) : Counters :=
  { total with fallbacks := total.fallbacks.insertWith (fun _ _ => ()) name () }

def recordKind (kind : Kind) (level : UInt32) (total : Counters) : Counters :=
  match kind with
  | .definitionList => (total.record kind.name level).recordFallback kind.name
  | _ => total.record kind.name level

mutual

def visit (level : UInt32) (total : Counters) : Node → Counters
  | .text _ => total.record "text" level
  | .transition => (total.record "transition" level).recordFallback "transition"
  | .titled _ title body =>
    visitAll (level + 1)
      (visitAll (level + 2) ((total.record "section" level).record "title" (level + 1)) title) body
  | .interpreted _ children => visitAll (level + 1) (total.record "interpreted_text" level) children
  | .composite kind children => visitAll (level + 1) (total.recordKind kind level) children
  | .unknown kind children =>
    visitAll (level + 1) ((total.record kind.name level).recordFallback kind.name) children
  | .unknownLeaf kind _ => (total.record kind.name level).recordFallback kind.name

def visitAll (level : UInt32) (total : Counters) : List Node → Counters
  | [] => total
  | node :: nodes => visitAll level (visit level total node) nodes

end

def ofTree (tree : Node) : Counters := visit 0 empty tree

def merge (total added : Counters) : Counters where
  counts := total.counts.mergeWith (· + ·) added.counts
  nodeCount := total.nodeCount + added.nodeCount
  maxDepth := max total.maxDepth added.maxDepth
  fallbacks := total.fallbacks.mergeWith (fun _ _ => ()) added.fallbacks

/-- The numbers that the words stand for. -/
def widen (total : Counters) : Statistics where
  counts := total.counts.map UInt32.toNat
  nodeCount := total.nodeCount.toNat
  maxDepth := total.maxDepth.toNat
  fallbacks := total.fallbacks

end Counters

namespace Statistics

/-- The words that are left of the numbers. -/
def narrow (total : Statistics) : Counters where
  counts := total.counts.map UInt32.ofNat
  nodeCount := .ofNat total.nodeCount
  maxDepth := .ofNat total.maxDepth
  fallbacks := total.fallbacks

/-- All numbers are those of a word. -/
structure Fits (total : Statistics) : Prop where
  counts : ∀ entry ∈ total.counts.entries, entry.2 < UInt32.size
  nodeCount : total.nodeCount < UInt32.size
  maxDepth : total.maxDepth < UInt32.size

theorem widen_narrow {total : Statistics} (fits : total.Fits) : total.narrow.widen = total := by
  have counts : (total.counts.map UInt32.ofNat).map UInt32.toNat = total.counts := by
    rw [Table.map_map]
    exact Table.map_eq_self fun entry member => UInt32.toNat_ofNat_of_lt' (fits.counts entry member)
  rw [narrow, Counters.widen, counts, UInt32.toNat_ofNat_of_lt' fits.nodeCount,
    UInt32.toNat_ofNat_of_lt' fits.maxDepth]

/-- No type is counted more often than there are nodes, so its number needs no more room. -/
theorem IsBalanced.fits {total : Statistics} (balanced : total.IsBalanced)
    (few : total.nodeCount < UInt32.size) (flat : total.maxDepth < UInt32.size) : total.Fits := by
  refine ⟨fun entry member => ?_, few, flat⟩
  have part : entry.2 ≤ (total.counts.entries.map Prod.snd).sum :=
    List.le_sum_of_mem (List.mem_map_of_mem member)
  exact (part.trans_eq balanced.sum).trans_lt few

end Statistics

theorem ofNat_max {a b : Nat} (left : a < UInt32.size) (right : b < UInt32.size) :
    UInt32.ofNat (max a b) = max (.ofNat a) (.ofNat b) := by
  rw [← UInt32.toNat_inj, UInt32.toNat_max, UInt32.toNat_ofNat_of_lt' left,
    UInt32.toNat_ofNat_of_lt' right, UInt32.toNat_ofNat_of_lt' (max_lt left right)]

namespace Statistics

@[simp] theorem narrow_recordFallback (name : String) (total : Statistics) :
    (total.recordFallback name).narrow = total.narrow.recordFallback name := rfl

theorem narrow_record {level : Nat} {total : Statistics} (name : String)
    (flat : max total.maxDepth level < UInt32.size) :
    (total.record name level).narrow = total.narrow.record name (.ofNat level) := by
  obtain ⟨before, here⟩ := max_lt_iff.mp flat
  rw [record, narrow, Counters.record, Table.map_insertWith UInt32.ofNat_add, UInt32.ofNat_add,
    ofNat_max before here]
  rfl

@[simp] theorem maxDepth_recordKind (kind : Kind) (level : Nat) (total : Statistics) :
    (total.recordKind kind level).maxDepth = max total.maxDepth level := by
  cases kind <;> rfl

theorem narrow_recordKind {level : Nat} {total : Statistics} (kind : Kind)
    (flat : max total.maxDepth level < UInt32.size) :
    (total.recordKind kind level).narrow = total.narrow.recordKind kind (.ofNat level) := by
  have same := narrow_record kind.name flat
  cases kind
  case definitionList => exact congrArg (Counters.recordFallback _) same
  all_goals exact same

theorem narrow_merge {total added : Statistics} (flat : total.maxDepth < UInt32.size)
    (flatAdded : added.maxDepth < UInt32.size) :
    (total.merge added).narrow = total.narrow.merge added.narrow := by
  rw [merge, narrow, Counters.merge, Table.map_mergeWith UInt32.ofNat_add, UInt32.ofNat_add,
    ofNat_max flat flatAdded]
  rfl

theorem le_deepest (start : Nat) (found : List Visit) : start ≤ deepest start found := by
  induction found generalizing start with
  | nil => exact Nat.le_refl start
  | cons visit found ih => exact (Nat.le_max_left ..).trans (ih _)

/-- The depth only grows on the way, so it fits all the way if it fits in the end. -/
theorem maxDepth_le_visitAll (level : Nat) (total : Statistics) (nodes : List Node) :
    total.maxDepth ≤ (visitAll level total nodes).maxDepth := by
  rw [visitAll_eq_foldl, maxDepth_foldl]
  exact le_deepest ..

mutual

/-- As long as the depth fits, counting in words keeps to counting in numbers. -/
theorem narrow_visit (level : Nat) (total : Statistics) : (node : Node) →
    (visit level total node).maxDepth < UInt32.size →
      (visit level total node).narrow = total.narrow.visit (.ofNat level) node
  | .text _, flat => narrow_record "text" flat
  | .transition, flat => congrArg (Counters.recordFallback _) (narrow_record "transition" flat)
  | .unknownLeaf kind _, flat => congrArg (Counters.recordFallback _) (narrow_record kind.name flat)
  | .titled depth title body, flat => by
    have beforeBody := (maxDepth_le_visitAll ..).trans_lt flat
    have beforeTitle := (maxDepth_le_visitAll ..).trans_lt beforeBody
    have here : max total.maxDepth level < UInt32.size := (Nat.le_max_left ..).trans_lt beforeTitle
    rw [visit, narrow_visitAll _ _ body flat, narrow_visitAll _ _ title beforeBody,
      narrow_record "title" beforeTitle, narrow_record "section" here, UInt32.ofNat_add,
      UInt32.ofNat_add]
    rfl
  | .interpreted role children, flat => by
    have before := (maxDepth_le_visitAll ..).trans_lt flat
    rw [visit, narrow_visitAll _ _ children flat, narrow_record _ before, UInt32.ofNat_add]
    rfl
  | .composite kind children, flat => by
    have before := (maxDepth_le_visitAll ..).trans_lt flat
    rw [maxDepth_recordKind] at before
    rw [visit, narrow_visitAll _ _ children flat, narrow_recordKind kind before, UInt32.ofNat_add]
    rfl
  | .unknown kind children, flat => by
    have before := (maxDepth_le_visitAll ..).trans_lt flat
    rw [visit, narrow_visitAll _ _ children flat, narrow_recordFallback, narrow_record _ before,
      UInt32.ofNat_add]
    rfl

theorem narrow_visitAll (level : Nat) (total : Statistics) : (nodes : List Node) →
    (visitAll level total nodes).maxDepth < UInt32.size →
      (visitAll level total nodes).narrow = total.narrow.visitAll (.ofNat level) nodes
  | [], _ => rfl
  | node :: nodes, flat => by
    have before := (maxDepth_le_visitAll level (visit level total node) nodes).trans_lt flat
    rw [visitAll, narrow_visitAll level _ nodes flat, narrow_visit level total node before]
    rfl

end

end Statistics

namespace Counters

/-- Nothing is lost of a word. -/
theorem narrow_widen (total : Counters) : total.widen.narrow = total := by
  have counts : (total.counts.map UInt32.toNat).map UInt32.ofNat = total.counts := by
    rw [Table.map_map]
    exact Table.map_eq_self fun _ _ => UInt32.ofNat_toNat
  rw [widen, Statistics.narrow, counts, UInt32.ofNat_toNat, UInt32.ofNat_toNat]

/-- The words that are counted for a tree are the numbers of its statistics, unless it has more nodes
than a word can count. -/
theorem widen_ofTree {tree : Node} (few : (Wire.ofNode tree).kinds.length < UInt32.size) :
    (ofTree tree).widen = Statistics.ofTree tree := by
  have flat : (Statistics.ofTree tree).maxDepth < UInt32.size := by
    rw [Statistics.maxDepth_ofTree]
    exact (Wire.height_lt _).trans few
  rw [← Statistics.nodeCount_ofTree] at few
  calc
    _ = (Statistics.ofTree tree).narrow.widen :=
      congrArg widen (Statistics.narrow_visit 0 .empty tree flat).symm
    _ = Statistics.ofTree tree :=
      Statistics.widen_narrow ((Statistics.isBalanced_ofTree tree).fits few flat)

/-- Words are merged as the numbers are that they stand for, unless there are more nodes in all than a
word can count. -/
theorem widen_merge {total added : Counters} (balanced : (total.widen.merge added.widen).IsBalanced)
    (few : (total.widen.merge added.widen).nodeCount < UInt32.size) :
    (total.merge added).widen = total.widen.merge added.widen := by
  have flat : (total.widen.merge added.widen).maxDepth < UInt32.size :=
    max_lt total.maxDepth.toNat_lt_size added.maxDepth.toNat_lt_size
  have narrowed : (total.widen.merge added.widen).narrow = total.merge added := by
    rw [Statistics.narrow_merge total.maxDepth.toNat_lt_size added.maxDepth.toNat_lt_size, narrow_widen,
      narrow_widen]
  rw [← narrowed, Statistics.widen_narrow (balanced.fits few flat)]

end Counters

namespace Merging

/-- What is merged in words. -/
def words : Merging → Counters
  | .nothing => .empty
  | .tree node => .ofTree node
  | .both first added => first.words.merge added.words

/-- However the statistics of some trees are merged, the words are the numbers of their total, unless the
trees have more nodes in all than a word can count. -/
theorem widen_words {merging : Merging} (few : merging.total.nodeCount < UInt32.size) :
    merging.words.widen = merging.total := by
  induction merging with
  | nothing => rfl
  | tree node =>
    rw [total, Statistics.nodeCount_ofTree] at few
    exact Counters.widen_ofTree few
  | both first added ihFirst ihAdded =>
    have front := ihFirst ((Nat.le_add_right ..).trans_lt few)
    have back := ihAdded ((Nat.le_add_left ..).trans_lt few)
    rw [words, total, ← front, ← back]
    apply Counters.widen_merge
    · rw [front, back]
      exact isBalanced_total (.both first added)
    · rw [front, back]
      exact few

end Merging

end RstPress.Tree

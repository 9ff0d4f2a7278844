import RstPress.Proofs.Statistics.Table
import RstPress.Tree.Statistics
import RstPress.Wire.Node

/-!
The nodes of a tree are visited in the order of its wire form, and each visit adds to the statistics. So
what is counted can be told from the list of all visits: their names are those of the wire nodes, and
their levels reach as far down as the wire form does.
-/

namespace RstPress.Wire

mutual

/-- The type names of a wire node and of all below it, parents first. -/
def kinds : Wire → List String
  | ⟨kind, _, _, children, _⟩ =>
    kind :: (match children with
      | none => []
      | some children => kindsIn children)

def kindsIn : List Wire → List String
  | [] => []
  | wire :: wires => wire.kinds ++ kindsIn wires

end

mutual

/-- How many steps lead down to the deepest wire node. -/
def height : Wire → Nat
  | ⟨_, _, _, children, _⟩ =>
    match children with
    | none => 0
    | some children => reach children

/-- The same from a node that has these children. -/
def reach : List Wire → Nat
  | [] => 0
  | wire :: wires => max (wire.height + 1) (reach wires)

end

mutual

/-- The way down to the deepest node leads over as many nodes. -/
theorem height_lt : (wire : Wire) → wire.height < wire.kinds.length
  | ⟨_, _, _, none, _⟩ => Nat.zero_lt_one
  | ⟨_, _, _, some children, _⟩ => by
    have below := reach_le children
    rw [height, kinds, List.length_cons]
    exact Nat.lt_succ_of_le below

theorem reach_le : (wires : List Wire) → reach wires ≤ (kindsIn wires).length
  | [] => Nat.le_refl 0
  | wire :: wires => by
    have here := height_lt wire
    have later := reach_le wires
    rw [reach, kindsIn, List.length_append]
    omega

end

end RstPress.Wire

namespace RstPress.Tree

/-- What is noted of a node: its type name, its level, and whether it has no element of its own. -/
structure Visit where
  name : String
  level : Nat
  fallback : Bool

mutual

/-- The visits of a node and of all below it, titles included. -/
def visits (level : Nat) : Node → List Visit
  | .text _ => [⟨"text", level, false⟩]
  | .transition => [⟨"transition", level, true⟩]
  | .titled _ title body =>
    ⟨"section", level, false⟩ :: ⟨"title", level + 1, false⟩ ::
      (visitsIn (level + 2) title ++ visitsIn (level + 1) body)
  | .interpreted _ children => ⟨"interpreted_text", level, false⟩ :: visitsIn (level + 1) children
  | .composite kind children =>
    ⟨kind.name, level, kind = .definitionList⟩ :: visitsIn (level + 1) children
  | .unknown kind children => ⟨kind.name, level, true⟩ :: visitsIn (level + 1) children
  | .unknownLeaf kind _ => [⟨kind.name, level, true⟩]

def visitsIn (level : Nat) : List Node → List Visit
  | [] => []
  | node :: nodes => visits level node ++ visitsIn level nodes

end

/-- The deepest level that is visited, or the given one if that is deeper. -/
def deepest (start : Nat) (found : List Visit) : Nat :=
  found.foldl (fun depth visit => max depth visit.level) start

theorem deepest_append (start : Nat) (front back : List Visit) :
    deepest start (front ++ back) = deepest (deepest start front) back := List.foldl_append

namespace Statistics

def note (total : Statistics) (visit : Visit) : Statistics :=
  if visit.fallback then (total.record visit.name visit.level).recordFallback visit.name
  else total.record visit.name visit.level

mutual

theorem visit_eq_foldl (level : Nat) (total : Statistics) : (node : Node) →
    visit level total node = (visits level node).foldl note total
  | .text _ | .transition | .unknownLeaf .. => rfl
  | .titled depth title body => by
    rw [visit, visitAll_eq_foldl, visitAll_eq_foldl, visits, List.foldl_cons, List.foldl_cons,
      List.foldl_append]
    rfl
  | .interpreted role children => by
    rw [visit, visitAll_eq_foldl]
    rfl
  | .composite kind children => by
    rw [visit, visitAll_eq_foldl, visits, List.foldl_cons]
    cases kind <;> rfl
  | .unknown kind children => by
    rw [visit, visitAll_eq_foldl]
    rfl

theorem visitAll_eq_foldl (level : Nat) (total : Statistics) : (nodes : List Node) →
    visitAll level total nodes = (visitsIn level nodes).foldl note total
  | [] => rfl
  | node :: nodes => by
    rw [visitAll, visitAll_eq_foldl, visit_eq_foldl, visitsIn, List.foldl_append]

end

@[simp] theorem counts_note (total : Statistics) (visit : Visit) :
    (note total visit).counts = total.counts.insertWith (· + ·) visit.name 1 := by
  unfold note
  split <;> rfl

@[simp] theorem nodeCount_note (total : Statistics) (visit : Visit) :
    (note total visit).nodeCount = total.nodeCount + 1 := by
  unfold note
  split <;> rfl

@[simp] theorem maxDepth_note (total : Statistics) (visit : Visit) :
    (note total visit).maxDepth = max total.maxDepth visit.level := by
  unfold note
  split <;> rfl

theorem mem_fallbacks_note (total : Statistics) (visit : Visit) (name : String) :
    name ∈ (note total visit).fallbacks.names ↔
      (visit.fallback ∧ name = visit.name) ∨ name ∈ total.fallbacks.names := by
  unfold note
  split
  · rename_i fallback
    rw [recordFallback, Table.mem_names_insertWith]
    simp only [fallback, true_and]
    rfl
  · rename_i own
    simp only [own, Bool.false_eq_true, false_and, false_or]
    rfl

/-- Every visit adds one to the count of its name. -/
theorem counts_foldl (found : List Visit) (total : Statistics) (name : String) :
    (found.foldl note total).counts.get? name =
      if (found.map Visit.name).count name = 0 then total.counts.get? name
      else some ((total.counts.get? name).getD 0 + (found.map Visit.name).count name) := by
  induction found generalizing total with
  | nil => rw [List.map_nil, List.count_nil, if_pos rfl, List.foldl_nil]
  | cons visit found ih =>
    rw [List.foldl_cons, ih, counts_note, Table.get?_insertWith, List.map_cons, List.count_cons]
    by_cases same : name = visit.name
    · have one : (visit.name == name) = true := beq_iff_eq.mpr same.symm
      rw [if_pos same, one, ← same]
      cases total.counts.get? name <;> by_cases none : (found.map Visit.name).count name = 0 <;>
        simp [none] <;> omega
    · have zero : (visit.name == name) = false := beq_eq_false_iff_ne.mpr (Ne.symm same)
      rw [if_neg same, zero]
      simp

theorem nodeCount_foldl (found : List Visit) (total : Statistics) :
    (found.foldl note total).nodeCount = total.nodeCount + found.length := by
  induction found generalizing total with
  | nil => rfl
  | cons visit found ih =>
    rw [List.foldl_cons, ih, nodeCount_note, List.length_cons]
    omega

theorem sum_counts_foldl (found : List Visit) (total : Statistics) :
    ((found.foldl note total).counts.entries.map Prod.snd).sum =
      (total.counts.entries.map Prod.snd).sum + found.length := by
  induction found generalizing total with
  | nil => rfl
  | cons visit found ih =>
    rw [List.foldl_cons, ih, counts_note, Table.insertWith, sum_insertEntry, List.length_cons]
    omega

theorem maxDepth_foldl (found : List Visit) (total : Statistics) :
    (found.foldl note total).maxDepth = deepest total.maxDepth found := by
  induction found generalizing total with
  | nil => rfl
  | cons visit found ih =>
    rw [List.foldl_cons, ih, maxDepth_note]
    rfl

theorem mem_fallbacks_foldl (found : List Visit) (total : Statistics) (name : String) :
    name ∈ (found.foldl note total).fallbacks.names ↔
      name ∈ (found.filter Visit.fallback).map Visit.name ∨ name ∈ total.fallbacks.names := by
  induction found generalizing total with
  | nil => simp
  | cons visit found ih =>
    rw [List.foldl_cons, ih, mem_fallbacks_note, List.filter_cons]
    split
    · rename_i fallback
      simp only [fallback, true_and, List.map_cons, List.mem_cons]
      tauto
    · rename_i own
      simp only [own, Bool.false_eq_true, false_and, false_or]

end Statistics

mutual

/-- The visited names are those of the wire form. -/
theorem names_visits (level : Nat) : (node : Node) →
    (visits level node).map Visit.name = (Wire.ofNode node).kinds
  | .text _ | .transition | .unknownLeaf .. => rfl
  | .titled depth title body => by
    rw [visits, List.map_cons, List.map_cons, List.map_append, names_visitsIn, names_visitsIn]
    rfl
  | .interpreted _ children | .composite _ children | .unknown _ children =>
    congrArg (_ :: ·) (names_visitsIn (level + 1) children)

theorem names_visitsIn (level : Nat) : (nodes : List Node) →
    (visitsIn level nodes).map Visit.name = Wire.kindsIn (Wire.ofNodes nodes)
  | [] => rfl
  | node :: nodes => by
    rw [visitsIn, List.map_append, names_visits, names_visitsIn]
    rfl

end

mutual

theorem deepest_visits (start level : Nat) : (node : Node) →
    deepest start (visits level node) = max start (level + (Wire.ofNode node).height)
  | .text _ | .transition | .unknownLeaf .. => rfl
  | .titled depth title body => by
    have inTitle := deepest_visitsIn (max (max start level) (level + 1)) (level + 1) (by omega) title
    have inBody := deepest_visitsIn (max (max (max start level) (level + 1))
      (level + 1 + Wire.reach (Wire.ofNodes title))) level (by omega) body
    rw [visits, deepest, List.foldl_cons, List.foldl_cons, ← deepest, deepest_append, inTitle, inBody]
    simp only [Wire.ofNode, Wire.height, Wire.reach]
    omega
  | .interpreted _ children | .composite _ children | .unknown _ children => by
    have below := deepest_visitsIn (max start level) level (Nat.le_max_right start level) children
    rw [visits, deepest, List.foldl_cons, ← deepest, below]
    simp only [Wire.ofNode, Wire.height]
    omega

theorem deepest_visitsIn (start level : Nat) (below : level ≤ start) : (nodes : List Node) →
    deepest start (visitsIn (level + 1) nodes) = max start (level + Wire.reach (Wire.ofNodes nodes))
  | [] => by
    rw [visitsIn, Wire.ofNodes, Wire.reach]
    exact (Nat.max_eq_left below).symm
  | node :: nodes => by
    rw [visitsIn, deepest_append, deepest_visits, deepest_visitsIn _ _ (by omega)]
    simp only [Wire.ofNodes, Wire.reach]
    omega

end

namespace Statistics

theorem nodeCount_ofTree (tree : Node) : (ofTree tree).nodeCount = (Wire.ofNode tree).kinds.length := by
  rw [ofTree, visit_eq_foldl, nodeCount_foldl, ← names_visits 0 tree, List.length_map]
  exact Nat.zero_add _

theorem maxDepth_ofTree (tree : Node) : (ofTree tree).maxDepth = (Wire.ofNode tree).height := by
  rw [ofTree, visit_eq_foldl, maxDepth_foldl, deepest_visits, Nat.zero_add]
  exact Nat.zero_max _

end Statistics

end RstPress.Tree

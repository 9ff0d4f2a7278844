import RstPress.Tree.Node
import RstPress.Tree.Table

/-!
What a tree is made of: how many nodes of each type there are, the title of a section counting as a node
of its own, how deep they lie, and which types are rendered without an element of their own.
-/

namespace RstPress.Tree

structure Statistics where
  counts : Table Nat
  nodeCount : Nat
  maxDepth : Nat
  fallbacks : Table Unit

namespace Statistics

def empty : Statistics := ⟨.empty, 0, 0, .empty⟩

/-- Counts a node on the given level. -/
def record (name : String) (level : Nat) (total : Statistics) : Statistics :=
  { total with
    counts := total.counts.insertWith (· + ·) name 1
    nodeCount := total.nodeCount + 1
    maxDepth := max total.maxDepth level }

/-- Notes a type that has no element of its own. -/
def recordFallback (name : String) (total : Statistics) : Statistics :=
  { total with fallbacks := total.fallbacks.insertWith (fun _ _ => ()) name () }

/-- Counts a node of the given kind. Definition lists have no element of their own. -/
def recordKind (kind : Kind) (level : Nat) (total : Statistics) : Statistics :=
  match kind with
  | .definitionList => (total.record kind.name level).recordFallback kind.name
  | _ => total.record kind.name level

mutual

/-- Adds a node on the given level, and all nodes below it. -/
def visit (level : Nat) (total : Statistics) : Node → Statistics
  | .text _ => total.record "text" level
  | .transition => (total.record "transition" level).recordFallback "transition"
  | .titled _ title body =>
    visitAll (level + 1)
      (visitAll (level + 2) ((total.record "section" level).record "title" (level + 1)) title) body
  | .interpreted _ children => visitAll (level + 1) (total.record "interpreted_text" level) children
  | .composite kind children => visitAll (level + 1) (total.recordKind kind level) children
  | .unknown kind children =>
    visitAll (level + 1) ((total.record kind.name level).recordFallback kind.name) children
  | .unknownLeaf kind _ => (total.record kind.name level).recordFallback kind.name

def visitAll (level : Nat) (total : Statistics) : List Node → Statistics
  | [] => total
  | node :: nodes => visitAll level (visit level total node) nodes

end

/-- The statistics of a tree. -/
def ofTree (tree : Node) : Statistics := visit 0 empty tree

def count (total : Statistics) (name : String) : Nat := (total.counts.get? name).getD 0

def hasFallbacks (total : Statistics) : Bool := !total.fallbacks.entries.isEmpty

/-- The statistics of two trees or more, taken together. -/
def merge (total added : Statistics) : Statistics where
  counts := total.counts.mergeWith (· + ·) added.counts
  nodeCount := total.nodeCount + added.nodeCount
  maxDepth := max total.maxDepth added.maxDepth
  fallbacks := total.fallbacks.mergeWith (fun _ _ => ()) added.fallbacks

end Statistics

end RstPress.Tree

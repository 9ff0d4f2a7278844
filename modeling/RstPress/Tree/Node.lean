import RstPress.Tree.Kind

/-!
Document trees. A node holds child nodes or a text, never both; only a section has two lists, its title
and its body. Functions on trees come in pairs, one for a node and one for a list of nodes.
-/

namespace RstPress.Tree

inductive Node where
  | text (value : String)
  | transition
  | titled (depth : UInt32) (title body : List Node)
  | interpreted (role : Option String) (children : List Node)
  | composite (kind : Kind) (children : List Node)
  | unknown (kind : UnknownKind) (children : List Node)
  | unknownLeaf (kind : UnknownKind) (value : String)

namespace Node

/-- The type name under which a node is exchanged and counted. -/
def typeName : Node → TypeName
  | text _ => .text
  | transition => .transition
  | titled .. => .titled
  | interpreted .. => .interpreted
  | composite kind _ => .composite kind
  | unknown kind _ | unknownLeaf kind _ => .unknown kind

/-- The child nodes of a node that can have some. For a section this is the body. -/
def children? : Node → Option (List Node)
  | titled _ _ body => some body
  | interpreted _ children | composite _ children | unknown _ children => some children
  | text _ | transition | unknownLeaf .. => none

def title? : Node → Option (List Node)
  | titled _ title _ => some title
  | _ => none

def value? : Node → Option String
  | text value | unknownLeaf _ value => some value
  | _ => none

def isLeaf (node : Node) : Bool := node.children?.isNone

mutual

/-- All text below a node, in order. -/
def plainText : Node → String
  | text value | unknownLeaf _ value => value
  | transition => ""
  | titled _ title body => plainTexts title ++ plainTexts body
  | interpreted _ children | composite _ children | unknown _ children => plainTexts children

def plainTexts : List Node → String
  | [] => ""
  | node :: nodes => node.plainText ++ plainTexts nodes

end

mutual

/-- A node and all nodes below it, parents first and titles before bodies. -/
def preorder : Node → List Node
  | titled depth title body => titled depth title body :: (preorders title ++ preorders body)
  | interpreted role children => interpreted role children :: preorders children
  | composite kind children => composite kind children :: preorders children
  | unknown kind children => unknown kind children :: preorders children
  | text value => [text value]
  | transition => [transition]
  | unknownLeaf kind value => [unknownLeaf kind value]

def preorders : List Node → List Node
  | [] => []
  | node :: nodes => node.preorder ++ preorders nodes

end

mutual

/-- The text of the first section title, titles themselves not searched. -/
def firstTitle? : Node → Option String
  | titled _ title _ => some (plainTexts title)
  | interpreted _ children | composite _ children | unknown _ children => firstTitleOf? children
  | text _ | transition | unknownLeaf .. => none

def firstTitleOf? : List Node → Option String
  | [] => none
  | node :: nodes => node.firstTitle?.or (firstTitleOf? nodes)

end

mutual

/-- Equality of trees is decided part by part. -/
def decEq : (a b : Node) → Decidable (a = b)
  | text a, other => match other with
    | text b => decidable_of_iff (a = b) (by simp)
    | transition | titled .. | interpreted .. | composite .. | unknown .. | unknownLeaf .. => isFalse nofun
  | transition, other => match other with
    | transition => isTrue rfl
    | text _ | titled .. | interpreted .. | composite .. | unknown .. | unknownLeaf .. => isFalse nofun
  | titled depth title body, other => match other with
    | titled depth' title' body' =>
      have := decEqs title title'
      have := decEqs body body'
      decidable_of_iff (depth = depth' ∧ title = title' ∧ body = body') (by simp)
    | text _ | transition | interpreted .. | composite .. | unknown .. | unknownLeaf .. => isFalse nofun
  | interpreted role children, other => match other with
    | interpreted role' children' =>
      have := decEqs children children'
      decidable_of_iff (role = role' ∧ children = children') (by simp)
    | text _ | transition | titled .. | composite .. | unknown .. | unknownLeaf .. => isFalse nofun
  | composite kind children, other => match other with
    | composite kind' children' =>
      have := decEqs children children'
      decidable_of_iff (kind = kind' ∧ children = children') (by simp)
    | text _ | transition | titled .. | interpreted .. | unknown .. | unknownLeaf .. => isFalse nofun
  | unknown kind children, other => match other with
    | unknown kind' children' =>
      have := decEqs children children'
      decidable_of_iff (kind = kind' ∧ children = children') (by simp)
    | text _ | transition | titled .. | interpreted .. | composite .. | unknownLeaf .. => isFalse nofun
  | unknownLeaf kind value, other => match other with
    | unknownLeaf kind' value' => decidable_of_iff (kind = kind' ∧ value = value') (by simp)
    | text _ | transition | titled .. | interpreted .. | composite .. | unknown .. => isFalse nofun

def decEqs : (a b : List Node) → Decidable (a = b)
  | [], [] => isTrue rfl
  | [], _ :: _ => isFalse nofun
  | _ :: _, [] => isFalse nofun
  | a :: as, b :: bs =>
    have := decEq a b
    have := decEqs as bs
    decidable_of_iff (a = b ∧ as = bs) (by simp)

end

instance : DecidableEq Node := decEq

/-- A node with the given type and child nodes, if these are all it takes: a section has a depth and a
title as well, and texts and transitions have no child nodes. -/
def ofTypeName? (typeName : TypeName) (children : List Node) : Option Node :=
  match typeName with
  | .composite kind => some (composite kind children)
  | .interpreted => some (interpreted none children)
  | .unknown kind => some (unknown kind children)
  | .text | .transition | .titled => none

end Node

end RstPress.Tree

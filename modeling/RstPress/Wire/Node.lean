import RstPress.Tree.Node

/-!
Trees are exchanged as wire nodes: a type name and fields that may be missing. Every tree has one wire
form. A wire node is a tree only if each node has the fields that its type asks for; the first violation
is named, a node before the nodes below it.
-/

namespace RstPress
open RstPress.Tree

/-- A node as it is exchanged, with fields that its type may or may not use. -/
structure Wire where
  kind : String
  depth : Option UInt32 := none
  role : Option String := none
  children : Option (List Wire) := none
  value : Option String := none

namespace Wire

/-- What keeps a wire node from being a tree. -/
inductive Violation where
  | noValue
  | noDepth
  | noTitle
  | noChildren (kind : String)
  | noContent (kind : String)
  | builtin (kind : String)
deriving DecidableEq, Repr

def Violation.message : Violation → String
  | noValue => "\x60text\x60 node has no value"
  | noDepth => "\x60section\x60 node has no depth"
  | noTitle => "\x60section\x60 node has no title"
  | noChildren kind => "\x60" ++ kind ++ "\x60 node has no children"
  | noContent kind => "\x60" ++ kind ++ "\x60 node has neither children nor value"
  | builtin kind => "\x60" ++ kind ++ "\x60 is a built-in node type, not an unknown one"

mutual

/-- The wire form of a tree. The title of a section becomes its first child. -/
def ofNode : Node → Wire
  | .text value => { kind := "text", value := some value }
  | .transition => { kind := "transition" }
  | .titled depth title body =>
    { kind := "section", depth := some depth,
      children := some ({ kind := "title", children := some (ofNodes title) } :: ofNodes body) }
  | .interpreted role children =>
    { kind := "interpreted_text", role := role, children := some (ofNodes children) }
  | .composite kind children => { kind := kind.name, children := some (ofNodes children) }
  | .unknown kind children => { kind := kind.name, children := some (ofNodes children) }
  | .unknownLeaf kind value => { kind := kind.name, value := some value }

def ofNodes : List Node → List Wire
  | [] => []
  | node :: nodes => ofNode node :: ofNodes nodes

end

mutual

/-- The tree of a wire node. Fields that the type does not use are ignored; an unknown type uses its
value only for want of children. -/
def toNode : Wire → Except Violation Node
  | ⟨kind, depth, role, children, value⟩ =>
    match TypeName.ofName kind, depth, children, value with
    | .text, _, _, some value => .ok (.text value)
    | .text, _, _, none => .error .noValue
    | .transition, _, _, _ => .ok .transition
    | .titled, none, _, _ => .error .noDepth
    | .titled, some _, none, _ => .error (.noChildren kind)
    | .titled, some _, some [], _ => .error .noTitle
    | .titled, some _, some (⟨title, _, _, none, _⟩ :: _), _ => .error (.noChildren title)
    | .titled, some depth, some (⟨_, _, _, some title, _⟩ :: body), _ => do
      return .titled depth (← toNodes title) (← toNodes body)
    | .interpreted, _, some children, _ => do return .interpreted role (← toNodes children)
    | .composite kind, _, some children, _ => do return .composite kind (← toNodes children)
    | .unknown kind, _, some children, _ => do return .unknown kind (← toNodes children)
    | .unknown kind, _, none, some value => .ok (.unknownLeaf kind value)
    | .unknown kind, _, none, none => .error (.noContent kind.name)
    | .interpreted, _, none, _ | .composite _, _, none, _ => .error (.noChildren kind)

def toNodes : List Wire → Except Violation (List Node)
  | [] => .ok []
  | wire :: wires => do return (← toNode wire) :: (← toNodes wires)

end

end Wire

end RstPress

import RstPress.Tree.Node

/-!
A document is first a flat list of titles and body nodes. A title opens a section that holds everything
up to the next title of its own depth or of a lesser one.
-/

namespace RstPress.Document
open RstPress.Tree

/-- What stands at the top of a document. -/
inductive Element where
  | title (depth : UInt32) (content : List Node)
  | body (node : Node)

/-- A section that is still open, with the nodes in it so far. -/
structure OpenSection where
  depth : UInt32
  title : List Node
  children : List Node

def OpenSection.node (opened : OpenSection) : Node := .titled opened.depth opened.title opened.children

/-- Puts nodes behind those in a section. -/
def OpenSection.add (nodes : List Node) (opened : OpenSection) : OpenSection :=
  { opened with children := opened.children ++ nodes }

/-- The sections that are open, the innermost one first, and the nodes that stand in none. -/
structure Stack where
  opened : List OpenSection
  root : List Node

namespace Stack

/-- Adds a node to the innermost open section. -/
def add (node : Node) : Stack → Stack
  | ⟨[], root⟩ => ⟨[], root ++ [node]⟩
  | ⟨inner :: outer, root⟩ => ⟨inner.add [node] :: outer, root⟩

/-- Closes sections from the innermost one on, as long as they are to be closed. A section that is closed goes
into the one around it; `made` is what comes into the innermost one in this way. -/
def closeWhile (closes : OpenSection → Bool) (root : List Node) (made : List Node) :
    List OpenSection → Stack
  | [] => ⟨[], root ++ made⟩
  | inner :: outer =>
    if closes inner then closeWhile closes root [(inner.add made).node] outer
    else ⟨inner.add made :: outer, root⟩

/-- Opens a section. Those that are not above it are closed first. -/
def openSection (depth : UInt32) (title : List Node) (stack : Stack) : Stack :=
  let closed := closeWhile (fun inner => depth ≤ inner.depth) stack.root [] stack.opened
  ⟨⟨depth, title, []⟩ :: closed.opened, closed.root⟩

def step (stack : Stack) : Element → Stack
  | .body node => stack.add node
  | .title depth content => stack.openSection depth content

end Stack

/-- Nests the elements into sections. -/
def nestSections (elements : List Element) : List Node :=
  let stack := elements.foldl Stack.step ⟨[], []⟩
  (Stack.closeWhile (fun _ => true) stack.root [] stack.opened).root

mutual

/-- The flat form of a tree: a section gives its title, then its body. -/
def flatten : Node → List Element
  | .titled depth title body => .title depth title :: flattenAll body
  | node => [.body node]

def flattenAll : List Node → List Element
  | [] => []
  | node :: nodes => flatten node ++ flattenAll nodes

end

end RstPress.Document

import RstPress.Html.Element
import RstPress.Tree.Node

/-!
Rendering a tree. All white space of the output is fixed: a block element stands between line feeds and
is indented by its level, and inline elements add none. Texts are written as they are.
-/

namespace RstPress.Html
open RstPress.Tree

def openTag (tag className : String) : String := "<" ++ tag ++ " class=\"" ++ className ++ "\">"

def closeTag (tag : String) : String := "</" ++ tag ++ ">"

def indentation (width level : Nat) : String := String.ofList (List.replicate (width * level) ' ')

/-- A block element around its content, which stands on lines of its own. -/
def wrapBlock (width level : Nat) (tag className content : String) : String :=
  indentation width level ++ openTag tag className ++ "\n" ++ content ++ "\n" ++ indentation width level ++
    closeTag tag ++ "\n"

def wrapInline (tag className content : String) : String :=
  openTag tag className ++ content ++ closeTag tag

def Element.wrap (element : Element) (width level : Nat) (content : String) : String :=
  match element.flow with
  | .block => wrapBlock width level element.tag element.className content
  | .inline => wrapInline element.tag element.className content

/-- A text without the line feed at its end, if there is one. -/
def dropLineFeed (value : String) : String :=
  match value.toList.reverse with
  | [] => value
  | last :: front => if last = '\n' then String.ofList front.reverse else value

/-- A text in an element of its own. -/
def leaf (tag className value : String) : String := wrapInline tag className (dropLineFeed value)

mutual

/-- The markup of a node on the given level. Children are one level deeper. -/
def render (width level : Nat) : Node → String
  | .text value => leaf "span" "rst-text" value
  | .transition => leaf "div" (fallbackClass "transition") ""
  | .titled depth title body =>
    indentation width level ++ openTag "div" "rst-section" ++ "\n" ++
      (titleElement depth).wrap width (level + 1) (renderAll width (level + 2) title) ++
      renderSeparated width (level + 1) body ++ indentation width level ++ closeTag "div" ++ "\n"
  | .interpreted role children =>
    wrapInline "span" (interpretedClass role) (renderAll width (level + 1) children)
  | .composite kind children => (elementOf kind).wrap width level (renderAll width (level + 1) children)
  | .unknown kind children => (fallback kind.name).wrap width level (renderAll width (level + 1) children)
  | .unknownLeaf kind value => leaf "div" (fallbackClass kind.name) value

/-- The nodes one directly after the other. -/
def renderAll (width level : Nat) : List Node → String
  | [] => ""
  | node :: nodes => render width level node ++ renderAll width level nodes

/-- The nodes with a line feed between each two of them. -/
def renderSeparated (width level : Nat) : List Node → String
  | [] => ""
  | node :: nodes =>
    render width level node ++ (if nodes.isEmpty then "" else "\n") ++ renderSeparated width level nodes

end

/-- A block element with the given nodes as its content. -/
def block (width level : Nat) (tag className : String) (children : List Node) : String :=
  wrapBlock width level tag className (renderAll width (level + 1) children)

/-- An inline element with the given nodes as its content. -/
def inlined (width level : Nat) (tag className : String) (children : List Node) : String :=
  wrapInline tag className (renderAll width (level + 1) children)

/-- The HTML of a tree. -/
def page (width : Nat) (tree : Node) : String := render width 0 tree

end RstPress.Html

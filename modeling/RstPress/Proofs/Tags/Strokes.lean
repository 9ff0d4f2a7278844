import RstPress.Html.Render

/-!
A page stroke by stroke: its tags, the texts of its leaves, and the line feeds around blocks. The strokes
tell what directly precedes and follows a tag, which the text of the page alone does not.
-/

namespace RstPress.Html
open RstPress.Tree

/-- What a page is written with. A tag comes with the level of its element. -/
inductive Stroke where
  | opening (element : Element) (level : Nat)
  | closing (element : Element) (level : Nat)
  | value (text : String)
  | feed
deriving DecidableEq

/-- The indentation in front of the tags of a block; inline elements have none. -/
def Element.margin (width level : Nat) (element : Element) : String :=
  match element.flow with
  | .block => indentation width level
  | .inline => ""

namespace Stroke

def written (width : Nat) : Stroke → String
  | opening element level => element.margin width level ++ openTag element.tag element.className
  | closing element level => element.margin width level ++ closeTag element.tag
  | value text => text
  | feed => "\n"

/-- Whether this is a tag of an element that owns its lines. -/
def isBlockTag : Stroke → Bool
  | opening element _ | closing element _ => element.flow = .block
  | value _ | feed => false

end Stroke

/-- The text that the strokes make. -/
def written (width : Nat) : List Stroke → String
  | [] => ""
  | stroke :: strokes => stroke.written width ++ written width strokes

/-- The tags of an element around the strokes of its content, which has lines of its own in a block. -/
def Element.around (level : Nat) (element : Element) (inner : List Stroke) : List Stroke :=
  match element.flow with
  | .block => .opening element level :: .feed :: (inner ++ [.feed, .closing element level, .feed])
  | .inline => .opening element level :: (inner ++ [.closing element level])

def textElement : Element := ⟨.inline, "span", "rst-text"⟩

/-- The element of a node of the given type that has a text or nothing at all. -/
def leafFallback (name : String) : Element := ⟨.inline, "div", fallbackClass name⟩

def transitionElement : Element := leafFallback "transition"

def sectionElement : Element := ⟨.block, "div", "rst-section"⟩

def interpretedElement (role : Option String) : Element := ⟨.inline, "span", interpretedClass role⟩

/-- An element around a text. -/
def leafStrokes (level : Nat) (element : Element) (text : String) : List Stroke :=
  element.around level [.value (dropLineFeed text)]

mutual

/-- The strokes of a node on the given level. -/
def strokes (level : Nat) : Node → List Stroke
  | .text value => leafStrokes level textElement value
  | .transition => leafStrokes level transitionElement ""
  | .titled depth title body =>
    .opening sectionElement level :: .feed ::
      ((titleElement depth).around (level + 1) (strokesAll (level + 2) title) ++
        (strokesSeparated (level + 1) body ++ [.closing sectionElement level, .feed]))
  | .interpreted role children => (interpretedElement role).around level (strokesAll (level + 1) children)
  | .composite kind children => (elementOf kind).around level (strokesAll (level + 1) children)
  | .unknown kind children => (fallback kind.name).around level (strokesAll (level + 1) children)
  | .unknownLeaf kind value => leafStrokes level (leafFallback kind.name) value

def strokesAll (level : Nat) : List Node → List Stroke
  | [] => []
  | node :: nodes => strokes level node ++ strokesAll level nodes

/-- The strokes of nodes with a line feed between each two of them. -/
def strokesSeparated (level : Nat) : List Node → List Stroke
  | [] => []
  | node :: nodes =>
    strokes level node ++ ((if nodes.isEmpty then [] else [.feed]) ++ strokesSeparated level nodes)

end

theorem written_append (width : Nat) (front back : List Stroke) :
    written width (front ++ back) = written width front ++ written width back := by
  induction front with
  | nil => rw [List.nil_append, written, String.empty_append]
  | cons stroke front ih => rw [List.cons_append, written, written, ih, String.append_assoc]

theorem written_around (width level : Nat) (element : Element) (inner : List Stroke) :
    written width (element.around level inner) = element.wrap width level (written width inner) := by
  unfold Element.around Element.wrap
  cases flow : element.flow with
  | block =>
    simp only [written, written_append, Stroke.written, Element.margin, flow, wrapBlock,
      String.append_assoc, String.append_empty]
  | inline =>
    simp only [written, written_append, Stroke.written, Element.margin, flow, wrapInline,
      String.append_assoc, String.append_empty, String.empty_append]

theorem written_leafStrokes (width level : Nat) {element : Element} (flow : element.flow = .inline)
    (text : String) :
    written width (leafStrokes level element text) = leaf element.tag element.className text := by
  rw [leafStrokes, written_around, Element.wrap, flow, leaf, written, written, String.append_empty]
  rfl

mutual

/-- The strokes make the markup of the node. -/
theorem written_strokes (width level : Nat) : (node : Node) →
    written width (strokes level node) = render width level node
  | .text value => written_leafStrokes width level rfl value
  | .transition => written_leafStrokes width level rfl ""
  | .unknownLeaf kind value => written_leafStrokes width level rfl value
  | .titled depth title body => by
    simp only [strokes, written, written_append, written_around, written_strokesAll,
      written_strokesSeparated, render, Stroke.written, Element.margin, sectionElement,
      String.append_assoc, String.append_empty]
  | .interpreted role children => by
    rw [strokes, written_around, written_strokesAll, render]
    rfl
  | .composite kind children => by rw [strokes, written_around, written_strokesAll, render]
  | .unknown kind children => by rw [strokes, written_around, written_strokesAll, render]

theorem written_strokesAll (width level : Nat) : (nodes : List Node) →
    written width (strokesAll level nodes) = renderAll width level nodes
  | [] => rfl
  | node :: nodes => by
    rw [strokesAll, written_append, written_strokes, written_strokesAll, renderAll]

theorem written_strokesSeparated (width level : Nat) : (nodes : List Node) →
    written width (strokesSeparated level nodes) = renderSeparated width level nodes
  | [] => rfl
  | node :: nodes => by
    have feed : written width (if nodes.isEmpty then [] else [.feed]) =
        if nodes.isEmpty then "" else "\n" := by
      split <;> rfl
    rw [strokesSeparated, written_append, written_append, written_strokes, written_strokesSeparated,
      renderSeparated, feed, String.append_assoc]

end

end RstPress.Html

import RstPress.Tree.Kind

/-!
How nodes are marked up. An element is a tag with a class. Block elements own their lines, inline
elements stand in the flow of the text. Types without an element of their own fall back to a `div` whose
class names the type.
-/

namespace RstPress.Html
open RstPress.Tree

inductive Flow where
  | block
  | inline
deriving DecidableEq, Repr

structure Element where
  flow : Flow
  tag : String
  className : String
deriving DecidableEq, Repr

/-- The element of a kind that has one of its own. -/
def element? : Kind → Option Element
  | .document => some ⟨.block, "div", "rst-document"⟩
  | .paragraph => some ⟨.block, "p", "rst-paragraph"⟩
  | .bulletList => some ⟨.block, "ul", "rst-bullet-list"⟩
  | .enumeratedList => some ⟨.block, "ol", "rst-enumerated-list"⟩
  | .definitionList => none
  | .listItem => some ⟨.block, "li", "rst-list-item"⟩
  | .line => some ⟨.block, "div", "rst-line"⟩
  | .lineBlock => some ⟨.block, "div", "rst-line-block"⟩
  | .literalBlock => some ⟨.block, "pre", "rst-literal-block"⟩
  | .blockQuote => some ⟨.block, "blockquote", "rst-block-quote"⟩
  | .emphasis => some ⟨.inline, "em", "rst-emphasis"⟩
  | .strong => some ⟨.inline, "strong", "rst-strong"⟩
  | .literal => some ⟨.inline, "tt", "rst-literal"⟩

def fallbackClass (name : String) : String := "rst-unknown rst-" ++ name

/-- The element of a node that holds child nodes and has the given type name. -/
def fallback (name : String) : Element := ⟨.block, "div", fallbackClass name⟩

def elementOf (kind : Kind) : Element := (element? kind).getD (fallback kind.name)

/-- The heading of a section. -/
def titleElement (depth : UInt32) : Element :=
  ⟨.block, "h" ++ depth.toNat.repr, "rst-title-" ++ depth.toNat.repr⟩

def interpretedClass : Option String → String
  | none => "rst-interpreted_text"
  | some role => "rst-interpreted_text rst-role-" ++ role

end RstPress.Html

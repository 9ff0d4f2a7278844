import RstPress.Document.Reading
import RstPress.Inline.Token
import RstPress.Layout.Block

/-!
Arranged blocks become nodes once their inline markup is read. Problems are reported in the order in
which the source shows them: those of a line before those of the lines below it.
-/

namespace RstPress.Document
open Inline Layout Source RstPress.Tree
variable {m : Type → Type} [Monad m] [Reports m]

/-- The inline nodes of a text that begins on the given source line. -/
def readText (line : Nat) (text : List Char) : m (List Node) := do
  let found := tokens none text
  notes ((unclosed found).map fun markup => ⟨line, .unclosed markup⟩)
  return gather [] found

/-- Reports a title that is longer than its adornment. -/
def noteWidth (heading : Heading) : m Unit :=
  if heading.fits then pure ()
  else note ⟨heading.line, if heading.style.overlined then .shortOverline else .shortUnderline⟩

mutual

def readVerse : Verse → m Node
  | .line entry => do return .composite .line (← readText entry.number entry.text)
  | .block lines => do return .composite .lineBlock (← readVerses lines)

def readVerses : List Verse → m (List Node)
  | [] => return []
  | verse :: verses => do return (← readVerse verse) :: (← readVerses verses)

end

/-- The lines of a paragraph. One that only announced a literal block is no node of its own. -/
def readParagraphText (paragraph : Paragraph) : m (List Node) :=
  if paragraph.text.isEmpty then pure []
  else do return [.composite .paragraph (cutTexts (← readText paragraph.line paragraph.text))]

/-- The literal block that a paragraph announces. -/
def readLiteral : Announced → m (List Node)
  | .nothing => pure []
  | .block text => pure [.composite .literalBlock [textNode text]]
  | .missing line => do
    note ⟨line, .missingLiteral⟩
    return []

def readParagraph (paragraph : Paragraph) : m (List Node) := do
  notes (paragraph.interrupted.toList.map fun line => ⟨line, .unexpectedIndentation⟩)
  return (← readParagraphText paragraph) ++ (← readLiteral paragraph.literal)

def listKind : Marker → Kind
  | .bullet _ => .bulletList
  | .enumerator => .enumeratedList

def definitionItemKind : UnknownKind := ⟨"definition_list_item", by decide⟩

def termKind : UnknownKind := ⟨"term", by decide⟩

def definitionKind : UnknownKind := ⟨"definition", by decide⟩

mutual

/-- The nodes of a block. A stray heading makes none, since its lines are read as another block. -/
def readBlock : Block → m (List Node)
  | .stray heading => do
    noteWidth heading
    note ⟨heading.line, .strayTitle⟩
    return []
  | .quote body => do return [.composite .blockQuote (← readBlocks body)]
  | .transition => return [.transition]
  | .list marker items => do return [.composite (listKind marker) (← readBlocks items)]
  | .item body => do return [.composite .listItem (← readBlocks body)]
  | .lineBlock lines => do return [.composite .lineBlock (← readVerses lines)]
  | .definitionList items => do return [.composite .definitionList (← readBlocks items)]
  | .definition term body => do
    let name ← readText term.number term.text
    let meaning ← readBlocks body
    return [.unknown definitionItemKind [.unknown termKind name, .unknown definitionKind meaning]]
  | .paragraph paragraph => readParagraph paragraph

def readBlocks : List Block → m (List Node)
  | [] => return []
  | block :: blocks => do return (← readBlock block) ++ (← readBlocks blocks)

end

end RstPress.Document

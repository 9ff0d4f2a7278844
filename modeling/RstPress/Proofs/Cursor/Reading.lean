import RstPress.Press
import RstPress.Proofs.Cursor.Elements
import RstPress.Proofs.Cursor.Inline
import RstPress.Proofs.Cursor.Lines

/-!
A whole source by index. Lines, parts and tokens are found with all accesses checked, and the rest of the
reading is done as usual. The checked reading gives the tree of every source, with all its problems, so no
access of the reading is ever out of range.
-/

namespace RstPress.Cursor
open Document Inline Layout Source RstPress.Tree

section
variable {m : Type → Type} [Monad m] [Reports m]

def readText? (line : Nat) (text : List Char) : Option (m (List Node)) := do
  let found ← tokens? text
  return do
    notes ((unclosed found).map fun markup => ⟨line, .unclosed markup⟩)
    return gather [] found

mutual

def readVerse? : Verse → Option (m Node)
  | .line entry => (readText? entry.number entry.text).map fun text => do return .composite .line (← text)
  | .block lines => (readVerses? lines).map fun verses => do return .composite .lineBlock (← verses)

def readVerses? : List Verse → Option (m (List Node))
  | [] => some (return [])
  | verse :: verses => do
    let first ← readVerse? verse
    let others ← readVerses? verses
    return do return (← first) :: (← others)

end

def readParagraph? (paragraph : Paragraph) : Option (m (List Node)) := do
  let text ←
    if paragraph.text.isEmpty then some (pure [])
    else (readText? paragraph.line paragraph.text).map fun text => do
      return [.composite .paragraph (cutTexts (← text))]
  return do
    notes (paragraph.interrupted.toList.map fun line => ⟨line, .unexpectedIndentation⟩)
    return (← text) ++ (← readLiteral paragraph.literal)

mutual

def readBlock? : Block → Option (m (List Node))
  | .stray heading => some (readBlock (.stray heading))
  | .quote body => (readBlocks? body).map fun nodes => do return [.composite .blockQuote (← nodes)]
  | .transition => some (return [.transition])
  | .list marker items => (readBlocks? items).map fun nodes => do return [.composite (listKind marker) (← nodes)]
  | .item body => (readBlocks? body).map fun nodes => do return [.composite .listItem (← nodes)]
  | .lineBlock lines => (readVerses? lines).map fun nodes => do return [.composite .lineBlock (← nodes)]
  | .definitionList items => (readBlocks? items).map fun nodes => do return [.composite .definitionList (← nodes)]
  | .definition term body => do
    let name ← readText? term.number term.text
    let meaning ← readBlocks? body
    return do
      let name ← name
      let meaning ← meaning
      return [.unknown definitionItemKind [.unknown termKind name, .unknown definitionKind meaning]]
  | .paragraph paragraph => readParagraph? paragraph

def readBlocks? : List Block → Option (m (List Node))
  | [] => some (return [])
  | block :: blocks => do
    let first ← readBlock? block
    let others ← readBlocks? blocks
    return do return (← first) ++ (← others)

end

def readParts? (styles : List Style) (last : UInt32) : List Part → Option (m (List Element))
  | [] => some (return [])
  | .block block :: parts => do
    let nodes ← readBlock? block
    let others ← readParts? styles last parts
    return do
      let nodes ← nodes
      let others ← others
      return nodes.map .body ++ others
  | .heading heading :: parts => do
    let (depth, styles) := depthOf styles heading.style
    let title ← readText? heading.line heading.text
    let others ← readParts? styles depth parts
    return do
      noteWidth heading
      notes (if last + 1 < depth then [⟨heading.line, .skippedLevel⟩] else [])
      let title ← title
      let others ← others
      return .title depth title :: others

def read? (tabWidth : Nat) (source : String) : Option (m Node) := do
  let lines ← lines? tabWidth source.toList
  let parts ← elements? true lines
  let elements ← readParts? [] 0 parts
  return do return .composite .document (nestSections (← elements))

end

/-- Reads a source with all accesses checked. -/
def parse? (options : ReadOptions) (source : String) : Option (Except Error Node) :=
  if options.strict then
    (read? options.tabWidth source : Option (Except Problem Node)).map (Except.mapError .markup)
  else (read? options.tabWidth source : Option (Reading Node)).map fun reading => .ok reading.value

section
variable {m : Type → Type} [Monad m] [Reports m]

theorem readText?_eq (line : Nat) (text : List Char) :
    (readText? line text : Option (m _)) = some (readText line text) := by
  rw [readText?, tokens?_eq]
  rfl

mutual

theorem readVerse?_eq : (verse : Verse) → (readVerse? verse : Option (m _)) = some (readVerse verse)
  | .line entry => by rw [readVerse?, readText?_eq]; rfl
  | .block lines => by rw [readVerse?, readVerses?_eq lines]; rfl

theorem readVerses?_eq : (verses : List Verse) → (readVerses? verses : Option (m _)) = some (readVerses verses)
  | [] => rfl
  | verse :: verses => by rw [readVerses?, readVerse?_eq verse, readVerses?_eq verses]; rfl

end

theorem readParagraph?_eq (paragraph : Paragraph) :
    (readParagraph? paragraph : Option (m _)) = some (readParagraph paragraph) := by
  rw [readParagraph?, readText?_eq, readParagraph, readParagraphText]
  split <;> rfl

mutual

theorem readBlock?_eq : (block : Block) → (readBlock? block : Option (m _)) = some (readBlock block)
  | .stray _ | .transition => rfl
  | .quote body | .list _ body | .item body | .definitionList body => by
    rw [readBlock?, readBlocks?_eq body]; rfl
  | .lineBlock lines => by rw [readBlock?, readVerses?_eq]; rfl
  | .definition term body => by rw [readBlock?, readText?_eq, readBlocks?_eq body]; rfl
  | .paragraph paragraph => readParagraph?_eq paragraph

theorem readBlocks?_eq : (blocks : List Block) → (readBlocks? blocks : Option (m _)) = some (readBlocks blocks)
  | [] => rfl
  | block :: blocks => by rw [readBlocks?, readBlock?_eq block, readBlocks?_eq blocks]; rfl

end

theorem readParts?_eq (styles : List Style) (last : UInt32) (parts : List Part) :
    (readParts? styles last parts : Option (m _)) = some (readParts styles last parts) := by
  induction parts generalizing styles last with
  | nil => rfl
  | cons part parts ih =>
    cases part with
    | block block => rw [readParts?, readBlock?_eq, ih]; rfl
    | heading heading => simp only [readParts?, readText?_eq, ih]; rfl

theorem read?_eq (tabWidth : Nat) (source : String) :
    (read? tabWidth source : Option (m _)) = some (read tabWidth source) := by
  simp only [read?, lines?_eq, elements?_eq, Option.bind_eq_bind, Option.bind_some, readParts?_eq]
  rfl

end

/-- For every source, tab width and way of reading, each index, slice, cut and difference is in range. -/
theorem accesses_in_range (options : ReadOptions) (source : String) :
    parse? options source = some (parse options source) := by
  rw [parse?, parse, read?_eq, read?_eq]
  split <;> rfl

end RstPress.Cursor

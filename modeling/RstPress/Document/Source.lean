import RstPress.Document.Body
import RstPress.Document.Section

/-!
Reading a whole source. The style of a title decides its depth: styles have depths in the order in
which they first appear. A title more than one level below the one before it is a problem.
-/

namespace RstPress.Document
open Layout Source RstPress.Tree
variable {m : Type → Type} [Monad m] [Reports m]

/-- The depth of a style, and the styles seen once this title is read. -/
def depthOf (styles : List Style) (style : Style) : UInt32 × List Style :=
  match styles.idxOf? style with
  | some index => (.ofNat (index + 1), styles)
  | none => (.ofNat (styles.length + 1), styles ++ [style])

/-- Reads the parts of a document, given the styles seen so far and the depth of the last title. -/
def readParts (styles : List Style) (last : UInt32) : List Part → m (List Element)
  | [] => return []
  | .block block :: parts => do
    let nodes ← readBlock block
    let others ← readParts styles last parts
    return nodes.map .body ++ others
  | .heading heading :: parts => do
    noteWidth heading
    let (depth, styles) := depthOf styles heading.style
    notes (if last + 1 < depth then [⟨heading.line, .skippedLevel⟩] else [])
    let title ← readText heading.line heading.text
    let others ← readParts styles depth parts
    return .title depth title :: others

/-- The titles and body nodes of a source, in order. -/
def readElements (tabWidth : Nat) (source : String) : m (List Element) :=
  readParts [] 0 (outline (lines tabWidth source.toList))

/-- The document tree of a source. -/
def read (tabWidth : Nat) (source : String) : m Node := do
  return .composite .document (nestSections (← readElements tabWidth source))

end RstPress.Document

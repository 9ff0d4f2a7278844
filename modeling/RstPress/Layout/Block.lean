import RstPress.Layout.Piece

/-!
The arrangement of a text into blocks. A nested body is arranged like a text of its own; this ends
because a body weighs less than the lines it is cut from. Headings open sections at the top of a
document only. In a nested body the title lines are read as whatever else they are, and the stray
heading is remembered.
-/

namespace RstPress.Layout
open Source

/-- A part of a text whose nested bodies are arranged, and whose inline markup is not yet read. -/
inductive Block where
  | stray (heading : Heading)
  | quote (body : List Block)
  | transition
  | list (marker : Marker) (items : List Block)
  | item (body : List Block)
  | lineBlock (lines : List Verse)
  | definitionList (items : List Block)
  | definition (term : Line) (body : List Block)
  | paragraph (text : Paragraph)

/-- The block that a piece becomes once its bodies are arranged. -/
def Piece.build (piece : Piece) (arranged : (body : List Line) → body ∈ piece.bodies → List Block) :
    Block :=
  match piece, arranged with
  | .quote body, arranged => .quote (arranged body (List.mem_singleton.mpr rfl))
  | .transition, _ => .transition
  | .list marker items, arranged =>
    .list marker (items.attach.map fun body => .item (arranged body.1 body.2))
  | .lineBlock entries, _ => .lineBlock (verses entries)
  | .definitionList items, arranged =>
    .definitionList (items.attach.map fun item =>
      .definition item.1.1 (arranged item.1.2 (List.mem_map_of_mem item.2)))
  | .paragraph text, _ => .paragraph text

/-- The heading that begins at the left margin of this line. -/
def headingAt? (line : Line) (rest : List Line) : Option (Heading × List Line) :=
  if line.indent = 0 then heading? (line :: rest) else none

theorem headingAt?_suffix {line : Line} {rest after : List Line} {heading : Heading}
    (found : headingAt? line rest = some (heading, after)) : after <:+ rest := by
  rw [headingAt?, Option.ite_none_right_eq_some] at found
  exact heading?_suffix found.2

def strays (line : Line) (rest : List Line) : List Block :=
  ((headingAt? line rest).map fun found => Block.stray found.1).toList

/-- Arranges a nested body. -/
def arrange : List Line → List Block
  | [] => []
  | line :: rest =>
    if _blank : line.isBlank then arrange rest
    else
      strays line rest ++
        ((Piece.first line rest).1.build fun body _ => arrange body) ::
          arrange (Piece.first line rest).2
termination_by lines => weight lines
decreasing_by
  · exact weight_lt_of_suffix (List.suffix_refl rest)
  · rename_i member
    exact (Piece.weight_first rest (by simpa using _blank)).1 body member
  · exact (Piece.weight_first rest (by simpa using _blank)).2

def Piece.block (piece : Piece) : Block := piece.build fun body _ => arrange body

/-- A part of a document: a heading or a block of body text. -/
inductive Part where
  | heading (heading : Heading)
  | block (block : Block)

/-- Arranges a document. -/
def outline : List Line → List Part
  | [] => []
  | line :: rest =>
    if _blank : line.isBlank then outline rest
    else
      match _found : headingAt? line rest with
      | some (heading, after) => .heading heading :: outline after
      | none => .block (Piece.first line rest).1.block :: outline (Piece.first line rest).2
termination_by lines => weight lines
decreasing_by
  · exact weight_lt_of_suffix (List.suffix_refl rest)
  · exact weight_lt_of_suffix (headingAt?_suffix _found)
  · exact (Piece.weight_first rest (by simpa using _blank)).2

@[simp] theorem Piece.block_quote (body : List Line) : (Piece.quote body).block = .quote (arrange body) := rfl

@[simp] theorem Piece.block_transition : Piece.transition.block = .transition := rfl

@[simp] theorem Piece.block_list (marker : Marker) (items : List (List Line)) :
    (Piece.list marker items).block = .list marker (items.map fun body => .item (arrange body)) := by
  simp [Piece.block, Piece.build]

@[simp] theorem Piece.block_definitionList (items : List (Line × List Line)) :
    (Piece.definitionList items).block =
      .definitionList (items.map fun item => .definition item.1 (arrange item.2)) := by
  simp only [Piece.block, Piece.build, Block.definitionList.injEq]
  exact List.attach_map_val (f := fun item : Line × List Line => Block.definition item.1 (arrange item.2))

@[simp] theorem Piece.block_lineBlock (found : List Entry) :
    (Piece.lineBlock found).block = .lineBlock (verses found) := rfl

@[simp] theorem Piece.block_paragraph (text : Paragraph) :
    (Piece.paragraph text).block = .paragraph text := rfl

@[simp] theorem arrange_nil : arrange [] = [] := by rw [arrange]

theorem arrange_of_blank {line : Line} (rest : List Line) (blank : line.isBlank) :
    arrange (line :: rest) = arrange rest := by
  rw [arrange, dif_pos blank]

theorem arrange_of_filled {line : Line} (rest : List Line) (filled : line.isBlank = false) :
    arrange (line :: rest) =
      strays line rest ++ (Piece.first line rest).1.block :: arrange (Piece.first line rest).2 := by
  rw [arrange, dif_neg (by simp [filled])]
  rfl

@[simp] theorem outline_nil : outline [] = [] := by rw [outline]

theorem outline_of_blank {line : Line} (rest : List Line) (blank : line.isBlank) :
    outline (line :: rest) = outline rest := by
  rw [outline, dif_pos blank]

theorem outline_of_heading {line : Line} {rest after : List Line} {heading : Heading}
    (filled : line.isBlank = false) (found : headingAt? line rest = some (heading, after)) :
    outline (line :: rest) = .heading heading :: outline after := by
  rw [outline, dif_neg (by simp [filled])]
  split
  · rename_i other others same
    rw [found] at same
    cases same
    rfl
  · rename_i none
    simp [found] at none

theorem outline_of_piece {line : Line} {rest : List Line} (filled : line.isBlank = false)
    (none : headingAt? line rest = none) :
    outline (line :: rest) =
      .block (Piece.first line rest).1.block :: outline (Piece.first line rest).2 := by
  rw [outline, dif_neg (by simp [filled])]
  split
  · rename_i other others same
    simp [none] at same
  · rfl

end RstPress.Layout

import RstPress.Proofs.Extension.Piece

/-!
What is read from a text does not depend on where in the source the text stands. If the lines get other
numbers, everything that remembers a line remembers the other number, and nothing else changes.
-/

namespace RstPress.Text

theorem dropEndWhile_map {α β : Type} (p : β → Bool) (f : α → β) (items : List α) :
    dropEndWhile p (items.map f) = (dropEndWhile (p ∘ f) items).map f := by
  rw [dropEndWhile, dropEndWhile, ← List.map_reverse, List.dropWhile_map, List.map_reverse]

end RstPress.Text

namespace RstPress.Source
open Text
variable (move : Nat → Nat)

/-- The line with another number. -/
def Line.relocate (line : Line) : Line := { line with number := move line.number }

@[simp] theorem indent_relocate (line : Line) : (line.relocate move).indent = line.indent := rfl

@[simp] theorem text_relocate (line : Line) : (line.relocate move).text = line.text := rfl

@[simp] theorem number_relocate (line : Line) : (line.relocate move).number = move line.number := rfl

@[simp] theorem width_relocate (line : Line) : (line.relocate move).width = line.width := rfl

@[simp] theorem isBlank_relocate (line : Line) : (line.relocate move).isBlank = line.isBlank := rfl

@[simp] theorem written_relocate (line : Line) : (line.relocate move).written = line.written := rfl

theorem skipBlank_relocate (lines : List Line) :
    skipBlank (lines.map (Line.relocate move)) = (skipBlank lines).map (Line.relocate move) :=
  List.dropWhile_map

theorem insetBlock_relocate (lines : List Line) :
    insetBlock (lines.map (Line.relocate move)) = (insetBlock lines).map (Line.relocate move) := by
  rw [insetBlock, List.takeWhile_map, dropEndWhile_map]
  rfl

theorem afterInset_relocate (lines : List Line) :
    afterInset (lines.map (Line.relocate move)) = (afterInset lines).map (Line.relocate move) := by
  rw [afterInset, insetBlock_relocate, List.length_map, afterInset, List.map_drop]

theorem margin_relocate (lines : List Line) :
    margin (lines.map (Line.relocate move)) = margin lines := by
  rw [margin, List.filter_map, List.map_map]
  rfl

theorem map_dedent_relocate (amount : Nat) (lines : List Line) :
    (lines.map (Line.relocate move)).map (Line.dedent amount) =
      (lines.map (Line.dedent amount)).map (Line.relocate move) := by
  rw [List.map_map, List.map_map]
  rfl

theorem dedentBlock_relocate (lines : List Line) :
    dedentBlock (lines.map (Line.relocate move)) = (dedentBlock lines).map (Line.relocate move) := by
  have kept : dropEndWhile Line.isBlank (lines.map (Line.relocate move)) =
      (dropEndWhile Line.isBlank lines).map (Line.relocate move) := dropEndWhile_map _ _ _
  rw [dedentBlock, kept, margin_relocate, map_dedent_relocate, dedentBlock]

end RstPress.Source

namespace RstPress.Layout
open Text Source
variable (move : Nat → Nat)

def Heading.relocate (heading : Heading) : Heading := { heading with line := move heading.line }

theorem overlined?_relocate (lines : List Line) :
    overlined? (lines.map (Line.relocate move)) =
      (overlined? lines).map (Prod.map (Heading.relocate move) (List.map (Line.relocate move))) := by
  match lines with
  | [] | [_] | [_, _] => rfl
  | above :: title :: below :: rest =>
    simp only [overlined?, List.map_cons, text_relocate]
    cases adornment? above.text with
    | none => rfl
    | some mark =>
      dsimp only
      rw [apply_ite (Option.map _)]
      rfl

theorem underlined?_relocate (lines : List Line) :
    underlined? (lines.map (Line.relocate move)) =
      (underlined? lines).map (Prod.map (Heading.relocate move) (List.map (Line.relocate move))) := by
  match lines with
  | [] | [_] => rfl
  | title :: below :: rest =>
    simp only [underlined?, List.map_cons, text_relocate]
    cases adornment? below.text with
    | none => rfl
    | some mark =>
      dsimp only
      rw [apply_ite (Option.map _)]
      rfl

theorem headingAt?_relocate (line : Line) (rest : List Line) :
    headingAt? (line.relocate move) (rest.map (Line.relocate move)) =
      (headingAt? line rest).map
        (Prod.map (Heading.relocate move) (List.map (Line.relocate move))) := by
  unfold headingAt? heading?
  rw [← List.map_cons, overlined?_relocate, underlined?_relocate, indent_relocate]
  split
  · cases overlined? (line :: rest) <;> rfl
  · rfl

theorem at?_relocate (marker : Marker) (line : Line) :
    marker.at? (line.relocate move) = marker.at? line := rfl

theorem itemBody_relocate (width : Nat) (line : Line) (block : List Line) :
    itemBody width (line.relocate move) (block.map (Line.relocate move)) =
      (itemBody width line block).map (Line.relocate move) := by
  simp only [itemBody, map_dedent_relocate, dedentBlock_relocate, text_relocate]
  split <;> rfl

theorem listItems_relocate (marker : Marker) (lines : List Line) :
    listItems marker (lines.map (Line.relocate move)) =
      (listItems marker lines).map (List.map (List.map (Line.relocate move)))
        (List.map (Line.relocate move)) := by
  fun_induction listItems marker lines with
  | case1 => simp
  | case2 line rest unmarked => exact listItems_of_unmarked _ unmarked
  | case3 line rest width marked items remaining taken ih =>
    rw [taken] at ih
    rw [List.map_cons, listItems_of_marked _ (by exact marked), insetBlock_relocate,
      afterInset_relocate, skipBlank_relocate, ih, itemBody_relocate]
    rfl

theorem startsDefinition_relocate (lines : List Line) :
    startsDefinition (lines.map (Line.relocate move)) = startsDefinition lines := by
  match lines with
  | [] | [_] => rfl
  | term :: next :: rest => rfl

theorem definitions_relocate (lines : List Line) :
    definitions (lines.map (Line.relocate move)) =
      (definitions lines).map
        (List.map (Prod.map (Line.relocate move) (List.map (Line.relocate move))))
        (List.map (Line.relocate move)) := by
  fun_induction definitions lines with
  | case1 => simp
  | case2 term rest starts items remaining taken ih =>
    rw [← startsDefinition_relocate move] at starts
    rw [taken] at ih
    rw [List.map_cons, definitions_of_starts starts, insetBlock_relocate, afterInset_relocate,
      skipBlank_relocate, dedentBlock_relocate, ih]
    rfl
  | case3 term rest ends =>
    rw [← startsDefinition_relocate move, Bool.not_eq_true] at ends
    exact definitions_of_not_starts ends

def Entry.relocate (entry : Entry) : Entry := { entry with number := move entry.number }

theorem joinLines_relocate (text : List Char) (lines : List Line) :
    joinLines text (lines.map (Line.relocate move)) = joinLines text lines := by
  rw [joinLines, List.foldl_map]
  rfl

theorem entries_relocate (above : Nat) (lines : List Line) :
    entries above (lines.map (Line.relocate move)) =
      (entries above lines).map (List.map (Entry.relocate move)) (List.map (Line.relocate move)) := by
  fun_induction entries above lines with
  | case1 => simp
  | case2 above line rest none => exact entries_of_no_bar _ _ none
  | case3 above line rest content bar indent others remaining taken ih =>
    have same : continuesEntry ∘ Line.relocate move = continuesEntry := rfl
    rw [taken] at ih
    rw [List.map_cons, entries_of_bar above _ (by exact bar), List.takeWhile_map,
      List.dropWhile_map, same, joinLines_relocate, ih]
    rfl

def Verse.relocate : Verse → Verse
  | .line entry => .line (entry.relocate move)
  | .block lines => .block (lines.map Verse.relocate)

theorem leastIndent_relocate (entries : List Entry) :
    leastIndent (entries.map (Entry.relocate move)) = leastIndent entries := by
  rw [leastIndent, List.map_map]
  rfl

theorem nest_relocate (base : Nat) (entries : List Entry) :
    nest base (entries.map (Entry.relocate move)) = (nest base entries).map (Verse.relocate move) := by
  fun_induction nest base entries with
  | case1 => simp [nest]
  | case2 base entry others least ih =>
    rw [List.map_cons, nest, if_pos (by exact least), ih, List.map_cons, Verse.relocate]
  | case3 base entry others deep run inner later =>
    have same : (fun e : Entry => decide (base < e.indent)) ∘ Entry.relocate move =
        fun e : Entry => decide (base < e.indent) := rfl
    rw [List.map_cons, nest, if_neg (by exact deep)]
    dsimp only
    rw [List.takeWhile_map, List.dropWhile_map, same, later, ← List.map_cons, leastIndent_relocate,
      inner, List.map_cons, Verse.relocate]

theorem verses_relocate (entries : List Entry) :
    verses (entries.map (Entry.relocate move)) = (verses entries).map (Verse.relocate move) := by
  rw [verses, leastIndent_relocate, nest_relocate, verses]

def Announced.relocate : Announced → Announced
  | .nothing => .nothing
  | .block text => .block text
  | .missing line => .missing (move line)

def Paragraph.relocate (paragraph : Paragraph) : Paragraph where
  line := move paragraph.line
  text := paragraph.text
  interrupted := paragraph.interrupted.map move
  literal := paragraph.literal.relocate move

theorem announced_relocate (previous : Nat) (lines : List Line) :
    announced (move previous) (lines.map (Line.relocate move)) =
      (announced previous lines).map (Announced.relocate move) (List.map (Line.relocate move)) := by
  unfold announced
  rw [skipBlank_relocate]
  cases skipBlank lines with
  | nil => rfl
  | cons next rest =>
    have whole := List.map_cons (f := Line.relocate move) (a := next) (l := rest)
    simp only [List.map_cons, indent_relocate]
    rw [← whole, insetBlock_relocate, afterInset_relocate, dedentBlock_relocate, List.flatMap_map,
      apply_ite (Prod.map _ _)]
    rfl

theorem interruption?_relocate (lines : List Line) :
    interruption? (lines.map (Line.relocate move)) = (interruption? lines).map move := by
  cases lines with
  | nil => rfl
  | cons next rest =>
    simp only [interruption?, List.map_cons, isBlank_relocate]
    rw [apply_ite (Option.map _)]
    rfl

theorem paragraphOf_relocate (line : Line) (others after : List Line) :
    paragraphOf (line.relocate move) (others.map (Line.relocate move))
        (after.map (Line.relocate move)) =
      (paragraphOf line others after).map (Paragraph.relocate move)
        (List.map (Line.relocate move)) := by
  have texts : ((line :: others).map (Line.relocate move)).map Line.text =
      (line :: others).map Line.text := List.map_map
  have previous : (((line :: others).map (Line.relocate move)).map Line.number).getLastD
      (line.relocate move).number = move (((line :: others).map Line.number).getLastD line.number) := by
    rw [List.map_map]
    exact (List.getLastD_map (f := move ∘ Line.number)).trans (congrArg move List.getLastD_map.symm)
  simp only [paragraphOf]
  rw [← List.map_cons, texts, previous, interruption?_relocate, announced_relocate]
  split <;> rfl

theorem paragraph_relocate (line : Line) (rest : List Line) :
    paragraph (line.relocate move) (rest.map (Line.relocate move)) =
      (paragraph line rest).map (Paragraph.relocate move) (List.map (Line.relocate move)) := by
  rw [paragraph, List.takeWhile_map, List.dropWhile_map]
  exact paragraphOf_relocate move line _ _

def Piece.relocate : Piece → Piece
  | .quote body => .quote (body.map (Line.relocate move))
  | .transition => .transition
  | .list marker items => .list marker (items.map (List.map (Line.relocate move)))
  | .lineBlock entries => .lineBlock (entries.map (Entry.relocate move))
  | .definitionList items =>
    .definitionList (items.map (Prod.map (Line.relocate move) (List.map (Line.relocate move))))
  | .paragraph text => .paragraph (text.relocate move)

theorem construct_relocate (line : Line) (rest : List Line) :
    construct (line.relocate move) (rest.map (Line.relocate move)) = construct line rest := by
  have definition := startsDefinition_relocate move (line :: rest)
  cases rest with
  | nil => rfl
  | cons next rest =>
    rw [List.map_cons] at definition
    unfold construct
    rw [definition]
    rfl

theorem Piece.first_relocate (line : Line) (rest : List Line) :
    Piece.first (line.relocate move) (rest.map (Line.relocate move)) =
      (Piece.first line rest).map (Piece.relocate move) (List.map (Line.relocate move)) := by
  have whole := List.map_cons (f := Line.relocate move) (a := line) (l := rest)
  rw [Piece.first, construct_relocate, Piece.first]
  cases construct line rest with
  | quote =>
    simp only [Construct.take]
    rw [← whole, insetBlock_relocate, dedentBlock_relocate, afterInset_relocate]
    rfl
  | transition => rfl
  | list marker =>
    simp only [Construct.take]
    rw [← whole, listItems_relocate]
    rfl
  | lineBlock =>
    simp only [Construct.take]
    rw [← whole, entries_relocate]
    rfl
  | definitionList =>
    simp only [Construct.take]
    rw [← whole, definitions_relocate]
    rfl
  | paragraph =>
    simp only [Construct.take]
    rw [paragraph_relocate]
    rfl

def Block.relocate : Block → Block
  | .stray heading => .stray (heading.relocate move)
  | .quote body => .quote (body.map Block.relocate)
  | .transition => .transition
  | .list marker items => .list marker (items.map Block.relocate)
  | .item body => .item (body.map Block.relocate)
  | .lineBlock lines => .lineBlock (lines.map (Verse.relocate move))
  | .definitionList items => .definitionList (items.map Block.relocate)
  | .definition term body => .definition (term.relocate move) (body.map Block.relocate)
  | .paragraph text => .paragraph (text.relocate move)

theorem strays_relocate (line : Line) (rest : List Line) :
    strays (line.relocate move) (rest.map (Line.relocate move)) =
      (strays line rest).map (Block.relocate move) := by
  rw [strays, headingAt?_relocate, strays]
  cases headingAt? line rest with
  | none => rfl
  | some found => simp [Block.relocate]

/-- A piece becomes a block whatever its bodies are arranged into. -/
theorem Piece.block_relocate (piece : Piece)
    (arranged : ∀ body ∈ piece.bodies,
      arrange (body.map (Line.relocate move)) = (arrange body).map (Block.relocate move)) :
    (piece.relocate move).block = piece.block.relocate move := by
  cases piece with
  | quote body =>
    simp only [Piece.relocate, Piece.block_quote, Block.relocate,
      arranged body (List.mem_singleton.mpr rfl)]
  | transition => simp only [Piece.relocate, Piece.block_transition, Block.relocate]
  | list marker items =>
    simp only [Piece.relocate, Piece.block_list, Block.relocate, List.map_map, Block.list.injEq,
      true_and]
    exact List.map_congr_left fun body member => by
      simp only [Function.comp_apply, arranged body member, Block.relocate]
  | lineBlock entries =>
    simp only [Piece.relocate, Piece.block_lineBlock, Block.relocate, verses_relocate]
  | definitionList items =>
    simp only [Piece.relocate, Piece.block_definitionList, Block.relocate, List.map_map,
      Block.definitionList.injEq]
    exact List.map_congr_left fun item member => by
      simp only [Function.comp_apply, Prod.map_fst, Prod.map_snd, Block.relocate,
        arranged item.2 (List.mem_map_of_mem member)]
  | paragraph text => simp only [Piece.relocate, Piece.block_paragraph, Block.relocate]

theorem arrange_relocate (lines : List Line) :
    arrange (lines.map (Line.relocate move)) = (arrange lines).map (Block.relocate move) := by
  fun_induction arrange lines with
  | case1 => simp
  | case2 line rest blank ih => rw [List.map_cons, arrange_of_blank _ (by exact blank), ih]
  | case3 line rest visible bodies later =>
    rw [List.map_cons, arrange_of_filled _ (by simpa using visible), strays_relocate,
      Piece.first_relocate, Prod.map_fst, Prod.map_snd, Piece.block_relocate move _ bodies, later,
      List.map_append, List.map_cons]
    rfl

def Part.relocate : Part → Part
  | .heading title => .heading (title.relocate move)
  | .block found => .block (found.relocate move)

/-- The outline of a text remembers other lines if the lines have other numbers, and is the same apart
from that. -/
theorem outline_relocate (lines : List Line) :
    outline (lines.map (Line.relocate move)) = (outline lines).map (Part.relocate move) := by
  fun_induction outline lines with
  | case1 => simp
  | case2 line rest blank ih => rw [List.map_cons, outline_of_blank _ (by exact blank), ih]
  | case3 line rest visible heading after found ih =>
    have same := headingAt?_relocate move line rest
    rw [found, Option.map_some] at same
    rw [List.map_cons, outline_of_heading (by simpa using visible) same, ih]
    rfl
  | case4 line rest visible none ih =>
    have same := headingAt?_relocate move line rest
    rw [none, Option.map_none] at same
    have block := Piece.block_relocate move (Piece.first line rest).1 fun body _ =>
      arrange_relocate move body
    rw [List.map_cons, outline_of_piece (by simpa using visible) same, Piece.first_relocate,
      Prod.map_fst, Prod.map_snd, block, ih]
    rfl

end RstPress.Layout

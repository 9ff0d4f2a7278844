import RstPress.Proofs.Lines
import RstPress.Proofs.Places.Outline
import RstPress.Proofs.Sections

/-!
A text that stands further down in a source is read as if it stood alone: it gives the same elements,
and each problem is reported for the line that it is on now.
-/

namespace RstPress.Source

/-- Lines that are all moved as far are numbered from another number on. -/
theorem numberFrom_relocate_of {move : Nat → Nat} {number other : Nat} (texts : List (List Char))
    (moves : ∀ place < texts.length, move (number + place) = other + place) :
    (numberFrom number texts).map (Line.relocate move) = numberFrom other texts := by
  induction texts generalizing number other with
  | nil => rfl
  | cons text texts ih =>
    have first : move number = other := moves 0 (Nat.succ_pos texts.length)
    have later := ih fun place inside => by
      have moved := moves (place + 1) (Nat.succ_lt_succ inside)
      rwa [Nat.add_comm place, ← Nat.add_assoc, ← Nat.add_assoc] at moved
    rw [numberFrom, numberFrom, List.map_cons, later, ← first]
    rfl

theorem numberFrom_relocate (below number : Nat) (texts : List (List Char)) :
    (numberFrom number texts).map (Line.relocate (· + below)) = numberFrom (number + below) texts :=
  numberFrom_relocate_of texts fun _ _ => Nat.add_right_comm number _ below

theorem linesFrom_relocate (tabWidth below number : Nat) (text : List Char) :
    (linesFrom tabWidth number text).map (Line.relocate (· + below)) =
      linesFrom tabWidth (number + below) text :=
  numberFrom_relocate below number _

/-- Further down in a source a text has the same lines, but for their numbers. -/
theorem exists_lines_relocate (tabWidth number : Nat) (text : List Char) :
    ∃ move, linesFrom tabWidth number text = (lines tabWidth text).map (Line.relocate move) := by
  refine ⟨fun line => line - 1 + number, ?_⟩
  calc
    linesFrom tabWidth number text
    _ = (linesFrom tabWidth 0 text).map (Line.relocate (· + number)) := by
      rw [linesFrom_relocate, Nat.zero_add]
    _ = ((linesFrom tabWidth 0 text).map (Line.relocate (· + 1))).map
          (Line.relocate fun line => line - 1 + number) := by
      rw [List.map_map]
      rfl
    _ = _ := by rw [linesFrom_relocate, lines_eq_linesFrom]

end RstPress.Source

namespace RstPress.Document
open Inline Layout Source RstPress.Tree
variable {α β : Type} (move : Nat → Nat)

def Problem.relocate (problem : Problem) : Problem := { problem with line := move problem.line }

/-- The reading that reports the same problems at other lines. -/
def Reading.relocate : Reading α → Reading α
  | .done value => .done value
  | .report problem next => .report (problem.relocate move) next.relocate

namespace Reading

theorem relocate_pure (a : α) : (pure a : Reading α).relocate move = pure a := rfl

theorem relocate_bind (reading : Reading α) (next : α → Reading β) :
    (reading >>= next).relocate move = reading.relocate move >>= fun a => (next a).relocate move := by
  induction reading with
  | done a => rfl
  | report problem rest ih => exact congrArg (report (problem.relocate move)) ih

theorem relocate_note (problem : Problem) :
    (note problem : Reading Unit).relocate move = note (problem.relocate move) := rfl

theorem relocate_notes (found : List Problem) :
    (notes found : Reading Unit).relocate move = notes (found.map (Problem.relocate move)) := by
  induction found with
  | nil => rfl
  | cons problem found ih => exact congrArg (report (problem.relocate move)) ih

@[simp] theorem value_relocate (reading : Reading α) : (reading.relocate move).value = reading.value := by
  induction reading with
  | done a => rfl
  | report problem rest ih => exact ih

@[simp] theorem problems_relocate (reading : Reading α) :
    (reading.relocate move).problems = reading.problems.map (Problem.relocate move) := by
  induction reading with
  | done a => rfl
  | report problem rest ih => exact congrArg (problem.relocate move :: ·) ih

end Reading

open Reading

theorem readText_relocate (line : Nat) (text : List Char) :
    readText (move line) text = (readText line text : Reading (List Node)).relocate move := by
  simp only [readText, relocate_bind, relocate_notes, relocate_pure, List.map_map]
  rfl

theorem noteWidth_relocate (heading : Heading) :
    noteWidth (heading.relocate move) = (noteWidth heading : Reading Unit).relocate move := by
  unfold noteWidth
  rw [apply_ite (Reading.relocate move)]
  rfl

mutual

theorem readVerse_relocate : (verse : Verse) →
    readVerse (verse.relocate move) = (readVerse verse : Reading Node).relocate move
  | .line entry => by
    simp only [Verse.relocate, readVerse, relocate_bind, relocate_pure, ← readText_relocate]
    rfl
  | .block lines => by
    simp only [Verse.relocate, readVerse, relocate_bind, relocate_pure, readVerses_relocate lines]

theorem readVerses_relocate : (verses : List Verse) →
    readVerses (verses.map (Verse.relocate move)) =
      (readVerses verses : Reading (List Node)).relocate move
  | [] => rfl
  | verse :: verses => by
    simp only [List.map_cons, readVerses, relocate_bind, relocate_pure, readVerse_relocate verse,
      readVerses_relocate verses]

end

theorem readLiteral_relocate (literal : Announced) :
    readLiteral (literal.relocate move) =
      (readLiteral literal : Reading (List Node)).relocate move := by
  cases literal <;> rfl

theorem readParagraph_relocate (paragraph : Paragraph) :
    readParagraph (paragraph.relocate move) =
      (readParagraph paragraph : Reading (List Node)).relocate move := by
  obtain ⟨line, text, interrupted, literal⟩ := paragraph
  have shown : readParagraphText (Paragraph.relocate move ⟨line, text, interrupted, literal⟩) =
      (readParagraphText ⟨line, text, interrupted, literal⟩ : Reading (List Node)).relocate move := by
    simp only [readParagraphText, Paragraph.relocate]
    rw [apply_ite (Reading.relocate move), relocate_bind, ← readText_relocate]
    rfl
  simp only [readParagraph, relocate_bind, relocate_notes, relocate_pure, ← shown,
    ← readLiteral_relocate]
  cases interrupted <;> rfl

mutual

theorem readBlock_relocate : (block : Block) →
    readBlock (block.relocate move) = (readBlock block : Reading (List Node)).relocate move
  | .stray heading => by
    simp only [Block.relocate, readBlock, relocate_bind, relocate_note, relocate_pure,
      noteWidth_relocate]
    rfl
  | .quote body => by
    simp only [Block.relocate, readBlock, relocate_bind, relocate_pure, readBlocks_relocate body]
  | .transition => by
    simp only [Block.relocate, readBlock, relocate_pure]
  | .list marker items => by
    simp only [Block.relocate, readBlock, relocate_bind, relocate_pure, readBlocks_relocate items]
  | .item body => by
    simp only [Block.relocate, readBlock, relocate_bind, relocate_pure, readBlocks_relocate body]
  | .lineBlock lines => by
    simp only [Block.relocate, readBlock, relocate_bind, relocate_pure, readVerses_relocate]
  | .definitionList items => by
    simp only [Block.relocate, readBlock, relocate_bind, relocate_pure, readBlocks_relocate items]
  | .definition term body => by
    simp only [Block.relocate, readBlock, relocate_bind, relocate_pure, number_relocate,
      text_relocate, readText_relocate, readBlocks_relocate body]
  | .paragraph paragraph => by
    simp only [Block.relocate, readBlock, readParagraph_relocate]

theorem readBlocks_relocate : (blocks : List Block) →
    readBlocks (blocks.map (Block.relocate move)) =
      (readBlocks blocks : Reading (List Node)).relocate move
  | [] => rfl
  | block :: blocks => by
    simp only [List.map_cons, readBlocks, relocate_bind, relocate_pure, readBlock_relocate block,
      readBlocks_relocate blocks]

end

/-- The parts of a document are read alike at other lines. -/
theorem readParts_relocate (styles : List Style) (last : UInt32) (parts : List Part) :
    readParts styles last (parts.map (Part.relocate move)) =
      (readParts styles last parts : Reading (List Element)).relocate move := by
  induction parts generalizing styles last with
  | nil => rfl
  | cons part parts ih =>
    cases part with
    | block block =>
      simp only [List.map_cons, Part.relocate, readParts, relocate_bind, relocate_pure,
        readBlock_relocate, ih]
    | heading heading =>
      simp only [List.map_cons, Part.relocate, readParts, relocate_bind, relocate_pure,
        noteWidth_relocate, relocate_notes, ih, ← readText_relocate, apply_ite]
      rfl

theorem elementsOf_relocate (styles : List Style) (last : UInt32) (parts : List Part) :
    elementsOf styles last (parts.map (Part.relocate move)) = elementsOf styles last parts := by
  rw [elementsOf, readParts_relocate, value_relocate, elementsOf]

end RstPress.Document

import RstPress.Proofs.Extension.Outline

/-!
Blank lines at the end of a text do not show in its outline: what stands in front of them is read as if
the text ended there.
-/

namespace RstPress.Layout
open Text Source

theorem startsBlank_of_skipBlank_eq_nil {more : List Line} (blank : skipBlank more = []) :
    startsBlank more := by
  cases more with
  | nil => rfl
  | cons line more => exact List.dropWhile_eq_nil_iff.mp blank line List.mem_cons_self

theorem insetBlock_of_skipBlank_eq_nil {more : List Line} (blank : skipBlank more = []) :
    insetBlock more = [] := by
  rw [insetBlock_eq_nil_iff, blank]
  nofun

theorem announced_append_of_blank {more : List Line} (blank : skipBlank more = []) (previous : Nat)
    (lines : List Line) :
    (announced previous (lines ++ more)).1 = (announced previous lines).1 := by
  have bounded := insetBlock_of_skipBlank_eq_nil blank
  unfold announced
  cases found : skipBlank lines with
  | nil => simp [skipBlank_append_of_eq_nil found, blank]
  | cons next rest =>
    have longer : skipBlank (lines ++ more) = next :: (rest ++ more) := by
      rw [skipBlank_append_of_ne_nil (by simp [found]), found, List.cons_append]
    simp only [longer]
    rw [← List.cons_append, insetBlock_append (.inr bounded)]
    split <;> rfl

theorem Block.Alike.eq_of_ne {a b : Block} (alike : a.Alike b) (other : ∀ text, a ≠ .paragraph text) :
    a = b := by
  cases alike with
  | same => rfl
  | paragraph => exact absurd rfl (other _)

/-- Blank lines at the end change nothing of the piece in front of them. -/
theorem Piece.block_first_append_of_blank {line : Line} {rest more : List Line}
    (blank : skipBlank more = []) (filled : line.isBlank = false)
    (whole : skipBlank (Piece.first line rest).2 = []) :
    (Piece.first line (rest ++ more)).1.block = (Piece.first line rest).1.block ∧
      skipBlank (Piece.first line (rest ++ more)).2 = [] := by
  have separate := startsBlank_of_skipBlank_eq_nil blank
  have bounded := insetBlock_of_skipBlank_eq_nil blank
  have stays : ¬(Piece.first line rest).1.block.GoesOn more := by
    cases (Piece.first line rest).1.block <;> simp [Block.GoesOn, bounded, blank, startsDefinition]
  obtain ⟨alike, after⟩ := Piece.first_append_of_eq_nil separate filled whole stays
  refine ⟨?_, by rw [after, blank]⟩
  unfold Piece.first at alike ⊢
  rw [construct_append separate] at alike ⊢
  -- The line of a missing literal block is all that a paragraph could still take from what follows.
  cases kind : construct line rest with
  | paragraph =>
    simp only [Construct.take, Prod.map_fst, Piece.block_paragraph]
    rw [paragraph_append separate, Layout.paragraph]
    simp only [paragraphOf, interruption?_append separate]
    rw [apply_ite Prod.fst, apply_ite Prod.fst, announced_append_of_blank blank]
  | quote | transition | list | lineBlock | definitionList =>
    rw [kind] at alike
    exact (alike.eq_of_ne (by intro text; simp [Construct.take])).symm

/-- Blank lines at the end of a text do not show in its outline. -/
theorem outline_append_of_blank {more : List Line} (blank : skipBlank more = []) (lines : List Line) :
    outline (lines ++ more) = outline lines := by
  by_cases empty : skipBlank lines = []
  · rw [outline_append_of_skipBlank_eq_nil empty, outline_eq_nil_of_skipBlank blank,
      outline_eq_nil_of_skipBlank empty]
  · have separate := startsBlank_of_skipBlank_eq_nil blank
    obtain ⟨front, line, rest, filled, last, same, longer⟩ := outline_append separate empty
    rw [same, longer]
    rcases outline_of_isLast filled last with
      ⟨heading, after, found, ended, single⟩ | ⟨none, ended, single⟩
    · have extended := headingAt?_append_of_some separate found
      rw [single, outline_of_heading filled extended, outline_append_of_skipBlank_eq_nil ended,
        outline_eq_nil_of_skipBlank blank]
    · obtain ⟨block, after⟩ := Piece.block_first_append_of_blank blank filled ended
      rw [single, outline_of_piece filled (headingAt?_append_of_none separate none), block,
        outline_eq_nil_of_skipBlank after]

theorem outline_dropEndWhile (lines : List Line) :
    outline (dropEndWhile Line.isBlank lines) = outline lines := by
  have blank := skipBlank_ending lines
  conv => rhs; rw [← dropEndWhile_append_ending Line.isBlank lines, outline_append_of_blank blank]

end RstPress.Layout

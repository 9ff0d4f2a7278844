import RstPress.Proofs.Extension.Source
import RstPress.Proofs.Marker
import RstPress.Proofs.Places.Reading

/-!
Text below a blank line changes at most the last element above it. All elements above stay if the text
begins with a part of its own, whatever stands above: at the left margin, without a marker, and without
an indented line directly below, so that neither a list nor a quote nor a literal block goes on with it.
-/

namespace RstPress.Source
open Text

/-- The lines of a text below a blank line are its own, but for their numbers. -/
theorem exists_lines_stacked {gap : List Char} (blank : ∀ c ∈ gap, isBlank c) (tabWidth : Nat)
    (above below : List Char) :
    ∃ more move, startsBlank more ∧
      skipBlank more = (skipBlank (lines tabWidth below)).map (Line.relocate move) ∧
      lines tabWidth (stacked above gap below) = lines tabWidth above ++ more := by
  obtain ⟨empty, number, gone, separate, same⟩ := lines_stacked blank tabWidth above below
  obtain ⟨move, later⟩ := exists_lines_relocate tabWidth number below
  refine ⟨_, move, separate, ?_, same⟩
  rw [skipBlank_append_of_eq_nil gone, later, skipBlank_relocate]

end RstPress.Source

namespace RstPress.Layout
open Source

/-- The text does not go on with anything that may stand above it. -/
def BeginsAnew (lines : List Line) : Prop :=
  ∀ first rest, skipBlank lines = first :: rest →
    first.indent = 0 ∧ bullet? first.text = none ∧ enumeratorWidth? first.text = none ∧
      rest.head?.all fun next => next.isBlank || next.indent = 0

theorem beginsAnew_relocate (move : Nat → Nat) {lines : List Line} :
    BeginsAnew (lines.map (Line.relocate move)) ↔ BeginsAnew lines := by
  unfold BeginsAnew
  rw [skipBlank_relocate]
  cases skipBlank lines with
  | nil => simp
  | cons first rest =>
    constructor
    · rintro anew _ _ ⟨⟩
      have same := anew _ _ rfl
      cases rest <;> exact same
    · rintro anew _ _ ⟨⟩
      have same := anew _ _ rfl
      cases rest <;> exact same

/-- Nothing goes on with text that begins anew. -/
theorem not_goesOn_of_beginsAnew {more : List Line} (anew : BeginsAnew more) (block : Block) :
    ¬block.GoesOn more := by
  have bounded : insetBlock more = [] := by
    rw [insetBlock_eq_nil_iff]
    exact fun next rest found => (anew next rest found).1
  have noItem (marker : Marker) : (listItems marker (skipBlank more)).1 = [] := by
    cases found : skipBlank more with
    | nil => rw [listItems_nil]
    | cons first rest =>
      obtain ⟨_, noBullet, noEnumerator, _⟩ := anew first rest found
      rw [listItems_of_unmarked rest (at?_of_unmarked noBullet noEnumerator marker)]
  have noTerm : startsDefinition (skipBlank more) = false := by
    cases found : skipBlank more with
    | nil => rfl
    | cons first rest =>
      obtain ⟨_, _, _, below⟩ := anew first rest found
      cases rest with
      | nil => rfl
      | cons next rest =>
        simp only [List.head?_cons, Option.all_some, Bool.or_eq_true, decide_eq_true_eq] at below
        rcases below with blank | flush
        · simp [startsDefinition, blank]
        · simp [startsDefinition, flush]
  cases block with
  | quote | paragraph => simp [Block.GoesOn, bounded]
  | list marker => simp [Block.GoesOn, bounded, noItem]
  | definitionList => simp [Block.GoesOn, bounded, noTerm]
  | stray | transition | item | lineBlock | definition => simp [Block.GoesOn]

end RstPress.Layout

namespace RstPress.Document
open Layout Source Text RstPress.Tree

theorem dropLast_append_isPrefix {α : Type} {front back more : List α}
    (stays : back.dropLast <+: more) : (front ++ back).dropLast <+: front ++ more := by
  cases back with
  | nil =>
    rw [List.append_nil]
    exact (List.dropLast_prefix front).trans (List.prefix_append front more)
  | cons first back =>
    rw [List.dropLast_append_of_ne_nil (List.cons_ne_nil first back)]
    exact (List.prefix_append_right_inj front).mpr stays

theorem dropLast_readLiteral (literal : Announced) :
    (readLiteral literal : Reading (List Node)).value.dropLast = [] := by
  cases literal <;> rfl

/-- A block that is no paragraph is one node. -/
theorem dropLast_readBlock {block : Block} (other : ∀ text, block ≠ .paragraph text) :
    (readBlock block : Reading (List Node)).value.dropLast = [] := by
  cases block with
  | paragraph text => exact absurd rfl (other text)
  | stray | quote | transition | list | item | lineBlock | definitionList | definition =>
    simp only [readBlock, Reading.value_bind, Reading.value_pure, List.dropLast_singleton,
      List.dropLast_nil]

/-- More text changes at most the last node of a piece. -/
theorem dropLast_readBlock_first {more : List Line} (separate : startsBlank more) (line : Line)
    (rest : List Line) :
    (readBlock (Piece.first line rest).1.block : Reading (List Node)).value.dropLast <+:
      (readBlock (Piece.first line (rest ++ more)).1.block : Reading (List Node)).value := by
  unfold Piece.first
  rw [construct_append separate]
  cases construct line rest with
  | quote | transition | list | lineBlock | definitionList =>
    rw [dropLast_readBlock (by intro text; simp [Construct.take])]
    exact List.nil_prefix
  | paragraph =>
    simp only [Construct.take, Prod.map_fst, Piece.block_paragraph]
    rw [paragraph_append separate, paragraph]
    simp only [readBlock, readParagraph, Reading.value_bind, Reading.value_pure]
    refine dropLast_append_isPrefix ?_
    rw [dropLast_readLiteral]
    exact List.nil_prefix

/-- More text below a blank line changes at most the last element. -/
theorem dropLast_elementsOf_isPrefix {more : List Line} (separate : startsBlank more)
    (lines : List Line) :
    (elementsOf [] 0 (outline lines)).dropLast <+: elementsOf [] 0 (outline (lines ++ more)) := by
  by_cases blank : skipBlank lines = []
  · rw [outline_eq_nil_of_skipBlank blank]
    exact List.nil_prefix
  · obtain ⟨front, line, rest, filled, last, same, longer⟩ := outline_append separate blank
    rw [same, longer, elementsOf_append, elementsOf_append]
    apply dropLast_append_isPrefix
    rcases outline_of_isLast filled last with
      ⟨heading, after, found, empty, single⟩ | ⟨none, empty, single⟩
    · rw [single, elementsOf_heading]
      exact List.nil_prefix
    · rw [single, outline_of_piece filled (headingAt?_append_of_none separate none),
        elementsOf_block, elementsOf_block]
      have nothing (styles : List Style) (last : UInt32) : elementsOf styles last [] = [] := rfl
      rw [nothing, List.append_nil, ← List.map_dropLast]
      have nodes := dropLast_readBlock_first separate line rest
      exact (nodes.map Element.body).trans (List.prefix_append _ _)

/-- If the text begins anew, no element above changes. -/
theorem elementsOf_isPrefix_of_beginsAnew {more : List Line} (separate : startsBlank more)
    (anew : BeginsAnew more) (lines : List Line) :
    elementsOf [] 0 (outline lines) <+: elementsOf [] 0 (outline (lines ++ more)) := by
  obtain ⟨parts, alike, longer⟩ :=
    outline_append_of_stays separate fun block (_ : (outline lines).getLast? = some (.block block)) =>
      not_goesOn_of_beginsAnew anew block
  rw [longer, elementsOf_append, elementsOf_of_alike alike]
  exact List.prefix_append _ _

/-- Text below a blank line changes at most the last element of the text above it, and none if it begins
anew. -/
theorem elements_above_stay {options : ReadOptions} (lenient : options.strict = false)
    (above below : List Char) {gap : List Char} (blank : ∀ c ∈ gap, isBlank c) :
    ∃ before found,
      parse options (String.ofList above) = .ok (.composite .document before) ∧
      parse options (String.ofList (stacked above gap below)) = .ok (.composite .document found) ∧
      (flattenAll before).dropLast <+: flattenAll found ∧
      (BeginsAnew (lines options.tabWidth below) → flattenAll before <+: flattenAll found) := by
  obtain ⟨more, move, separate, placed, same⟩ :=
    exists_lines_stacked blank options.tabWidth above below
  refine ⟨_, _, parse_of_lenient options lenient _, parse_of_lenient options lenient _, ?_⟩
  simp only [flattenAll_sections_elementsOf, String.toList_ofList, same]
  refine ⟨dropLast_elementsOf_isPrefix separate _, fun anew => ?_⟩
  apply elementsOf_isPrefix_of_beginsAnew separate
  rwa [BeginsAnew, placed, ← skipBlank_relocate, ← BeginsAnew, beginsAnew_relocate]

/-- A paragraph below a list changes nothing of the list. -/
theorem elements_above_stay_list :
    ∃ before found,
      parse {} (String.ofList "- one\n\n- two".toList) = .ok (.composite .document before) ∧
      parse {} (String.ofList (stacked "- one\n\n- two".toList [] "text".toList)) =
        .ok (.composite .document found) ∧
      flattenAll before <+: flattenAll found := by
  have only : lines 8 "text".toList = [⟨0, "text".toList, 1⟩] := by decide
  have anew : BeginsAnew (lines 8 "text".toList) := by
    rw [only]
    rintro _ _ ⟨⟩
    exact ⟨rfl, by decide, by decide, rfl⟩
  have lenient : ({} : ReadOptions).strict = false := rfl
  obtain ⟨before, found, first, second, _, stay⟩ :=
    elements_above_stay lenient "- one\n\n- two".toList "text".toList (List.forall_mem_nil _)
  exact ⟨before, found, first, second, stay anew⟩

end RstPress.Document

import RstPress.Proofs.Extension.Outline
import RstPress.Proofs.Lines
import RstPress.Proofs.Sections

/-!
A source that is put together from others, with a blank line in between. Its elements are those of
the parts, read with the title styles seen before.
-/

namespace RstPress.Source
open Text

/-- The text with its last line ended. -/
def ended (text : List Char) : List Char :=
  if text = [] ∨ text.getLast? = some '\n' then text else text ++ ['\n']

/-- One text below another, with a blank line between them. -/
def stacked (above gap below : List Char) : List Char := ended above ++ (gap ++ '\n' :: below)

/-- Two texts with a blank line between them. Nothing has to be ended in front of the blank line if
there is no text above. -/
def apart (above gap below : List Char) : List Char :=
  (if above = [] then gap else above ++ '\n' :: gap) ++ '\n' :: below

/-- Ending a line that was not ended adds no line. -/
theorem splitLines_append_feed_of_open {text : List Char} (filled : text ≠ [])
    (unended : text.getLast? ≠ some '\n') : splitLines (text ++ ['\n']) = splitLines text := by
  induction text with
  | nil => exact absurd rfl filled
  | cons c text ih =>
    cases text with
    | nil =>
      have feed : c ≠ '\n' := fun same => unended (by rw [same]; rfl)
      simp [splitLines, feed]
    | cons d text =>
      rw [List.getLast?_cons_cons] at unended
      rw [List.cons_append, splitLines, splitLines, ih (List.cons_ne_nil d text) unended]

theorem splitLines_ended_append (above more : List Char) :
    splitLines (ended above ++ more) = splitLines above ++ splitLines more := by
  unfold ended
  split
  · rename_i closed
    rcases closed with rfl | last
    · rfl
    · obtain ⟨front, rfl⟩ : ∃ front, above = front ++ ['\n'] :=
        ⟨above.dropLast, (List.dropLast_append_getLast? '\n' last).symm⟩
      rw [List.append_assoc, List.singleton_append, splitLines_append_feed]
  · rename_i unended
    rw [not_or] at unended
    rw [List.append_assoc, List.singleton_append, splitLines_append_feed,
      splitLines_append_feed_of_open unended.1 unended.2]

theorem linesFrom_gap {gap : List Char} (blank : ∀ c ∈ gap, isBlank c) (tabWidth number : Nat)
    (below : List Char) :
    ∃ empty next, skipBlank empty = [] ∧ empty ≠ [] ∧
      linesFrom tabWidth number (gap ++ '\n' :: below) =
        empty ++ linesFrom tabWidth next below := by
  obtain ⟨next, same⟩ := linesFrom_append_feed tabWidth number gap below
  refine ⟨linesFrom tabWidth number (gap ++ ['\n']), next, ?_, fun none => ?_, same⟩
  · refine skipBlank_linesFrom_of_isBlank (fun c member => ?_) _ _
    rcases List.mem_append.mp member with inside | feed
    · exact blank c inside
    · rw [List.mem_singleton.mp feed]
      decide
  · cases found : splitLines (gap ++ ['\n']) with
    | nil => exact splitLines_ne_nil (by simp) found
    | cons line others =>
      rw [linesFrom, found] at none
      exact absurd none (List.cons_ne_nil _ _)

theorem lines_stacked {gap : List Char} (blank : ∀ c ∈ gap, isBlank c) (tabWidth : Nat)
    (above below : List Char) :
    ∃ empty number, skipBlank empty = [] ∧ startsBlank (empty ++ linesFrom tabWidth number below) ∧
      lines tabWidth (stacked above gap below) =
        lines tabWidth above ++ (empty ++ linesFrom tabWidth number below) := by
  obtain ⟨empty, number, gone, filled, same⟩ :=
    linesFrom_gap blank tabWidth (1 + (splitLines above).length) below
  refine ⟨empty, number, gone, ?_, ?_⟩
  · obtain ⟨line, others, rfl⟩ := List.exists_cons_of_ne_nil filled
    exact skipBlank_eq_nil_iff.mp gone line List.mem_cons_self
  · rw [← same, stacked, lines, splitLines_ended_append, List.map_append, numberFrom_append,
      List.length_map]
    rfl

/-- If the text above ends in a line feed, the line feed after it makes a blank line of its own. -/
theorem exists_stacked_eq_apart {gap : List Char} (blank : ∀ c ∈ gap, isBlank c)
    (above below : List Char) :
    ∃ between, (∀ c ∈ between, isBlank c) ∧ apart above gap below = stacked above between below := by
  by_cases bare : above = []
  · exact ⟨gap, blank, by simp [apart, stacked, ended, bare]⟩
  · by_cases closed : above.getLast? = some '\n'
    · refine ⟨'\n' :: gap, List.forall_mem_cons.mpr ⟨by decide, blank⟩, ?_⟩
      simp [apart, stacked, ended, bare, closed]
    · exact ⟨gap, blank, by simp [apart, stacked, ended, bare, closed]⟩

theorem lines_apart {gap : List Char} (blank : ∀ c ∈ gap, isBlank c) (tabWidth : Nat)
    (above below : List Char) :
    ∃ empty number, skipBlank empty = [] ∧ startsBlank (empty ++ linesFrom tabWidth number below) ∧
      lines tabWidth (apart above gap below) =
        lines tabWidth above ++ (empty ++ linesFrom tabWidth number below) := by
  obtain ⟨between, none, same⟩ := exists_stacked_eq_apart blank above below
  rw [same]
  exact lines_stacked none tabWidth above below

end RstPress.Source

namespace RstPress.Document
open Layout Source RstPress.Tree

/-- The title styles and the last depth after some parts of a document. -/
def levels (styles : List Style) (last : UInt32) : List Part → List Style × UInt32
  | [] => (styles, last)
  | .block _ :: parts => levels styles last parts
  | .heading heading :: parts =>
    levels (depthOf styles heading.style).2 (depthOf styles heading.style).1 parts

theorem elementsOf_append (styles : List Style) (last : UInt32) (front back : List Part) :
    elementsOf styles last (front ++ back) =
      elementsOf styles last front ++
        elementsOf (levels styles last front).1 (levels styles last front).2 back := by
  induction front generalizing styles last with
  | nil => rfl
  | cons part front ih =>
    cases part with
    | block block =>
      rw [List.cons_append, elementsOf_block, elementsOf_block, ih, List.append_assoc, levels]
    | heading heading =>
      rw [List.cons_append, elementsOf_heading, elementsOf_heading, ih, levels]
      rfl

theorem value_readBlock_of_alike {a b : Block} (alike : a.Alike b) :
    (readBlock a : Reading (List Node)).value = (readBlock b : Reading (List Node)).value := by
  cases alike with
  | same => rfl
  | @paragraph text literal alike =>
    obtain ⟨line, shown, interrupted, found⟩ := text
    cases alike with
    | same => rfl
    | missing =>
      simp only [readBlock, readParagraph, readParagraphText, readLiteral, Reading.value_bind,
        Reading.value_pure]

/-- The line at which a literal block is missing does not show in the elements. -/
theorem elementsOf_of_alike {parts others : List Part}
    (alike : List.Forall₂ Part.Alike parts others) (styles : List Style) (last : UInt32) :
    elementsOf styles last parts = elementsOf styles last others := by
  induction alike generalizing styles last with
  | nil => rfl
  | @cons a b parts others here _ ih =>
    cases here with
    | same =>
      cases a with
      | block block => rw [elementsOf_block, elementsOf_block, ih]
      | heading heading => rw [elementsOf_heading, elementsOf_heading, ih]
    | block here => rw [elementsOf_block, elementsOf_block, ih, value_readBlock_of_alike here]

end RstPress.Document

import RstPress.Press
import RstPress.Proofs.Nesting.Stack

/-!
The elements of a document, read in spite of all problems. Nesting them into sections keeps them:
the flat form of the sections gives them back. This needs that no body node is a section itself, and
reading a block never makes one.
-/

namespace RstPress.Document
open Layout Source RstPress.Tree

/-- The flat form of a body node is this node. -/
def Element.IsPlain : Element → Prop
  | .title _ _ => True
  | .body node => flatten node = [.body node]

theorem flattenAll_sections {elements : List Element}
    (plain : ∀ element ∈ elements, element.IsPlain) :
    flattenAll (sections elements) = elements := by
  fun_induction sections elements with
  | case1 => rfl
  | case2 node elements ih =>
    have here : flatten node = [.body node] := plain _ List.mem_cons_self
    rw [flattenAll, here, ih fun element member => plain element (List.mem_cons_of_mem _ member)]
    rfl
  | case3 depth content elements inside after =>
    have kept (element : Element) (member : element ∈ elements) : element.IsPlain :=
      plain element (List.mem_cons_of_mem _ member)
    rw [flattenAll, flatten,
      inside fun element member => kept element ((List.takeWhile_sublist _).subset member),
      after fun element member => kept element ((List.dropWhile_sublist _).subset member),
      List.cons_append, List.takeWhile_append_dropWhile]

theorem flatten_of_mem_readBlock (block : Block) :
    ∀ node ∈ (readBlock block : Reading (List Node)).value, flatten node = [.body node] := by
  intro node member
  cases block with
  | paragraph text =>
    simp only [readBlock, readParagraph, Reading.value_bind, Reading.value_pure,
      List.mem_append] at member
    rcases member with shown | literal
    · unfold readParagraphText at shown
      split at shown
      · simp at shown
      · simp only [Reading.value_bind, Reading.value_pure, List.mem_singleton] at shown
        rw [shown, flatten]
        simp
    · cases found : text.literal with
      | block =>
        simp only [found, readLiteral, Reading.value_pure, List.mem_singleton] at literal
        rw [literal, flatten]
        simp
      | nothing | missing =>
        simp only [found, readLiteral, Reading.value_bind, Reading.value_pure,
          List.not_mem_nil] at literal
  | stray heading =>
    simp only [readBlock, Reading.value_bind, Reading.value_pure, List.not_mem_nil] at member
  | quote | transition | list | item | lineBlock | definitionList | definition =>
    simp only [readBlock, Reading.value_bind, Reading.value_pure, List.mem_singleton] at member
    rw [member, flatten]
    simp

theorem isPlain_of_mem_readParts (styles : List Style) (last : UInt32) (parts : List Part) :
    ∀ element ∈ (readParts styles last parts : Reading (List Element)).value, element.IsPlain := by
  induction parts generalizing styles last with
  | nil => simp [readParts]
  | cons part parts ih =>
    intro element member
    cases part with
    | heading heading =>
      simp only [readParts, Reading.value_bind, Reading.value_pure, List.mem_cons] at member
      rcases member with rfl | later
      · trivial
      · exact ih _ _ element later
    | block block =>
      simp only [readParts, Reading.value_bind, Reading.value_pure, List.mem_append,
        List.mem_map] at member
      rcases member with ⟨node, here, rfl⟩ | later
      · exact flatten_of_mem_readBlock block node here
      · exact ih _ _ element later

/-- The elements of some parts, read in spite of all problems. -/
def elementsOf (styles : List Style) (last : UInt32) (parts : List Part) : List Element :=
  (readParts styles last parts : Reading (List Element)).value

theorem elementsOf_block (styles : List Style) (last : UInt32) (block : Block) (parts : List Part) :
    elementsOf styles last (.block block :: parts) =
      (readBlock block : Reading (List Node)).value.map .body ++ elementsOf styles last parts := by
  simp only [elementsOf, readParts, Reading.value_bind, Reading.value_pure]

theorem elementsOf_heading (styles : List Style) (last : UInt32) (heading : Heading)
    (parts : List Part) :
    elementsOf styles last (.heading heading :: parts) =
      .title (depthOf styles heading.style).1 (Inline.nodes heading.text) ::
        elementsOf (depthOf styles heading.style).2 (depthOf styles heading.style).1 parts := by
  simp only [elementsOf, readParts, readText, Reading.value_bind, Reading.value_pure, Inline.nodes]

theorem flattenAll_sections_elementsOf (styles : List Style) (last : UInt32) (parts : List Part) :
    flattenAll (sections (elementsOf styles last parts)) = elementsOf styles last parts :=
  flattenAll_sections (isPlain_of_mem_readParts styles last parts)

/-- Lenient reading gives the sections of the elements of the outline. -/
theorem parse_of_lenient (options : ReadOptions) (lenient : options.strict = false)
    (source : String) :
    parse options source = .ok (.composite .document
      (sections (elementsOf [] 0 (outline (lines options.tabWidth source.toList))))) := by
  simp only [parse, lenient, Bool.false_eq_true, if_false, read, nestSections_eq, readElements,
    Reading.value_bind, Reading.value_pure, elementsOf]

end RstPress.Document

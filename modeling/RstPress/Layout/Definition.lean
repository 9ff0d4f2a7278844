import RstPress.Source.Inset

/-!
A definition is a term on a line of its own and, directly below it, an inset block.
-/

namespace RstPress.Layout
open Source

/-- Whether the lines begin with a term at the left margin and an indented line below it. -/
def startsDefinition : List Line → Bool
  | term :: next :: _ => !term.isBlank && term.indent = 0 && !next.isBlank && decide (0 < next.indent)
  | _ => false

/-- Takes terms with their definitions from the front of the lines; blank lines may stand between
them. -/
def definitions : List Line → List (Line × List Line) × List Line
  | [] => ([], [])
  | term :: rest =>
    if startsDefinition (term :: rest) then
      let (items, remaining) := definitions (skipBlank (afterInset rest))
      ((term, dedentBlock (insetBlock rest)) :: items, remaining)
    else ([], term :: rest)
termination_by lines => lines.length
decreasing_by
  have first := length_skipBlank_le (afterInset rest)
  have second := length_afterInset_le rest
  simp only [List.length_cons]
  omega

@[simp] theorem definitions_nil : definitions [] = ([], []) := by rw [definitions]

theorem definitions_of_starts {term : Line} {rest : List Line} (starts : startsDefinition (term :: rest)) :
    definitions (term :: rest) =
      ((term, dedentBlock (insetBlock rest)) :: (definitions (skipBlank (afterInset rest))).1,
        (definitions (skipBlank (afterInset rest))).2) := by
  rw [definitions, if_pos starts]

theorem definitions_of_not_starts {term : Line} {rest : List Line}
    (ends : startsDefinition (term :: rest) = false) : definitions (term :: rest) = ([], term :: rest) := by
  rw [definitions, if_neg (by simp [ends])]

/-- Every definition is lighter than the lines that hold the list, and so are the lines after the
list, provided that the list has an item. -/
theorem weight_definitions (lines : List Line) :
    (∀ item ∈ (definitions lines).1, weight item.2 < weight lines) ∧
      weight (definitions lines).2 ≤ weight lines ∧
      ((definitions lines).1 ≠ [] → weight (definitions lines).2 < weight lines) := by
  fun_induction definitions lines with
  | case1 => simp
  | case2 term rest starts items remaining taken ih =>
    have here := weight_dedentBlock_le (insetBlock rest)
    have parts := weight_afterInset rest
    have skipped := weight_skipBlank_le (afterInset rest)
    have heavy : 0 < term.weight := by simp [Line.weight]
    simp only [taken] at ih
    simp only [weight_cons, List.mem_cons]
    refine ⟨?_, by omega, fun _ => by omega⟩
    rintro item (rfl | later)
    · simp only
      omega
    · have lighter := ih.1 item later
      omega
  | case3 term rest starts => simp

theorem definitions_ne_nil {lines : List Line} (starts : startsDefinition lines) :
    (definitions lines).1 ≠ [] := by
  cases lines with
  | nil => simp [startsDefinition] at starts
  | cons term rest =>
    rw [definitions_of_starts starts]
    exact List.cons_ne_nil _ _

end RstPress.Layout

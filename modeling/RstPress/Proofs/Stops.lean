import RstPress.Layout.Block

/-!
Where things begin. The arrangement of a text passes over blank lines and stops at each line at which
something begins: a heading, if the text is a document, or else a piece. The stops keep the lines above
them, so what surrounds a part of a text can be told, and with the bodies that are nested in them they
lead to every text that is arranged on the way.
-/

namespace RstPress.Source

theorem afterInset_suffix (lines : List Line) : afterInset lines <:+ lines := List.drop_suffix _ _

theorem skipBlank_suffix (lines : List Line) : skipBlank lines <:+ lines := List.dropWhile_suffix _

end RstPress.Source

namespace RstPress.Layout
open Source

theorem listItems_suffix (marker : Marker) (lines : List Line) : (listItems marker lines).2 <:+ lines := by
  fun_induction listItems marker lines with
  | case1 => exact List.suffix_refl _
  | case2 line rest unmarked => exact List.suffix_refl _
  | case3 line rest width marked items remaining taken ih =>
    rw [taken] at ih
    exact ((ih.trans (skipBlank_suffix _)).trans (afterInset_suffix rest)).trans (List.suffix_cons line rest)

theorem definitions_suffix (lines : List Line) : (definitions lines).2 <:+ lines := by
  fun_induction definitions lines with
  | case1 => exact List.suffix_refl _
  | case2 term rest starts items remaining taken ih =>
    rw [taken] at ih
    exact ((ih.trans (skipBlank_suffix _)).trans (afterInset_suffix rest)).trans (List.suffix_cons term rest)
  | case3 term rest ends => exact List.suffix_refl _

/-- A suffix that is lighter than the whole leaves out the first line. -/
theorem suffix_of_weight_lt {line : Line} {rest kept : List Line} (suffix : kept <:+ line :: rest)
    (lighter : weight kept < weight (line :: rest)) : kept <:+ rest := by
  rcases List.suffix_cons_iff.mp suffix with rfl | shorter
  · exact absurd lighter (Nat.lt_irrefl _)
  · exact shorter

theorem Construct.take_suffix (line : Line) (rest : List Line) (construct : Construct) :
    (construct.take line rest).2 <:+ line :: rest := by
  have later := List.suffix_cons line rest
  cases construct with
  | quote => exact afterInset_suffix _
  | transition => exact later
  | list marker => exact listItems_suffix marker _
  | lineBlock => exact entries_suffix 0 _
  | definitionList => exact definitions_suffix _
  | paragraph => exact (paragraph_suffix line rest).trans later

theorem Piece.first_suffix {line : Line} (rest : List Line) (filled : line.isBlank = false) :
    (Piece.first line rest).2 <:+ rest :=
  suffix_of_weight_lt (Construct.take_suffix line rest _) (Piece.weight_first rest filled).2

/-- A line at which something begins, between the lines above it and those below it. -/
structure Stop where
  above : List Line
  line : Line
  below : List Line
deriving DecidableEq

namespace Stop

/-- The heading that opens a section here, and the lines after it. Only a document has sections. -/
def opens? (top : Bool) (stop : Stop) : Option (Heading × List Line) :=
  if top then headingAt? stop.line stop.below else none

/-- The piece that begins here if no section does. -/
def piece (stop : Stop) : Piece := (Piece.first stop.line stop.below).1

/-- The lines after what begins here. -/
def after (top : Bool) (stop : Stop) : List Line :=
  match stop.opens? top with
  | some (_, after) => after
  | none => (Piece.first stop.line stop.below).2

/-- The lines of what begins here, and the blank lines that go with it. -/
def taken (top : Bool) (stop : Stop) : List Line :=
  (stop.line :: stop.below).take ((stop.line :: stop.below).length - (stop.after top).length)

/-- The texts that are nested in what begins here. -/
def bodies (top : Bool) (stop : Stop) : List (List Line) :=
  match stop.opens? top with
  | some _ => []
  | none => stop.piece.bodies

/-- The parts that this stop adds. In a nested body a heading is remembered as a stray one. -/
def parts (top : Bool) (stop : Stop) : List Part :=
  match stop.opens? top with
  | some (heading, _) => [.heading heading]
  | none =>
    (if top then [] else (strays stop.line stop.below).map .block) ++ [.block stop.piece.block]

theorem after_suffix (top : Bool) {stop : Stop} (filled : stop.line.isBlank = false) :
    stop.after top <:+ stop.below := by
  unfold after
  split
  · rename_i heading after found
    exact headingAt?_suffix (Option.ite_none_right_eq_some.mp found).2
  · exact Piece.first_suffix stop.below filled

theorem taken_append_after (top : Bool) {stop : Stop} (filled : stop.line.isBlank = false) :
    stop.taken top ++ stop.after top = stop.line :: stop.below := by
  have suffix := (after_suffix top filled).trans (List.suffix_cons stop.line stop.below)
  conv => lhs; rw [List.suffix_iff_eq_drop.mp suffix]
  exact List.take_append_drop _ _

end Stop

/-- The stops of a text below the lines above it. A document is arranged from its `top` on. -/
def stops (top : Bool) (above : List Line) : List Line → List Stop
  | [] => []
  | line :: rest =>
    if _blank : line.isBlank then stops top (above ++ [line]) rest
    else
      let stop : Stop := ⟨above, line, rest⟩
      stop :: stops top (above ++ stop.taken top) (stop.after top)
termination_by lines => weight lines
decreasing_by
  · exact weight_lt_of_suffix (List.suffix_refl rest)
  · exact weight_lt_of_suffix (Stop.after_suffix top (by simpa using _blank))

/-- The parts of a document, or of a nested body. -/
def partsOf (top : Bool) (lines : List Line) : List Part :=
  if top then outline lines else (arrange lines).map .block

theorem stops_of_filled {line : Line} (top : Bool) (above rest : List Line)
    (filled : line.isBlank = false) :
    stops top above (line :: rest) =
      ⟨above, line, rest⟩ ::
        stops top (above ++ (⟨above, line, rest⟩ : Stop).taken top) ((⟨above, line, rest⟩ : Stop).after top) := by
  rw [stops, dif_neg (by simp [filled])]

theorem partsOf_of_blank {line : Line} (top : Bool) (rest : List Line) (blank : line.isBlank) :
    partsOf top (line :: rest) = partsOf top rest := by
  rw [partsOf, partsOf, outline_of_blank rest blank, arrange_of_blank rest blank]

theorem partsOf_of_filled {stop : Stop} (top : Bool) (filled : stop.line.isBlank = false) :
    partsOf top (stop.line :: stop.below) = stop.parts top ++ partsOf top (stop.after top) := by
  cases top with
  | false =>
    show (arrange _).map Part.block = _
    rw [arrange_of_filled stop.below filled, List.map_append, List.map_cons]
    exact List.append_cons ..
  | true =>
    show outline _ = stop.parts true ++ outline (stop.after true)
    have here : stop.opens? true = headingAt? stop.line stop.below := rfl
    unfold Stop.parts Stop.after
    rw [here]
    cases found : headingAt? stop.line stop.below with
    | some heading => exact outline_of_heading filled found
    | none => exact outline_of_piece filled found

/-- The parts of a text are those that its stops add, in order. -/
theorem partsOf_eq_flatMap (top : Bool) (above lines : List Line) :
    partsOf top lines = (stops top above lines).flatMap (Stop.parts top) := by
  fun_induction stops top above lines with
  | case1 above => cases top <;> simp [partsOf]
  | case2 above line rest blank ih => rw [partsOf_of_blank top rest blank, ih]
  | case3 above line rest visible stop ih =>
    rw [List.flatMap_cons, ← ih]
    have filled : stop.line.isBlank = false := by simpa using visible
    exact partsOf_of_filled top filled

/-- A stop stands in its text, on a line that is not blank. -/
theorem whole_of_mem_stops {top : Bool} {above lines : List Line} {stop : Stop}
    (member : stop ∈ stops top above lines) :
    stop.above ++ stop.line :: stop.below = above ++ lines ∧ stop.line.isBlank = false := by
  fun_induction stops top above lines with
  | case1 => cases member
  | case2 above line rest blank ih =>
    obtain ⟨whole, filled⟩ := ih member
    exact ⟨by rw [whole, List.append_assoc, List.singleton_append], filled⟩
  | case3 above line rest visible first ih =>
    have filled : line.isBlank = false := by simpa using visible
    rcases List.mem_cons.mp member with rfl | later
    · exact ⟨rfl, filled⟩
    · obtain ⟨whole, shown⟩ := ih later
      exact ⟨by rw [whole, List.append_assoc, Stop.taken_append_after top filled], shown⟩

/-- What begins at a stop takes its first line. -/
theorem Stop.taken_ne_nil (top : Bool) {stop : Stop} (filled : stop.line.isBlank = false) :
    stop.taken top ≠ [] := by
  intro none
  have whole := taken_append_after top filled
  rw [none, List.nil_append] at whole
  have shorter := (after_suffix top filled).length_le
  rw [whole, List.length_cons] at shorter
  omega

/-- Between a stop and the one before it, or the beginning of the text, there are blank lines only. -/
theorem exists_previous_of_mem_stops {top : Bool} {above lines : List Line} {stop : Stop}
    (member : stop ∈ stops top above lines) :
    ∃ blanks : List Line, (∀ line ∈ blanks, line.isBlank) ∧
      (stop.above = above ++ blanks ∨
        ∃ previous ∈ stops top above lines,
          stop.above = previous.above ++ previous.taken top ++ blanks) := by
  fun_induction stops top above lines with
  | case1 => cases member
  | case2 above line rest blank ih =>
    obtain ⟨blanks, quiet, place⟩ := ih member
    rcases place with first | later
    · refine ⟨line :: blanks, List.forall_mem_cons.mpr ⟨blank, quiet⟩, .inl ?_⟩
      rw [first, List.append_assoc, List.singleton_append]
    · exact ⟨blanks, quiet, .inr later⟩
  | case3 above line rest visible own ih =>
    rcases List.mem_cons.mp member with rfl | behind
    · exact ⟨[], List.forall_mem_nil _, .inl (List.append_nil _).symm⟩
    · obtain ⟨blanks, quiet, place⟩ := ih behind
      rcases place with next | ⟨previous, inside, same⟩
      · exact ⟨blanks, quiet, .inr ⟨own, List.mem_cons_self, next⟩⟩
      · exact ⟨blanks, quiet, .inr ⟨previous, List.mem_cons_of_mem _ inside, same⟩⟩

/-- The texts that are arranged in the course of arranging a document: the document itself, and all
bodies that are nested in such a text. -/
inductive IsArranged (document : List Line) : Bool → List Line → Prop where
  | document : IsArranged document true document
  | body {top : Bool} {lines body : List Line} {stop : Stop} (within : IsArranged document top lines)
    (member : stop ∈ stops top [] lines) (nested : body ∈ stop.bodies top) :
    IsArranged document false body

/-- The bodies at a stop are those of its piece. -/
theorem Stop.mem_bodies {top : Bool} {stop : Stop} {body : List Line} (nested : body ∈ stop.bodies top) :
    body ∈ stop.piece.bodies := by
  unfold bodies at nested
  split at nested
  · cases nested
  · exact nested

end RstPress.Layout

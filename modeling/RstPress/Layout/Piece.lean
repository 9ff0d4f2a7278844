import RstPress.Layout.Heading
import RstPress.Layout.Item
import RstPress.Layout.Definition
import RstPress.Layout.LineBlock
import RstPress.Layout.Paragraph

/-!
The first piece of a text: which construct begins on a line, and which lines belong to it. The lines of
nested bodies are cut out but not looked into. Headings are not pieces, since they stand only where the
surrounding text allows them.
-/

namespace RstPress.Layout
open Source

/-- A construct of the text. Its nested bodies are lines still to be read. -/
inductive Piece where
  | quote (body : List Line)
  | transition
  | list (marker : Marker) (items : List (List Line))
  | lineBlock (entries : List Entry)
  | definitionList (items : List (Line × List Line))
  | paragraph (text : Paragraph)

def Piece.bodies : Piece → List (List Line)
  | .quote body => [body]
  | .list _ items => items
  | .definitionList items => items.map Prod.snd
  | .transition | .lineBlock _ | .paragraph _ => []

/-- A transition is a long enough adornment with nothing directly below it. -/
def startsTransition (line : Line) (rest : List Line) : Bool :=
  (adornment? line.text).isSome && adornmentWidth ≤ line.width && (rest.head?.all Line.isBlank)

/-- An enumerator begins a list only if the next line is blank, indented or begins an item too. -/
def startsEnumeration (line : Line) (rest : List Line) : Bool :=
  (enumeratorWidth? line.text).isSome && rest.head?.all fun next =>
    next.isBlank || decide (0 < next.indent) || (enumeratorWidth? next.text).isSome

/-- The marker of the list that begins here, if one does. -/
def listMarker? (line : Line) (rest : List Line) : Option Marker :=
  match bullet? line.text with
  | some marker => some marker
  | none => if startsEnumeration line rest then some .enumerator else none

/-- The kinds of constructs, in the order in which they are tried. -/
inductive Construct where
  | quote
  | transition
  | list (marker : Marker)
  | lineBlock
  | definitionList
  | paragraph
deriving DecidableEq, Repr

/-- The construct that begins on a line that is not blank. -/
def construct (line : Line) (rest : List Line) : Construct :=
  if 0 < line.indent then .quote
  else if startsTransition line rest then .transition
  else match listMarker? line rest with
  | some marker => .list marker
  | none =>
    if (barContent? line.text).isSome then .lineBlock
    else if startsDefinition (line :: rest) then .definitionList
    else .paragraph

/-- Takes a construct from the front of the lines. -/
def Construct.take (line : Line) (rest : List Line) : Construct → Piece × List Line
  | .quote => (.quote (dedentBlock (insetBlock (line :: rest))), afterInset (line :: rest))
  | .transition => (.transition, rest)
  | .list marker => (listItems marker (line :: rest)).map (.list marker) id
  | .lineBlock => (entries 0 (line :: rest)).map .lineBlock id
  | .definitionList => (definitions (line :: rest)).map .definitionList id
  | .paragraph => (Layout.paragraph line rest).map .paragraph id

/-- The piece that begins on a line that is not blank, and the lines after it. -/
def Piece.first (line : Line) (rest : List Line) : Piece × List Line :=
  (construct line rest).take line rest

theorem listMarker?_width {line : Line} {rest : List Line} {marker : Marker}
    (found : listMarker? line rest = some marker) : (marker.width? line.text).isSome := by
  unfold listMarker? at found
  split at found
  · rename_i bullet marked
    rw [← Option.some.inj found]
    unfold bullet? at marked
    split at marked
    · simp at marked
    · rename_i c after same
      rw [Option.ite_none_right_eq_some] at marked
      rw [← Option.some.inj marked.2]
      exact marked.1
  · rw [Option.ite_none_right_eq_some] at found
    rw [← Option.some.inj found.2]
    cases same : line.text with
    | nil => simp [startsEnumeration, enumeratorWidth?, same] at found
    | cons c text =>
      have starts := found.1
      simp only [startsEnumeration, same, Bool.and_eq_true] at starts
      exact starts.1

/-- What a construct needs of the line on which it begins. -/
inductive Construct.Begins (line : Line) (rest : List Line) : Construct → Prop where
  | quote (inset : 0 < line.indent) : Begins line rest .quote
  | transition (flush : line.indent = 0) (starts : startsTransition line rest) : Begins line rest .transition
  | list {marker : Marker} (marked : (marker.at? line).isSome) : Begins line rest (.list marker)
  | lineBlock (barred : (barAt? line).isSome) : Begins line rest .lineBlock
  | definitionList (starts : startsDefinition (line :: rest)) : Begins line rest .definitionList
  | paragraph (flush : line.indent = 0) : Begins line rest .paragraph

theorem construct_begins (line : Line) (rest : List Line) :
    Construct.Begins line rest (construct line rest) := by
  unfold construct
  split
  · rename_i inset
    exact .quote inset
  · rename_i deep
    have flush : line.indent = 0 := by omega
    split
    · rename_i starts
      exact .transition flush starts
    · split
      · rename_i marker found
        exact .list (by simpa [Marker.at?, flush] using listMarker?_width found)
      · split
        · rename_i barred
          exact .lineBlock (by simpa [barAt?, flush] using barred)
        · split
          · rename_i starts
            exact .definitionList starts
          · exact .paragraph flush

/-- The bodies of a construct, and the lines after it, are lighter than the lines they are taken from. -/
theorem Construct.weight_take {line : Line} (rest : List Line) (filled : line.isBlank = false)
    {construct : Construct} (begins : construct.Begins line rest) :
    (∀ body ∈ (construct.take line rest).1.bodies, weight body < weight (line :: rest)) ∧
      weight (construct.take line rest).2 < weight (line :: rest) := by
  have lighter {kept : List Line} (suffix : kept <:+ rest) : weight kept < weight (line :: rest) :=
    weight_lt_of_suffix suffix
  cases begins with
  | quote inset =>
    have parts := weight_afterInset (line :: rest)
    have moved := weight_dedentBlock_lt rest filled inset
    simp only [take, Piece.bodies, List.mem_singleton, forall_eq]
    omega
  | transition => exact ⟨by simp [take, Piece.bodies], lighter (List.suffix_refl _)⟩
  | @list marker marked =>
    have taken := weight_listItems marker (line :: rest)
    exact ⟨taken.1, taken.2.2 (listItems_ne_nil marked)⟩
  | lineBlock barred => exact ⟨by simp [take, Piece.bodies], lighter (entries_suffix_of_isSome barred)⟩
  | definitionList starts =>
    have taken := weight_definitions (line :: rest)
    refine ⟨fun body member => ?_, taken.2.2 (definitions_ne_nil starts)⟩
    obtain ⟨item, present, rfl⟩ := List.mem_map.mp member
    exact taken.1 item present
  | paragraph => exact ⟨by simp [take, Piece.bodies], lighter (paragraph_suffix line rest)⟩

theorem Piece.weight_first {line : Line} (rest : List Line) (filled : line.isBlank = false) :
    (∀ body ∈ (Piece.first line rest).1.bodies, weight body < weight (line :: rest)) ∧
      weight (Piece.first line rest).2 < weight (line :: rest) :=
  Construct.weight_take rest filled (construct_begins line rest)

end RstPress.Layout

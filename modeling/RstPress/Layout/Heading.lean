import RstPress.Text.Punctuation
import RstPress.Source.Line

/-!
A title is recognised by its adornment: a line that repeats one punctuation character below it, or such
lines above and below it. Whether a title may stand at this place is decided elsewhere.
-/

namespace RstPress.Layout
open Text Source

/-- The character of which the text is made, if that is one punctuation character repeated. -/
def adornment? (text : List Char) : Option Char :=
  match text with
  | [] => none
  | mark :: others => if isPunctuation mark && others.all (· = mark) then some mark else none

/-- Titles of one style have one level. -/
structure Style where
  mark : Char
  overlined : Bool
deriving DecidableEq, Repr

/-- A title with its adornment. It `fits` if no line of the adornment is shorter than the title. -/
structure Heading where
  text : List Char
  style : Style
  line : Nat
  fits : Bool
deriving DecidableEq, Repr

/-- The length from which on a line is an adornment or a transition for its length alone. -/
def adornmentWidth : Nat := 4

/-- A title between two equal lines of adornment, indented or not, and the lines after it. -/
def overlined? : List Line → Option (Heading × List Line)
  | above :: title :: below :: rest =>
    match adornment? above.text with
    | none => none
    | some mark =>
      if !title.isBlank && below.indent = 0 && adornment? below.text = some mark
          && adornment? title.text ≠ some mark then
        some (⟨title.text, ⟨mark, true⟩, title.number,
          title.width ≤ above.width && title.width ≤ below.width⟩, rest)
      else none
  | _ => none

/-- A title above its adornment, and the lines after it. An adornment shorter than the title is
accepted from four characters on. -/
def underlined? : List Line → Option (Heading × List Line)
  | title :: below :: rest =>
    match adornment? below.text with
    | none => none
    | some mark =>
      if below.indent = 0 && adornment? title.text = none
          && (title.width ≤ below.width || adornmentWidth ≤ below.width) then
        some (⟨title.text, ⟨mark, false⟩, title.number, title.width ≤ below.width⟩, rest)
      else none
  | _ => none

/-- The heading in front of the lines, if there is one, and the lines after it. -/
def heading? (lines : List Line) : Option (Heading × List Line) :=
  (overlined? lines).or (underlined? lines)

theorem overlined?_rest {lines rest : List Line} {heading : Heading}
    (found : overlined? lines = some (heading, rest)) :
    ∃ above title below, lines = above :: title :: below :: rest := by
  unfold overlined? at found
  split at found
  · split at found
    · simp at found
    · split at found
      · simp only [Option.some.injEq, Prod.mk.injEq] at found
        exact ⟨_, _, _, by rw [found.2]⟩
      · simp at found
  · simp at found

theorem underlined?_rest {lines rest : List Line} {heading : Heading}
    (found : underlined? lines = some (heading, rest)) : ∃ title below, lines = title :: below :: rest := by
  unfold underlined? at found
  split at found
  · split at found
    · simp at found
    · split at found
      · simp only [Option.some.injEq, Prod.mk.injEq] at found
        exact ⟨_, _, by rw [found.2]⟩
      · simp at found
  · simp at found

/-- A heading takes its first line and at least one more. -/
theorem heading?_suffix {line : Line} {others rest : List Line} {heading : Heading}
    (found : heading? (line :: others) = some (heading, rest)) : rest <:+ others := by
  rcases Option.or_eq_some_iff.mp found with framed | ⟨_, under⟩
  · obtain ⟨above, title, below, whole⟩ := overlined?_rest framed
    simp only [List.cons.injEq] at whole
    rw [whole.2]
    exact (List.suffix_cons below rest).trans (List.suffix_cons title _)
  · obtain ⟨title, below, whole⟩ := underlined?_rest under
    simp only [List.cons.injEq] at whole
    rw [whole.2]
    exact List.suffix_cons below rest

end RstPress.Layout

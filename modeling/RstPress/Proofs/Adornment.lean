import RstPress.Proofs.Heading
import RstPress.Proofs.Sections
import RstPress.Proofs.Stops

/-!
Titles and the length of their adornment. The line below a title is as long as the title, or long enough
for its length alone, if it is the only line of the adornment. Between two lines of adornment a title is
recognised whatever the length of these lines; a length that falls short of the title only shows in that
the heading does not fit.
-/

namespace RstPress.Layout
open Text Source Document RstPress.Tree

namespace IsHeading
variable {lines adornment after : List Line} {heading : Heading}

/-- A heading fits if every line of its adornment is as long as its title. -/
theorem fits_iff (shaped : IsHeading lines heading adornment after) :
    heading.fits ↔ ∀ line ∈ adornment, heading.text.length ≤ line.width := by
  cases shaped with
  | overlined =>
    rw [Bool.and_eq_true, decide_eq_true_eq, decide_eq_true_eq, List.forall_mem_cons,
      List.forall_mem_singleton]
    rfl
  | underlined =>
    rw [decide_eq_true_eq, List.forall_mem_singleton]
    rfl

/-- The line below a title without an overline is long enough. -/
theorem long_enough (shaped : IsHeading lines heading adornment after)
    (plain : heading.style.overlined = false) :
    ∀ line ∈ adornment, heading.text.length ≤ line.width ∨ adornmentWidth ≤ line.width := by
  cases shaped with
  | overlined => cases plain
  | underlined _ _ _ long => exact List.forall_mem_singleton.mpr long

end IsHeading

/-- The line with so many characters of adornment for its text. -/
def drawn (mark : Char) (count : Nat) (line : Line) : Line :=
  { line with text := List.replicate count mark }

/-- Lines of any length above and below an overlined title make it a heading. -/
theorem IsHeading.redrawn {lines adornment after : List Line} {heading : Heading}
    (shaped : IsHeading lines heading adornment after) (framed : heading.style.overlined) :
    ∃ above title below, lines = above :: title :: below :: after ∧ adornment = [above, below] ∧
      ∀ upper lower, 0 < upper → 0 < lower → ∃ fits,
        heading? (drawn heading.style.mark upper above :: title ::
          drawn heading.style.mark lower below :: after) = some ({ heading with fits }, after) := by
  cases shaped with
  | underlined => cases framed
  | @overlined above title below _ mark upper filled flush lower other =>
    refine ⟨above, title, below, rfl, rfl, fun longOver longUnder positiveOver positiveUnder => ?_⟩
    have punctuation := (adornment?_eq_some_iff.mp upper).1
    have overDrawn : adornment? (drawn mark longOver above).text = some mark :=
      adornment?_replicate punctuation positiveOver
    have underDrawn : adornment? (drawn mark longUnder below).text = some mark :=
      adornment?_replicate punctuation positiveUnder
    have flushDrawn : (drawn mark longUnder below).indent = 0 := flush
    exact ⟨_, (IsHeading.overlined overDrawn filled flushDrawn underDrawn other).heading?_eq⟩

/-- The heading that a part is about: it opens a section, or it is a stray one. -/
def Part.adorned? : Part → Option Heading
  | .heading own => some own
  | .block (.stray own) => some own
  | .block _ => none

@[simp] theorem Part.adorned?_heading (heading : Heading) :
    (Part.heading heading).adorned? = some heading := rfl

@[simp] theorem Part.adorned?_stray (heading : Heading) :
    (Part.block (.stray heading)).adorned? = some heading := rfl

@[simp] theorem Piece.adorned?_block (piece : Piece) : (Part.block piece.block).adorned? = none := by
  cases piece <;> simp [Part.adorned?]

/-- The headings at a stop are what is recognised there. -/
theorem Stop.mem_adorned_iff {top : Bool} {stop : Stop} {heading : Heading} :
    heading ∈ (stop.parts top).filterMap Part.adorned? ↔
      ∃ after, headingAt? stop.line stop.below = some (heading, after) := by
  cases top with
  | true =>
    have here : stop.opens? true = headingAt? stop.line stop.below := rfl
    unfold parts
    rw [here]
    cases headingAt? stop.line stop.below with
    | none => simp
    | some found => simp [Prod.ext_iff, eq_comm]
  | false =>
    have here : stop.parts false = (strays stop.line stop.below).map .block ++ [.block stop.piece.block] :=
      rfl
    rw [here, strays]
    cases headingAt? stop.line stop.below with
    | none => simp
    | some found => simp [Prod.ext_iff, eq_comm]

/-- The headings of a text are recognised at its stops, on a line at the left margin. -/
theorem mem_adorned_iff {top : Bool} {lines : List Line} {heading : Heading} :
    heading ∈ (partsOf top lines).filterMap Part.adorned? ↔
      ∃ stop ∈ stops top [] lines, stop.line.indent = 0 ∧
        ∃ adornment after, IsHeading (stop.line :: stop.below) heading adornment after := by
  rw [partsOf_eq_flatMap top [], List.filterMap_flatMap, List.mem_flatMap]
  apply exists_congr
  intro stop
  apply and_congr_right
  intro _
  rw [Stop.mem_adorned_iff]
  simp only [headingAt?_eq_some_iff]
  constructor
  · rintro ⟨after, flush, adornment, shaped⟩
    exact ⟨flush, adornment, after, shaped⟩
  · rintro ⟨flush, adornment, after, shaped⟩
    exact ⟨after, flush, adornment, shaped⟩

/-- A heading at a stop, with the lines of its adornment. It fits if these are as long as its title. Only
for an overlined title can one of them be shorter than the title and than four characters, and lines of any
other length would do as well then. -/
structure IsAdorned (stop : Stop) (heading : Heading) (adornment after : List Line) : Prop where
  flush : stop.line.indent = 0
  shaped : IsHeading (stop.line :: stop.below) heading adornment after
  fits : heading.fits ↔ ∀ line ∈ adornment, heading.text.length ≤ line.width
  short : (∃ line ∈ adornment, line.width < heading.text.length ∧ line.width < adornmentWidth) →
    heading.style.overlined
  framed : heading.style.overlined →
    ∃ above title below, stop.line :: stop.below = above :: title :: below :: after ∧
      adornment = [above, below] ∧
      ∀ upper lower, 0 < upper → 0 < lower → ∃ fits,
        heading? (drawn heading.style.mark upper above :: title ::
          drawn heading.style.mark lower below :: after) = some ({ heading with fits }, after)

/-- Every heading that is recognised in a text, be it a document or a nested body, is adorned with lines
that are as long as the title or at least four characters long, unless it is overlined. -/
theorem adornments_are_long_unless_overlined (top : Bool) (lines : List Line) {heading : Heading}
    (found : heading ∈ (partsOf top lines).filterMap Part.adorned?) :
    ∃ stop ∈ stops top [] lines, ∃ adornment after, IsAdorned stop heading adornment after := by
  obtain ⟨stop, member, flush, adornment, after, shaped⟩ := mem_adorned_iff.mp found
  refine ⟨stop, member, adornment, after, flush, shaped, shaped.fits_iff, ?_, shaped.redrawn⟩
  rintro ⟨line, inside, short, narrow⟩
  cases framed : heading.style.overlined with
  | true => rfl
  | false =>
    have long := shaped.long_enough framed line inside
    omega

/-- A title between two lines of two characters. -/
def framedLines : List Line :=
  [⟨0, "==".toList, 1⟩, ⟨0, "Title".toList, 2⟩, ⟨0, "==".toList, 3⟩]

def framedHeading : Heading := ⟨"Title".toList, ⟨'=', true⟩, 2, false⟩

theorem adornments_are_long_unless_overlined_framed :
    framedHeading ∈ (partsOf false framedLines).filterMap Part.adorned? ∧
      ∃ stop ∈ stops false [] framedLines, ∃ adornment after,
        IsAdorned stop framedHeading adornment after := by
  have found : framedHeading ∈ (partsOf false framedLines).filterMap Part.adorned? := by decide +kernel
  exact ⟨found, adornments_are_long_unless_overlined false framedLines found⟩

/-- Two characters above and below a title of five make it a section. -/
theorem short_overline_opens_section :
    parse {} "==\nTitle\n==\n" = .ok (.composite .document [.titled 1 [.text "Title"] []]) ∧
      ∃ heading ∈ (partsOf true (lines 8 "==\nTitle\n==\n".toList)).filterMap Part.adorned?,
        ∃ stop ∈ stops true [] (lines 8 "==\nTitle\n==\n".toList), ∃ adornment after,
          IsHeading (stop.line :: stop.below) heading adornment after ∧
          ∀ line ∈ adornment, line.width < heading.text.length ∧ line.width < adornmentWidth := by
  have whole : sections (elementsOf [] 0 (outline (lines 8 "==\nTitle\n==\n".toList))) =
      [.titled 1 [.text "Title"] []] := by decide +kernel
  have given : lines 8 "==\nTitle\n==\n".toList = framedLines := by decide
  have shaped : IsHeading framedLines framedHeading [⟨0, "==".toList, 1⟩, ⟨0, "==".toList, 3⟩] [] :=
    .overlined (by decide) (by decide) (by decide) (by decide) (by decide)
  constructor
  · rw [parse_of_lenient _ rfl, whole]
  · rw [given]
    refine ⟨framedHeading, by decide +kernel, ⟨[], ⟨0, "==".toList, 1⟩, framedLines.tail⟩, ?_, _, _,
      shaped, by decide⟩
    rw [framedLines, stops_of_filled true [] _ (by decide)]
    exact List.mem_cons_self

end RstPress.Layout

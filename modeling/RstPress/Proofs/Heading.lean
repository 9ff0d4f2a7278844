import RstPress.Layout.Block

/-!
What a heading is made of. The tests for the two forms of a title are turned into a judgment with one case
for each form, and everything else about headings is read off it.
-/

namespace RstPress.Layout
open Text Source

/-- An adornment repeats a punctuation character. -/
theorem adornment?_eq_some_iff {text : List Char} {mark : Char} :
    adornment? text = some mark ↔
      isPunctuation mark ∧ text ≠ [] ∧ text = List.replicate text.length mark := by
  cases text with
  | nil => simp [adornment?]
  | cons first others =>
    have alike : others.all (fun c => decide (c = first)) = true ↔
        others = List.replicate others.length first := by
      rw [List.eq_replicate_iff]
      simp
    rw [adornment?, Option.ite_none_right_eq_some, Bool.and_eq_true, alike, Option.some.injEq,
      List.length_cons, List.replicate_succ, List.cons.injEq]
    constructor
    · rintro ⟨⟨punctuation, same⟩, rfl⟩
      exact ⟨punctuation, List.cons_ne_nil _ _, rfl, same⟩
    · rintro ⟨punctuation, _, rfl, same⟩
      exact ⟨⟨punctuation, same⟩, rfl⟩

theorem adornment?_replicate {mark : Char} (punctuation : isPunctuation mark) {count : Nat}
    (positive : 0 < count) : adornment? (List.replicate count mark) = some mark := by
  refine adornment?_eq_some_iff.mpr ⟨punctuation, ?_, by rw [List.length_replicate]⟩
  rw [Ne, List.replicate_eq_nil_iff]
  exact Nat.ne_of_gt positive

theorem isBlank_of_adornment? {line : Line} {mark : Char} (adorned : adornment? line.text = some mark) :
    line.isBlank = false := by
  have filled := (adornment?_eq_some_iff.mp adorned).2.1
  simpa [Line.isBlank] using filled

/-- Lines that begin with a heading, with the lines of its adornment and the lines after it. -/
inductive IsHeading : List Line → Heading → List Line → List Line → Prop where
  | overlined {above title below : Line} {after : List Line} {mark : Char}
      (upper : adornment? above.text = some mark) (filled : title.isBlank = false)
      (flush : below.indent = 0) (lower : adornment? below.text = some mark)
      (other : adornment? title.text ≠ some mark) :
      IsHeading (above :: title :: below :: after)
        ⟨title.text, ⟨mark, true⟩, title.number,
          title.width ≤ above.width && title.width ≤ below.width⟩ [above, below] after
  | underlined {title below : Line} {after : List Line} {mark : Char}
      (plain : adornment? title.text = none) (flush : below.indent = 0)
      (lower : adornment? below.text = some mark)
      (long : title.width ≤ below.width ∨ adornmentWidth ≤ below.width) :
      IsHeading (title :: below :: after)
        ⟨title.text, ⟨mark, false⟩, title.number, title.width ≤ below.width⟩ [below] after

theorem isHeading_of_overlined? {lines after : List Line} {heading : Heading}
    (found : overlined? lines = some (heading, after)) :
    ∃ adornment, IsHeading lines heading adornment after := by
  unfold overlined? at found
  split at found
  · split at found
    · cases found
    · rename_i mark upper
      rw [Option.ite_none_right_eq_some] at found
      obtain ⟨shape, same⟩ := found
      simp only [Bool.and_eq_true, Bool.not_eq_true', decide_eq_true_eq] at shape
      obtain ⟨⟨⟨filled, flush⟩, lower⟩, other⟩ := shape
      cases same
      exact ⟨_, .overlined upper filled flush lower other⟩
  · cases found

theorem isHeading_of_underlined? {lines after : List Line} {heading : Heading}
    (found : underlined? lines = some (heading, after)) :
    ∃ adornment, IsHeading lines heading adornment after := by
  unfold underlined? at found
  split at found
  · split at found
    · cases found
    · rename_i mark lower
      rw [Option.ite_none_right_eq_some] at found
      obtain ⟨shape, same⟩ := found
      simp only [Bool.and_eq_true, Bool.or_eq_true, decide_eq_true_eq] at shape
      obtain ⟨⟨flush, plain⟩, long⟩ := shape
      cases same
      exact ⟨_, .underlined plain flush lower long⟩
  · cases found

namespace IsHeading
variable {lines adornment after : List Line} {heading : Heading}

theorem heading?_eq (shaped : IsHeading lines heading adornment after) :
    heading? lines = some (heading, after) := by
  cases shaped with
  | overlined upper filled flush lower other =>
    rw [heading?, overlined?]
    simp only [upper, filled, flush, lower]
    rw [if_pos (by simpa using other), Option.some_or]
  | @underlined title below _ mark plain flush lower long =>
    have framed : overlined? (title :: below :: after) = none := by
      cases after with
      | nil => rfl
      | cons next after => simp only [overlined?, plain]
    rw [heading?, framed, Option.none_or, underlined?]
    simp only [lower, flush, plain]
    rw [if_pos (by simpa using long)]

end IsHeading

/-- A line of the mark alone. -/
def Repeats (mark : Char) (line : Line) : Prop :=
  isPunctuation mark ∧ ∃ count, 0 < count ∧ line.text = List.replicate count mark

/-- The lines of a title in a style: a line of the mark below it, and one above it if it is overlined. -/
inductive IsDrawn (style : Style) (text : List Char) : List Line → Prop where
  | overlined {above title below : Line} (framed : style.overlined) (upper : Repeats style.mark above)
    (same : title.text = text) (lower : Repeats style.mark below) :
    IsDrawn style text [above, title, below]
  | underlined {title below : Line} (plain : style.overlined = false) (same : title.text = text)
    (lower : Repeats style.mark below) : IsDrawn style text [title, below]

theorem repeats_of_adornment? {line : Line} {mark : Char} (adorned : adornment? line.text = some mark) :
    Repeats mark line := by
  obtain ⟨punctuation, filled, same⟩ := adornment?_eq_some_iff.mp adorned
  exact ⟨punctuation, line.text.length, List.length_pos_iff.mpr filled, same⟩

theorem IsHeading.exists_drawn {lines adornment after : List Line} {heading : Heading}
    (shaped : IsHeading lines heading adornment after) :
    ∃ drawn, lines = drawn ++ after ∧ IsDrawn heading.style heading.text drawn := by
  cases shaped with
  | overlined upper _ _ lower =>
    exact ⟨_, rfl, .overlined rfl (repeats_of_adornment? upper) rfl (repeats_of_adornment? lower)⟩
  | underlined _ _ lower => exact ⟨_, rfl, .underlined rfl rfl (repeats_of_adornment? lower)⟩

theorem heading?_eq_some_iff {lines after : List Line} {heading : Heading} :
    heading? lines = some (heading, after) ↔ ∃ adornment, IsHeading lines heading adornment after := by
  constructor
  · intro found
    rcases Option.or_eq_some_iff.mp found with framed | ⟨_, lower⟩
    · exact isHeading_of_overlined? framed
    · exact isHeading_of_underlined? lower
  · rintro ⟨adornment, shaped⟩
    exact shaped.heading?_eq

/-- The heading that begins at the left margin of a line. -/
theorem headingAt?_eq_some_iff {line : Line} {rest after : List Line} {heading : Heading} :
    headingAt? line rest = some (heading, after) ↔
      line.indent = 0 ∧ ∃ adornment, IsHeading (line :: rest) heading adornment after := by
  rw [headingAt?, Option.ite_none_right_eq_some, heading?_eq_some_iff]

/-- The title of a heading is one of its lines, and it is not blank. -/
theorem exists_title_of_headingAt? {line : Line} {rest after : List Line} {heading : Heading}
    (filled : line.isBlank = false) (found : headingAt? line rest = some (heading, after)) :
    ∃ title ∈ line :: rest, title.isBlank = false ∧ heading.text = title.text ∧
      heading.line = title.number := by
  obtain ⟨_, adornment, shaped⟩ := headingAt?_eq_some_iff.mp found
  cases shaped with
  | @overlined _ title below _ _ upper shown =>
    exact ⟨title, List.mem_cons_of_mem _ List.mem_cons_self, shown, rfl, rfl⟩
  | underlined => exact ⟨line, List.mem_cons_self, filled, rfl, rfl⟩

/-- A heading has a line that is not blank below its first one. -/
theorem headingAt?_of_blank_below {line : Line} {rest : List Line} (blank : rest.head?.all Line.isBlank) :
    headingAt? line rest = none := by
  rw [Option.eq_none_iff_forall_ne_some]
  rintro ⟨heading, after⟩ found
  obtain ⟨_, adornment, shaped⟩ := headingAt?_eq_some_iff.mp found
  cases shaped with
  | overlined upper filled flush lower other =>
    rw [List.head?_cons, Option.all_some, filled] at blank
    cases blank
  | underlined plain flush lower long =>
    rw [List.head?_cons, Option.all_some, isBlank_of_adornment? lower] at blank
    cases blank

end RstPress.Layout

import RstPress.Proofs.Extension.Source
import RstPress.Proofs.Heading

/-!
An adorned title in front of which a blank line stands opens a section, unless the text above ends
in a list that takes the title for one of its items: an enumeration takes a title that begins with
an enumerator, and a definition list takes the overline of an indented title for a term.
-/

namespace RstPress.Layout
open Text Source

theorem afterInset_of_insetBlock_eq_nil {lines : List Line} (none : insetBlock lines = []) :
    afterInset lines = lines := by
  rw [afterInset, none]
  rfl

/-- One line of text that does not end with a blank and does not begin with one or with punctuation:
a text that begins with a letter or a digit is such a line. -/
structure Title where
  text : List Char
  oneLine : '\n' ∉ text
  begins : ∃ first others, text = first :: others ∧ isBlank first = false ∧
    isPunctuation first = false
  ends : ∃ front last, text = front ++ [last] ∧ isBlank last = false

/-- A line of adornment above a title, and the indentation of the title below it. -/
structure Overline where
  length : Nat
  long : adornmentWidth ≤ length
  indent : Nat

structure AdornedTitle where
  title : Title
  mark : Char
  punctuation : isPunctuation mark
  length : Nat
  long : adornmentWidth ≤ length
  overline : Option Overline

namespace AdornedTitle
variable (adorned : AdornedTitle)

def written : List Char :=
  let below := '\n' :: List.replicate adorned.length adorned.mark
  match adorned.overline with
  | none => adorned.title.text ++ below
  | some line =>
    List.replicate line.length adorned.mark ++ '\n' ::
      (List.replicate line.indent ' ' ++ adorned.title.text ++ below)

def column : Nat := (adorned.overline.map Overline.indent).getD 0

/-- The text of the title with its tabs expanded. -/
def shownText (tabWidth : Nat) : List Char :=
  expandTabs (max 1 tabWidth) adorned.column adorned.title.text

/-- The last part of a text takes the title line, or the overline, for the beginning of another
item. -/
def TakenBy (tabWidth : Nat) : Part → Prop
  | .block (.list .enumerator _) =>
    adorned.overline = none ∧ (enumeratorWidth? (adorned.shownText tabWidth)).isSome
  | .block (.definitionList _) => 0 < adorned.column
  | _ => False

def adornment (length number : Nat) : Line := ⟨0, List.replicate length adorned.mark, number⟩

def titleLine (tabWidth number : Nat) : Line := ⟨adorned.column, adorned.shownText tabWidth, number⟩

/-- The lines on which a title shows that is written from the given line on. -/
def shownLines (tabWidth number : Nat) : List Line :=
  match adorned.overline with
  | none => [adorned.titleLine tabWidth number, adorned.adornment adorned.length (number + 1)]
  | some line =>
    [adorned.adornment line.length number, adorned.titleLine tabWidth (number + 1),
      adorned.adornment adorned.length (number + 2)]

theorem mark_ne {c : Char} (other : isPunctuation c = false) : c ≠ adorned.mark :=
  ne_of_isPunctuation other adorned.punctuation

theorem not_mem_replicate {c : Char} (other : isPunctuation c = false) (length : Nat) :
    c ∉ List.replicate length adorned.mark :=
  fun member => adorned.mark_ne other (List.mem_replicate.mp member).2

theorem ofText_replicate_mark (length number : Nat) :
    Line.ofText number (List.replicate length adorned.mark) = adorned.adornment length number :=
  ofText_replicate (fun same =>
    adorned.not_mem_replicate (by decide) length (List.mem_of_mem_head? same)) 0 number

theorem replicate_eq {length : Nat} (long : adornmentWidth ≤ length) :
    List.replicate length adorned.mark =
      List.replicate (length - 1) adorned.mark ++ [adorned.mark] := by
  have positive : length - 1 + 1 = length := by
    simp only [adornmentWidth] at long
    omega
  rw [← List.replicate_succ', positive]

theorem expandTabs_replicate (length width column : Nat) :
    expandTabs width column (List.replicate length adorned.mark) =
      List.replicate length adorned.mark :=
  expandTabs_of_no_tab (adorned.not_mem_replicate (by decide) length) width column

theorem shown_replicate {length : Nat} (long : adornmentWidth ≤ length) (width : Nat) :
    shown width (List.replicate length adorned.mark) = List.replicate length adorned.mark := by
  have whole := shown_append_of_visible (List.replicate (length - 1) adorned.mark)
    (isBlank_of_isPunctuation adorned.punctuation) width
  rwa [← adorned.replicate_eq long, expandTabs_replicate] at whole

/-- The text of a title begins as it is written, whatever its tabs become. -/
theorem exists_shownText (tabWidth : Nat) :
    ∃ first others, adorned.shownText tabWidth = first :: others ∧ isBlank first = false ∧
      isPunctuation first = false := by
  obtain ⟨first, others, same, visible, plain⟩ := adorned.title.begins
  refine ⟨first, expandTabs (max 1 tabWidth) (adorned.column + 1) others, ?_, visible, plain⟩
  have other : first ≠ '\t' := ne_of_isBlank visible (by decide)
  rw [shownText, same, expandTabs, if_neg other]

theorem ofText_shownText (tabWidth number : Nat) :
    Line.ofText number (List.replicate adorned.column ' ' ++ adorned.shownText tabWidth) =
      adorned.titleLine tabWidth number := by
  obtain ⟨first, others, same, visible, _⟩ := adorned.exists_shownText tabWidth
  refine ofText_replicate (fun space => ?_) adorned.column number
  rw [same, List.head?_cons, Option.some.injEq] at space
  exact ne_of_isBlank visible (by decide) space

theorem shown_title (tabWidth : Nat) :
    shown (max 1 tabWidth) (List.replicate adorned.column ' ' ++ adorned.title.text) =
      List.replicate adorned.column ' ' ++ adorned.shownText tabWidth := by
  obtain ⟨front, last, same, visible⟩ := adorned.title.ends
  have spaces : '\t' ∉ List.replicate adorned.column ' ' := by simp
  have whole := shown_append_of_visible (List.replicate adorned.column ' ' ++ front) visible
    (max 1 tabWidth)
  rwa [List.append_assoc, ← same, expandTabs_append, expandTabs_of_no_tab spaces,
    List.length_replicate, Nat.zero_add] at whole

theorem column_of_overline {line : Overline} (framed : adorned.overline = some line) :
    adorned.column = line.indent := by
  rw [column, framed]
  rfl

theorem column_of_no_overline (plain : adorned.overline = none) : adorned.column = 0 := by
  rw [column, plain]
  rfl

theorem linesFrom_title (tabWidth number : Nat) (below : List Char) :
    linesFrom tabWidth number
        (List.replicate adorned.column ' ' ++ adorned.title.text ++ '\n' :: below) =
      adorned.titleLine tabWidth number :: linesFrom tabWidth (number + 1) below := by
  have oneLine : '\n' ∉ List.replicate adorned.column ' ' ++ adorned.title.text := by
    simp [adorned.title.oneLine]
  rw [linesFrom_of_line oneLine, shown_title, ofText_shownText]

/-- A written title shows on lines of its own. -/
theorem linesFrom_written {ending : List Char} (blank : ∀ c ∈ ending, isBlank c)
    (tabWidth number : Nat) :
    ∃ empty, skipBlank empty = [] ∧
      linesFrom tabWidth number (adorned.written ++ ending) =
        adorned.shownLines tabWidth number ++ empty := by
  have last (number : Nat) : ∃ empty, skipBlank empty = [] ∧
      linesFrom tabWidth number (List.replicate adorned.length adorned.mark ++ ending) =
        adorned.adornment adorned.length number :: empty := by
    have oneLine := adorned.not_mem_replicate (c := '\n') (by decide) (adorned.length - 1)
    obtain ⟨empty, skipped, same⟩ := linesFrom_of_last_line
      (isBlank_of_isPunctuation adorned.punctuation) oneLine blank tabWidth number
    rw [← adorned.replicate_eq adorned.long, expandTabs_replicate, ofText_replicate_mark] at same
    exact ⟨empty, skipped, same⟩
  have title := adorned.linesFrom_title tabWidth
  cases framed : adorned.overline with
  | none =>
    obtain ⟨empty, skipped, same⟩ := last (number + 1)
    rw [adorned.column_of_no_overline framed] at title
    refine ⟨empty, skipped, ?_⟩
    simp only [written, shownLines, framed]
    have whole := title number (List.replicate adorned.length adorned.mark ++ ending)
    rw [same] at whole
    rw [List.append_assoc, List.cons_append]
    exact whole
  | some line =>
    obtain ⟨empty, skipped, same⟩ := last (number + 2)
    rw [adorned.column_of_overline framed] at title
    refine ⟨empty, skipped, ?_⟩
    simp only [written, shownLines, framed]
    have frame : Line.ofText number (shown (max 1 tabWidth)
        (List.replicate line.length adorned.mark)) = adorned.adornment line.length number := by
      rw [adorned.shown_replicate line.long, ofText_replicate_mark]
    rw [List.append_assoc, List.cons_append,
      linesFrom_of_line (adorned.not_mem_replicate (by decide) line.length), frame,
      List.append_assoc, List.cons_append, title, same]
    rfl

theorem adornment?_adornment {length : Nat} (long : adornmentWidth ≤ length) (number : Nat) :
    adornment? (adorned.adornment length number).text = some adorned.mark := by
  cases length with
  | zero => exact absurd long (by decide)
  | succ length => simp [adornment, List.replicate_succ, adornment?, adorned.punctuation]

theorem adornment?_titleLine (tabWidth number : Nat) :
    adornment? (adorned.titleLine tabWidth number).text = none := by
  obtain ⟨first, others, same, _, plain⟩ := adorned.exists_shownText tabWidth
  simp [titleLine, same, adornment?, plain]

theorem isBlank_titleLine (tabWidth number : Nat) :
    (adorned.titleLine tabWidth number).isBlank = false := by
  obtain ⟨first, others, same, _⟩ := adorned.exists_shownText tabWidth
  simp [Line.isBlank, titleLine, same]

theorem isBlank_adornment {length : Nat} (long : adornmentWidth ≤ length) (number : Nat) :
    (adorned.adornment length number).isBlank = false := by
  rw [Line.isBlank, adornment, adorned.replicate_eq long]
  simp

theorem skipBlank_adornment (number : Nat) (rest : List Line) :
    skipBlank (adorned.adornment adorned.length number :: rest) =
      adorned.adornment adorned.length number :: rest :=
  skipBlank_cons_of_filled (adorned.isBlank_adornment adorned.long number) rest

theorem headingAt?_of_underlined (plain : adorned.overline = none) (tabWidth number next : Nat)
    (rest : List Line) :
    ∃ heading, heading.text = adorned.shownText tabWidth ∧
      headingAt? (adorned.titleLine tabWidth number)
        (adorned.adornment adorned.length next :: rest) = some (heading, rest) := by
  have below := adorned.adornment?_adornment adorned.long next
  have title := adorned.adornment?_titleLine tabWidth number
  have flush : (adorned.titleLine tabWidth number).indent = 0 := adorned.column_of_no_overline plain
  have wide : adornmentWidth ≤ (adorned.adornment adorned.length next).width := by
    simp [Line.width, adornment, adorned.long]
  exact ⟨_, rfl, headingAt?_eq_some_iff.mpr ⟨flush, _, .underlined title rfl below (.inr wide)⟩⟩

theorem headingAt?_of_overlined (line : Overline) (tabWidth number next last : Nat)
    (rest : List Line) :
    ∃ heading, heading.text = adorned.shownText tabWidth ∧
      headingAt? (adorned.adornment line.length number)
        (adorned.titleLine tabWidth next :: adorned.adornment adorned.length last :: rest) =
          some (heading, rest) := by
  have above := adorned.adornment?_adornment line.long number
  have below := adorned.adornment?_adornment adorned.long last
  have visible := adorned.isBlank_titleLine tabWidth next
  have other : adornment? (adorned.titleLine tabWidth next).text ≠ some adorned.mark := by
    rw [adorned.adornment?_titleLine tabWidth next]
    nofun
  exact ⟨_, rfl, headingAt?_eq_some_iff.mpr ⟨rfl, _, .overlined above visible rfl below other⟩⟩

/-- Where a title is looked for it is found. -/
theorem outline_shownLines {empty : List Line} (ended : skipBlank empty = [])
    (tabWidth number : Nat) :
    ∃ heading, heading.text = adorned.shownText tabWidth ∧
      outline (adorned.shownLines tabWidth number ++ empty) = [.heading heading] := by
  cases framed : adorned.overline with
  | none =>
    obtain ⟨heading, same, found⟩ :=
      adorned.headingAt?_of_underlined framed tabWidth number (number + 1) empty
    refine ⟨heading, same, ?_⟩
    simp only [shownLines, framed, List.cons_append, List.nil_append]
    rw [outline_of_heading (adorned.isBlank_titleLine tabWidth number) found,
      outline_eq_nil_of_skipBlank ended]
  | some line =>
    obtain ⟨heading, same, found⟩ :=
      adorned.headingAt?_of_overlined line tabWidth number (number + 1) (number + 2) empty
    refine ⟨heading, same, ?_⟩
    simp only [shownLines, framed, List.cons_append, List.nil_append]
    rw [outline_of_heading (adorned.isBlank_adornment line.long number) found,
      outline_eq_nil_of_skipBlank ended]

/-- An adornment begins no item of any list. -/
theorem at?_adornment {length : Nat} (long : adornmentWidth ≤ length) (marker : Marker)
    (number : Nat) : marker.at? (adorned.adornment length number) = none := by
  obtain ⟨others, rfl⟩ : ∃ others, length = others + 2 := ⟨length - 2, by
    simp only [adornmentWidth] at long
    omega⟩
  have space : adorned.mark ≠ ' ' := (adorned.mark_ne (by decide)).symm
  have noLabel : isOrdinal [] = false := rfl
  simp only [Marker.at?, adornment, if_true]
  cases marker with
  | bullet mark => simp [List.replicate_succ, Marker.width?, spacedWidth?, space]
  | enumerator =>
    by_cases opened : adorned.mark = '('
    · simp [List.replicate_succ, Marker.width?, enumeratorWidth?, opened, isEnumeratorChar, noLabel]
    · by_cases automatic : isEnumeratorChar adorned.mark
      · have whole : ∀ c ∈ List.replicate (others + 2) adorned.mark, isEnumeratorChar c :=
          fun c member => by rw [(List.mem_replicate.mp member).2, automatic]
        have gone := List.dropWhile_eq_nil_iff.mpr whole
        rw [List.replicate_succ] at gone ⊢
        simp [Marker.width?, enumeratorWidth?, opened, gone]
      · simp [List.replicate_succ, Marker.width?, enumeratorWidth?, opened, automatic, noLabel]

theorem at?_bullet_titleLine (tabWidth : Nat) (mark : Char) (number : Nat) :
    (Marker.bullet mark).at? (adorned.titleLine tabWidth number) = none := by
  obtain ⟨first, others, same, _, plain⟩ := adorned.exists_shownText tabWidth
  simp [Marker.at?, Marker.width?, titleLine, same, isBullet_of_not_isPunctuation plain]

theorem at?_enumerator_titleLine (plain : adorned.overline = none) (tabWidth number : Nat) :
    Marker.enumerator.at? (adorned.titleLine tabWidth number) =
      enumeratorWidth? (adorned.shownText tabWidth) := by
  obtain ⟨first, others, same, _⟩ := adorned.exists_shownText tabWidth
  simp only [Marker.at?, titleLine, adorned.column_of_no_overline plain, if_true, same,
    Marker.width?]

theorem insetBlock_of_shownLines {more empty : List Line} {tabWidth number : Nat}
    (placed : skipBlank more = adorned.shownLines tabWidth number ++ empty) :
    insetBlock more = [] := by
  cases framed : adorned.overline with
  | none =>
    simp only [shownLines, framed, List.cons_append] at placed
    exact insetBlock_of_flush placed (adorned.column_of_no_overline framed)
  | some line =>
    simp only [shownLines, framed, List.cons_append] at placed
    exact insetBlock_of_flush placed rfl

theorem startsDefinition_shownLines (tabWidth number : Nat) (empty : List Line) :
    startsDefinition (adorned.shownLines tabWidth number ++ empty) =
      decide (0 < adorned.column) := by
  cases framed : adorned.overline with
  | none =>
    simp [shownLines, framed, startsDefinition, adornment, adorned.column_of_no_overline framed]
  | some line =>
    have above := adorned.isBlank_adornment line.long number
    have visible := adorned.isBlank_titleLine tabWidth (number + 1)
    have flush : (adorned.adornment line.length number).indent = 0 := rfl
    have inset : (adorned.titleLine tabWidth (number + 1)).indent = adorned.column := rfl
    simp [shownLines, framed, startsDefinition, above, visible, flush, inset]

/-- The parts that take an adorned title are those that go on with its lines. -/
theorem goesOn_iff_takenBy {more empty : List Line} {tabWidth number : Nat}
    (placed : skipBlank more = adorned.shownLines tabWidth number ++ empty) (block : Block) :
    block.GoesOn more ↔ adorned.TakenBy tabWidth (.block block) := by
  have bounded := adorned.insetBlock_of_shownLines placed
  cases block with
  | quote | paragraph => simp [Block.GoesOn, TakenBy, bounded]
  | stray | transition | item | lineBlock | definition => simp [Block.GoesOn, TakenBy]
  | definitionList items =>
    simp [Block.GoesOn, TakenBy, bounded, placed, adorned.startsDefinition_shownLines]
  | list marker items =>
    simp only [Block.GoesOn, bounded, ne_eq, not_true_eq_false, false_or, placed]
    rw [← ne_eq]
    cases framed : adorned.overline with
    | some line =>
      simp only [shownLines, framed, List.cons_append, listItems_fst_ne_nil_iff,
        adorned.at?_adornment line.long]
      cases marker <;> simp [TakenBy, framed]
    | none =>
      simp only [shownLines, framed, List.cons_append, listItems_fst_ne_nil_iff]
      cases marker with
      | bullet mark => simp [TakenBy, adorned.at?_bullet_titleLine]
      | enumerator => simp [TakenBy, framed, adorned.at?_enumerator_titleLine framed]

/-- An adornment with nothing below it is a transition. -/
theorem outline_adornment {empty : List Line} (ended : skipBlank empty = []) (number : Nat) :
    outline (adorned.adornment adorned.length number :: empty) = [.block .transition] := by
  have whole := adorned.adornment?_adornment adorned.long number
  have blank := skipBlank_eq_nil_iff.mp ended
  have noHeading : headingAt? (adorned.adornment adorned.length number) empty = none := by
    cases empty with
    | nil => rfl
    | cons next others =>
      have hollow := blank next List.mem_cons_self
      have plain : adornment? next.text = none := by
        rw [List.isEmpty_iff.mp hollow]
        rfl
      cases others with
      | nil => simp [headingAt?, heading?, overlined?, underlined?, plain]
      | cons second others =>
        simp [headingAt?, heading?, overlined?, underlined?, whole, plain, hollow]
  have starts : startsTransition (adorned.adornment adorned.length number) empty := by
    have wide : (adorned.adornment adorned.length number).width = adorned.length := by
      simp [Line.width, adornment]
    cases empty with
    | nil => simp [startsTransition, whole, wide, adorned.long]
    | cons next others =>
      simp [startsTransition, whole, wide, adorned.long, blank next List.mem_cons_self]
  have flush : ¬0 < (adorned.adornment adorned.length number).indent := Nat.lt_irrefl 0
  rw [outline_of_piece (adorned.isBlank_adornment adorned.long number) noHeading]
  simp only [Piece.first, construct, flush, starts, if_true, if_false, Construct.take,
    Piece.block_transition, outline_eq_nil_of_skipBlank ended]

theorem insetBlock_adornment (number : Nat) (rest : List Line) :
    insetBlock (adorned.adornment adorned.length number :: rest) = [] :=
  insetBlock_of_flush (adorned.skipBlank_adornment number rest) rfl

/-- An enumeration takes a title without an overline as an item, and stops in front of the
adornment. -/
theorem listItems_shownLines (plain : adorned.overline = none) {tabWidth : Nat}
    (marked : (enumeratorWidth? (adorned.shownText tabWidth)).isSome) (number : Nat)
    (empty : List Line) :
    (listItems .enumerator (adorned.shownLines tabWidth number ++ empty)).2 =
      adorned.adornment adorned.length (number + 1) :: empty := by
  obtain ⟨width, found⟩ := Option.isSome_iff_exists.mp marked
  rw [← adorned.at?_enumerator_titleLine plain tabWidth number] at found
  simp only [shownLines, plain, List.cons_append, List.nil_append]
  rw [listItems_of_marked _ found,
    afterInset_of_insetBlock_eq_nil (adorned.insetBlock_adornment _ _), skipBlank_adornment,
    listItems_of_unmarked empty (adorned.at?_adornment adorned.long _ _)]

/-- A definition list takes an overline as a term, if the title below it is indented, and stops in
front of the adornment. -/
theorem definitions_shownLines (inset : 0 < adorned.column) (tabWidth number : Nat)
    {empty : List Line} (ended : skipBlank empty = []) :
    ∃ next, (definitions (adorned.shownLines tabWidth number ++ empty)).2 =
      adorned.adornment adorned.length next :: empty := by
  have starts : startsDefinition (adorned.shownLines tabWidth number ++ empty) := by
    simp [adorned.startsDefinition_shownLines, inset]
  have ends (number : Nat) :
      startsDefinition (adorned.adornment adorned.length number :: empty) = false := by
    cases empty with
    | nil => rfl
    | cons next empty => simp [startsDefinition, skipBlank_eq_nil_iff.mp ended next]
  cases framed : adorned.overline with
  | none => simp [adorned.column_of_no_overline framed] at inset
  | some line =>
    have alone : insetBlock [adorned.titleLine tabWidth (number + 1)] =
        [adorned.titleLine tabWidth (number + 1)] := by
      obtain ⟨more, whole⟩ :=
        insetBlock_cons [] (adorned.isBlank_titleLine tabWidth (number + 1)) inset
      exact (insetBlock_isPrefix _).eq_of_length_le (by rw [whole]; simp)
    have after : skipBlank (afterInset (adorned.titleLine tabWidth (number + 1) ::
        adorned.adornment adorned.length (number + 2) :: empty)) =
        adorned.adornment adorned.length (number + 2) :: empty := by
      rw [← List.singleton_append, afterInset_append (.inr (adorned.insetBlock_adornment _ _)),
        afterInset, alone]
      exact adorned.skipBlank_adornment _ _
    simp only [shownLines, framed, List.cons_append, List.nil_append] at starts ⊢
    exact ⟨number + 2,
      by rw [definitions_of_starts starts, after, definitions_of_not_starts (ends _)]⟩

/-- What a list leaves of a title that it takes is the adornment below the title. -/
theorem outline_append_of_takenBy {above more empty : List Line} {tabWidth number : Nat}
    {part : Part} (separate : startsBlank more)
    (placed : skipBlank more = adorned.shownLines tabWidth number ++ empty)
    (ended : skipBlank empty = []) (last : (outline above).getLast? = some part)
    (taken : adorned.TakenBy tabWidth part) :
    ∃ front, outline (above ++ more) = front ++ [.block .transition] := by
  have bounded := adorned.insetBlock_of_shownLines placed
  match part, taken with
  | .block (.list .enumerator items), taken =>
    obtain ⟨front, _, longer⟩ := outline_append_of_list separate bounded last
    rw [placed, adorned.listItems_shownLines taken.1 taken.2, adorned.outline_adornment ended,
      List.append_cons] at longer
    exact ⟨_, longer⟩
  | .block (.definitionList items), taken =>
    obtain ⟨front, _, longer⟩ := outline_append_of_definitionList separate bounded last
    obtain ⟨next, rest⟩ := adorned.definitions_shownLines taken tabWidth number ended
    rw [placed, rest, adorned.outline_adornment ended, List.append_cons] at longer
    exact ⟨_, longer⟩

/-- The last part of the text above takes the title. -/
def IsTaken (tabWidth : Nat) (above : List Char) : Prop :=
  ∃ part, (outline (lines tabWidth above)).getLast? = some part ∧ adorned.TakenBy tabWidth part

/-- The title below a text and a blank line, at the end of the source. -/
def source (above gap ending : List Char) : List Char := apart above gap (adorned.written ++ ending)

/-- The lines that a blank line and a title add to a text. -/
theorem exists_lines_source {gap ending : List Char} (blank : ∀ c ∈ gap, isBlank c)
    (blankEnd : ∀ c ∈ ending, isBlank c) (tabWidth : Nat) (above : List Char) :
    ∃ more empty number, startsBlank more ∧ skipBlank empty = [] ∧
      skipBlank more = adorned.shownLines tabWidth number ++ empty ∧
      lines tabWidth (adorned.source above gap ending) = lines tabWidth above ++ more := by
  obtain ⟨between, number, gone, separate, same⟩ :=
    lines_apart blank tabWidth above (adorned.written ++ ending)
  obtain ⟨empty, ended, shown⟩ := adorned.linesFrom_written blankEnd tabWidth number
  refine ⟨_, empty, number, separate, ended, ?_, same⟩
  rw [skipBlank_append_of_eq_nil gone, shown]
  cases framed : adorned.overline with
  | none =>
    simp only [shownLines, framed, List.cons_append]
    exact skipBlank_cons_of_filled (adorned.isBlank_titleLine _ _) _
  | some line =>
    simp only [shownLines, framed, List.cons_append]
    exact skipBlank_cons_of_filled (adorned.isBlank_adornment line.long _) _

theorem outline_source_of_isTaken {gap ending : List Char} (blank : ∀ c ∈ gap, isBlank c)
    (blankEnd : ∀ c ∈ ending, isBlank c) {tabWidth : Nat} {above : List Char}
    (taken : adorned.IsTaken tabWidth above) :
    ∃ front, outline (lines tabWidth (adorned.source above gap ending)) =
      front ++ [.block .transition] := by
  obtain ⟨more, empty, number, separate, ended, placed, same⟩ :=
    adorned.exists_lines_source blank blankEnd tabWidth above
  obtain ⟨part, last, takes⟩ := taken
  rw [same]
  exact adorned.outline_append_of_takenBy separate placed ended last takes

theorem outline_source_of_not_isTaken {gap ending : List Char} (blank : ∀ c ∈ gap, isBlank c)
    (blankEnd : ∀ c ∈ ending, isBlank c) {tabWidth : Nat} {above : List Char}
    (free : ¬adorned.IsTaken tabWidth above) :
    ∃ parts heading, List.Forall₂ Part.Alike (outline (lines tabWidth above)) parts ∧
      heading.text = adorned.shownText tabWidth ∧
      outline (lines tabWidth (adorned.source above gap ending)) = parts ++ [.heading heading] := by
  obtain ⟨more, empty, number, separate, ended, placed, same⟩ :=
    adorned.exists_lines_source blank blankEnd tabWidth above
  obtain ⟨heading, text, found⟩ := adorned.outline_shownLines ended tabWidth number
  have stays (block : Block)
      (last : (outline (lines tabWidth above)).getLast? = some (.block block)) :
      ¬block.GoesOn more := by
    rw [adorned.goesOn_iff_takenBy placed]
    exact fun takes => free ⟨_, last, takes⟩
  obtain ⟨parts, alike, whole⟩ := outline_append_of_stays separate stays
  refine ⟨parts, heading, alike, text, ?_⟩
  rw [same, whole, outline_eq_outline_skipBlank more, placed, found]

end AdornedTitle

end RstPress.Layout

namespace RstPress.Document
open Text Source Layout RstPress.Tree

/-- If the title is taken, the elements of the source end with a transition. -/
theorem elementsOf_source_of_isTaken (adorned : AdornedTitle) {gap ending : List Char}
    (blank : ∀ c ∈ gap, isBlank c) (blankEnd : ∀ c ∈ ending, isBlank c) {tabWidth : Nat}
    {above : List Char}
    (taken : adorned.IsTaken tabWidth above) :
    ∃ front, elementsOf [] 0 (outline (lines tabWidth (adorned.source above gap ending))) =
      front ++ [.body .transition] := by
  obtain ⟨parts, whole⟩ := adorned.outline_source_of_isTaken blank blankEnd taken
  refine ⟨elementsOf [] 0 parts, ?_⟩
  rw [whole, elementsOf_append, elementsOf_block]
  rfl

theorem elementsOf_source_of_not_isTaken (adorned : AdornedTitle) {gap ending : List Char}
    (blank : ∀ c ∈ gap, isBlank c) (blankEnd : ∀ c ∈ ending, isBlank c) {tabWidth : Nat}
    {above : List Char}
    (free : ¬adorned.IsTaken tabWidth above) :
    ∃ depth, elementsOf [] 0 (outline (lines tabWidth (adorned.source above gap ending))) =
      elementsOf [] 0 (outline (lines tabWidth above)) ++
        [.title depth (Inline.nodes (adorned.shownText tabWidth))] := by
  obtain ⟨parts, heading, alike, text, whole⟩ :=
    adorned.outline_source_of_not_isTaken blank blankEnd free
  refine ⟨(depthOf (levels [] 0 parts).1 heading.style).1, ?_⟩
  rw [whole, elementsOf_append, elementsOf_heading, text, elementsOf_of_alike alike]
  rfl

/-- The elements of a source end with the adorned title below a blank line, and those of the text
above it stay, if and only if the last part of the text above does not take the title. -/
theorem title_opens_section_iff {options : ReadOptions} (lenient : options.strict = false)
    (adorned : AdornedTitle) (above : List Char) {gap ending : List Char}
    (blank : ∀ c ∈ gap, isBlank c)
    (blankEnd : ∀ c ∈ ending, isBlank c) :
    ∃ before found,
      parse options (String.ofList above) = .ok (.composite .document before) ∧
      parse options (String.ofList (adorned.source above gap ending)) =
        .ok (.composite .document found) ∧
      ((∃ front depth, flattenAll found =
          front ++ [.title depth (Inline.nodes (adorned.shownText options.tabWidth))]) ↔
        ¬adorned.IsTaken options.tabWidth above) ∧
      (¬adorned.IsTaken options.tabWidth above → ∃ depth, flattenAll found =
        flattenAll before ++ [.title depth
          (Inline.nodes (adorned.shownText options.tabWidth))]) := by
  refine ⟨_, _, parse_of_lenient options lenient _, parse_of_lenient options lenient _, ?_⟩
  simp only [flattenAll_sections_elementsOf, String.toList_ofList]
  refine ⟨⟨?_, ?_⟩, ?_⟩
  · rintro ⟨front, depth, same⟩ taken
    obtain ⟨others, whole⟩ := elementsOf_source_of_isTaken adorned blank blankEnd taken
    rw [whole] at same
    have last := congrArg List.getLast? same
    simp at last
  · intro free
    obtain ⟨depth, same⟩ := elementsOf_source_of_not_isTaken adorned blank blankEnd free
    exact ⟨_, depth, same⟩
  · intro free
    exact elementsOf_source_of_not_isTaken adorned blank blankEnd free

/-- The title of the text `2. Two`. -/
def numberedTitle : AdornedTitle where
  title :=
    { text := "2. Two".toList
      oneLine := by decide
      begins := ⟨'2', ". Two".toList, by decide, by decide, by decide⟩
      ends := ⟨"2. Tw".toList, 'o', by decide, by decide⟩ }
  mark := '='
  punctuation := by decide
  length := 6
  long := by decide
  overline := none

theorem title_opens_section_iff_numbered :
    ∃ before found,
      parse {} (String.ofList "Text".toList) = .ok (.composite .document before) ∧
      parse {} (String.ofList (numberedTitle.source "Text".toList [] ['\n'])) =
        .ok (.composite .document found) ∧
      ((∃ front depth, flattenAll found =
          front ++ [.title depth (Inline.nodes (numberedTitle.shownText 8))]) ↔
        ¬numberedTitle.IsTaken 8 "Text".toList) ∧
      (¬numberedTitle.IsTaken 8 "Text".toList → ∃ depth, flattenAll found =
        flattenAll before ++ [.title depth (Inline.nodes (numberedTitle.shownText 8))]) :=
  title_opens_section_iff rfl numberedTitle "Text".toList (List.forall_mem_nil _)
    (List.forall_mem_singleton.mpr (by decide))

theorem outline_of_one_item :
    ∃ items, outline (lines 8 "1. one".toList) = [.block (.list .enumerator items)] := by
  let line : Line := ⟨0, "1. one".toList, 1⟩
  have only : lines 8 "1. one".toList = [line] := by decide
  have kind : construct line [] = .list .enumerator := by decide
  have marked : Marker.enumerator.at? line = some 3 := by decide
  have rest : skipBlank (afterInset []) = [] := rfl
  rw [only, outline_of_piece (by decide) (by decide)]
  simp only [Piece.first, kind, Construct.take, listItems_of_marked [] marked, rest, listItems_nil,
    Prod.map, Piece.block_list, id_eq, outline_nil]
  exact ⟨_, rfl⟩

/-- An enumeration takes a title that begins with an enumerator: no section is opened. -/
theorem numbered_title_opens_no_section :
    ∃ found, parse {} "1. one\n\n2. Two\n======\n" = .ok (.composite .document found) ∧
      ∀ front depth title, flattenAll found ≠ front ++ [.title depth title] := by
  have whole : "1. one\n\n2. Two\n======\n" =
      String.ofList (numberedTitle.source "1. one".toList [] ['\n']) := by decide
  have taken : numberedTitle.IsTaken 8 "1. one".toList := by
    obtain ⟨items, one⟩ := outline_of_one_item
    exact ⟨.block (.list .enumerator items), by rw [one]; rfl, rfl, by decide⟩
  have nothing : ∀ c ∈ ([] : List Char), isBlank c := List.forall_mem_nil _
  have feed : ∀ c ∈ ['\n'], isBlank c := List.forall_mem_singleton.mpr (by decide)
  obtain ⟨others, same⟩ := elementsOf_source_of_isTaken numberedTitle nothing feed taken
  refine ⟨_, by rw [whole, parse_of_lenient _ rfl], ?_⟩
  intro front depth title equal
  rw [flattenAll_sections_elementsOf, String.toList_ofList, same] at equal
  have last := congrArg List.getLast? equal
  simp at last

end RstPress.Document

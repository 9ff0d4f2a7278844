import RstPress.Layout.Block
import RstPress.Proofs.Text

/-!
What a reader takes when a blank line and more text follow. It takes the same lines from the front
as before, unless it came to the end of the text and the lines that follow could still belong to it:
indented lines, the next item of a list, the next definition, an awaited literal block.
-/

namespace RstPress.Source
open Text

/-- The lines begin with a blank line, or there are none. -/
def startsBlank (lines : List Line) : Bool := lines.head?.all Line.isBlank

theorem skipBlank_append_of_ne_nil {lines : List Line} (filled : skipBlank lines ≠ [])
    (more : List Line) : skipBlank (lines ++ more) = skipBlank lines ++ more := by
  unfold skipBlank at filled ⊢
  rw [List.dropWhile_append, if_neg (mt List.isEmpty_iff.mp filled)]

theorem skipBlank_append_of_eq_nil {lines : List Line} (blank : skipBlank lines = [])
    (more : List Line) : skipBlank (lines ++ more) = skipBlank more := by
  unfold skipBlank at blank ⊢
  rw [List.dropWhile_append, if_pos (List.isEmpty_iff.mpr blank)]

theorem skipBlank_cons_of_filled {line : Line} (filled : line.isBlank = false)
    (rest : List Line) : skipBlank (line :: rest) = line :: rest := by
  rw [skipBlank, List.dropWhile_cons_of_neg (by simp [filled])]

theorem skipBlank_cons_of_isBlank {line : Line} (blank : line.isBlank) (rest : List Line) :
    skipBlank (line :: rest) = skipBlank rest :=
  List.dropWhile_cons_of_pos blank

theorem isBlank_of_skipBlank_eq_cons {lines rest : List Line} {next : Line}
    (found : skipBlank lines = next :: rest) : next.isBlank = false := by
  have stops := List.head?_dropWhile_not Line.isBlank lines
  rw [← skipBlank, found] at stops
  exact stops

theorem takeWhile_append_skipBlank (lines : List Line) :
    lines.takeWhile Line.isBlank ++ skipBlank lines = lines := List.takeWhile_append_dropWhile

/-- No inset block stands in front of the lines exactly if their first text is at the margin. -/
theorem insetBlock_eq_nil_iff {lines : List Line} :
    insetBlock lines = [] ↔ ∀ next rest, skipBlank lines = next :: rest → next.indent = 0 := by
  have blanks : ∀ line ∈ lines.takeWhile Line.isBlank, line.isInset := fun line member => by
    simp [Line.isInset, List.mem_takeWhile_imp member]
  have whole := takeWhile_append_skipBlank lines
  rw [insetBlock, dropEndWhile_eq_nil_iff]
  conv => lhs; rw [← whole, List.takeWhile_append_of_pos blanks]
  cases found : skipBlank lines with
  | nil => simpa using fun line member => List.mem_takeWhile_imp member
  | cons next rest =>
    have visible := isBlank_of_skipBlank_eq_cons found
    constructor
    · intro allBlank first others same
      cases same
      by_contra deep
      have inset : next.isInset := by simp [Line.isInset]; omega
      have blank := allBlank next (by simp [inset])
      simp [visible] at blank
    · intro flush line member
      have bare : next.isInset = false := by simp [Line.isInset, visible, flush next rest rfl]
      rw [List.takeWhile_cons_of_neg (by simp [bare]), List.append_nil] at member
      exact List.mem_takeWhile_imp member

theorem insetBlock_of_flush {lines rest : List Line} {next : Line}
    (found : skipBlank lines = next :: rest) (flush : next.indent = 0) : insetBlock lines = [] := by
  rw [insetBlock_eq_nil_iff]
  intro first others same
  rw [found, List.cons.injEq] at same
  rw [← same.1, flush]

/-- What is dropped from the end of some lines. -/
theorem skipBlank_ending (lines : List Line) :
    skipBlank (lines.reverse.takeWhile Line.isBlank).reverse = [] := by
  rw [skipBlank, List.dropWhile_eq_nil_iff]
  intro line member
  exact List.mem_takeWhile_imp (List.mem_reverse.mp member)

/-- A block in which no line is at the margin is followed by blank lines only. -/
theorem skipBlank_afterInset_of_all {lines : List Line} (inset : ∀ line ∈ lines, line.isInset) :
    skipBlank (afterInset lines) = [] := by
  have whole : insetBlock lines = dropEndWhile Line.isBlank lines := by
    rw [insetBlock, List.takeWhile_eq_self_iff.mpr inset]
  have ending := dropEndWhile_append_ending Line.isBlank lines
  rw [← whole] at ending
  have rest : afterInset lines = (lines.reverse.takeWhile Line.isBlank).reverse :=
    List.append_cancel_left ((insetBlock_append_afterInset lines).trans ending.symm)
  rw [rest, skipBlank_ending]

/-- An inset block ends where it did before if it did not reach the end of the lines, or if no inset
block follows. -/
theorem insetBlock_append {lines more : List Line}
    (bounded : skipBlank (afterInset lines) ≠ [] ∨ insetBlock more = []) :
    insetBlock (lines ++ more) = insetBlock lines := by
  by_cases inset : ∀ line ∈ lines, line.isInset
  · have none := bounded.resolve_left (not_not_intro (skipBlank_afterInset_of_all inset))
    rw [insetBlock, List.takeWhile_append_of_pos inset, dropEndWhile_append_of_eq_nil none,
      insetBlock, List.takeWhile_eq_self_iff.mpr inset]
  · have short : (lines.takeWhile Line.isInset).length ≠ lines.length := by
      intro same
      have whole := (List.takeWhile_prefix Line.isInset (l := lines)).eq_of_length same
      exact inset (List.takeWhile_eq_self_iff.mp whole)
    rw [insetBlock, List.takeWhile_append, if_neg short, insetBlock]

theorem afterInset_append {lines more : List Line}
    (bounded : skipBlank (afterInset lines) ≠ [] ∨ insetBlock more = []) :
    afterInset (lines ++ more) = afterInset lines ++ more := by
  rw [afterInset, insetBlock_append bounded, afterInset,
    List.drop_append_of_le_length (insetBlock_isPrefix lines).length_le]

end RstPress.Source

namespace RstPress.Layout
open Text Source

/-- A list that ended in front of a line still ends there. -/
theorem listItems_append_of_ne_nil {marker : Marker} {lines : List Line}
    (ended : (listItems marker lines).2 ≠ []) (more : List Line) :
    listItems marker (lines ++ more) =
      ((listItems marker lines).1, (listItems marker lines).2 ++ more) := by
  fun_induction listItems marker lines with
  | case1 => simp at ended
  | case2 line rest unmarked => exact listItems_of_unmarked _ unmarked
  | case3 line rest width marked items remaining taken ih =>
    have filled : skipBlank (afterInset rest) ≠ [] := by
      intro blank
      rw [blank, listItems_nil] at taken
      exact ended (Prod.mk.inj taken).2.symm
    rw [taken] at ih
    rw [List.cons_append, listItems_of_marked _ marked, insetBlock_append (.inl filled),
      afterInset_append (.inl filled), skipBlank_append_of_ne_nil filled, ih ended]

/-- A list that came to the end of the text goes on with the items that follow. -/
theorem listItems_append_of_eq_nil {marker : Marker} {lines more : List Line} (filled : lines ≠ [])
    (whole : (listItems marker lines).2 = []) (bounded : insetBlock more = []) :
    listItems marker (lines ++ more) =
      ((listItems marker lines).1 ++ (listItems marker (skipBlank more)).1,
        (listItems marker (skipBlank more)).2) := by
  fun_induction listItems marker lines with
  | case1 => simp at filled
  | case2 line rest unmarked => simp at whole
  | case3 line rest width marked items remaining taken ih =>
    rw [taken] at ih
    rw [List.cons_append, listItems_of_marked _ marked, insetBlock_append (.inr bounded),
      afterInset_append (.inr bounded)]
    by_cases blank : skipBlank (afterInset rest) = []
    · rw [blank, listItems_nil] at taken
      rw [skipBlank_append_of_eq_nil blank, ← (Prod.mk.inj taken).1]
      rfl
    · rw [skipBlank_append_of_ne_nil blank, ih blank whole]
      rfl

theorem startsDefinition_append {more : List Line} (separate : startsBlank more) (line : Line)
    (rest : List Line) :
    startsDefinition (line :: (rest ++ more)) = startsDefinition (line :: rest) := by
  cases rest with
  | cons next rest => rfl
  | nil =>
    cases more with
    | nil => rfl
    | cons blank more =>
      simp only [startsBlank, List.head?_cons, Option.all_some] at separate
      simp [startsDefinition, separate]

theorem definitions_append_of_ne_nil {lines more : List Line} (separate : startsBlank more)
    (ended : (definitions lines).2 ≠ []) :
    definitions (lines ++ more) = ((definitions lines).1, (definitions lines).2 ++ more) := by
  fun_induction definitions lines with
  | case1 => simp at ended
  | case2 term rest starts items remaining taken ih =>
    have filled : skipBlank (afterInset rest) ≠ [] := by
      intro blank
      rw [blank, definitions_nil] at taken
      exact ended (Prod.mk.inj taken).2.symm
    rw [← startsDefinition_append separate] at starts
    rw [taken] at ih
    rw [List.cons_append, definitions_of_starts starts, insetBlock_append (.inl filled),
      afterInset_append (.inl filled), skipBlank_append_of_ne_nil filled, ih ended]
  | case3 term rest ends =>
    rw [← startsDefinition_append separate, Bool.not_eq_true] at ends
    exact definitions_of_not_starts ends

theorem definitions_append_of_eq_nil {lines more : List Line} (separate : startsBlank more)
    (filled : lines ≠ []) (whole : (definitions lines).2 = []) (bounded : insetBlock more = []) :
    definitions (lines ++ more) =
      ((definitions lines).1 ++ (definitions (skipBlank more)).1,
        (definitions (skipBlank more)).2) := by
  fun_induction definitions lines with
  | case1 => simp at filled
  | case2 term rest starts items remaining taken ih =>
    rw [← startsDefinition_append separate] at starts
    rw [taken] at ih
    rw [List.cons_append, definitions_of_starts starts, insetBlock_append (.inr bounded),
      afterInset_append (.inr bounded)]
    by_cases blank : skipBlank (afterInset rest) = []
    · rw [blank, definitions_nil] at taken
      rw [skipBlank_append_of_eq_nil blank, ← (Prod.mk.inj taken).1]
      rfl
    · rw [skipBlank_append_of_ne_nil blank, ih blank whole]
      rfl
  | case3 term rest ends => simp at whole

theorem barAt?_of_isBlank {line : Line} (blank : line.isBlank) : barAt? line = none := by
  simp only [Line.isBlank, List.isEmpty_iff] at blank
  simp [barAt?, blank, barContent?]

/-- A line block ends at a blank line. -/
theorem entries_append {more : List Line} (separate : startsBlank more) (above : Nat)
    (lines : List Line) :
    entries above (lines ++ more) = ((entries above lines).1, (entries above lines).2 ++ more) := by
  have stops : more.head?.all fun line => !continuesEntry line := by
    cases more with
    | nil => rfl
    | cons blank more => simp_all [startsBlank, continuesEntry]
  fun_induction entries above lines with
  | case1 above =>
    cases more with
    | nil => simp
    | cons blank more =>
      exact entries_of_no_bar above more (barAt?_of_isBlank (by simpa [startsBlank] using separate))
  | case2 above line rest none => exact entries_of_no_bar above _ none
  | case3 above line rest content bar indent others remaining taken ih =>
    rw [taken] at ih
    rw [List.cons_append, entries_of_bar above _ bar, takeWhile_append_of_head stops,
      dropWhile_append_of_head stops, ih]

/-- The literal block that a paragraph waits for is the same if it does not reach the end. -/
theorem announced_append_of_ne_nil {previous : Nat} {lines : List Line}
    (ended : skipBlank (announced previous lines).2 ≠ []) (more : List Line) :
    announced previous (lines ++ more) =
      ((announced previous lines).1, (announced previous lines).2 ++ more) := by
  unfold announced at ended ⊢
  cases found : skipBlank lines with
  | nil => simp [found] at ended
  | cons next rest =>
    have longer : skipBlank (lines ++ more) = next :: (rest ++ more) := by
      rw [skipBlank_append_of_ne_nil (by simp [found]), found, List.cons_append]
    simp only [found, longer] at ended ⊢
    by_cases inset : 0 < next.indent
    · simp only [inset, ↓reduceIte] at ended ⊢
      rw [← List.cons_append, insetBlock_append (.inl ended), afterInset_append (.inl ended)]
    · simp only [inset, ↓reduceIte]

/-- What came of an awaited literal block, the line that shows its absence apart. -/
inductive Announced.Alike : Announced → Announced → Prop where
  | same (announced : Announced) : Announced.Alike announced announced
  | missing (line other : Nat) : Announced.Alike (.missing line) (.missing other)

theorem announced_append_of_eq_nil {previous : Nat} {lines more : List Line}
    (whole : skipBlank (announced previous lines).2 = []) (bounded : insetBlock more = []) :
    ∃ literal, (announced previous lines).1.Alike literal ∧
      announced previous (lines ++ more) = (literal, (announced previous lines).2 ++ more) := by
  unfold announced at whole ⊢
  cases found : skipBlank lines with
  | nil =>
    rw [skipBlank_append_of_eq_nil found]
    cases next : skipBlank more with
    | nil => exact ⟨_, .same _, rfl⟩
    | cons first rest =>
      have flush := insetBlock_eq_nil_iff.mp bounded first rest next
      exact ⟨_, .missing _ first.number, by simp [flush]⟩
  | cons next rest =>
    have longer : skipBlank (lines ++ more) = next :: (rest ++ more) := by
      rw [skipBlank_append_of_ne_nil (by simp [found]), found, List.cons_append]
    simp only [found, longer] at whole ⊢
    by_cases inset : 0 < next.indent
    · simp only [inset, ↓reduceIte] at whole ⊢
      refine ⟨_, .same _, ?_⟩
      rw [← List.cons_append, insetBlock_append (.inr bounded), afterInset_append (.inr bounded)]
    · simp [inset, found] at whole

theorem interruption?_append {more : List Line} (separate : startsBlank more) (lines : List Line) :
    interruption? (lines ++ more) = interruption? lines := by
  cases lines with
  | cons next rest => rfl
  | nil =>
    cases more with
    | nil => rfl
    | cons blank more => simp_all [interruption?, startsBlank]

/-- The lines of a paragraph end in front of a blank line. -/
theorem paragraph_append {more : List Line} (separate : startsBlank more) (line : Line)
    (rest : List Line) :
    paragraph line (rest ++ more) =
      paragraphOf line (rest.takeWhile continuesParagraph)
        (rest.dropWhile continuesParagraph ++ more) := by
  have stops : more.head?.all fun line => !continuesParagraph line := by
    cases more with
    | nil => rfl
    | cons blank more => simp_all [startsBlank, continuesParagraph]
  rw [paragraph, takeWhile_append_of_head stops, dropWhile_append_of_head stops]

theorem paragraph_append_of_ne_nil {line : Line} {rest more : List Line}
    (separate : startsBlank more) (ended : skipBlank (paragraph line rest).2 ≠ []) :
    paragraph line (rest ++ more) = ((paragraph line rest).1, (paragraph line rest).2 ++ more) := by
  rw [paragraph_append separate]
  simp only [paragraph, paragraphOf, interruption?_append separate] at ended ⊢
  split at ended
  · rename_i announces
    simp only [announces, ↓reduceIte, announced_append_of_ne_nil ended more]
  · rename_i quiet
    simp only [quiet, Bool.false_eq_true, ↓reduceIte]

/-- At the end of the text a paragraph may miss its literal block at another line than before. -/
theorem paragraph_append_of_eq_nil {line : Line} {rest more : List Line}
    (separate : startsBlank more) (whole : skipBlank (paragraph line rest).2 = [])
    (bounded : (paragraph line rest).1.literal ≠ .nothing → insetBlock more = []) :
    ∃ literal, (paragraph line rest).1.literal.Alike literal ∧
      paragraph line (rest ++ more) =
        ({ (paragraph line rest).1 with literal }, (paragraph line rest).2 ++ more) := by
  rw [paragraph_append separate]
  simp only [paragraph, paragraphOf, interruption?_append separate] at whole bounded ⊢
  split at whole
  · rename_i announces
    simp only [announces, ↓reduceIte] at bounded ⊢
    obtain ⟨literal, alike, longer⟩ := announced_append_of_eq_nil whole (bounded (by
      unfold announced
      split
      · simp
      · split <;> simp))
    exact ⟨literal, alike, by rw [longer]⟩
  · rename_i quiet
    simp only [quiet, Bool.false_eq_true, ↓reduceIte]
    exact ⟨_, .same _, rfl⟩

theorem overlined?_append {more : List Line} (separate : startsBlank more) (line : Line)
    (rest : List Line) :
    overlined? (line :: (rest ++ more)) =
      (overlined? (line :: rest)).map fun found => (found.1, found.2 ++ more) := by
  match rest, more with
  | title :: below :: rest, more =>
    simp only [overlined?, List.cons_append]
    cases adornment? line.text with
    | none => rfl
    | some mark => dsimp only; split <;> rfl
  | [], [] | [_], [] | [], [_] => rfl
  | [], blank :: next :: more =>
    simp only [startsBlank, List.head?_cons, Option.all_some] at separate
    simp only [overlined?, List.nil_append]
    cases adornment? line.text with
    | none => rfl
    | some mark => simp [separate]
  | [title], blank :: more =>
    simp only [startsBlank, List.head?_cons, Option.all_some, Line.isBlank,
      List.isEmpty_iff] at separate
    simp only [overlined?, List.cons_append, List.nil_append]
    cases adornment? line.text with
    | none => rfl
    | some mark => simp [separate, adornment?]

theorem underlined?_append {more : List Line} (separate : startsBlank more) (line : Line)
    (rest : List Line) :
    underlined? (line :: (rest ++ more)) =
      (underlined? (line :: rest)).map fun found => (found.1, found.2 ++ more) := by
  match rest, more with
  | below :: rest, more =>
    simp only [underlined?, List.cons_append]
    cases adornment? below.text with
    | none => rfl
    | some mark => dsimp only; split <;> rfl
  | [], [] => rfl
  | [], blank :: more =>
    simp only [startsBlank, List.head?_cons, Option.all_some, Line.isBlank,
      List.isEmpty_iff] at separate
    simp [underlined?, separate, adornment?]

/-- No blank line belongs to a heading. -/
theorem headingAt?_append {more : List Line} (separate : startsBlank more) (line : Line)
    (rest : List Line) :
    headingAt? line (rest ++ more) =
      (headingAt? line rest).map fun found => (found.1, found.2 ++ more) := by
  unfold headingAt? heading?
  rw [overlined?_append separate, underlined?_append separate]
  split
  · cases overlined? (line :: rest) <;> rfl
  · rfl

theorem headingAt?_append_of_none {line : Line} {rest more : List Line}
    (separate : startsBlank more) (none : headingAt? line rest = .none) :
    headingAt? line (rest ++ more) = .none := by
  rw [headingAt?_append separate, none]
  rfl

theorem headingAt?_append_of_some {line : Line} {rest after more : List Line} {heading : Heading}
    (separate : startsBlank more) (found : headingAt? line rest = some (heading, after)) :
    headingAt? line (rest ++ more) = some (heading, after ++ more) := by
  rw [headingAt?_append separate, found]
  rfl

/-- A block that came to the end of the text would take these lines as well. -/
def Block.GoesOn (more : List Line) : Block → Prop
  | .quote _ => insetBlock more ≠ []
  | .list marker _ => insetBlock more ≠ [] ∨ (listItems marker (skipBlank more)).1 ≠ []
  | .definitionList _ => insetBlock more ≠ [] ∨ startsDefinition (skipBlank more)
  | .paragraph text => text.literal ≠ .nothing ∧ insetBlock more ≠ []
  | .stray _ | .transition | .item _ | .lineBlock _ | .definition _ _ => False

/-- Blocks that differ at most in the line at which a literal block is missing. -/
inductive Block.Alike : Block → Block → Prop where
  | same (block : Block) : Block.Alike block block
  | paragraph {text : Paragraph} {literal : Announced} (alike : text.literal.Alike literal) :
      Block.Alike (.paragraph text) (.paragraph { text with literal })

theorem startsTransition_append {more : List Line} (separate : startsBlank more) (line : Line)
    (rest : List Line) : startsTransition line (rest ++ more) = startsTransition line rest := by
  cases rest with
  | cons next rest => rfl
  | nil => simp_all [startsTransition, startsBlank]

theorem listMarker?_append {more : List Line} (separate : startsBlank more) (line : Line)
    (rest : List Line) : listMarker? line (rest ++ more) = listMarker? line rest := by
  have same : startsEnumeration line (rest ++ more) = startsEnumeration line rest := by
    cases rest with
    | cons next rest => rfl
    | nil =>
      cases more with
      | nil => rfl
      | cons blank more => simp_all [startsEnumeration, startsBlank]
  rw [listMarker?, same, listMarker?]

theorem construct_append {more : List Line} (separate : startsBlank more) (line : Line)
    (rest : List Line) : construct line (rest ++ more) = construct line rest := by
  rw [construct, startsTransition_append separate, listMarker?_append separate,
    startsDefinition_append separate, construct]

/-- A piece after which there is more text takes no line of what follows. -/
theorem Piece.first_append_of_ne_nil {line : Line} {rest more : List Line}
    (separate : startsBlank more) (ended : skipBlank (Piece.first line rest).2 ≠ []) :
    Piece.first line (rest ++ more) =
      ((Piece.first line rest).1, (Piece.first line rest).2 ++ more) := by
  unfold Piece.first at ended ⊢
  rw [construct_append separate]
  cases kind : construct line rest with
  | quote =>
    rw [kind] at ended
    simp only [Construct.take] at ended ⊢
    rw [← List.cons_append, insetBlock_append (.inl ended), afterInset_append (.inl ended)]
  | transition => rfl
  | list marker =>
    rw [kind] at ended
    simp only [Construct.take, Prod.map_snd, id_eq] at ended ⊢
    have filled : (listItems marker (line :: rest)).2 ≠ [] := fun none => ended (by rw [none]; rfl)
    rw [← List.cons_append, listItems_append_of_ne_nil filled]
    rfl
  | lineBlock =>
    simp only [Construct.take]
    rw [← List.cons_append, entries_append separate]
    rfl
  | definitionList =>
    rw [kind] at ended
    simp only [Construct.take, Prod.map_snd, id_eq] at ended ⊢
    have filled : (definitions (line :: rest)).2 ≠ [] := fun none => ended (by rw [none]; rfl)
    rw [← List.cons_append, definitions_append_of_ne_nil separate filled]
    rfl
  | paragraph =>
    rw [kind] at ended
    simp only [Construct.take, Prod.map_snd, id_eq] at ended ⊢
    rw [paragraph_append_of_ne_nil separate ended]
    rfl

theorem skipBlank_skipBlank (lines : List Line) :
    skipBlank (skipBlank lines) = skipBlank lines := by
  cases found : skipBlank lines with
  | nil => rfl
  | cons next rest => exact skipBlank_cons_of_filled (isBlank_of_skipBlank_eq_cons found) rest

/-- After a list stands a line that is not blank, or nothing. -/
theorem skipBlank_listItems {marker : Marker} {lines : List Line}
    (settled : skipBlank lines = lines) :
    skipBlank (listItems marker lines).2 = (listItems marker lines).2 := by
  fun_induction listItems marker lines with
  | case1 => rfl
  | case2 line rest unmarked => exact settled
  | case3 line rest width marked items remaining taken ih =>
    rw [taken] at ih
    exact ih (skipBlank_skipBlank _)

theorem skipBlank_definitions {lines : List Line} (settled : skipBlank lines = lines) :
    skipBlank (definitions lines).2 = (definitions lines).2 := by
  fun_induction definitions lines with
  | case1 => rfl
  | case2 term rest starts items remaining taken ih =>
    rw [taken] at ih
    exact ih (skipBlank_skipBlank _)
  | case3 term rest ends => exact settled

theorem listItems_snd_of_fst_eq_nil {marker : Marker} {lines : List Line}
    (none : (listItems marker lines).1 = []) : (listItems marker lines).2 = lines := by
  cases lines with
  | nil => rw [listItems_nil]
  | cons line rest =>
    cases marked : marker.at? line with
    | none => rw [listItems_of_unmarked rest marked]
    | some width =>
      rw [listItems_of_marked rest marked] at none
      exact absurd none (List.cons_ne_nil _ _)

theorem listItems_fst_ne_nil_iff {marker : Marker} {line : Line} {rest : List Line} :
    (listItems marker (line :: rest)).1 ≠ [] ↔ (marker.at? line).isSome := by
  refine ⟨fun filled => ?_, listItems_ne_nil⟩
  by_contra unmarked
  rw [Option.not_isSome_iff_eq_none] at unmarked
  exact filled (by rw [listItems_of_unmarked rest unmarked])

theorem definitions_of_not_startsDefinition {lines : List Line} (ends : ¬startsDefinition lines) :
    definitions lines = ([], lines) := by
  cases lines with
  | nil => exact definitions_nil
  | cons term rest => exact definitions_of_not_starts (by simpa using ends)

/-- A piece at the end of the text, followed by a blank line and by text that it cannot go on with,
is read as before. -/
theorem Piece.first_append_of_eq_nil {line : Line} {rest more : List Line}
    (separate : startsBlank more) (filled : line.isBlank = false)
    (whole : skipBlank (Piece.first line rest).2 = [])
    (stays : ¬(Piece.first line rest).1.block.GoesOn more) :
    (Piece.first line rest).1.block.Alike (Piece.first line (rest ++ more)).1.block ∧
      skipBlank (Piece.first line (rest ++ more)).2 = skipBlank more := by
  have settled := skipBlank_cons_of_filled filled rest
  unfold Piece.first at whole stays ⊢
  rw [construct_append separate]
  cases kind : construct line rest with
  | quote =>
    simp only [kind, Construct.take, Piece.block_quote, Block.GoesOn, ne_eq,
      not_not] at whole stays ⊢
    rw [← List.cons_append, insetBlock_append (.inr stays), afterInset_append (.inr stays),
      skipBlank_append_of_eq_nil whole]
    exact ⟨.same _, rfl⟩
  | transition =>
    simp only [kind, Construct.take] at whole ⊢
    exact ⟨.same _, skipBlank_append_of_eq_nil whole more⟩
  | list marker =>
    simp only [kind, Construct.take, Piece.block_list, Block.GoesOn, Prod.map_fst, Prod.map_snd,
      id_eq, ne_eq, not_or, not_not] at whole stays ⊢
    rw [skipBlank_listItems settled] at whole
    rw [← List.cons_append, listItems_append_of_eq_nil (List.cons_ne_nil _ _) whole stays.1,
      stays.2, List.append_nil, listItems_snd_of_fst_eq_nil stays.2]
    exact ⟨.same _, skipBlank_skipBlank more⟩
  | lineBlock =>
    simp only [kind, Construct.take, Prod.map_fst, Prod.map_snd, id_eq] at whole ⊢
    rw [← List.cons_append, entries_append separate]
    exact ⟨.same _, skipBlank_append_of_eq_nil whole more⟩
  | definitionList =>
    simp only [kind, Construct.take, Piece.block_definitionList, Block.GoesOn, Prod.map_fst,
      Prod.map_snd, id_eq, ne_eq, not_or, not_not] at whole stays ⊢
    rw [skipBlank_definitions settled] at whole
    rw [← List.cons_append,
      definitions_append_of_eq_nil separate (List.cons_ne_nil _ _) whole stays.1,
      definitions_of_not_startsDefinition stays.2, List.append_nil]
    exact ⟨.same _, skipBlank_skipBlank more⟩
  | paragraph =>
    simp only [kind, Construct.take, Piece.block_paragraph, Block.GoesOn, Prod.map_fst,
      Prod.map_snd, id_eq, ne_eq, not_and, not_not] at whole stays ⊢
    obtain ⟨literal, alike, longer⟩ := paragraph_append_of_eq_nil separate whole stays
    rw [longer]
    exact ⟨.paragraph alike, skipBlank_append_of_eq_nil whole more⟩

end RstPress.Layout

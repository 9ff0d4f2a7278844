import RstPress.Proofs.Spacing.Condense

/-!
How many blank lines stand between other lines does not show in the outline of a text, as long as no
paragraph announces a literal block. To see this, each run of blank lines is condensed to a single one.
Whatever takes lines from the front of a text takes the same from the condensed text, with its nested
bodies condensed, and leaves the condensed rest.
-/

namespace RstPress.Layout
open Text Source

/-- What holds of the next line, if it is there and not blank, holds of it in the condensed text. -/
theorem all_head?_condense {p : Line → Bool} (blank : ∀ line, line.isBlank → p line) (lines : List Line) :
    (condense lines).head?.all p = lines.head?.all p := by
  cases lines with
  | nil => simp
  | cons line rest =>
    cases filled : line.isBlank with
    | true => simp [condense_of_blank filled, blank line filled, blank .space rfl]
    | false => rw [condense_of_filled filled, List.head?_cons, List.head?_cons]

theorem overlined?_of_blank_title {above title : Line} (blank : title.isBlank) (rest : List Line) :
    overlined? (above :: title :: rest) = none := by
  cases rest with
  | nil => rfl
  | cons below rest =>
    simp only [overlined?, blank]
    cases adornment? above.text <;> rfl

theorem overlined?_of_blank_below {above title below : Line} (blank : below.isBlank) (rest : List Line) :
    overlined? (above :: title :: below :: rest) = none := by
  have empty : below.text = [] := List.isEmpty_iff.mp blank
  simp only [overlined?, empty]
  cases adornment? above.text <;> simp [adornment?]

theorem underlined?_of_blank_below {title below : Line} (blank : below.isBlank) (rest : List Line) :
    underlined? (title :: below :: rest) = none := by
  have empty : below.text = [] := List.isEmpty_iff.mp blank
  simp only [underlined?, empty]
  rfl

theorem overlined?_condense (above : Line) (rest : List Line) :
    overlined? (above :: condense rest) = (overlined? (above :: rest)).map (Prod.map id condense) := by
  match rest with
  | [] => simp [overlined?]
  | [title] => cases filled : title.isBlank <;> simp [condense, filled, skipBlank, overlined?]
  | title :: below :: rest =>
    cases titled : title.isBlank with
    | true =>
      rw [condense_of_blank titled, overlined?_of_blank_title rfl, overlined?_of_blank_title titled]
      rfl
    | false =>
      cases adorned : below.isBlank with
      | true =>
        rw [condense_of_filled titled, condense_of_blank adorned, overlined?_of_blank_below rfl,
          overlined?_of_blank_below adorned]
        rfl
      | false =>
        rw [condense_of_filled titled, condense_of_filled adorned]
        simp only [overlined?]
        cases adornment? above.text with
        | none => rfl
        | some mark =>
          dsimp only
          rw [apply_ite (Option.map _)]
          rfl

theorem underlined?_condense (title : Line) (rest : List Line) :
    underlined? (title :: condense rest) = (underlined? (title :: rest)).map (Prod.map id condense) := by
  cases rest with
  | nil => simp [underlined?]
  | cons below rest =>
    cases adorned : below.isBlank with
    | true =>
      rw [condense_of_blank adorned, underlined?_of_blank_below rfl, underlined?_of_blank_below adorned]
      rfl
    | false =>
      rw [condense_of_filled adorned]
      simp only [underlined?]
      cases adornment? below.text with
      | none => rfl
      | some mark =>
        dsimp only
        rw [apply_ite (Option.map _)]
        rfl

/-- The lines of a heading are not blank, and it leaves what comes after them. -/
theorem headingAt?_condense (line : Line) (rest : List Line) :
    headingAt? line (condense rest) = (headingAt? line rest).map (Prod.map id condense) := by
  unfold headingAt? heading?
  rw [overlined?_condense, underlined?_condense]
  split
  · cases overlined? (line :: rest) <;> rfl
  · rfl

theorem itemBody_condense (width : Nat) (line : Line) (block : List Line) :
    itemBody width line (condense block) = condense (itemBody width line block) := by
  simp only [itemBody, map_dedent_condense, dedentBlock_condense]
  split
  · rfl
  · rename_i shown
    have filled : Line.isBlank ⟨0, trimStart (line.text.drop width), line.number⟩ = false := by
      simpa [Line.isBlank] using shown
    rw [condense_of_filled filled]

theorem at?_space (marker : Marker) : marker.at? .space = none := by
  cases marker <;> rfl

theorem at?_of_isBlank (marker : Marker) {line : Line} (blank : line.isBlank) : marker.at? line = none := by
  have empty : line.text = [] := List.isEmpty_iff.mp blank
  rw [Marker.at?, empty]
  cases marker <;> simp [Marker.width?]

theorem listItems_condense (marker : Marker) (lines : List Line) :
    listItems marker (condense lines) =
      (listItems marker lines).map (List.map condense) condense := by
  fun_induction listItems marker lines with
  | case1 => simp
  | case2 line rest unmarked =>
    cases filled : line.isBlank with
    | true =>
      rw [condense_of_blank filled, listItems_of_unmarked _ (at?_space marker)]
      simp [condense_of_blank filled]
    | false =>
      rw [condense_of_filled filled, listItems_of_unmarked _ unmarked]
      simp [condense_of_filled filled]
  | case3 line rest width marked items remaining taken ih =>
    have filled : line.isBlank = false := by
      rw [← Bool.not_eq_true]
      intro blank
      rw [at?_of_isBlank marker blank] at marked
      cases marked
    rw [taken] at ih
    rw [condense_of_filled filled, listItems_of_marked _ marked, insetBlock_condense,
      afterInset_condense, skipBlank_condense, ih, itemBody_condense]
    rfl

theorem startsDefinition_condense (term : Line) (rest : List Line) :
    startsDefinition (term :: condense rest) = startsDefinition (term :: rest) := by
  cases rest with
  | nil => simp
  | cons next rest =>
    cases filled : next.isBlank with
    | true => simp [condense_of_blank filled, startsDefinition, filled]
    | false => simp [condense_of_filled filled, startsDefinition]

theorem definitions_condense (lines : List Line) :
    definitions (condense lines) =
      (definitions lines).map (List.map (Prod.map id condense)) condense := by
  fun_induction definitions lines with
  | case1 => simp
  | case2 term rest starts items remaining taken ih =>
    have filled := isBlank_of_startsDefinition starts
    rw [← startsDefinition_condense] at starts
    rw [taken] at ih
    rw [condense_of_filled filled, definitions_of_starts starts, insetBlock_condense,
      afterInset_condense, skipBlank_condense, dedentBlock_condense, ih]
    rfl
  | case3 term rest ends =>
    cases filled : term.isBlank with
    | true =>
      have none : startsDefinition (Line.space :: condense (skipBlank rest)) = false := by
        rw [← Bool.not_eq_true]
        intro starts
        cases isBlank_of_startsDefinition starts
      rw [condense_of_blank filled, definitions_of_not_starts none]
      simp [condense_of_blank filled]
    | false =>
      rw [← startsDefinition_condense, Bool.not_eq_true] at ends
      rw [condense_of_filled filled, definitions_of_not_starts ends]
      simp [condense_of_filled filled]

/-- Lines up to a blank one are not changed by condensing. -/
theorem takeWhile_condense {p : Line → Bool} (stops : ∀ line, line.isBlank → p line = false)
    (lines : List Line) :
    (condense lines).takeWhile p = lines.takeWhile p ∧
      (condense lines).dropWhile p = condense (lines.dropWhile p) := by
  induction lines with
  | nil => simp
  | cons line rest ih =>
    cases filled : line.isBlank with
    | true =>
      have here := stops line filled
      have space := stops Line.space rfl
      rw [condense_of_blank filled, List.takeWhile_cons_of_neg (by simp [space]),
        List.takeWhile_cons_of_neg (by simp [here]), List.dropWhile_cons_of_neg (by simp [space]),
        List.dropWhile_cons_of_neg (by simp [here]), condense_of_blank filled]
      exact ⟨rfl, rfl⟩
    | false =>
      rw [condense_of_filled filled]
      by_cases goes : p line
      · rw [List.takeWhile_cons_of_pos goes, List.takeWhile_cons_of_pos goes,
          List.dropWhile_cons_of_pos goes, List.dropWhile_cons_of_pos goes, ih.1]
        exact ⟨rfl, ih.2⟩
      · rw [List.takeWhile_cons_of_neg goes, List.takeWhile_cons_of_neg goes,
          List.dropWhile_cons_of_neg goes, List.dropWhile_cons_of_neg goes, condense_of_filled filled]
        exact ⟨rfl, rfl⟩

theorem entries_condense (above : Nat) (lines : List Line) :
    entries above (condense lines) = (entries above lines).map id condense := by
  have stops : ∀ line : Line, line.isBlank → continuesEntry line = false := fun line blank => by
    simp [continuesEntry, blank]
  fun_induction entries above lines with
  | case1 => simp
  | case2 above line rest none =>
    cases filled : line.isBlank with
    | true =>
      rw [condense_of_blank filled, entries_of_no_bar above _ rfl]
      simp [condense_of_blank filled]
    | false =>
      rw [condense_of_filled filled, entries_of_no_bar above _ none]
      simp [condense_of_filled filled]
  | case3 above line rest content bar indent others remaining taken ih =>
    have filled : line.isBlank = false := by
      rw [← Bool.not_eq_true]
      intro blank
      rw [barAt?_of_isBlank blank] at bar
      cases bar
    obtain ⟨taken?, dropped⟩ := takeWhile_condense stops rest
    rw [taken] at ih
    rw [condense_of_filled filled, entries_of_bar above _ bar, taken?, dropped, ih]
    rfl

theorem interruption?_condense (lines : List Line) :
    interruption? (condense lines) = interruption? lines := by
  cases lines with
  | nil => simp
  | cons next rest =>
    cases filled : next.isBlank with
    | true => simp [condense_of_blank filled, interruption?, filled]
    | false => simp [condense_of_filled filled, interruption?]

/-- No line ends in two colons, so no paragraph announces a literal block. -/
def Quiet (lines : List Line) : Prop := ∀ line ∈ lines, unannounced? line.text = none

theorem paragraph_condense {line : Line} {rest : List Line} (quiet : Quiet (line :: rest)) :
    paragraph line (condense rest) = (paragraph line rest).map id condense := by
  have stops : ∀ line : Line, line.isBlank → continuesParagraph line = false := fun line blank => by
    simp [continuesParagraph, blank]
  obtain ⟨taken, dropped⟩ := takeWhile_condense stops rest
  have texts : paragraphTexts ((line :: rest.takeWhile continuesParagraph).map Line.text) =
      ((line :: rest.takeWhile continuesParagraph).map Line.text, false) := by
    refine paragraphTexts_of_unannounced (List.forall_mem_map.mpr fun other member => ?_)
    exact quiet other (List.Sublist.cons_cons line (List.takeWhile_sublist _) |>.subset member)
  rw [paragraph, taken, dropped, paragraph]
  simp only [paragraphOf, texts, interruption?_condense]
  rfl

def Piece.condense : Piece → Piece
  | .quote body => .quote (Source.condense body)
  | .transition => .transition
  | .list marker items => .list marker (items.map Source.condense)
  | .lineBlock entries => .lineBlock entries
  | .definitionList items => .definitionList (items.map (Prod.map id Source.condense))
  | .paragraph text => .paragraph text

theorem construct_condense (line : Line) (rest : List Line) :
    construct line (Source.condense rest) = construct line rest := by
  have transition : startsTransition line (Source.condense rest) = startsTransition line rest := by
    rw [startsTransition, all_head?_condense fun _ blank => blank, startsTransition]
  have enumeration : startsEnumeration line (Source.condense rest) = startsEnumeration line rest := by
    rw [startsEnumeration, all_head?_condense fun next blank => by simp [blank], startsEnumeration]
  simp only [construct, listMarker?, transition, enumeration, startsDefinition_condense]

/-- The first piece of a condensed text is that of the text, condensed. -/
theorem Piece.first_condense {line : Line} {rest : List Line} (filled : line.isBlank = false)
    (quiet : Quiet (line :: rest)) :
    Piece.first line (Source.condense rest) =
      (Piece.first line rest).map Piece.condense Source.condense := by
  have whole := condense_of_filled filled rest
  rw [Piece.first, construct_condense, Piece.first]
  cases construct line rest with
  | quote =>
    simp only [Construct.take]
    rw [← whole, insetBlock_condense, dedentBlock_condense, afterInset_condense]
    rfl
  | transition => rfl
  | list marker =>
    simp only [Construct.take]
    rw [← whole, listItems_condense]
    rfl
  | lineBlock =>
    simp only [Construct.take]
    rw [← whole, entries_condense]
    rfl
  | definitionList =>
    simp only [Construct.take]
    rw [← whole, definitions_condense]
    rfl
  | paragraph =>
    simp only [Construct.take]
    rw [paragraph_condense quiet]
    rfl

theorem strays_condense (line : Line) (rest : List Line) :
    strays line (Source.condense rest) = strays line rest := by
  rw [strays, headingAt?_condense, strays]
  cases headingAt? line rest <;> rfl

/-- A piece becomes the same block if its condensed bodies do. -/
theorem Piece.block_condense (piece : Piece)
    (arranged : ∀ body ∈ piece.bodies, arrange (Source.condense body) = arrange body) :
    piece.condense.block = piece.block := by
  cases piece with
  | quote body =>
    simp only [Piece.condense, Piece.block_quote, arranged body (List.mem_singleton.mpr rfl)]
  | transition | lineBlock entries | paragraph text => rfl
  | list marker items =>
    simp only [Piece.condense, Piece.block_list, List.map_map, Block.list.injEq, true_and]
    exact List.map_congr_left fun body member => by
      simp only [Function.comp_apply, arranged body member]
  | definitionList items =>
    simp only [Piece.condense, Piece.block_definitionList, List.map_map, Block.definitionList.injEq]
    exact List.map_congr_left fun item member => by
      simp only [Function.comp_apply, Prod.map_fst, Prod.map_snd, id_eq,
        arranged item.2 (List.mem_map_of_mem member)]

theorem unannounced?_eq_none_iff {text : List Char} : unannounced? text = none ↔ ¬[':', ':'] <:+ text := by
  have reversed : [':', ':'] <:+ text ↔ [':', ':'] <+: text.reverse := List.reverse_prefix.symm
  rw [reversed]
  unfold unannounced?
  match text.reverse with
  | [] | [_] => simp
  | last :: previous :: front =>
    simp only [List.cons_prefix_cons, List.nil_prefix, and_true, Bool.and_eq_true, decide_eq_true_eq]
    by_cases colons : last = ':' ∧ previous = ':'
    · rw [if_pos colons]
      cases front <;> simp [colons]
    · rw [if_neg colons]
      simp only [eq_comm, true_iff]
      exact colons

/-- Lines keep the end of their text when they are moved or cut. -/
theorem keeps_quiet : Line.Keeps fun line => unannounced? line.text = none :=
  ⟨fun _ here => here, fun here ending _ => unannounced?_eq_none_iff.mpr fun colons =>
    unannounced?_eq_none_iff.mp here (colons.trans ending)⟩

theorem arrange_condense {lines : List Line} (quiet : Quiet lines) :
    arrange (condense lines) = arrange lines := by
  fun_induction arrange lines with
  | case1 => simp
  | case2 line rest blank ih =>
    have quietRest := (List.forall_mem_cons.mp quiet).2
    rw [condense_of_blank blank, arrange_of_blank _ rfl, ← skipBlank_condense,
      ← arrange_eq_arrange_skipBlank, ih quietRest]
  | case3 line rest visible bodies later =>
    have filled : line.isBlank = false := by simpa using visible
    obtain ⟨quietBodies, quietAfter⟩ := forall_first keeps_quiet quiet
    rw [condense_of_filled filled, arrange_of_filled _ filled, strays_condense,
      Piece.first_condense filled quiet, Prod.map_fst, Prod.map_snd,
      Piece.block_condense _ fun body member => bodies body member (quietBodies body member),
      later quietAfter]
    rfl

/-- The outline of a text without announcements does not show how many blank lines stand anywhere. -/
theorem outline_condense {lines : List Line} (quiet : Quiet lines) :
    outline (condense lines) = outline lines := by
  fun_induction outline lines with
  | case1 => simp
  | case2 line rest blank ih =>
    have quietRest := (List.forall_mem_cons.mp quiet).2
    rw [condense_of_blank blank, outline_of_blank _ rfl, ← skipBlank_condense,
      ← outline_eq_outline_skipBlank, ih quietRest]
  | case3 line rest visible heading after found ih =>
    have filled : line.isBlank = false := by simpa using visible
    have same := headingAt?_condense line rest
    have quietAfter : Quiet after := fun other member =>
      quiet other (List.mem_cons_of_mem line ((headingAt?_suffix found).subset member))
    rw [found, Option.map_some] at same
    rw [condense_of_filled filled, outline_of_heading filled same, ih quietAfter]
    rfl
  | case4 line rest visible none ih =>
    have filled : line.isBlank = false := by simpa using visible
    have same := headingAt?_condense line rest
    obtain ⟨quietBodies, quietAfter⟩ := forall_first keeps_quiet quiet
    have block := Piece.block_condense (Piece.first line rest).1 fun body member =>
      arrange_condense (quietBodies body member)
    rw [none, Option.map_none] at same
    rw [condense_of_filled filled, outline_of_piece filled same, Piece.first_condense filled quiet,
      Prod.map_fst, Prod.map_snd, block, ih quietAfter]

/-- Blank lines in front of a text, or beside a blank line of it, do not show in its outline. -/
theorem outline_with_blanks {blanks : List Line} (blank : skipBlank blanks = []) {above below : List Line}
    (place : above = [] ∨ (∃ line ∈ above.getLast?, line.isBlank) ∨ ∃ line ∈ below.head?, line.isBlank)
    (quiet : Quiet (above ++ below)) :
    outline (above ++ (blanks ++ below)) = outline (above ++ below) := by
  rcases place with rfl | beside
  · exact outline_append_of_skipBlank_eq_nil blank below
  · obtain ⟨quietAbove, quietBelow⟩ := List.forall_mem_append.mp quiet
    have quietBlanks : Quiet blanks := fun line member => by
      rw [List.isEmpty_iff.mp (skipBlank_eq_nil_iff.mp blank line member)]
      rfl
    have whole : Quiet (above ++ (blanks ++ below)) :=
      List.forall_mem_append.mpr ⟨quietAbove, List.forall_mem_append.mpr ⟨quietBlanks, quietBelow⟩⟩
    rw [← outline_condense whole, condense_beside_blank blank beside, outline_condense quiet]

end RstPress.Layout

import RstPress.Proofs.Normal
import RstPress.Proofs.Places.Reading
import RstPress.Proofs.Spacing.Outline

/-!
Blank lines beside a blank line, and in front of a text. They change nothing in the tree and move the
problems below them down.
-/

namespace RstPress.Source
open Text

/-- What ends in a visible character with its tabs expanded, ends in it without. -/
theorem exists_of_expandTabs_concat {width column : Nat} (wide : 0 < width) {text expanded : List Char}
    {last : Char} (other : last ≠ ' ') (same : expandTabs width column text = expanded ++ [last]) :
    ∃ front, text = front ++ [last] ∧ expandTabs width column front = expanded := by
  rcases List.eq_nil_or_concat text with rfl | ⟨front, c, rfl⟩
  · simp [expandTabs] at same
  · rw [List.concat_eq_append, expandTabs_append] at same
    by_cases tab : c = '\t'
    · have gap : 0 < width - (column + (expandTabs width column front).length) % width :=
        Nat.sub_pos_of_lt (Nat.mod_lt _ wide)
      obtain ⟨more, positive⟩ := Nat.exists_eq_succ_of_ne_zero gap.ne'
      have spaces : expandTabs width (column + (expandTabs width column front).length) [c] =
          List.replicate (more + 1) ' ' := by
        rw [expandTabs, if_pos tab, positive]
        exact List.append_nil _
      have ends := congrArg List.getLast? same
      rw [spaces, List.replicate_succ', ← List.append_assoc, List.getLast?_concat,
        List.getLast?_concat, Option.some.injEq] at ends
      exact absurd ends.symm other
    · have single : expandTabs width (column + (expandTabs width column front).length) [c] = [c] := by
        rw [expandTabs, if_neg tab, expandTabs]
      rw [single] at same
      obtain ⟨kept, ends⟩ := List.append_inj' same rfl
      cases ends
      exact ⟨front, List.concat_eq_append, kept⟩

/-- A line that is shown with two colons at its end has them there. -/
theorem colons_of_shown {width : Nat} (wide : 0 < width) {raw : List Char}
    (colons : [':', ':'] <:+ shown width raw) : [':', ':'] <:+ trimEnd raw := by
  rw [← shown_trimEnd] at colons
  obtain ⟨before, whole⟩ := colons
  rcases trimEnd_ends raw with empty | ⟨front, last, same, visible⟩
  · rw [empty] at whole
    simp [shown, trimEnd, dropEndWhile, expandTabs] at whole
  · rw [same, shown_append_of_visible front visible] at whole
    have twice : before ++ [':', ':'] = (before ++ [':']) ++ [':'] := by simp
    rw [twice] at whole
    obtain ⟨inner, cut, again⟩ := exists_of_expandTabs_concat wide (by decide) whole.symm
    obtain ⟨start, cutAgain, _⟩ := exists_of_expandTabs_concat wide (by decide) again
    rw [same, cut, cutAgain]
    exact ⟨start, by simp⟩

theorem quiet_numberFrom {width : Nat} (wide : 0 < width) {raws : List (List Char)}
    (quiet : ∀ raw ∈ raws, ¬[':', ':'] <:+ trimEnd raw) (number : Nat) :
    Layout.Quiet (numberFrom number (raws.map (shown width))) := by
  intro line member
  obtain ⟨text, present, place, rfl⟩ := exists_text_of_mem_numberFrom member
  obtain ⟨raw, inside, rfl⟩ := List.mem_map.mp present
  refine Layout.unannounced?_eq_none_iff.mpr fun colons => quiet raw inside (colons_of_shown wide ?_)
  exact colons.trans (List.dropWhile_suffix _)

theorem isBlank_ofText_shown {raw : List Char} (blank : ∀ c ∈ raw, isBlank c) (width number : Nat) :
    (Line.ofText number (shown width raw)).isBlank := by
  rw [shown_of_isBlank blank]
  rfl

theorem skipBlank_numberFrom {raws : List (List Char)} (blank : ∀ raw ∈ raws, ∀ c ∈ raw, isBlank c)
    (width number : Nat) : skipBlank (numberFrom number (raws.map (shown width))) = [] := by
  refine skipBlank_eq_nil_iff.mpr fun line member => ?_
  obtain ⟨text, present, place, rfl⟩ := exists_text_of_mem_numberFrom member
  obtain ⟨raw, inside, rfl⟩ := List.mem_map.mp present
  exact isBlank_ofText_shown (blank raw inside) width place

/-- A blank line is shown as a blank line, at the end of some lines or at their beginning. -/
theorem exists_blank_line {raws : List (List Char)} (width number : Nat) :
    ((∃ raw ∈ raws.getLast?, ∀ c ∈ raw, isBlank c) →
      ∃ line ∈ (numberFrom number (raws.map (shown width))).getLast?, line.isBlank) ∧
    ((∃ raw ∈ raws.head?, ∀ c ∈ raw, isBlank c) →
      ∃ line ∈ (numberFrom number (raws.map (shown width))).head?, line.isBlank) := by
  refine ⟨fun ⟨raw, last, blank⟩ => ?_, fun ⟨raw, first, blank⟩ => ?_⟩
  · obtain ⟨front, rfl⟩ := List.getLast?_eq_some_iff.mp last
    refine ⟨_, ?_, isBlank_ofText_shown blank width (number + front.length)⟩
    rw [List.map_append, numberFrom_append, List.map_singleton, List.length_map]
    exact List.getLast?_concat
  · obtain ⟨others, rfl⟩ := List.head?_eq_some_iff.mp first
    exact ⟨_, rfl, isBlank_ofText_shown blank width number⟩

end RstPress.Source

namespace RstPress
open Document Layout Source Text RstPress.Tree

/-- The place of a line once lines were put in behind the given number of lines. -/
def movedPast (above added line : Nat) : Nat := if line ≤ above then line else line + added

/-- The lines that were there, at their new places. -/
theorem map_relocate_numberFrom (front back : List (List Char)) (added : Nat) :
    (numberFrom 1 (front ++ back)).map (Line.relocate (movedPast front.length added)) =
      numberFrom 1 front ++ numberFrom (1 + front.length + added) back := by
  rw [numberFrom_append, List.map_append,
    numberFrom_relocate_of front fun place inside => if_pos (by omega),
    numberFrom_relocate_of back fun place inside => ?_]
  rw [movedPast, if_neg (by omega)]
  omega

theorem outline_lines_of_blanks {tabWidth : Nat} {source longer : List Char}
    {front blanks back : List (List Char)} (before : splitLines source = front ++ back)
    (after : splitLines longer = front ++ (blanks ++ back))
    (blank : ∀ raw ∈ blanks, ∀ c ∈ raw, isBlank c)
    (place : front = [] ∨ (∃ raw ∈ front.getLast?, ∀ c ∈ raw, isBlank c) ∨
      ∃ raw ∈ back.head?, ∀ c ∈ raw, isBlank c)
    (quiet : ∀ raw ∈ splitLines source, ¬[':', ':'] <:+ trimEnd raw) :
    outline (lines tabWidth longer) =
      (outline (lines tabWidth source)).map (Part.relocate (movedPast front.length blanks.length)) := by
  have wide : 0 < max 1 tabWidth := Nat.lt_of_lt_of_le Nat.zero_lt_one (Nat.le_max_left 1 tabWidth)
  rw [before] at quiet
  obtain ⟨quietFront, quietBack⟩ := List.forall_mem_append.mp quiet
  let above := numberFrom 1 (front.map (shown (max 1 tabWidth)))
  let between := numberFrom (1 + front.length) (blanks.map (shown (max 1 tabWidth)))
  let below := numberFrom (1 + front.length + blanks.length) (back.map (shown (max 1 tabWidth)))
  have lower : lines tabWidth longer = above ++ (between ++ below) := by
    rw [lines, after, List.map_append, List.map_append, numberFrom_append, numberFrom_append,
      List.length_map, List.length_map]
  have moved : (lines tabWidth source).map (Line.relocate (movedPast front.length blanks.length)) =
      above ++ below := by
    have whole := map_relocate_numberFrom (front.map (shown (max 1 tabWidth)))
      (back.map (shown (max 1 tabWidth))) blanks.length
    rwa [List.length_map, ← List.map_append, ← before] at whole
  have beside : above = [] ∨ (∃ line ∈ above.getLast?, line.isBlank) ∨
      ∃ line ∈ below.head?, line.isBlank := by
    rcases place with rfl | last | first
    · exact .inl rfl
    · exact .inr (.inl ((exists_blank_line _ _).1 last))
    · exact .inr (.inr ((exists_blank_line _ _).2 first))
  rw [← outline_relocate, moved, lower]
  exact outline_with_blanks (skipBlank_numberFrom blank _ _) beside (List.forall_mem_append.mpr
    ⟨quiet_numberFrom wide quietFront _, quiet_numberFrom wide quietBack _⟩)

/-- Further blank lines in front of a source, or beside a blank line of it, leave its tree as it is, as
long as no line ends in two colons. They move the problems below them down and change nothing else of
them. -/
theorem parse_with_blanks (options : ReadOptions) {source longer : String}
    {front blanks back : List (List Char)} (before : splitLines source.toList = front ++ back)
    (after : splitLines longer.toList = front ++ (blanks ++ back))
    (blank : ∀ raw ∈ blanks, ∀ c ∈ raw, isBlank c)
    (place : front = [] ∨ (∃ raw ∈ front.getLast?, ∀ c ∈ raw, isBlank c) ∨
      ∃ raw ∈ back.head?, ∀ c ∈ raw, isBlank c)
    (quiet : ∀ raw ∈ splitLines source.toList, ¬[':', ':'] <:+ trimEnd raw) :
    parse { options with strict := false } longer = parse { options with strict := false } source ∧
      problems options longer = (problems options source).map
        (Problem.relocate fun line =>
          if line ≤ front.length then line else line + blanks.length) := by
  have outlines : outline (lines options.tabWidth longer.toList) = _ :=
    outline_lines_of_blanks before after blank place quiet
  refine ⟨?_, ?_⟩
  · rw [parse_of_lenient _ rfl, parse_of_lenient _ rfl, outlines, elementsOf_relocate]
  · simp only [problems, Document.read, readElements, Reading.problems_bind, Reading.problems_pure,
      List.append_nil]
    rw [outlines, readParts_relocate, Reading.problems_relocate]
    rfl

/-- Two blank lines, one of them with a space, below the blank line that ends an item. The emphasis left
open in line 3 is told of in line 5. -/
theorem parse_with_blanks_item :
    parse { strict := false } "- a\n\n\n \n*b\n" = parse { strict := false } "- a\n\n*b\n" ∧
      problems {} "- a\n\n\n \n*b\n" = [⟨5, .unclosed .emphasis⟩] := by
  have blank : ∀ raw ∈ [[], [' ']], ∀ c ∈ raw, isBlank c := List.forall_mem_cons.mpr
    ⟨List.forall_mem_nil _, List.forall_mem_singleton.mpr (List.forall_mem_singleton.mpr (by decide))⟩
  have alike := @parse_with_blanks {} "- a\n\n*b\n" "- a\n\n\n \n*b\n" ["- a".toList, []] [[], [' ']]
    ["*b".toList] (by decide) (by decide) blank (.inr (.inl ⟨[], rfl, List.forall_mem_nil _⟩)) (by decide)
  have told : problems {} "- a\n\n*b\n" = [⟨3, .unclosed .emphasis⟩] := by decide +kernel
  exact ⟨alike.1, alike.2.trans (by rw [told]; rfl)⟩

end RstPress

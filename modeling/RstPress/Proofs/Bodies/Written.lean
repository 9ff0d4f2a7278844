import RstPress.Proofs.Lines

/-!
A text that is written as a nested body: all of its lines are moved to the right, or the first one
follows a label and the others are moved right as far. The lines that are read from it are those of the
text alone, each with more spaces in front.
-/

namespace RstPress.Source
open Text

/-- The line moved to the right. Blank lines are not moved. -/
def Line.shift (columns : Nat) (line : Line) : Line :=
  if line.isBlank then line else { line with indent := line.indent + columns }

/-- A line, as it is written, with spaces in front. Blank lines stay as they are. -/
def indentLine (columns : Nat) (raw : List Char) : List Char :=
  if raw.all isBlank then raw else List.replicate columns ' ' ++ raw

/-- The text with all of its lines moved to the right, blank lines apart. -/
def indented (columns : Nat) (text : List Char) : List Char :=
  ['\n'].intercalate ((text.splitOn '\n').map (indentLine columns))

/-- The text behind a label and a space, its other lines moved to the right as far. -/
def hung (label text : List Char) : List Char :=
  match text.splitOn '\n' with
  | [] => label
  | first :: others =>
    ['\n'].intercalate ((label ++ ' ' :: first) :: others.map (indentLine (label.length + 1)))

/-- The lines of a text without the empty one behind its last line feed. -/
def closed : List (List Char) → List (List Char)
  | [] => []
  | [last] => if last = [] then [] else [last]
  | raw :: next :: others => raw :: closed (next :: others)

theorem closed_cons_of_ne_nil {raw : List Char} (filled : raw ≠ []) (others : List (List Char)) :
    closed (raw :: others) = raw :: closed others := by
  cases others with
  | nil => rw [closed, closed, if_neg filled]
  | cons next others => rw [closed]

theorem closed_map {change : List Char → List Char} (same : ∀ raw, change raw = [] ↔ raw = [])
    (raws : List (List Char)) : closed (raws.map change) = (closed raws).map change := by
  fun_induction closed raws with
  | case1 => rfl
  | case2 => simp [closed, same]
  | case3 last filled => simp [closed, same, filled]
  | case4 raw next others ih => rw [List.map_cons, List.map_cons, closed, ← List.map_cons, ih]; rfl

theorem closed_isPrefix (raws : List (List Char)) : closed raws <+: raws := by
  fun_induction closed raws with
  | case1 | case2 => exact List.nil_prefix
  | case3 => exact List.prefix_refl _
  | case4 raw next others ih => exact List.prefix_cons_inj raw |>.mpr ih

theorem splitLines_eq_closed (text : List Char) : splitLines text = closed (text.splitOn '\n') := by
  induction text with
  | nil => rfl
  | cons c text ih =>
    obtain ⟨raw, others, pieces⟩ := List.exists_cons_of_ne_nil (List.splitOn_ne_nil '\n' text)
    rw [pieces] at ih
    rw [splitLines, List.splitOn_cons_eq_if_modifyHead, pieces, ih]
    by_cases feed : c = '\n'
    · simp [feed, closed]
    · have filled : c :: raw ≠ [] := List.cons_ne_nil c raw
      simp only [feed, beq_iff_eq, if_false, List.modifyHead_cons]
      rw [closed_cons_of_ne_nil filled]
      cases others with
      | nil => by_cases empty : raw = [] <;> simp [closed, empty]
      | cons next others => rfl

theorem feed_notMem_of_mem_splitLines {text raw : List Char} (member : raw ∈ splitLines text) :
    '\n' ∉ raw := by
  rw [splitLines_eq_closed] at member
  exact notMem_of_mem_splitOn ((closed_isPrefix _).subset member)

/-- Lines that are joined by line feeds are read again. -/
theorem splitLines_intercalate {raws : List (List Char)} (filled : raws ≠ [])
    (oneLine : ∀ raw ∈ raws, '\n' ∉ raw) : splitLines (['\n'].intercalate raws) = closed raws := by
  rw [splitLines_eq_closed, List.splitOn_intercalate '\n' oneLine filled]

theorem indentLine_eq_nil_iff (columns : Nat) (raw : List Char) :
    indentLine columns raw = [] ↔ raw = [] := by
  unfold indentLine
  split
  · rfl
  · rename_i shown
    have filled : raw ≠ [] := by
      rintro rfl
      exact shown rfl
    simp [filled]

theorem feed_notMem_indentLine {raw : List Char} (oneLine : '\n' ∉ raw) (columns : Nat) :
    '\n' ∉ indentLine columns raw := by
  unfold indentLine
  split
  · exact oneLine
  · simp [oneLine]

theorem splitLines_indented (columns : Nat) (text : List Char) :
    splitLines (indented columns text) = (splitLines text).map (indentLine columns) := by
  have oneLine : ∀ raw ∈ (text.splitOn '\n').map (indentLine columns), '\n' ∉ raw := by
    intro raw member
    obtain ⟨before, present, rfl⟩ := List.mem_map.mp member
    exact feed_notMem_indentLine (notMem_of_mem_splitOn present) columns
  have filled : (text.splitOn '\n').map (indentLine columns) ≠ [] := by
    simp [List.splitOn_ne_nil]
  rw [indented, splitLines_intercalate filled oneLine, closed_map (indentLine_eq_nil_iff columns),
    splitLines_eq_closed]

theorem splitLines_hung {label : List Char} {c : Char} (oneLine : '\n' ∉ label) (begins : c ≠ '\n')
    (text : List Char) :
    ∃ first others, splitLines (c :: text) = (c :: first) :: others ∧
      splitLines (hung label (c :: text)) =
        (label ++ ' ' :: c :: first) :: others.map (indentLine (label.length + 1)) := by
  obtain ⟨first, others, pieces⟩ := List.exists_cons_of_ne_nil (List.splitOn_ne_nil '\n' text)
  have whole : (c :: text).splitOn '\n' = (c :: first) :: others := by
    rw [List.splitOn_cons_eq_if_modifyHead, pieces]
    simp [begins]
  have inside (raw : List Char) (member : raw ∈ (c :: first) :: others) : '\n' ∉ raw :=
    notMem_of_mem_splitOn (whole ▸ member)
  refine ⟨first, closed others, ?_, ?_⟩
  · rw [splitLines_eq_closed, whole, closed_cons_of_ne_nil (List.cons_ne_nil c first)]
  · have noFeed : ∀ raw ∈ (label ++ ' ' :: c :: first) :: others.map (indentLine (label.length + 1)),
        '\n' ∉ raw := by
      intro raw member
      rcases List.mem_cons.mp member with rfl | later
      · have here := inside _ List.mem_cons_self
        simp only [List.mem_append, not_or]
        exact ⟨oneLine, by simpa using here⟩
      · obtain ⟨before, present, rfl⟩ := List.mem_map.mp later
        exact feed_notMem_indentLine (inside before (List.mem_cons_of_mem _ present)) _
    simp only [hung, whole]
    rw [splitLines_intercalate (List.cons_ne_nil _ _) noFeed, closed_cons_of_ne_nil (by simp),
      closed_map (indentLine_eq_nil_iff _)]

/-- A line of which only spaces are shown is not shown at all. -/
theorem isBlank_ofText_trimEnd {raw : List Char} {number : Nat} :
    (Line.ofText number (trimEnd raw)).isBlank ↔ trimEnd raw = [] := by
  constructor
  · intro blank
    have spaces := List.dropWhile_eq_nil_iff.mp (List.isEmpty_iff.mp blank)
    rw [trimEnd, ← dropEndWhile_idem, dropEndWhile_eq_nil_iff]
    intro c member
    rw [of_decide_eq_true (spaces c member)]
    decide
  · intro none
    rw [none]
    rfl

theorem ofText_replicate_append (columns number : Nat) (text : List Char) :
    Line.ofText number (List.replicate columns ' ' ++ text) =
      { Line.ofText number text with indent := (Line.ofText number text).indent + columns } := by
  have spaces : ∀ c ∈ List.replicate columns ' ', decide (c = ' ') := by
    intro c member
    simp [(List.mem_replicate.mp member).2]
  rw [Line.ofText, List.takeWhile_append_of_pos spaces, List.dropWhile_append_of_pos spaces,
    List.length_append, List.length_replicate, Nat.add_comm, Line.ofText]

theorem ofText_indentLine {raw : List Char} (untabbed : '\t' ∉ raw) (width columns number : Nat) :
    Line.ofText number (shown width (indentLine columns raw)) =
      (Line.ofText number (shown width raw)).shift columns := by
  rw [shown_of_no_tab untabbed]
  by_cases blank : ∀ c ∈ raw, isBlank c
  · have gone : trimEnd raw = [] := dropEndWhile_eq_nil_iff.mpr blank
    rw [indentLine, if_pos (List.all_eq_true.mpr blank), shown_of_no_tab untabbed, Line.shift,
      if_pos (isBlank_ofText_trimEnd.mpr gone)]
  · have kept : trimEnd raw ≠ [] := mt dropEndWhile_eq_nil_iff.mp blank
    have spaces : '\t' ∉ List.replicate columns ' ' ++ raw := by simp [untabbed]
    rw [indentLine, if_neg (mt List.all_eq_true.mp blank), shown_of_no_tab spaces, trimEnd,
      dropEndWhile_append_of_ne_nil kept, ofText_replicate_append, Line.shift,
      if_neg (mt isBlank_ofText_trimEnd.mp kept), trimEnd]

theorem numberFrom_map_indentLine {raws : List (List Char)} (untabbed : ∀ raw ∈ raws, '\t' ∉ raw)
    (width columns number : Nat) :
    numberFrom number ((raws.map (indentLine columns)).map (shown width)) =
      (numberFrom number (raws.map (shown width))).map (Line.shift columns) := by
  induction raws generalizing number with
  | nil => rfl
  | cons raw raws ih =>
    rw [List.map_cons, List.map_cons, List.map_cons, numberFrom, numberFrom, List.map_cons,
      ofText_indentLine (untabbed raw List.mem_cons_self),
      ih fun other member => untabbed other (List.mem_cons_of_mem raw member)]

/-- The lines of a text that is moved right. -/
theorem linesFrom_indented {text : List Char} (untabbed : '\t' ∉ text) (tabWidth columns number : Nat) :
    linesFrom tabWidth number (indented columns text) =
      (linesFrom tabWidth number text).map (Line.shift columns) := by
  rw [linesFrom, splitLines_indented, numberFrom_map_indentLine _, linesFrom]
  intro raw member tab
  exact untabbed (mem_of_mem_splitLines member tab)

theorem ofText_of_begins {text : List Char} (begins : text.head? ≠ some ' ') (number : Nat) :
    Line.ofText number text = ⟨0, text, number⟩ :=
  ofText_replicate begins 0 number

theorem ofText_shown_of_visible {c : Char} {raw : List Char} (visible : isBlank c = false)
    (untabbed : '\t' ∉ c :: raw) (width number : Nat) :
    Line.ofText number (shown width (c :: raw)) = ⟨0, c :: trimEnd raw, number⟩ := by
  have other : c ≠ ' ' := ne_of_isBlank visible (by decide)
  rw [shown_of_no_tab untabbed, trimEnd, dropEndWhile_cons visible, ofText_of_begins (by simp [other]),
    trimEnd]

/-- A text that begins visibly has its first line at the margin. -/
theorem lines_of_visible {c : Char} {text : List Char} (visible : isBlank c = false)
    (untabbed : '\t' ∉ c :: text) (tabWidth : Nat) :
    ∃ after rest, lines tabWidth (c :: text) = ⟨0, c :: after, 1⟩ :: rest := by
  have feed : c ≠ '\n' := ne_of_isBlank visible (by decide)
  obtain ⟨first, others, same⟩ : ∃ first others, splitLines (c :: text) = (c :: first) :: others := by
    rw [splitLines, if_neg feed]
    split
    · exact ⟨[], [], rfl⟩
    · exact ⟨_, _, rfl⟩
  have noTab : '\t' ∉ c :: first := fun tab =>
    untabbed (mem_of_mem_splitLines (same ▸ List.mem_cons_self) tab)
  refine ⟨trimEnd first, numberFrom 2 (others.map (shown (max 1 tabWidth))), ?_⟩
  rw [lines, same, List.map_cons, numberFrom, ofText_shown_of_visible visible noTab]

/-- The lines of a text that hangs behind a label. -/
theorem lines_hung {label text : List Char} {c : Char} (visible : isBlank c = false)
    (untabbed : '\t' ∉ c :: text) (oneLine : '\n' ∉ label) (noTab : '\t' ∉ label)
    (begins : label.head?.any fun d => d ≠ ' ') (tabWidth : Nat) :
    ∃ after rest, lines tabWidth (c :: text) = ⟨0, c :: after, 1⟩ :: rest ∧
      lines tabWidth (hung label (c :: text)) =
        ⟨0, label ++ ' ' :: c :: after, 1⟩ :: rest.map (Line.shift (label.length + 1)) := by
  have feed : c ≠ '\n' := ne_of_isBlank visible (by decide)
  obtain ⟨first, others, same, moved⟩ := splitLines_hung oneLine feed text
  have inside : ∀ raw ∈ (c :: first) :: others, '\t' ∉ raw := by
    intro raw member tab
    exact untabbed (mem_of_mem_splitLines (same ▸ member) tab)
  have behind : trimEnd (label ++ ' ' :: c :: first) = label ++ ' ' :: c :: trimEnd first := by
    have kept : dropEndWhile isBlank (c :: first) ≠ [] := by
      rw [dropEndWhile_cons visible]
      exact List.cons_ne_nil _ _
    have whole := dropEndWhile_append_of_ne_nil kept (label ++ [' '])
    rw [List.append_assoc, List.append_assoc, List.singleton_append, List.singleton_append,
      dropEndWhile_cons visible] at whole
    exact whole
  have plain : '\t' ∉ label ++ ' ' :: c :: first := by
    have later := inside _ List.mem_cons_self
    simp only [List.mem_append, not_or]
    exact ⟨noTab, by simpa using later⟩
  have flush : (label ++ ' ' :: c :: trimEnd first).head? ≠ some ' ' := by
    cases label with
    | nil => cases begins
    | cons d label => simpa using begins
  refine ⟨trimEnd first, numberFrom 2 (others.map (shown (max 1 tabWidth))), ?_, ?_⟩
  · rw [lines, same, List.map_cons, numberFrom,
      ofText_shown_of_visible visible (inside _ List.mem_cons_self)]
  · rw [lines, moved, List.map_cons, numberFrom, shown_of_no_tab plain, behind,
      ofText_of_begins flush, numberFrom_map_indentLine fun raw member =>
        inside raw (List.mem_cons_of_mem _ member)]

end RstPress.Source

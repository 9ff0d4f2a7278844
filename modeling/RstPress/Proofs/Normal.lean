import RstPress.Proofs.Bodies.Written
import RstPress.Proofs.Extension.Blank
import RstPress.Proofs.Strictness

/-!
The normal form of a source: no carriage returns or other blanks at the end of a line, no tabs, no blank
lines at the end of the text, and a line feed after every line. A source and its normal form have the same
lines, up to the blank lines at the end, and these do not show in the outline. So the normal form is read
as the source is, whatever width its tabs would have.
-/

namespace RstPress.Source
open Text Layout

/-- A line without the carriage returns at its end, with its tabs expanded and without blanks at its end. -/
def normalLine (width : Nat) (raw : List Char) : List Char :=
  trimEnd (expandTabs width 0 (dropEndWhile (· = '\r') raw))

/-- The lines of a source in their normal form, up to the last one that is not blank, each ended by a line
feed. A tab width of zero counts as one. -/
def normalized (tabWidth : Nat) (source : List Char) : List Char :=
  (dropEndWhile List.isEmpty
    ((source.splitOn '\n').map (normalLine (max 1 tabWidth)))).flatMap (· ++ ['\n'])

example : String.ofList (normalized 4 "a\tb  \r\n\tc\r\n \t\n".toList) = "a   b\n    c\n" := by
  decide +kernel

/-- The source with carriage returns in front of its line feeds. -/
def withReturns (source : List Char) : List Char :=
  source.flatMap fun c => if c = '\n' then ['\r', '\n'] else [c]

/-- The source without blanks at the ends of its lines and of the whole text. -/
def trimmed (source : List Char) : List Char :=
  trimEnd (['\n'].intercalate ((source.splitOn '\n').map trimEnd))

/-- What is blank at the end of a line is not shown. -/
theorem shown_append_blanks {blanks : List Char} (blank : ∀ c ∈ blanks, isBlank c) (width : Nat)
    (raw : List Char) : shown width (raw ++ blanks) = shown width raw := by
  have gone := dropEndWhile_eq_nil_iff.mpr
    (expandTabs_of_isBlank blank width (0 + (expandTabs width 0 raw).length))
  rw [shown, expandTabs_append, trimEnd, dropEndWhile_append_of_eq_nil gone, shown, trimEnd]

/-- Carriage returns are blank, so a line is shown in its normal form. -/
theorem normalLine_eq_shown (width : Nat) (raw : List Char) : normalLine width raw = shown width raw := by
  have returns : ∀ c ∈ (raw.reverse.takeWhile (· = '\r')).reverse, isBlank c := by
    intro c member
    have same : c = '\r' := by simpa using List.mem_takeWhile_imp (List.mem_reverse.mp member)
    rw [same]
    decide
  have whole := shown_append_blanks returns width (dropEndWhile (· = '\r') raw)
  rw [dropEndWhile_append_ending] at whole
  rw [whole, normalLine, shown]

theorem tab_notMem_shown (width : Nat) (raw : List Char) : '\t' ∉ shown width raw := by
  intro tab
  rcases mem_expandTabs ((dropEndWhile_isPrefix isBlank _).subset tab) with space | ⟨_, other⟩
  · cases space
  · exact other rfl

theorem feed_notMem_shown {raw : List Char} (oneLine : '\n' ∉ raw) (width : Nat) :
    '\n' ∉ shown width raw := by
  intro feed
  rcases mem_expandTabs ((dropEndWhile_isPrefix isBlank _).subset feed) with space | ⟨within, _⟩
  · cases space
  · exact oneLine within

/-- What is shown of a line has no tabs left, so it is shown alike with any tab width. -/
theorem shown_shown (width again : Nat) (raw : List Char) :
    shown again (shown width raw) = shown width raw := by
  rw [shown_of_no_tab (tab_notMem_shown width raw)]
  exact dropEndWhile_idem isBlank _

theorem splitLines_flatMap_feed {texts : List (List Char)} (oneLine : ∀ text ∈ texts, '\n' ∉ text) :
    splitLines (texts.flatMap (· ++ ['\n'])) = texts := by
  induction texts with
  | nil => rfl
  | cons text texts ih =>
    obtain ⟨here, later⟩ := List.forall_mem_cons.mp oneLine
    rw [List.flatMap_cons, List.append_assoc, List.singleton_append, splitLines_of_line here, ih later]

/-- The lines of a text that is written from lines as they are shown. -/
theorem lines_flatMap_feed {raws : List (List Char)} (oneLine : ∀ raw ∈ raws, '\n' ∉ raw)
    (width again : Nat) :
    lines again ((raws.map (shown width)).flatMap (· ++ ['\n'])) =
      numberFrom 1 (raws.map (shown width)) := by
  have feeds : ∀ text ∈ raws.map (shown width), '\n' ∉ text :=
    List.forall_mem_map.mpr fun raw member => feed_notMem_shown (oneLine raw member) width
  have same : (raws.map (shown width)).map (shown (max 1 again)) = raws.map (shown width) := by
    rw [List.map_map]
    exact List.map_congr_left fun raw _ => shown_shown width _ raw
  rw [lines, splitLines_flatMap_feed feeds, same]

theorem written_ofText (number : Nat) (text : List Char) :
    (Line.ofText number text).written = text ++ ['\n'] := by
  rw [Line.written, Line.ofText, ← takeWhile_eq_replicate, List.takeWhile_append_dropWhile]

theorem flatMap_written_numberFrom (number : Nat) (texts : List (List Char)) :
    (numberFrom number texts).flatMap Line.written = texts.flatMap (· ++ ['\n']) := by
  induction texts generalizing number with
  | nil => rfl
  | cons text texts ih => rw [numberFrom, List.flatMap_cons, written_ofText, ih, List.flatMap_cons]

/-- Lines that are written back are split into the same lines again. -/
theorem lines_flatMap_written (tabWidth again : Nat) (source : List Char) :
    lines again ((lines tabWidth source).flatMap Line.written) = lines tabWidth source := by
  rw [lines.eq_def tabWidth, flatMap_written_numberFrom,
    lines_flatMap_feed fun raw => feed_notMem_of_mem_splitLines]

theorem dropEndWhile_numberFrom (width number : Nat) (raws : List (List Char)) :
    dropEndWhile Line.isBlank (numberFrom number (raws.map (shown width))) =
      numberFrom number (dropEndWhile List.isEmpty (raws.map (shown width))) := by
  induction raws using List.reverseRecOn with
  | nil => rfl
  | append_singleton front last ih =>
    have blank (place : Nat) : (Line.ofText place (shown width last)).isBlank ↔ shown width last = [] :=
      isBlank_ofText_trimEnd
    rw [List.map_append, List.map_singleton, numberFrom_append, List.length_map, numberFrom, numberFrom]
    by_cases hidden : shown width last = []
    · have line := (blank (number + front.length)).mpr hidden
      rw [dropEndWhile_append_of_eq_nil (dropEndWhile_eq_nil_iff.mpr (by simp [line])),
        dropEndWhile_append_of_eq_nil (dropEndWhile_eq_nil_iff.mpr (by simp [hidden])), ih]
    · have line := mt (blank (number + front.length)).mp hidden
      rw [dropEndWhile_append_singleton (by simpa using line),
        dropEndWhile_append_singleton (by simpa using hidden), numberFrom_append, List.length_map,
        numberFrom, numberFrom]

/-- Whether a line feed ends the text or begins an empty line does not matter at the end. -/
theorem dropEndWhile_map_closed {change : List Char → List Char} (kept : change [] = [])
    (raws : List (List Char)) :
    dropEndWhile List.isEmpty ((closed raws).map change) = dropEndWhile List.isEmpty (raws.map change) := by
  fun_induction closed raws with
  | case1 => rfl
  | case2 => simp [kept, dropEndWhile]
  | case3 => rfl
  | case4 raw next others ih =>
    have cons (rest : List (List Char)) : (raw :: rest).map change = [change raw] ++ rest.map change := rfl
    rw [cons, cons]
    by_cases gone : dropEndWhile List.isEmpty ((next :: others).map change) = []
    · rw [dropEndWhile_append_of_eq_nil (ih.trans gone), dropEndWhile_append_of_eq_nil gone]
    · rw [dropEndWhile_append_of_ne_nil (ih ▸ gone), dropEndWhile_append_of_ne_nil gone, ih]

/-- A source in its normal form has the lines that it had, up to the last one that is not blank. -/
theorem lines_normalized (tabWidth again : Nat) (source : List Char) :
    lines again (normalized tabWidth source) = dropEndWhile Line.isBlank (lines tabWidth source) := by
  have normal : normalLine (max 1 tabWidth) = shown (max 1 tabWidth) :=
    funext (normalLine_eq_shown (max 1 tabWidth))
  have texts : dropEndWhile List.isEmpty ((source.splitOn '\n').map (normalLine (max 1 tabWidth))) =
      dropEndWhile List.isEmpty ((splitLines source).map (shown (max 1 tabWidth))) := by
    rw [normal, splitLines_eq_closed]
    exact (dropEndWhile_map_closed rfl _).symm
  have front := List.prefix_iff_eq_take.mp
    (dropEndWhile_isPrefix List.isEmpty ((splitLines source).map (shown (max 1 tabWidth))))
  rw [normalized, texts, lines.eq_def tabWidth, dropEndWhile_numberFrom, front, ← List.map_take]
  exact lines_flatMap_feed
    (fun raw member => feed_notMem_of_mem_splitLines ((List.take_sublist _ _).subset member)) _ _

theorem shown_trimEnd (width : Nat) (raw : List Char) : shown width (trimEnd raw) = shown width raw := by
  have blanks : ∀ c ∈ (raw.reverse.takeWhile isBlank).reverse, isBlank c := fun c member =>
    List.mem_takeWhile_imp (List.mem_reverse.mp member)
  have whole := shown_append_blanks blanks width (trimEnd raw)
  rw [trimEnd, dropEndWhile_append_ending] at whole
  exact whole.symm

/-- The normal form is made of what stands in front of the blanks at the end of each line. -/
theorem normalized_congr {source other : List Char}
    (same : (source.splitOn '\n').map trimEnd = (other.splitOn '\n').map trimEnd) (tabWidth : Nat) :
    normalized tabWidth source = normalized tabWidth other := by
  have through (text : List Char) : (text.splitOn '\n').map (normalLine (max 1 tabWidth)) =
      ((text.splitOn '\n').map trimEnd).map (shown (max 1 tabWidth)) := by
    rw [List.map_map]
    refine List.map_congr_left fun raw _ => ?_
    rw [normalLine_eq_shown, Function.comp_apply, shown_trimEnd]
  rw [normalized, through, same, ← through, normalized]

theorem trimEnd_cons_congr {text other : List Char} (same : trimEnd text = trimEnd other) (c : Char) :
    trimEnd (c :: text) = trimEnd (c :: other) := by
  by_cases gone : trimEnd text = []
  · calc trimEnd ([c] ++ text)
      _ = trimEnd [c] := dropEndWhile_append_of_eq_nil gone [c]
      _ = trimEnd ([c] ++ other) := (dropEndWhile_append_of_eq_nil (same.symm.trans gone) [c]).symm
  · have kept : trimEnd other ≠ [] := fun none => gone (same.trans none)
    calc trimEnd ([c] ++ text)
      _ = [c] ++ trimEnd text := dropEndWhile_append_of_ne_nil gone [c]
      _ = [c] ++ trimEnd other := by rw [same]
      _ = trimEnd ([c] ++ other) := (dropEndWhile_append_of_ne_nil kept [c]).symm

theorem map_trimEnd_splitOn_withReturns (source : List Char) :
    ((withReturns source).splitOn '\n').map trimEnd = (source.splitOn '\n').map trimEnd := by
  induction source with
  | nil => rfl
  | cons c source ih =>
    obtain ⟨raw, others, pieces⟩ := List.exists_cons_of_ne_nil (List.splitOn_ne_nil '\n' source)
    obtain ⟨longer, later, split⟩ :=
      List.exists_cons_of_ne_nil (List.splitOn_ne_nil '\n' (withReturns source))
    rw [pieces, split, List.map_cons, List.map_cons, List.cons.injEq] at ih
    by_cases feed : c = '\n'
    · have ended : withReturns (c :: source) = '\r' :: '\n' :: withReturns source := by
        simp [withReturns, feed]
      have bare : trimEnd ['\r'] = [] := by decide
      have empty : trimEnd [] = [] := rfl
      rw [ended, feed]
      simp [List.splitOn_cons_eq_if_modifyHead, split, pieces, bare, empty, ih.1, ih.2]
    · have kept : withReturns (c :: source) = c :: withReturns source := by
        simp [withReturns, feed]
      simp [kept, feed, List.splitOn_cons_eq_if_modifyHead, split, pieces, ih.2,
        trimEnd_cons_congr ih.1 c]

theorem map_trimEnd_splitOn_intercalate (source : List Char) :
    ((['\n'].intercalate ((source.splitOn '\n').map trimEnd)).splitOn '\n').map trimEnd =
      (source.splitOn '\n').map trimEnd := by
  have oneLine : ∀ raw ∈ (source.splitOn '\n').map trimEnd, '\n' ∉ raw := by
    refine List.forall_mem_map.mpr fun raw member feed => ?_
    exact notMem_of_mem_splitOn member ((dropEndWhile_isPrefix isBlank raw).subset feed)
  rw [List.splitOn_intercalate '\n' oneLine (by simp [List.splitOn_ne_nil]), List.map_map]
  exact List.map_congr_left fun raw _ => dropEndWhile_idem isBlank raw

/-- A blank character at the end makes its line no longer, or begins a line that is blank. -/
theorem map_trimEnd_splitLines_append_blank {blank : Char} (hidden : isBlank blank) (text : List Char) :
    (splitLines (text ++ [blank])).map trimEnd = (splitLines text).map trimEnd ∨
      (splitLines (text ++ [blank])).map trimEnd = (splitLines text).map trimEnd ++ [[]] := by
  induction text with
  | nil =>
    have gone : trimEnd [blank] = [] := dropEndWhile_eq_nil_iff.mpr (by simpa using hidden)
    have empty : trimEnd [] = [] := rfl
    by_cases feed : blank = '\n' <;> simp [splitLines, feed, gone, empty]
  | cons c text ih =>
    rw [List.cons_append, splitLines, splitLines]
    by_cases feed : c = '\n'
    · simpa [feed] using ih
    · simp only [feed, ↓reduceIte]
      cases longer : splitLines (text ++ [blank]) with
      | nil => exact absurd longer (splitLines_ne_nil (by simp))
      | cons line others =>
        rw [longer] at ih
        cases before : splitLines text with
        | nil =>
          have empty : trimEnd line = [] ∧ others = [] := by simpa [before] using ih
          exact .inl (by simp [empty.2, trimEnd_cons_congr (empty.1.trans rfl : _ = trimEnd []) c])
        | cons first rest =>
          rw [before] at ih
          simp only [List.map_cons, List.cons_append, List.cons.injEq] at ih ⊢
          exact ih.imp (fun same => ⟨trimEnd_cons_congr same.1 c, same.2⟩)
            fun same => ⟨trimEnd_cons_congr same.1 c, same.2⟩

theorem dropEndWhile_map_shown_trimEnd (width : Nat) (text : List Char) :
    dropEndWhile List.isEmpty ((splitLines (trimEnd text)).map (shown width)) =
      dropEndWhile List.isEmpty ((splitLines text).map (shown width)) := by
  have through (text : List Char) :
      (splitLines text).map (shown width) = ((splitLines text).map trimEnd).map (shown width) := by
    rw [List.map_map]
    exact List.map_congr_left fun raw _ => (shown_trimEnd width raw).symm
  induction text using List.reverseRecOn with
  | nil => rfl
  | append_singleton front last ih =>
    cases hidden : isBlank last with
    | false => rw [trimEnd, dropEndWhile_append_singleton hidden]
    | true =>
      have gone : trimEnd [last] = [] := dropEndWhile_eq_nil_iff.mpr (by simpa using hidden)
      have less : trimEnd (front ++ [last]) = trimEnd front := dropEndWhile_append_of_eq_nil gone front
      rw [less, ih, through (front ++ [last]), through front]
      rcases map_trimEnd_splitLines_append_blank hidden front with same | longer
      · rw [same]
      · have empty : shown width [] = [] := rfl
        rw [longer, List.map_append, List.map_singleton, empty, dropEndWhile_append_of_eq_nil rfl]

end RstPress.Source

namespace RstPress.Layout
open Text Source

/-- A source in its normal form has the outline that it had. -/
theorem outline_lines_normalized (tabWidth again : Nat) (source : List Char) :
    outline (lines again (normalized tabWidth source)) = outline (lines tabWidth source) := by
  rw [lines_normalized, outline_dropEndWhile]

theorem outline_lines_congr {tabWidth : Nat} {source other : List Char}
    (same : dropEndWhile List.isEmpty ((splitLines source).map (shown (max 1 tabWidth))) =
      dropEndWhile List.isEmpty ((splitLines other).map (shown (max 1 tabWidth)))) :
    outline (lines tabWidth source) = outline (lines tabWidth other) := by
  rw [← outline_dropEndWhile, lines, dropEndWhile_numberFrom, same, ← dropEndWhile_numberFrom, ← lines,
    outline_dropEndWhile]

/-- Blanks at the ends of lines and of the whole text do not show in the outline. -/
theorem outline_lines_trimmed (tabWidth : Nat) (source : List Char) :
    outline (lines tabWidth (trimmed source)) = outline (lines tabWidth source) := by
  have whole := outline_lines_congr (dropEndWhile_map_shown_trimEnd (max 1 tabWidth)
    (['\n'].intercalate ((source.splitOn '\n').map trimEnd)))
  rw [trimmed, whole, ← outline_lines_normalized tabWidth tabWidth,
    normalized_congr (map_trimEnd_splitOn_intercalate source), outline_lines_normalized]

/-- The carriage returns of a source do not show in its outline. -/
theorem outline_lines_withReturns (tabWidth : Nat) (source : List Char) :
    outline (lines tabWidth (withReturns source)) = outline (lines tabWidth source) := by
  rw [← outline_lines_normalized tabWidth tabWidth,
    normalized_congr (map_trimEnd_splitOn_withReturns source), outline_lines_normalized]

end RstPress.Layout

namespace RstPress
open Document Layout Source

theorem lines_max_one (tabWidth : Nat) : lines (max 1 tabWidth) = lines tabWidth := by
  funext source
  rw [lines, lines, Nat.max_eq_right (Nat.le_max_left 1 tabWidth)]

/-- All that reading sees of a source is its outline. -/
theorem parse_congr {options others : ReadOptions} (mode : options.strict = others.strict)
    {source other : String}
    (same : outline (lines options.tabWidth source.toList) =
      outline (lines others.tabWidth other.toList)) :
    parse options source = parse others other ∧ problems options source = problems others other := by
  simp only [parse, problems, Document.read, readElements, mode, same, and_self]

/-- A source is read like its normal form: with the same tree, or the same error, and with the same
problems at the same lines, whatever tab width is taken for the normal form. It is also read like the
source with or without carriage returns and blanks at the ends of the lines, and with or without blank
lines and a last line feed. Its lines, written back, are split into the same lines again. -/
theorem parse_normalized (options : ReadOptions) (tabWidth again : Nat) (source : String) :
    (parse (options.withTabWidth again) (.ofList (normalized tabWidth source.toList)) =
        parse (options.withTabWidth tabWidth) source ∧
      problems (options.withTabWidth again) (.ofList (normalized tabWidth source.toList)) =
        problems (options.withTabWidth tabWidth) source) ∧
    (parse options (.ofList (withReturns source.toList)) = parse options source ∧
      problems options (.ofList (withReturns source.toList)) = problems options source) ∧
    (parse options (.ofList (trimmed source.toList)) = parse options source ∧
      problems options (.ofList (trimmed source.toList)) = problems options source) ∧
    lines again ((lines tabWidth source.toList).flatMap Line.written) = lines tabWidth source.toList := by
  have mode : (options.withTabWidth again).strict = (options.withTabWidth tabWidth).strict := rfl
  refine ⟨parse_congr mode ?_, parse_congr rfl ?_, parse_congr rfl ?_, ?_⟩
  · rw [String.toList_ofList, ReadOptions.withTabWidth, ReadOptions.withTabWidth, lines_max_one,
      lines_max_one, outline_lines_normalized]
  · rw [String.toList_ofList, outline_lines_withReturns]
  · rw [String.toList_ofList, outline_lines_trimmed]
  · exact lines_flatMap_written tabWidth again source.toList

end RstPress

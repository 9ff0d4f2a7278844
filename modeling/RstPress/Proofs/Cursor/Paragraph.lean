import RstPress.Proofs.Cursor.Inset
import RstPress.Proofs.Spacing.Outline

/-!
Paragraphs by index. The announcement of a literal block is cut off the last line by its size in bytes, and
where no literal block follows, the line in front of the end of the paragraph is looked up.
-/

namespace RstPress.Cursor
open Text Layout Source

/-- Takes the announcement off the last line of a paragraph, if there is one. -/
def unannounceLast? (text : List Char) : Option (Option (List (List Char))) :=
  if [':', ':'] <:+ text then
    if text = [':', ':'] then some (some [])
    else if [' ', ':', ':'] <:+ text then do
      let keep ← difference? (bytes text) (bytes [' ', ':', ':'])
      let (kept, _) ← cut? keep text
      let (trimmed, _) ← cut? (bytes (trimEnd kept)) kept
      return some [trimmed]
    else some (some [text.dropLast])
  else some none

/-- The texts of a paragraph without the announcement, and whether there was one. -/
def announce? (texts : List (List Char)) : Option (List (List Char) × Bool) :=
  match texts.getLast? with
  | none => some (texts, false)
  | some last =>
    (unannounceLast? last).map fun
      | none => (texts, false)
      | some kept => (texts.dropLast ++ kept, true)

/-- The literal block behind a paragraph that ends at an index. -/
def announced? (lines : List Line) (stop : Nat) : Option (Announced × Nat) := do
  let next ← skip? Line.isBlank lines stop
  let inset ← if next < lines.length then lines[next]?.map fun line => decide (0 < line.indent) else some false
  if inset then
    let block ← slice? next (insetEnd lines next) lines
    return (.block ((← dedentBlock? block).flatMap Line.written), insetEnd lines next)
  else
    let previous ← previous? lines stop
    return (.missing (lines[next]?.elim previous.number Line.number), stop)

/-- The line whose indentation ends a paragraph. -/
def interruptionAt? (lines : List Line) (stop : Nat) : Option (Option Nat) :=
  if stop < lines.length then lines[stop]?.map fun next => if next.isBlank then none else some next.number
  else some none

/-- Reads the paragraph that begins at an index. -/
def paragraph? (lines : List Line) (start : Nat) : Option (Paragraph × Nat) := do
  let stop ← skip? continuesParagraph lines (start + 1)
  let interrupted ← interruptionAt? lines stop
  let own ← slice? start stop lines
  let (texts, literal) ← announce? (own.map Line.text)
  let first ← lines[start]?
  let (found, next) ← if literal then announced? lines stop else some (.nothing, stop)
  return (⟨first.number, texts.flatMap (· ++ ['\n']), interrupted, found⟩, next)

/-- Trimming can be done by the size of what is left. -/
theorem cut?_trimEnd (text : List Char) :
    ∃ blanks, cut? (bytes (trimEnd text)) text = some (trimEnd text, blanks) := by
  obtain ⟨blanks, same⟩ := dropEndWhile_isPrefix isBlank text
  have cut := cut?_append (trimEnd text) blanks
  exact ⟨blanks, by rwa [trimEnd, same] at cut⟩

theorem unannounced?_append_colons (front : List Char) (c : Char) :
    unannounced? (front ++ [c, ':', ':']) = some [if c = ' ' then trimEnd front else front ++ [c, ':']] := by
  simp [unannounced?]

theorem unannounceLast?_eq (text : List Char) : unannounceLast? text = some (unannounced? text) := by
  rw [unannounceLast?]
  split
  · rename_i colons
    obtain ⟨front, rfl⟩ := colons
    rcases List.eq_nil_or_concat front with rfl | ⟨most, c, rfl⟩
    · rfl
    · have whole : most.concat c ++ [':', ':'] = most ++ [c, ':', ':'] := by simp
      have longer : most ++ [c, ':', ':'] ≠ [':', ':'] := fun same => by simpa using congrArg List.length same
      rw [whole, unannounced?_append_colons, if_neg longer]
      by_cases space : c = ' '
      · obtain ⟨blanks, trimmed⟩ := cut?_trimEnd most
        rw [space, if_pos (List.suffix_append most _), if_pos rfl, bytes_append, difference?_add]
        simp only [Option.bind_eq_bind, Option.bind_some, cut?_append, trimmed]
        rfl
      · have other : ¬[' ', ':', ':'] <:+ most ++ [c, ':', ':'] := by
          simp [List.suffix_iff_eq_drop, Ne.symm space]
        rw [if_neg other, if_neg space, List.dropLast_append_of_ne_nil (List.cons_ne_nil _ _)]
        rfl
  · rename_i plain
    rw [unannounced?_eq_none_iff.mpr plain]

theorem paragraphTexts_append (front : List (List Char)) (last : List Char) :
    paragraphTexts (front ++ [last]) = (front ++ (paragraphTexts [last]).1, (paragraphTexts [last]).2) := by
  induction front with
  | nil => rfl
  | cons text front ih =>
    obtain ⟨second, others, same⟩ := List.exists_cons_of_ne_nil (List.append_ne_nil_of_right_ne_nil front
      (List.cons_ne_nil last []))
    have split : paragraphTexts (text :: (front ++ [last])) =
        (text :: (paragraphTexts (front ++ [last])).1, (paragraphTexts (front ++ [last])).2) := by
      rw [same, paragraphTexts]
      exact List.cons_ne_nil _ _
    rw [List.cons_append, split, ih]
    rfl

theorem announce?_eq (texts : List (List Char)) : announce? texts = some (paragraphTexts texts) := by
  rcases List.eq_nil_or_concat texts with rfl | ⟨front, last, rfl⟩
  · rfl
  · rw [List.concat_eq_append, paragraphTexts_append, announce?, List.getLast?_concat, paragraphTexts]
    simp only [unannounceLast?_eq, Option.map_some]
    cases unannounced? last with
    | none => rfl
    | some kept => simp

theorem announced?_eq {lines after : List Line} {stop : Nat} {previous : Line} (here : IsAt lines stop after)
    (last : previous? lines stop = some previous) :
    ∃ next, announced? lines stop = some ((announced previous.number after).1, next) ∧ stop ≤ next ∧
      IsAt lines next (announced previous.number after).2 := by
  obtain ⟨next, skipped, le, there⟩ := skip?_eq (p := Line.isBlank) here
  have found : after.dropWhile Line.isBlank = skipBlank after := rfl
  rw [found] at there
  rw [announced?, skipped, announced]
  cases shown : skipBlank after with
  | nil =>
    rw [shown] at there
    have beyond : ¬next < lines.length := Nat.not_lt.mpr there.length_eq.ge
    have none : lines[next]? = none := there.head?
    refine ⟨stop, ?_, Nat.le_refl _, here⟩
    simp only [Option.bind_eq_bind, Option.bind_some, if_neg beyond, Bool.false_eq_true, if_false, last, none]
    rfl
  | cons line rest =>
    rw [shown] at there
    have inside : next < lines.length := there.lt_iff.mpr (List.cons_ne_nil line rest)
    have some : lines[next]? = some line := there.head?
    obtain ⟨block, behind⟩ := slice?_insetEnd there
    simp only [Option.bind_eq_bind, Option.bind_some, if_pos inside, some, Option.map_some, decide_eq_true_eq]
    split
    · refine ⟨insetEnd lines next, ?_, ?_, behind⟩
      · simp only [block, Option.bind_some, dedentBlock?_eq]
        rfl
      · rw [insetEnd_eq there]
        omega
    · refine ⟨stop, ?_, Nat.le_refl _, here⟩
      rw [last]
      rfl

theorem interruptionAt?_eq {lines after : List Line} {stop : Nat} (here : IsAt lines stop after) :
    interruptionAt? lines stop = some (interruption? after) := by
  cases after with
  | nil => exact if_neg (Nat.not_lt.mpr here.length_eq.ge)
  | cons next rest =>
    rw [interruptionAt?, if_pos (here.lt_iff.mpr (List.cons_ne_nil next rest)), here.head?]
    rfl

/-- A paragraph is read where it begins, and ends behind its first line. -/
theorem paragraph?_eq {lines rest : List Line} {line : Line} {start : Nat}
    (here : IsAt lines start (line :: rest)) :
    ∃ stop, paragraph? lines start = some ((paragraph line rest).1, stop) ∧ start < stop ∧
      IsAt lines stop (paragraph line rest).2 := by
  obtain ⟨stop, skipped, le, there⟩ := skip?_eq (p := continuesParagraph) here.succ
  have first : lines[start]? = some line := here.head?
  have parts : IsAt lines start
      ((line :: rest.takeWhile continuesParagraph) ++ rest.dropWhile continuesParagraph) := by
    rwa [List.cons_append, List.takeWhile_append_dropWhile]
  have own := parts.slice?_to there
  have last := parts.previous?_eq there (List.cons_ne_nil _ _)
  rw [paragraph?, skipped, paragraph, paragraphOf]
  simp only [Option.bind_eq_bind, Option.bind_some, interruptionAt?_eq there, own, announce?_eq, first]
  cases (paragraphTexts ((line :: rest.takeWhile continuesParagraph).map Line.text)).2 with
  | false => exact ⟨stop, rfl, le, there⟩
  | true =>
    have same := List.getLast?_eq_some_getLast (List.cons_ne_nil line (rest.takeWhile continuesParagraph))
    generalize (line :: rest.takeWhile continuesParagraph).getLast _ = previous at same
    have number : ((line :: rest.takeWhile continuesParagraph).map Line.number).getLastD line.number =
        previous.number := by
      rw [List.getLastD_eq_getLast?, List.getLast?_map, same]
      rfl
    obtain ⟨next, found, further, behind⟩ := announced?_eq there (last.trans same)
    rw [number]
    refine ⟨next, ?_, Nat.lt_of_lt_of_le le further, behind⟩
    simp only [if_true, found]
    rfl

end RstPress.Cursor

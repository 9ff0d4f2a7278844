import RstPress.Proofs.Extension.Piece

/-!
The lines of a source that is put together from others, and of a line that is written as it is
shown.
-/

namespace RstPress.Source
open Text

theorem splitLines_ne_nil {text : List Char} (filled : text ≠ []) : splitLines text ≠ [] := by
  cases text with
  | nil => exact absurd rfl filled
  | cons c text =>
    rw [splitLines]
    split
    · exact List.cons_ne_nil _ _
    · split <;> exact List.cons_ne_nil _ _

theorem splitLines_append_feed (above below : List Char) :
    splitLines (above ++ '\n' :: below) = splitLines (above ++ ['\n']) ++ splitLines below := by
  induction above with
  | nil => rfl
  | cons c above ih =>
    simp only [List.cons_append, splitLines]
    by_cases feed : c = '\n'
    · simp only [feed, ↓reduceIte, ih, List.cons_append]
    · simp only [feed, ↓reduceIte, ih]
      cases first : splitLines (above ++ ['\n']) with
      | nil => exact absurd first (splitLines_ne_nil (by simp))
      | cons line others => rfl

/-- A line feed ends the last line; if there is no line to end, it makes an empty one. -/
theorem splitLines_append_last_feed (text : List Char) :
    splitLines (text ++ ['\n']) = splitLines text ∨
      splitLines (text ++ ['\n']) = splitLines text ++ [[]] := by
  induction text with
  | nil => exact .inr rfl
  | cons c text ih =>
    simp only [List.cons_append, splitLines]
    by_cases feed : c = '\n'
    · simp only [feed, ↓reduceIte]
      exact ih.imp (congrArg _) (congrArg _)
    · simp only [feed, ↓reduceIte]
      rcases ih with same | longer
      · exact .inl (by rw [same])
      · rw [longer]
        cases splitLines text with
        | nil => exact .inl rfl
        | cons line others => exact .inr rfl

theorem splitLines_of_line {text : List Char} (oneLine : '\n' ∉ text) (below : List Char) :
    splitLines (text ++ '\n' :: below) = text :: splitLines below := by
  induction text with
  | nil => rfl
  | cons c text ih =>
    have feed : c ≠ '\n' := fun same => oneLine (by simp [same])
    rw [List.cons_append, splitLines, if_neg feed,
      ih fun member => oneLine (List.mem_cons_of_mem _ member)]

theorem mem_of_mem_splitLines {text line : List Char} (member : line ∈ splitLines text) {c : Char}
    (present : c ∈ line) : c ∈ text := by
  induction text generalizing line with
  | nil => simp [splitLines] at member
  | cons d text ih =>
    rw [splitLines] at member
    split at member
    · rcases List.mem_cons.mp member with rfl | later
      · simp at present
      · exact List.mem_cons_of_mem _ (ih later present)
    · split at member
      · rw [List.mem_singleton.mp member, List.mem_singleton] at present
        exact present ▸ List.mem_cons_self
      · rename_i first others found
        rcases List.mem_cons.mp member with rfl | later
        · rcases List.mem_cons.mp present with rfl | inside
          · exact List.mem_cons_self
          · exact List.mem_cons_of_mem _ (ih (found ▸ List.mem_cons_self) inside)
        · exact List.mem_cons_of_mem _ (ih (found ▸ List.mem_cons_of_mem _ later) present)

/-- What follows a text without line feed stands on its line, up to the next one. -/
theorem splitLines_append_of_no_feed {text : List Char} (filled : text ≠ []) (oneLine : '\n' ∉ text)
    (ending : List Char) :
    ∃ front others, splitLines (text ++ ending) = (text ++ front) :: others ∧
      (∀ c ∈ front, c ∈ ending) ∧ ∀ line ∈ others, ∀ c ∈ line, c ∈ ending := by
  induction text with
  | nil => exact absurd rfl filled
  | cons c text ih =>
    have feed : c ≠ '\n' := fun same => oneLine (by simp [same])
    rw [List.cons_append, splitLines, if_neg feed]
    cases text with
    | nil =>
      cases split : splitLines ending with
      | nil => exact ⟨[], [], by simp [split], by simp, by simp⟩
      | cons first others =>
        refine ⟨first, others, by simp [split], ?_, ?_⟩
        · exact fun d member => mem_of_mem_splitLines (split ▸ List.mem_cons_self) member
        · exact fun line later d member =>
            mem_of_mem_splitLines (split ▸ List.mem_cons_of_mem _ later) member
    | cons d text =>
      obtain ⟨front, others, same, inside, after⟩ :=
        ih (List.cons_ne_nil _ _) fun member => oneLine (List.mem_cons_of_mem _ member)
      exact ⟨front, others, by rw [same]; rfl, inside, after⟩

theorem numberFrom_append (number : Nat) (front back : List (List Char)) :
    numberFrom number (front ++ back) =
      numberFrom number front ++ numberFrom (number + front.length) back := by
  induction front generalizing number with
  | nil => rfl
  | cons text front ih =>
    rw [List.cons_append, numberFrom, ih, numberFrom, List.cons_append, List.length_cons]
    congr 3
    omega

/-- The lines of a text that begins in the middle of a source. -/
def linesFrom (tabWidth number : Nat) (text : List Char) : List Line :=
  numberFrom number ((splitLines text).map (shown (max 1 tabWidth)))

theorem lines_eq_linesFrom (tabWidth : Nat) (source : List Char) :
    lines tabWidth source = linesFrom tabWidth 1 source := rfl

theorem expandTabs_of_isBlank {text : List Char} (blank : ∀ c ∈ text, isBlank c)
    (width column : Nat) :
    ∀ c ∈ expandTabs width column text, isBlank c := by
  induction text generalizing column with
  | nil => simp [expandTabs]
  | cons d text ih =>
    have later := fun column => ih (fun c member => blank c (List.mem_cons_of_mem _ member)) column
    rw [expandTabs]
    split
    · intro c member
      rcases List.mem_append.mp member with gap | after
      · rw [(List.mem_replicate.mp gap).2]
        decide
      · exact later _ c after
    · intro c member
      rcases List.mem_cons.mp member with rfl | after
      · exact blank c List.mem_cons_self
      · exact later _ c after

theorem shown_of_isBlank {text : List Char} (blank : ∀ c ∈ text, isBlank c) (width : Nat) :
    shown width text = [] :=
  dropEndWhile_eq_nil_iff.mpr (expandTabs_of_isBlank blank width 0)

theorem exists_text_of_mem_numberFrom {texts : List (List Char)} {number : Nat} {line : Line}
    (member : line ∈ numberFrom number texts) : ∃ text ∈ texts, ∃ place, line = Line.ofText place text := by
  induction texts generalizing number with
  | nil => cases member
  | cons text texts ih =>
    rcases List.mem_cons.mp member with rfl | later
    · exact ⟨text, List.mem_cons_self, number, rfl⟩
    · obtain ⟨found, inside, place⟩ := ih later
      exact ⟨found, List.mem_cons_of_mem text inside, place⟩

theorem isBlank_of_mem_numberFrom {texts : List (List Char)} (empty : ∀ text ∈ texts, text = [])
    {number : Nat} {line : Line} (member : line ∈ numberFrom number texts) : line.isBlank := by
  obtain ⟨text, inside, place, rfl⟩ := exists_text_of_mem_numberFrom member
  rw [empty text inside]
  rfl

theorem skipBlank_eq_nil_iff {lines : List Line} :
    skipBlank lines = [] ↔ ∀ line ∈ lines, line.isBlank :=
  List.dropWhile_eq_nil_iff

theorem skipBlank_linesFrom_of_isBlank {text : List Char} (blank : ∀ c ∈ text, isBlank c)
    (tabWidth number : Nat) : skipBlank (linesFrom tabWidth number text) = [] := by
  refine skipBlank_eq_nil_iff.mpr fun line member =>
    isBlank_of_mem_numberFrom (fun other present => ?_) member
  obtain ⟨raw, inside, rfl⟩ := List.mem_map.mp present
  exact shown_of_isBlank (fun c within => blank c (mem_of_mem_splitLines inside within)) _

theorem linesFrom_append_feed (tabWidth number : Nat) (above below : List Char) :
    ∃ next, linesFrom tabWidth number (above ++ '\n' :: below) =
      linesFrom tabWidth number (above ++ ['\n']) ++ linesFrom tabWidth next below := by
  refine ⟨number + ((splitLines (above ++ ['\n'])).map (shown (max 1 tabWidth))).length, ?_⟩
  rw [linesFrom, splitLines_append_feed, List.map_append, numberFrom_append, linesFrom, linesFrom]

/-- A line feed at the end adds no line, or an empty one. -/
theorem linesFrom_append_last_feed (tabWidth number : Nat) (text : List Char) :
    ∃ empty, skipBlank empty = [] ∧
      linesFrom tabWidth number (text ++ ['\n']) = linesFrom tabWidth number text ++ empty := by
  rcases splitLines_append_last_feed text with same | longer
  · exact ⟨[], rfl, by rw [linesFrom, same, List.append_nil, linesFrom]⟩
  · refine ⟨_, ?_, by rw [linesFrom, longer, List.map_append, numberFrom_append, linesFrom]⟩
    rfl

theorem expandTabs_append (width column : Nat) (front back : List Char) :
    expandTabs width column (front ++ back) =
      expandTabs width column front ++
        expandTabs width (column + (expandTabs width column front).length) back := by
  induction front generalizing column with
  | nil => rfl
  | cons c front ih =>
    rw [List.cons_append, expandTabs, expandTabs]
    dsimp only
    split
    · rw [ih, List.append_assoc, List.length_append, List.length_replicate, Nat.add_assoc]
    · rw [ih, List.cons_append, List.length_cons, Nat.add_assoc, Nat.add_comm 1]

theorem expandTabs_of_no_tab {text : List Char} (plain : '\t' ∉ text) (width column : Nat) :
    expandTabs width column text = text := by
  induction text generalizing column with
  | nil => rfl
  | cons c text ih =>
    have other : c ≠ '\t' := fun same => plain (by simp [same])
    rw [expandTabs, if_neg other, ih fun member => plain (List.mem_cons_of_mem _ member)]

/-- Expanding tabs adds spaces and takes the tabs away. -/
theorem mem_expandTabs {c : Char} {width column : Nat} {text : List Char}
    (member : c ∈ expandTabs width column text) : c = ' ' ∨ c ∈ text ∧ c ≠ '\t' := by
  induction text generalizing column with
  | nil => cases member
  | cons d text ih =>
    have later {column : Nat} (inside : c ∈ expandTabs width column text) :=
      (ih inside).imp_right fun ⟨present, other⟩ => And.intro (List.mem_cons_of_mem d present) other
    rw [expandTabs] at member
    split at member
    · rcases List.mem_append.mp member with gap | inside
      · exact .inl (List.mem_replicate.mp gap).2
      · exact later inside
    · rename_i other
      rcases List.mem_cons.mp member with rfl | inside
      · exact .inr ⟨List.mem_cons_self, other⟩
      · exact later inside

theorem shown_of_no_tab {raw : List Char} (untabbed : '\t' ∉ raw) (width : Nat) :
    shown width raw = trimEnd raw := by
  rw [shown, expandTabs_of_no_tab untabbed]

/-- A text that ends visibly is shown to its end, with its tabs expanded. -/
theorem shown_append_of_isBlank (front : List Char) {last : Char} (visible : isBlank last = false)
    {ending : List Char} (blank : ∀ c ∈ ending, isBlank c) (width : Nat) :
    shown width (front ++ [last] ++ ending) = expandTabs width 0 (front ++ [last]) := by
  have other : '\t' ∉ [last] := by
    rw [List.mem_singleton]
    exact (ne_of_isBlank visible (by decide)).symm
  have gone := dropEndWhile_eq_nil_iff.mpr (expandTabs_of_isBlank blank width
    (0 + (expandTabs width 0 (front ++ [last])).length))
  rw [shown, trimEnd, expandTabs_append, dropEndWhile_append_of_eq_nil gone, expandTabs_append,
    expandTabs_of_no_tab other, dropEndWhile_append_singleton visible]

theorem shown_append_of_visible (front : List Char) {last : Char} (visible : isBlank last = false)
    (width : Nat) : shown width (front ++ [last]) = expandTabs width 0 (front ++ [last]) := by
  have none : ∀ c ∈ ([] : List Char), isBlank c := List.forall_mem_nil _
  have whole := shown_append_of_isBlank front visible none width
  rwa [List.append_nil] at whole

theorem ofText_replicate {text : List Char} (begins : text.head? ≠ some ' ') (indent number : Nat) :
    Line.ofText number (List.replicate indent ' ' ++ text) = ⟨indent, text, number⟩ := by
  have stops : text.head?.all fun c => !decide (c = ' ') := by
    cases text with
    | nil => rfl
    | cons c text => simpa using begins
  have spaces : ∀ c ∈ List.replicate indent ' ', decide (c = ' ') := fun c member => by
    simp [(List.mem_replicate.mp member).2]
  rw [Line.ofText, takeWhile_append_of_head stops, dropWhile_append_of_head stops,
    List.takeWhile_eq_self_iff.mpr spaces, List.dropWhile_eq_nil_iff.mpr spaces,
    List.length_replicate, List.nil_append]

theorem linesFrom_of_line {text : List Char} (oneLine : '\n' ∉ text) (tabWidth number : Nat)
    (below : List Char) :
    linesFrom tabWidth number (text ++ '\n' :: below) =
      Line.ofText number (shown (max 1 tabWidth) text) ::
        linesFrom tabWidth (number + 1) below := by
  rw [linesFrom, splitLines_of_line oneLine, List.map_cons, numberFrom, linesFrom]

theorem linesFrom_of_last_line {front ending : List Char} {last : Char}
    (visible : isBlank last = false)
    (oneLine : '\n' ∉ front) (blank : ∀ c ∈ ending, isBlank c) (tabWidth number : Nat) :
    ∃ empty, skipBlank empty = [] ∧
      linesFrom tabWidth number (front ++ [last] ++ ending) =
        Line.ofText number (expandTabs (max 1 tabWidth) 0 (front ++ [last])) :: empty := by
  have noFeed : '\n' ∉ front ++ [last] := by
    intro member
    rcases List.mem_append.mp member with inside | ends
    · exact oneLine inside
    · exact ne_of_isBlank visible (by decide) (List.mem_singleton.mp ends).symm
  obtain ⟨before, others, same, inside, after⟩ :=
    splitLines_append_of_no_feed
      (List.append_ne_nil_of_right_ne_nil front (List.cons_ne_nil last [])) noFeed ending
  refine ⟨numberFrom (number + 1) (others.map (shown (max 1 tabWidth))), ?_, ?_⟩
  · refine skipBlank_eq_nil_iff.mpr fun line member =>
      isBlank_of_mem_numberFrom (fun text present => ?_) member
    obtain ⟨raw, within, rfl⟩ := List.mem_map.mp present
    exact shown_of_isBlank (fun c found => blank c (after raw within c found)) _
  · rw [linesFrom, same, List.map_cons, numberFrom,
      shown_append_of_isBlank front visible fun c found => blank c (inside c found)]

end RstPress.Source

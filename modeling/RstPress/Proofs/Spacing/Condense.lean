import RstPress.Proofs.Extension.Outline
import RstPress.Proofs.Grammar.Layout

/-!
Each run of blank lines condensed to a single one. Inset lines, nested bodies and what comes after them are
taken from condensed lines as from the lines themselves, and are condensed then.
-/

namespace RstPress.Source
open Text

/-- The blank line that stands for a run of blank lines. -/
def Line.space : Line := ⟨0, [], 0⟩

/-- The lines with one blank line in place of each run of them. -/
def condense : List Line → List Line
  | [] => []
  | line :: rest => if line.isBlank then .space :: condense (skipBlank rest) else line :: condense rest
termination_by lines => lines.length
decreasing_by
  · exact Nat.lt_succ_of_le (length_skipBlank_le rest)
  · exact Nat.lt_succ_self rest.length

@[simp] theorem isBlank_space : Line.space.isBlank = true := rfl

@[simp] theorem condense_nil : condense [] = [] := by rw [condense]

theorem condense_of_blank {line : Line} (blank : line.isBlank) (rest : List Line) :
    condense (line :: rest) = .space :: condense (skipBlank rest) := by
  rw [condense, if_pos blank]

theorem condense_of_filled {line : Line} (filled : line.isBlank = false) (rest : List Line) :
    condense (line :: rest) = line :: condense rest := by
  rw [condense, if_neg (by simp [filled])]

theorem condense_eq_nil_iff {lines : List Line} : condense lines = [] ↔ lines = [] := by
  cases lines with
  | nil => simp
  | cons line rest => cases filled : line.isBlank <;> simp [condense, filled]

theorem skipBlank_condense (lines : List Line) :
    skipBlank (condense lines) = condense (skipBlank lines) := by
  fun_induction condense lines with
  | case1 => simp [skipBlank]
  | case2 line rest blank ih =>
    rw [skipBlank_cons_of_isBlank isBlank_space, ih, Layout.skipBlank_skipBlank,
      skipBlank_cons_of_isBlank blank]
  | case3 line rest visible ih =>
    have filled : line.isBlank = false := by simpa using visible
    rw [skipBlank_cons_of_filled filled, skipBlank_cons_of_filled filled, condense_of_filled filled]

/-- Blank lines are inset, so they are skipped in front of inset lines or with them. -/
theorem skipBlank_takeWhile_isInset (lines : List Line) :
    skipBlank (lines.takeWhile Line.isInset) = (skipBlank lines).takeWhile Line.isInset := by
  induction lines with
  | nil => rfl
  | cons line rest ih =>
    cases filled : line.isBlank with
    | true =>
      have inset : line.isInset := by simp [Line.isInset, filled]
      rw [List.takeWhile_cons_of_pos inset, skipBlank_cons_of_isBlank filled,
        skipBlank_cons_of_isBlank filled, ih]
    | false =>
      rw [skipBlank_cons_of_filled filled]
      by_cases inset : line.isInset
      · rw [List.takeWhile_cons_of_pos inset, skipBlank_cons_of_filled filled]
      · rw [List.takeWhile_cons_of_neg inset]
        rfl

theorem skipBlank_dropEndWhile (lines : List Line) :
    skipBlank (dropEndWhile Line.isBlank lines) = dropEndWhile Line.isBlank (skipBlank lines) := by
  induction lines with
  | nil => rfl
  | cons line rest ih =>
    cases filled : line.isBlank with
    | true =>
      rw [skipBlank_cons_of_isBlank filled, ← ih]
      by_cases gone : dropEndWhile Line.isBlank rest = []
      · have all : dropEndWhile Line.isBlank (line :: rest) = [] := by
          rw [dropEndWhile_eq_nil_iff] at gone ⊢
          exact List.forall_mem_cons.mpr ⟨filled, gone⟩
        rw [all, gone]
      · have kept := dropEndWhile_append_of_ne_nil gone [line]
        rw [List.singleton_append, List.singleton_append] at kept
        rw [kept, skipBlank_cons_of_isBlank filled]
    | false =>
      rw [dropEndWhile_cons filled, skipBlank_cons_of_filled filled, skipBlank_cons_of_filled filled,
        dropEndWhile_cons filled]

theorem takeWhile_isInset_condense (lines : List Line) :
    (condense lines).takeWhile Line.isInset = condense (lines.takeWhile Line.isInset) := by
  fun_induction condense lines with
  | case1 => simp
  | case2 line rest blank ih =>
    have inset : line.isInset := by simp [Line.isInset, blank]
    rw [List.takeWhile_cons_of_pos rfl, ih, List.takeWhile_cons_of_pos inset, condense_of_blank blank,
      skipBlank_takeWhile_isInset]
  | case3 line rest visible ih =>
    have filled : line.isBlank = false := by simpa using visible
    by_cases inset : line.isInset
    · rw [List.takeWhile_cons_of_pos inset, List.takeWhile_cons_of_pos inset, ih,
        condense_of_filled filled]
    · rw [List.takeWhile_cons_of_neg inset, List.takeWhile_cons_of_neg inset, condense_nil]

theorem dropEndWhile_condense (lines : List Line) :
    dropEndWhile Line.isBlank (condense lines) = condense (dropEndWhile Line.isBlank lines) := by
  fun_induction condense lines with
  | case1 => simp [dropEndWhile]
  | case2 line rest blank ih =>
    rw [← skipBlank_dropEndWhile] at ih
    by_cases gone : dropEndWhile Line.isBlank rest = []
    · have all : dropEndWhile Line.isBlank (line :: rest) = [] := by
        rw [dropEndWhile_eq_nil_iff] at gone ⊢
        exact List.forall_mem_cons.mpr ⟨blank, gone⟩
      have none : dropEndWhile Line.isBlank (condense (skipBlank rest)) = [] := by
        rw [ih, gone]
        exact condense_nil
      rw [all, condense_nil]
      exact dropEndWhile_append_of_eq_nil none [Line.space]
    · have kept : dropEndWhile Line.isBlank (line :: rest) = line :: dropEndWhile Line.isBlank rest :=
        dropEndWhile_append_of_ne_nil gone [line]
      have some : dropEndWhile Line.isBlank (condense (skipBlank rest)) ≠ [] := by
        rw [ih, ne_eq, condense_eq_nil_iff, skipBlank_eq_nil_iff]
        intro none
        exact gone ((dropEndWhile_idem _ rest).symm.trans (dropEndWhile_eq_nil_iff.mpr none))
      rw [kept, condense_of_blank blank, ← ih]
      exact dropEndWhile_append_of_ne_nil some [Line.space]
  | case3 line rest visible ih =>
    have filled : line.isBlank = false := by simpa using visible
    rw [dropEndWhile_cons filled, ih, dropEndWhile_cons filled, condense_of_filled filled]

theorem insetBlock_condense (lines : List Line) :
    insetBlock (condense lines) = condense (insetBlock lines) := by
  rw [insetBlock, takeWhile_isInset_condense, dropEndWhile_condense, insetBlock]

/-- Lines are condensed in two parts if no run of blank lines is torn apart. -/
theorem condense_append {front : List Line} (ends : ∀ line ∈ front.getLast?, line.isBlank = false)
    (back : List Line) : condense (front ++ back) = condense front ++ condense back := by
  fun_induction condense front with
  | case1 => rfl
  | case2 line rest blank ih =>
    have some : skipBlank rest ≠ [] := by
      intro none
      have all : ∀ other ∈ line :: rest, other.isBlank :=
        List.forall_mem_cons.mpr ⟨blank, skipBlank_eq_nil_iff.mp none⟩
      obtain ⟨last, same⟩ := Option.isSome_iff_exists.mp
        (List.getLast?_isSome.mpr (List.cons_ne_nil line rest))
      have filled := ends last same
      rw [all last (List.mem_of_getLast? same)] at filled
      cases filled
    have whole : line :: rest = (line :: rest.takeWhile Line.isBlank) ++ skipBlank rest := by
      rw [List.cons_append, takeWhile_append_skipBlank]
    have last : (line :: rest).getLast? = (skipBlank rest).getLast? := by
      rw [whole, List.getLast?_append_of_ne_nil _ some]
    rw [List.cons_append, condense_of_blank blank, skipBlank_append_of_ne_nil some,
      ih (last ▸ ends), List.cons_append]
  | case3 line rest visible ih =>
    have filled : line.isBlank = false := by simpa using visible
    have later : ∀ last ∈ rest.getLast?, last.isBlank = false := by
      intro last same
      exact ends last (Inline.getLast?_cons_of_some same line)
    rw [List.cons_append, condense_of_filled filled, ih later, List.cons_append]

/-- Condensing goes on alike behind the same lines. -/
theorem condense_append_congr {back other : List Line} (same : condense back = condense other)
    (front : List Line) : condense (front ++ back) = condense (front ++ other) := by
  fun_induction condense front with
  | case1 => exact same
  | case2 line rest blank ih =>
    rw [List.cons_append, List.cons_append, condense_of_blank blank, condense_of_blank blank]
    by_cases none : skipBlank rest = []
    · rw [skipBlank_append_of_eq_nil none, skipBlank_append_of_eq_nil none, ← skipBlank_condense, same,
        skipBlank_condense]
    · rw [skipBlank_append_of_ne_nil none, skipBlank_append_of_ne_nil none, ih]
  | case3 line rest visible ih =>
    have filled : line.isBlank = false := by simpa using visible
    rw [List.cons_append, List.cons_append, condense_of_filled filled, condense_of_filled filled, ih]

/-- Blank lines are condensed with a blank line in front of them or behind them. -/
theorem condense_beside_blank {blanks : List Line} (blank : skipBlank blanks = []) {above below : List Line}
    (beside : (∃ line ∈ above.getLast?, line.isBlank) ∨ ∃ line ∈ below.head?, line.isBlank) :
    condense (above ++ (blanks ++ below)) = condense (above ++ below) := by
  rcases beside with ⟨line, last, hidden⟩ | ⟨line, first, hidden⟩
  · obtain ⟨front, rfl⟩ := List.getLast?_eq_some_iff.mp last
    rw [List.append_assoc, List.append_assoc]
    apply condense_append_congr
    rw [List.singleton_append, List.singleton_append, condense_of_blank hidden,
      skipBlank_append_of_eq_nil blank, condense_of_blank hidden]
  · obtain ⟨more, rfl⟩ := List.head?_eq_some_iff.mp first
    apply condense_append_congr
    cases blanks with
    | nil => rfl
    | cons space blanks =>
      obtain ⟨here, later⟩ := List.forall_mem_cons.mp (skipBlank_eq_nil_iff.mp blank)
      rw [List.cons_append, condense_of_blank here,
        skipBlank_append_of_eq_nil (skipBlank_eq_nil_iff.mpr later), skipBlank_cons_of_isBlank hidden,
        condense_of_blank hidden]

theorem afterInset_condense (lines : List Line) :
    afterInset (condense lines) = condense (afterInset lines) := by
  have ends : ∀ line ∈ (insetBlock lines).getLast?, line.isBlank = false := fun line same =>
    of_getLast?_dropEndWhile same
  have whole := calc insetBlock (condense lines) ++ afterInset (condense lines)
    _ = condense (insetBlock lines ++ afterInset lines) := by
      rw [insetBlock_append_afterInset, insetBlock_append_afterInset]
    _ = condense (insetBlock lines) ++ condense (afterInset lines) := condense_append ends _
    _ = insetBlock (condense lines) ++ condense (afterInset lines) := by rw [insetBlock_condense]
  exact List.append_cancel_left whole

theorem filter_skipBlank (lines : List Line) :
    (skipBlank lines).filter (fun line => !line.isBlank) = lines.filter fun line => !line.isBlank := by
  induction lines with
  | nil => rfl
  | cons line rest ih =>
    cases filled : line.isBlank with
    | true => rw [skipBlank_cons_of_isBlank filled, ih, List.filter_cons_of_neg (by simp [filled])]
    | false => rw [skipBlank_cons_of_filled filled]

theorem margin_condense (lines : List Line) : margin (condense lines) = margin lines := by
  have filled : (condense lines).filter (fun line => !line.isBlank) =
      lines.filter fun line => !line.isBlank := by
    fun_induction condense lines with
    | case1 => rfl
    | case2 line rest blank ih =>
      rw [List.filter_cons_of_neg (by simp), ih, filter_skipBlank,
        List.filter_cons_of_neg (by simp [blank])]
    | case3 line rest visible ih =>
      rw [List.filter_cons_of_pos (by simpa using visible), ih,
        List.filter_cons_of_pos (by simpa using visible)]
  rw [margin, filled, margin]

theorem map_dedent_condense (amount : Nat) (lines : List Line) :
    (condense lines).map (Line.dedent amount) = condense (lines.map (Line.dedent amount)) := by
  fun_induction condense lines with
  | case1 => simp
  | case2 line rest blank ih =>
    have still : Line.space.dedent amount = .space := by simp [Line.dedent, Line.space]
    have skipped : skipBlank (rest.map (Line.dedent amount)) = (skipBlank rest).map (Line.dedent amount) :=
      List.dropWhile_map
    rw [List.map_cons, List.map_cons, condense_of_blank (by exact blank), skipped, ih, still]
  | case3 line rest visible ih =>
    have filled : line.isBlank = false := by simpa using visible
    rw [List.map_cons, List.map_cons, condense_of_filled (by exact filled), ih]

theorem dedentBlock_condense (lines : List Line) :
    dedentBlock (condense lines) = condense (dedentBlock lines) := by
  rw [dedentBlock, dropEndWhile_condense, margin_condense, map_dedent_condense, dedentBlock]

end RstPress.Source


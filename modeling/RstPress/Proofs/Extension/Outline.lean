import Mathlib.Data.List.Forall2
import RstPress.Proofs.Extension.Piece

/-!
The outline of a text that a blank line and more text follow. All parts but the last one stay. So
does the last one, and the outlines are put together, unless it can go on with the lines that
follow.
-/

namespace RstPress.Layout
open Text Source

/-- The part that begins on this line takes all of the rest but blank lines. -/
def IsLast (line : Line) (rest : List Line) : Prop :=
  match headingAt? line rest with
  | some (_, after) => skipBlank after = []
  | none => skipBlank (Piece.first line rest).2 = []

theorem outline_eq_outline_skipBlank (lines : List Line) :
    outline lines = outline (skipBlank lines) := by
  induction lines with
  | nil => rfl
  | cons line rest ih =>
    by_cases blank : line.isBlank
    · rw [outline_of_blank rest blank, ih, skipBlank_cons_of_isBlank blank]
    · rw [skipBlank_cons_of_filled (Bool.eq_false_iff.mpr blank)]

theorem arrange_eq_arrange_skipBlank (lines : List Line) :
    arrange lines = arrange (skipBlank lines) := by
  induction lines with
  | nil => rfl
  | cons line rest ih =>
    by_cases blank : line.isBlank
    · rw [arrange_of_blank rest blank, ih, skipBlank_cons_of_isBlank blank]
    · rw [skipBlank_cons_of_filled (Bool.eq_false_iff.mpr blank)]

theorem outline_append_of_skipBlank_eq_nil {lines : List Line} (blank : skipBlank lines = [])
    (more : List Line) : outline (lines ++ more) = outline more := by
  rw [outline_eq_outline_skipBlank, skipBlank_append_of_eq_nil blank,
    ← outline_eq_outline_skipBlank]

/-- Text that follows a blank line changes at most the last part of an outline. The parts in front
of it stay, and that part is read from its first line on. -/
theorem outline_append {lines more : List Line} (separate : startsBlank more)
    (filled : skipBlank lines ≠ []) :
    ∃ front line rest, line.isBlank = false ∧ IsLast line rest ∧
      outline lines = front ++ outline (line :: rest) ∧
      outline (lines ++ more) = front ++ outline (line :: (rest ++ more)) := by
  fun_induction outline lines with
  | case1 => simp [skipBlank] at filled
  | case2 line rest blank ih =>
    rw [List.cons_append, outline_of_blank _ blank]
    exact ih (by rwa [skipBlank_cons_of_isBlank blank] at filled)
  | case3 line rest visible heading after found ih =>
    have shown : line.isBlank = false := by simpa using visible
    by_cases last : skipBlank after = []
    · exact ⟨[], line, rest, shown, by simp only [IsLast, found, last],
        (outline_of_heading shown found).symm, rfl⟩
    · have longer := headingAt?_append_of_some separate found
      obtain ⟨front, first, others, begins, ends, same, extended⟩ := ih last
      refine ⟨.heading heading :: front, first, others, begins, ends,
        by rw [same, List.cons_append], ?_⟩
      rw [List.cons_append, outline_of_heading shown longer, extended, List.cons_append]
  | case4 line rest visible none ih =>
    have shown : line.isBlank = false := by simpa using visible
    by_cases last : skipBlank (Piece.first line rest).2 = []
    · exact ⟨[], line, rest, shown, by simp only [IsLast, none, last],
        (outline_of_piece shown none).symm, rfl⟩
    · have longer := headingAt?_append_of_none separate none
      obtain ⟨front, first, others, begins, ends, same, extended⟩ := ih last
      refine ⟨.block (Piece.first line rest).1.block :: front, first, others, begins, ends,
        by rw [same, List.cons_append], ?_⟩
      rw [List.cons_append, outline_of_piece shown longer,
        Piece.first_append_of_ne_nil separate last, extended, List.cons_append]

/-- Parts that differ at most in the line at which a literal block is missing. -/
inductive Part.Alike : Part → Part → Prop where
  | same (part : Part) : Part.Alike part part
  | block {a b : Block} (alike : a.Alike b) : Part.Alike (.block a) (.block b)

theorem forall₂_alike_refl (parts : List Part) : List.Forall₂ Part.Alike parts parts :=
  List.forall₂_same.mpr fun part _ => .same part

theorem outline_eq_nil_of_skipBlank {lines : List Line} (blank : skipBlank lines = []) :
    outline lines = [] := by
  rw [outline_eq_outline_skipBlank, blank, outline_nil]

/-- The last part of an outline is the only one from its first line on. -/
theorem outline_of_isLast {line : Line} {rest : List Line} (filled : line.isBlank = false)
    (last : IsLast line rest) :
    (∃ heading after, headingAt? line rest = some (heading, after) ∧ skipBlank after = [] ∧
        outline (line :: rest) = [.heading heading]) ∨
      headingAt? line rest = none ∧ skipBlank (Piece.first line rest).2 = [] ∧
        outline (line :: rest) = [.block (Piece.first line rest).1.block] := by
  unfold IsLast at last
  cases found : headingAt? line rest with
  | some heading =>
    rw [found] at last
    refine .inl ⟨heading.1, heading.2, rfl, last, ?_⟩
    rw [outline_of_heading filled found, outline_eq_nil_of_skipBlank last]
  | none =>
    rw [found] at last
    refine .inr ⟨rfl, last, ?_⟩
    rw [outline_of_piece filled found, outline_eq_nil_of_skipBlank last]

/-- If the last block cannot go on with what follows the blank line, the outlines are put together.
-/
theorem outline_append_of_stays {lines more : List Line} (separate : startsBlank more)
    (stays : ∀ block, (outline lines).getLast? = some (.block block) → ¬block.GoesOn more) :
    ∃ parts, List.Forall₂ Part.Alike (outline lines) parts ∧
      outline (lines ++ more) = parts ++ outline more := by
  by_cases blank : skipBlank lines = []
  · refine ⟨outline lines, forall₂_alike_refl _, ?_⟩
    rw [outline_append_of_skipBlank_eq_nil blank, outline_eq_nil_of_skipBlank blank,
      List.nil_append]
  · obtain ⟨front, line, rest, filled, last, same, longer⟩ := outline_append separate blank
    rw [longer, same]
    rcases outline_of_isLast filled last with
      ⟨heading, after, found, empty, single⟩ | ⟨none, empty, single⟩
    · have extended := headingAt?_append_of_some separate found
      refine ⟨front ++ [.heading heading], by rw [single]; exact forall₂_alike_refl _, ?_⟩
      rw [outline_of_heading filled extended, outline_append_of_skipBlank_eq_nil empty,
        List.append_assoc]
      rfl
    · have ends : (outline lines).getLast? = some (.block (Piece.first line rest).1.block) := by
        rw [same, single, List.getLast?_append_cons, List.getLast?_singleton]
      have piece := Piece.first_append_of_eq_nil separate filled empty (stays _ ends)
      refine ⟨front ++ [.block (Piece.first line (rest ++ more)).1.block], ?_, ?_⟩
      · rw [single]
        exact List.rel_append (forall₂_alike_refl front) (.cons (.block piece.1) .nil)
      · rw [outline_of_piece filled (headingAt?_append_of_none separate none),
          outline_eq_outline_skipBlank (Piece.first _ _).2, piece.2, ← outline_eq_outline_skipBlank,
          List.append_assoc]
        rfl

/-- The last block of an outline, with the lines it begins on. -/
theorem outline_append_of_last_block {lines more : List Line} {block : Block}
    (separate : startsBlank more) (last : (outline lines).getLast? = some (.block block)) :
    ∃ front line rest, line.isBlank = false ∧ skipBlank (Piece.first line rest).2 = [] ∧
      (Piece.first line rest).1.block = block ∧ outline lines = front ++ [.block block] ∧
      outline (lines ++ more) =
        front ++ .block (Piece.first line (rest ++ more)).1.block ::
          outline (Piece.first line (rest ++ more)).2 := by
  have filled : skipBlank lines ≠ [] :=
    fun blank => by simp [outline_eq_nil_of_skipBlank blank] at last
  obtain ⟨front, line, rest, visible, ends, same, longer⟩ := outline_append separate filled
  rcases outline_of_isLast visible ends with
    ⟨heading, after, found, empty, single⟩ | ⟨none, empty, single⟩
  · simp [same, single] at last
  · have block : (Piece.first line rest).1.block = block := by simpa [same, single] using last
    refine ⟨front, line, rest, visible, empty, block, ?_, ?_⟩
    · rw [same, single, block]
    · rw [longer, outline_of_piece visible (headingAt?_append_of_none separate none)]

/-- A list at the end takes the items that follow. -/
theorem outline_append_of_list {lines more : List Line} {marker : Marker} {items : List Block}
    (separate : startsBlank more) (bounded : insetBlock more = [])
    (last : (outline lines).getLast? = some (.block (.list marker items))) :
    ∃ front, outline lines = front ++ [.block (.list marker items)] ∧
      outline (lines ++ more) =
        front ++ .block (.list marker
          (items ++ (listItems marker (skipBlank more)).1.map fun body => .item (arrange body))) ::
            outline (listItems marker (skipBlank more)).2 := by
  obtain ⟨front, line, rest, visible, empty, same, shorter, longer⟩ :=
    outline_append_of_last_block separate last
  have settled := skipBlank_cons_of_filled visible rest
  unfold Piece.first at empty same longer
  rw [construct_append separate] at longer
  cases kind : construct line rest with
  | list found =>
    simp only [kind, Construct.take, Prod.map_fst, Prod.map_snd, id_eq, Piece.block_list,
      Block.list.injEq] at empty same longer
    obtain ⟨rfl, rfl⟩ := same
    rw [skipBlank_listItems settled] at empty
    rw [← List.cons_append, listItems_append_of_eq_nil (List.cons_ne_nil _ _) empty bounded,
      List.map_append] at longer
    exact ⟨front, shorter, longer⟩
  | quote | transition | lineBlock | definitionList | paragraph =>
    simp [kind, Construct.take] at same

/-- A definition list at the end takes the terms that follow. -/
theorem outline_append_of_definitionList {lines more : List Line} {items : List Block}
    (separate : startsBlank more) (bounded : insetBlock more = [])
    (last : (outline lines).getLast? = some (.block (.definitionList items))) :
    ∃ front, outline lines = front ++ [.block (.definitionList items)] ∧
      outline (lines ++ more) =
        front ++ .block (.definitionList (items ++ (definitions (skipBlank more)).1.map fun item =>
          .definition item.1 (arrange item.2))) :: outline (definitions (skipBlank more)).2 := by
  obtain ⟨front, line, rest, visible, empty, same, shorter, longer⟩ :=
    outline_append_of_last_block separate last
  have settled := skipBlank_cons_of_filled visible rest
  unfold Piece.first at empty same longer
  rw [construct_append separate] at longer
  cases kind : construct line rest with
  | definitionList =>
    simp only [kind, Construct.take, Prod.map_fst, Prod.map_snd, id_eq,
      Piece.block_definitionList, Block.definitionList.injEq] at empty same longer
    rw [skipBlank_definitions settled] at empty
    rw [← List.cons_append,
      definitions_append_of_eq_nil separate (List.cons_ne_nil _ _) empty bounded,
      List.map_append, same] at longer
    exact ⟨front, shorter, longer⟩
  | quote | transition | list | lineBlock | paragraph => simp [kind, Construct.take] at same

end RstPress.Layout
